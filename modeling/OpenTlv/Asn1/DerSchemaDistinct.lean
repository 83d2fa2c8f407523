import OpenTlv.Asn1.DerSchemaStrict
import OpenTlv.Lib.Findings
import OpenTlv.Lib.Worklist

/-!
# Distinct tags in a checked schema

What `tlv_der_schema_check` establishes about the components of a SET or a CHOICE. The check
compares whole identifiers, with the bit for the constructed form, while ASN.1 and the order of
a SET know the class and the number only. A definition that was accepted therefore has distinct
tags exactly when no tag stands in both forms, which is `der_schema_distinct`.
-/

namespace OpenTlv

section Tags

/-- A tag of X.680: the class and the number, without the form of the encoding. -/
structure Asn1Tag where
  tagClass : Asn1Class
  number : Nat
  deriving Repr, DecidableEq

attribute [ext] Asn1Tag

/-- The class and the low bits of a lead octet are the ones that were put in. -/
theorem lead_fields (tagClass : Asn1Class) (constructed : Bool) (low : UInt8)
    (hlow : low.toNat ≤ 31) :
    (tagClass.bits ||| (if constructed then asn1ConstructedBit else 0) ||| low) &&& 0xC0 =
        tagClass.bits ∧
      (tagClass.bits ||| (if constructed then asn1ConstructedBit else 0) ||| low) &&&
        asn1TagNumberMask = low := by
  have hall : ∀ n : Fin 32, ∀ tagClass : Asn1Class, ∀ constructed : Bool,
      (tagClass.bits ||| (if constructed then asn1ConstructedBit else 0) |||
          UInt8.ofNat n.val) &&& 0xC0 = tagClass.bits ∧
        (tagClass.bits ||| (if constructed then asn1ConstructedBit else 0) |||
          UInt8.ofNat n.val) &&& asn1TagNumberMask = UInt8.ofNat n.val := by
    intro n tagClass constructed
    cases tagClass <;> cases constructed <;> revert n <;> decide +kernel
  have h := hall ⟨low.toNat, by omega⟩ tagClass constructed
  rwa [UInt8.ofNat_toNat] at h

theorem class_bits_inj {tagClass tagClass' : Asn1Class} (h : tagClass.bits = tagClass'.bits) :
    tagClass = tagClass' := by
  cases tagClass <;> cases tagClass' <;> first | rfl | exact absurd h (by decide)

/-- Digits that the fuel does not cut give the number. -/
theorem tag_digits_value {fuel number : Nat} (h : (tagDigits fuel number).length < fuel) :
    Nat.ofDigits 128 (tagDigits fuel number) = number := by
  induction fuel generalizing number with
  | zero => omega
  | succ fuel ih =>
    unfold tagDigits at h ⊢
    split at h
    next hlast =>
      rw [if_pos hlast, Nat.ofDigits_singleton]
      omega
    next hmore =>
      rw [if_neg hmore, Nat.ofDigits_cons, ih (by simpa using h), Nat.mod_add_div]

theorem tag_digits_lt (fuel number : Nat) : ∀ digit ∈ tagDigits fuel number, digit < 128 := by
  induction fuel generalizing number with
  | zero => intro digit h; cases h
  | succ fuel ih =>
    intro digit h
    unfold tagDigits at h
    rcases List.mem_cons.mp h with rfl | hrest
    · omega
    · split at hrest
      · cases hrest
      · exact ih _ digit hrest

/-- The digits are what the octets hold below their continuation bits. -/
theorem long_tag_octets_digits {digits : List Nat} (h : ∀ digit ∈ digits, digit < 128) :
    (longTagOctets digits).reverse.map (fun octet => octet.toNat % 128) = digits := by
  cases digits with
  | nil => rfl
  | cons digit rest =>
    have hlow : digit < 128 := h digit List.mem_cons_self
    have hrest : (rest.map fun other => (UInt8.ofNat other ||| 0x80).toNat % 128) = rest := by
      refine (List.map_congr_left fun other hother => ?_).trans (List.map_id rest)
      have hless := h other (List.mem_cons_of_mem _ hother)
      have hall : ∀ n : Fin 128, (UInt8.ofNat n.val ||| 0x80).toNat % 128 = n.val := by
        decide +kernel
      exact hall ⟨other, hless⟩
    simp only [longTagOctets, List.reverse_append, List.reverse_cons, List.reverse_nil,
      List.nil_append, List.map_cons, List.singleton_append, List.map_reverse,
      List.reverse_reverse, List.map_map]
    show (UInt8.ofNat digit).toNat % 128 ::
      rest.map (fun other => (UInt8.ofNat other ||| 0x80).toNat % 128) = _
    rw [hrest, UInt8.toNat_ofNat']
    congr 1
    omega

/-- The two forms of an identifier that is made, which its validator accepts. -/
theorem tag_make_cases {write : WriteTag} {tagClass : Asn1Class} {constructed : Bool}
    {number : Nat} {tag : Bytes}
    (h : asn1TagMakeChecked write tagClass constructed number = .ok tag) :
    (∃ accepted, write tag none = .ok accepted) ∧
      ((number < 31 ∧ tag = [tagClass.bits ||| (if constructed then asn1ConstructedBit else 0) |||
          UInt8.ofNat number]) ∨
        (31 ≤ number ∧ (tagDigits 10 number).length < 8 ∧
          tag = (tagClass.bits ||| (if constructed then asn1ConstructedBit else 0) |||
            asn1TagNumberMask) :: longTagOctets (tagDigits 10 number))) := by
  unfold asn1TagMakeChecked at h
  dsimp only at h
  split at h
  next hlow =>
    split at h
    · cases h
    next accepted hwrite =>
      cases h
      exact ⟨⟨accepted, hwrite⟩, .inl ⟨hlow, rfl⟩⟩
  next hlow =>
    obtain ⟨hsize, h⟩ := guard_ok.mp h
    split at h
    · cases h
    next accepted hwrite =>
      cases h
      refine ⟨⟨accepted, hwrite⟩, .inr ⟨by omega, ?_, rfl⟩⟩
      unfold asn1TagMaxSize at hsize
      omega

/-- The two forms of an identifier that is made. -/
theorem der_tag_make_cases {tagClass : Asn1Class} {constructed : Bool} {number : Nat}
    {tag : Bytes} (h : derTagMake tagClass constructed number = .ok tag) :
    (number < 31 ∧ tag = [tagClass.bits ||| (if constructed then asn1ConstructedBit else 0) |||
        UInt8.ofNat number]) ∨
      (31 ≤ number ∧ Nat.ofDigits 128 (tagDigits 10 number) = number ∧
        tag = (tagClass.bits ||| (if constructed then asn1ConstructedBit else 0) |||
          asn1TagNumberMask) :: longTagOctets (tagDigits 10 number)) := by
  obtain ⟨-, hshort | ⟨hlow, hsize, htag⟩⟩ := tag_make_cases h
  · exact .inl hshort
  · exact .inr ⟨hlow, tag_digits_value (by omega), htag⟩

/-- An identifier determines its class, its form and its number. -/
theorem der_tag_make_inj {tag tag' : Asn1Tag} {constructed constructed' : Bool} {wire : Bytes}
    (h : derTagMake tag.tagClass constructed tag.number = .ok wire)
    (h' : derTagMake tag'.tagClass constructed' tag'.number = .ok wire) :
    tag = tag' ∧ constructed = constructed' := by
  have hform : constructed = constructed' :=
    (der_tag_make_constructed h).symm.trans (der_tag_make_constructed h')
  refine ⟨?_, hform⟩
  have hmask : asn1TagNumberMask.toNat ≤ 31 := by decide
  have hoctet : ∀ number : Nat, number < 31 → (UInt8.ofNat number).toNat = number := by
    intro number hless
    rw [UInt8.toNat_ofNat']
    omega
  rcases der_tag_make_cases h with ⟨hlow, rfl⟩ | ⟨hlow, hvalue, rfl⟩
  · rcases der_tag_make_cases h' with ⟨hlow', hsame⟩ | ⟨hlow', hvalue', hsame⟩
    · -- both short
      have hlead := (List.cons.inj hsame).1
      have hfirst := lead_fields tag.tagClass constructed (UInt8.ofNat tag.number)
        (by rw [hoctet _ hlow]; exact hlow.le)
      have hsecond := lead_fields tag'.tagClass constructed' (UInt8.ofNat tag'.number)
        (by rw [hoctet _ hlow']; exact hlow'.le)
      rw [hlead] at hfirst
      have hclass := class_bits_inj (hfirst.1.symm.trans hsecond.1)
      have hnumber := congrArg UInt8.toNat (hfirst.2.symm.trans hsecond.2)
      rw [hoctet _ hlow, hoctet _ hlow'] at hnumber
      exact Asn1Tag.ext hclass hnumber
    · -- a short form has no bits of the long one
      exfalso
      have hlead := (List.cons.inj hsame).1
      have hfirst := lead_fields tag.tagClass constructed (UInt8.ofNat tag.number)
        (by rw [hoctet _ hlow]; exact hlow.le)
      have hsecond := lead_fields tag'.tagClass constructed' asn1TagNumberMask hmask
      rw [hlead] at hfirst
      have hnumber := congrArg UInt8.toNat (hfirst.2.symm.trans hsecond.2)
      rw [hoctet _ hlow] at hnumber
      exact absurd hnumber (by show tag.number ≠ 31; omega)
  · rcases der_tag_make_cases h' with ⟨hlow', hsame⟩ | ⟨hlow', hvalue', hsame⟩
    · exfalso
      have hlead := (List.cons.inj hsame).1
      have hfirst := lead_fields tag.tagClass constructed asn1TagNumberMask hmask
      have hsecond := lead_fields tag'.tagClass constructed' (UInt8.ofNat tag'.number)
        (by rw [hoctet _ hlow']; exact hlow'.le)
      rw [hlead] at hfirst
      have hnumber := congrArg UInt8.toNat (hfirst.2.symm.trans hsecond.2)
      rw [hoctet _ hlow'] at hnumber
      exact absurd hnumber (by show 31 ≠ tag'.number; omega)
    · -- both long
      obtain ⟨hlead, hoctets⟩ := List.cons.inj hsame
      have hfirst := lead_fields tag.tagClass constructed asn1TagNumberMask hmask
      have hsecond := lead_fields tag'.tagClass constructed' asn1TagNumberMask hmask
      rw [hlead] at hfirst
      have hclass := class_bits_inj (hfirst.1.symm.trans hsecond.1)
      have hdigits : tagDigits 10 tag.number = tagDigits 10 tag'.number := by
        rw [← long_tag_octets_digits (tag_digits_lt 10 tag.number),
          ← long_tag_octets_digits (tag_digits_lt 10 tag'.number), hoctets]
      have hnumber : tag.number = tag'.number := by
        rw [hdigits] at hvalue
        exact hvalue.symm.trans hvalue'
      exact Asn1Tag.ext hclass hnumber

end Tags

section Graph

/-- The types that a definition refers to, from its root on. -/
inductive DerSchemaReaches (types : DerSchema) (root : Nat) : Nat → Prop where
  | root : DerSchemaReaches types root root
  | reference {identity : Nat} {component : DerSchemaComponent} :
      DerSchemaReaches types root identity → component ∈ (types identity).references →
      DerSchemaReaches types root component.type

/-- The types that a type refers to. -/
def DerSchemaType.childTypes (type : DerSchemaType) : List Nat :=
  type.references.map (·.type)

variable {types : DerSchema} {root : Nat}

/-- Adding the types of components is one step of the worklist. -/
theorem add_types_eq (components : List DerSchemaComponent) (graph : List Nat) :
    addTypes components graph =
      Worklist.enqueue derSchemaMaxTypes Status.unsupported (components.map (·.type)) graph := by
  induction components generalizing graph with
  | nil => rfl
  | cons component rest ih =>
    unfold addTypes
    rw [List.map_cons, Worklist.enqueue, ih, ih]

/-- The first loop of `check_graph` is a search over the types. -/
theorem collect_types_eq (types : DerSchema) (fuel position : Nat) (graph : List Nat) :
    collectTypes types fuel position graph =
      Worklist.explore derSchemaMaxTypes Status.unsupported
        (fun identity => checkType types (types identity))
        (fun identity => (types identity).childTypes) fuel position graph := by
  induction fuel generalizing position graph with
  | zero => rfl
  | succ fuel ih =>
    unfold collectTypes Worklist.explore
    cases graph[position]? with
    | none => rfl
    | some identity =>
      dsimp only
      simp only [add_types_eq, ih]
      rfl

/-- Reachability is that of the worklist over child types. -/
theorem der_schema_reaches_iff {identity : Nat} : DerSchemaReaches types root identity ↔
    Worklist.Reaches (fun identity => (types identity).childTypes) root identity := by
  constructor
  · intro h
    induction h with
    | root => exact .refl
    | reference _ hcomponent ih =>
      exact Relation.ReflTransGen.tail ih (List.mem_map_of_mem hcomponent)
  · intro h
    induction h with
    | refl => exact .root
    | tail _ hnext ih =>
      obtain ⟨component, hcomponent, rfl⟩ := List.mem_map.mp hnext
      exact .reference ih hcomponent

/-- A collected graph holds every type that the root reaches, and each of them passed its check. -/
theorem reaches_collected {graph : List Nat}
    (h : collectTypes types (derSchemaMaxTypes + 1) 0 [root] = .ok graph) {identity : Nat}
    (hreach : DerSchemaReaches types root identity) :
    identity ∈ graph ∧ checkType types (types identity) = .ok () := by
  rw [collect_types_eq] at h
  rw [der_schema_reaches_iff] at hreach
  have hfits := (Worklist.explore_ok_iff (by decide) (by omega)).mp ⟨graph, h⟩
  exact ⟨(Worklist.mem_explore_iff (by decide) (by omega) h).mpr hreach, hfits.2 identity hreach⟩

/-- The components of a SET or CHOICE that passed its check are not of type ANY. -/
theorem check_components_any {kind : DerSchemaKind} (hkind : kind = .set ∨ kind = .choice)
    {components : List DerSchemaComponent} (h : checkComponents types kind components = .ok ()) :
    ∀ component ∈ components,
      ¬ (component.tagging = .none ∧ (types component.type).kind = .any) := by
  induction components with
  | nil => intro component hmem; cases hmem
  | cons first rest ih =>
    unfold checkComponents at h
    obtain ⟨accepted, hfirst, h⟩ := bind_ok.mp h
    change (if (kind = .set ∨ kind = .choice) ∧ first.tagging = .none ∧
        (types first.type).kind = .any then Except.error Status.invalidSchema
      else checkComponents types kind rest) = .ok () at h
    obtain ⟨hother, h⟩ := guard_ok.mp h
    intro component hmem
    cases hmem with
    | head => exact fun hany => hother ⟨hkind, hany⟩
    | tail _ hmem => exact ih h component hmem

/-- A checked SET or CHOICE has no untagged ANY. -/
theorem check_type_any {type : DerSchemaType} (hkind : type.kind = .set ∨ type.kind = .choice)
    (h : checkType types type = .ok ()) :
    ∀ component ∈ type.components,
      ¬ (component.tagging = .none ∧ (types component.type).kind = .any) := by
  have hcomponents : checkComponents types type.kind type.components = .ok () := by
    unfold checkType at h
    rcases hkind with hset | hchoice
    · rw [hset] at h ⊢
      dsimp only at h
      obtain ⟨-, h⟩ := guard_ok.mp h
      exact h
    · rw [hchoice] at h ⊢
      dsimp only at h
      obtain ⟨-, h⟩ := guard_ok.mp h
      exact h
  exact check_components_any hkind hcomponents

end Graph

section Alternatives

/-- An untagged component of type CHOICE stands for its alternatives. -/
def DerSchemaComponent.opens (types : DerSchema) (component : DerSchemaComponent) : Bool :=
  component.tagging = .none && (types component.type).kind = .choice

/-- A component with one identifier: tagged, or of a type other than CHOICE and ANY. -/
def DerSchemaComponent.fixed (types : DerSchema) (component : DerSchemaComponent) : Bool :=
  component.tagging ≠ .none ||
    ((types component.type).kind ≠ .choice && (types component.type).kind ≠ .any)

/-- `Alternative types component leaf nesting` says that `leaf` can stand at the place of
`component`, below `nesting` untagged choices. -/
inductive Alternative (types : DerSchema) :
    DerSchemaComponent → DerSchemaComponent → Nat → Prop where
  | here {component : DerSchemaComponent} :
      component.opens types = false → Alternative types component component 0
  | choice {component alternative leaf : DerSchemaComponent} {nesting : Nat} :
      component.opens types = true → alternative ∈ (types component.type).components →
      Alternative types alternative leaf nesting →
      Alternative types component leaf (nesting + 1)

/-- The universal number of a type with an identifier of its own. -/
def kindNumber (type : DerSchemaType) : Nat :=
  match type.kind with
  | .sequence => 16
  | .sequenceOf => 16
  | .set => 17
  | .setOf => 17
  | .universal => type.universalNumber
  | .choice => 0
  | .any => 0

/-- The tag of a component with one identifier. -/
def DerSchemaComponent.tag (types : DerSchema) (component : DerSchemaComponent) : Asn1Tag :=
  if component.tagging ≠ .none then ⟨component.tagClass, component.tagNumber⟩
  else ⟨.universal, kindNumber (types component.type)⟩

/-- The form of a component with one identifier. -/
def DerSchemaComponent.constructed (types : DerSchema) (component : DerSchemaComponent) : Bool :=
  if component.tagging = .explicit then true else typeIsConstructed (types component.type)

/-- The identifier of a tag in one of its forms. -/
def Asn1Tag.identifier (tag : Asn1Tag) (constructed : Bool) : Except Status Bytes :=
  derTagMake tag.tagClass constructed tag.number

variable {types : DerSchema} {component leaf : DerSchemaComponent}

/-- The identifier of a component is that of its tag, in its form. -/
theorem resolves_iff (h : component.fixed types = true) (wire : Bytes) :
    Resolves types component wire ↔
      (component.tag types).identifier (component.constructed types) = .ok wire := by
  unfold Resolves Asn1Tag.identifier DerSchemaComponent.tag DerSchemaComponent.constructed
  by_cases htagged : component.tagging ≠ .none
  · simp only [if_pos htagged, componentIdentifier]
  · have huntagged : ¬ component.tagging = .explicit := by
      simp only [ne_eq, not_not] at htagged
      simp [htagged]
    simp only [DerSchemaComponent.fixed, Bool.or_eq_true, decide_eq_true_eq, htagged, false_or,
      Bool.and_eq_true] at h
    rw [if_neg htagged, if_neg htagged, if_neg huntagged, or_iff_right h.2]
    unfold kindIdentifier kindNumber typeIsConstructed
    cases hkind : (types component.type).kind with
    | choice => exact absurd hkind h.1
    | any => exact absurd hkind h.2
    | _ => exact Iff.rfl

theorem fixed_not_opens (h : component.fixed types = true) : component.opens types = false := by
  by_contra hopens
  simp only [DerSchemaComponent.opens, Bool.not_eq_false, Bool.and_eq_true,
    decide_eq_true_eq] at hopens
  simp [DerSchemaComponent.fixed, hopens.1, hopens.2] at h

/-- A component that stands for itself only. -/
theorem Alternative.of_not_opens {nesting : Nat} (h : Alternative types component leaf nesting)
    (hopens : component.opens types = false) : leaf = component ∧ nesting = 0 := by
  cases h with
  | here _ => exact ⟨rfl, rfl⟩
  | choice hother _ _ =>
    rw [hopens] at hother
    cases hother

end Alternatives

section ChoicePaths

variable {types : DerSchema}

/-- The heights of the complete types bound the choices below them. -/
def ChoiceMarks.Sound (types : DerSchema) (marks : ChoiceMarks) : Prop :=
  ∀ node height, marks.complete.lookup node = some height →
    0 < height ∧ height ≤ derSchemaMaxTypeDepth ∧
      ∀ child ∈ transparentChoices types (types node),
        ∃ below, marks.complete.lookup child = some below ∧ below < height

/-- A search keeps what is complete, completes nothing that is active and leaves the active
types as it found them. -/
structure ChoiceMarks.Extends (marks marks' : ChoiceMarks) : Prop where
  active : marks'.active = marks.active
  kept : ∀ node height, marks.complete.lookup node = some height →
    marks'.complete.lookup node = some height
  waiting : ∀ node ∈ marks.active, marks.complete.lookup node = none →
    marks'.complete.lookup node = none

theorem ChoiceMarks.Extends.refl (marks : ChoiceMarks) : marks.Extends marks :=
  ⟨rfl, fun _ _ h => h, fun _ _ h => h⟩

theorem ChoiceMarks.Extends.trans {first second third : ChoiceMarks}
    (h : first.Extends second) (h' : second.Extends third) : first.Extends third where
  active := h'.active.trans h.active
  kept node height hlookup := h'.kept node height (h.kept node height hlookup)
  waiting node hactive hlookup :=
    h'.waiting node (h.active.symm ▸ hactive) (h.waiting node hactive hlookup)

/-- The loop over the untagged choices of a type, from what one of them does. -/
theorem choice_children_ok {step : Nat × ChoiceMarks → Nat → Except Status (Nat × ChoiceMarks)}
    (hstep : ∀ (height : Nat) (marks : ChoiceMarks) (child : Nat) (after : Nat × ChoiceMarks),
      step (height, marks) child = .ok after → marks.Sound types →
      marks.Extends after.2 ∧ after.2.Sound types ∧ height ≤ after.1 ∧
        ∃ below, after.2.complete.lookup child = some below ∧ below < after.1)
    {children : List Nat} {height : Nat} {marks : ChoiceMarks} {after : Nat × ChoiceMarks}
    (h : children.foldlM step (height, marks) = .ok after) (hsound : marks.Sound types) :
    marks.Extends after.2 ∧ after.2.Sound types ∧ height ≤ after.1 ∧
      ∀ child ∈ children, ∃ below, after.2.complete.lookup child = some below ∧
        below < after.1 := by
  induction children generalizing height marks with
  | nil =>
    cases h
    exact ⟨.refl _, hsound, Nat.le_refl _, by simp⟩
  | cons first rest ih =>
    rw [List.foldlM_cons] at h
    obtain ⟨⟨nextHeight, nextMarks⟩, hfirst, h⟩ := bind_ok.mp h
    obtain ⟨hextends, hsound', hheight, below, hbelow, hless⟩ :=
      hstep height marks first _ hfirst hsound
    obtain ⟨hextends', hsound'', hheight', hrest⟩ := ih h hsound'
    refine ⟨hextends.trans hextends', hsound'', Nat.le_trans hheight hheight', ?_⟩
    intro child hmem
    cases hmem with
    | head => exact ⟨below, hextends'.kept _ _ hbelow, Nat.lt_of_lt_of_le hless hheight'⟩
    | tail _ hmem => exact hrest child hmem

/-- A search folds one step over the choices that its type shows through. -/
theorem check_choice_path_step (remaining node : Nat) (marks : ChoiceMarks) :
    ∃ step : Nat × ChoiceMarks → Nat → Except Status (Nat × ChoiceMarks),
      (∀ out child, step out child = checkChoicePath types remaining child out.2 >>= fun marks =>
        .ok (max out.1 (1 + (marks.complete.lookup child).getD 0), marks)) ∧
      checkChoicePath types (remaining + 1) node marks =
        if node ∈ marks.active then .error .invalidSchema
        else if (marks.complete.lookup node).isSome then .ok marks
        else
          (transparentChoices types (types node)).foldlM step
            (1, { marks with active := node :: marks.active }) >>= fun out =>
          if out.1 > derSchemaMaxTypeDepth then .error .unsupported
          else
            .ok { active := out.2.active.erase node
                  complete := (node, out.1) :: out.2.complete } := by
  refine ⟨_, fun _ _ => rfl, ?_⟩
  rw [checkChoicePath]

/-- A search that returns has completed its type. -/
theorem check_choice_path_ok {remaining node : Nat} {marks marks' : ChoiceMarks}
    (h : checkChoicePath types remaining node marks = .ok marks') (hsound : marks.Sound types) :
    marks.Extends marks' ∧ marks'.Sound types ∧
      ∃ height, marks'.complete.lookup node = some height := by
  induction remaining generalizing node marks marks' with
  | zero =>
    unfold checkChoicePath at h
    obtain ⟨-, h⟩ := guard_ok.mp h
    split at h
    next hcomplete =>
      cases h
      exact ⟨.refl _, hsound, Option.isSome_iff_exists.mp hcomplete⟩
    · cases h
  | succ remaining ih =>
    obtain ⟨step, hstepEq, hrun⟩ := check_choice_path_step remaining node marks
    rw [hrun] at h
    obtain ⟨hactive, h⟩ := guard_ok.mp h
    split at h
    next hcomplete =>
      cases h
      exact ⟨.refl _, hsound, Option.isSome_iff_exists.mp hcomplete⟩
    next hcomplete =>
      have hstep : ∀ (height : Nat) (marks : ChoiceMarks) (child : Nat)
          (after : Nat × ChoiceMarks), step (height, marks) child = .ok after →
          marks.Sound types → marks.Extends after.2 ∧ after.2.Sound types ∧
            height ≤ after.1 ∧
            ∃ below, after.2.complete.lookup child = some below ∧ below < after.1 := by
        intro height marks child after hafter hmarks
        rw [hstepEq] at hafter
        dsimp only at hafter
        obtain ⟨next, hchild, hafter⟩ := bind_ok.mp hafter
        cases hafter
        obtain ⟨hextends, hnext, below, hbelow⟩ := ih hchild hmarks
        refine ⟨hextends, hnext, Nat.le_max_left _ _, below, hbelow, ?_⟩
        dsimp only
        rw [hbelow, Option.getD_some]
        omega
      obtain ⟨⟨height, left⟩, hfold, h⟩ := bind_ok.mp h
      obtain ⟨hextends, hleft, hheight, hchildren⟩ :=
        choice_children_ok hstep hfold hsound
      change (if height > derSchemaMaxTypeDepth then Except.error Status.unsupported
        else .ok { active := left.active.erase node
                   complete := (node, height) :: left.complete }) = .ok marks' at h
      obtain ⟨hbounded, h⟩ := guard_ok.mp h
      cases h
      have hnone : marks.complete.lookup node = none :=
        Option.not_isSome_iff_eq_none.mp hcomplete
      have hnodeNone : left.complete.lookup node = none :=
        hextends.waiting node List.mem_cons_self hnone
      -- the new entry changes no other lookup
      have hother : ∀ {other : Nat}, other ≠ node →
          ((node, height) :: left.complete).lookup other =
            left.complete.lookup other := by
        intro other hne
        rw [List.lookup_cons, beq_eq_false_iff_ne.mpr hne]
      have hhere : ((node, height) :: left.complete).lookup node = some height := by
        rw [List.lookup_cons, beq_self_eq_true]
      have hkept : ∀ other below, left.complete.lookup other = some below →
          ((node, height) :: left.complete).lookup other = some below := by
        intro other below hlookup
        rw [hother, hlookup]
        rintro rfl
        rw [hnodeNone] at hlookup
        cases hlookup
      refine ⟨⟨?_, ?_, ?_⟩, ?_, height, hhere⟩
      · show left.active.erase node = marks.active
        rw [hextends.active]
        exact List.erase_cons_head node marks.active
      · intro other below hlookup
        exact hkept other below (hextends.kept other below hlookup)
      · intro other hmem hlookup
        have hne : other ≠ node := fun hsame => hactive (hsame ▸ hmem)
        show ((node, height) :: left.complete).lookup other = none
        rw [hother hne]
        exact hextends.waiting other (List.mem_cons_of_mem _ hmem) hlookup
      · intro other otherHeight hlookup
        change ((node, height) :: left.complete).lookup other =
          some otherHeight at hlookup
        by_cases hsame : other = node
        · subst hsame
          rw [hhere] at hlookup
          cases hlookup
          refine ⟨by dsimp only at hheight; omega, by omega, fun child hchild => ?_⟩
          obtain ⟨below, hbelow, hless⟩ := hchildren child hchild
          exact ⟨below, hkept child below hbelow, hless⟩
        · rw [hother hsame] at hlookup
          obtain ⟨hpositive, hmost, hbelows⟩ := hleft other otherHeight hlookup
          refine ⟨hpositive, hmost, fun child hchild => ?_⟩
          obtain ⟨below, hbelow, hless⟩ := hbelows child hchild
          exact ⟨below, hkept child below hbelow, hless⟩

/-- The second loop of `check_graph` completes every type that it visits. -/
theorem choice_paths_ok {identities : List Nat} {marks marks' : ChoiceMarks}
    (h : identities.foldlM (fun marks identity =>
      checkChoicePath types derSchemaMaxTypeDepth identity marks) marks = .ok marks')
    (hsound : marks.Sound types) :
    marks.Extends marks' ∧ marks'.Sound types ∧
      ∀ identity ∈ identities, ∃ height, marks'.complete.lookup identity = some height := by
  induction identities generalizing marks with
  | nil =>
    cases h
    exact ⟨.refl _, hsound, by simp⟩
  | cons first rest ih =>
    rw [List.foldlM_cons] at h
    obtain ⟨next, hfirst, h⟩ := bind_ok.mp h
    obtain ⟨hextends, hsound', height, hheight⟩ := check_choice_path_ok hfirst hsound
    obtain ⟨hextends', hsound'', hrest⟩ := ih h hsound'
    refine ⟨hextends.trans hextends', hsound'', fun identity hmem => ?_⟩
    cases hmem with
    | head => exact ⟨height, hextends'.kept _ _ hheight⟩
    | tail _ hmem => exact hrest identity hmem

/-- The alternatives of a complete type lie at most as deep as its height. -/
theorem alternative_nesting {marks : ChoiceMarks} (hsound : marks.Sound types)
    {component leaf : DerSchemaComponent} {nesting height : Nat}
    (h : Alternative types component leaf nesting)
    (hheight : marks.complete.lookup component.type = some height)
    (hopens : component.opens types = true) : nesting ≤ height := by
  induction h generalizing height with
  | here hclosed =>
    rw [hclosed] at hopens
    cases hopens
  | @choice component alternative leaf nesting _ hmem halternative ih =>
    obtain ⟨hpositive, -, hbelow⟩ := hsound component.type height hheight
    cases hnested : alternative.opens types with
    | false =>
      obtain ⟨-, rfl⟩ := halternative.of_not_opens hnested
      omega
    | true =>
      have hchild : alternative.type ∈ transparentChoices types (types component.type) :=
        List.mem_map_of_mem (List.mem_filter.mpr ⟨hmem, hnested⟩)
      obtain ⟨below, hlookup, hless⟩ := hbelow alternative.type hchild
      have := ih hlookup hnested
      omega

end ChoicePaths

section Resolution

variable {types : DerSchema} {wire : Bytes}

/-- No alternative of a type has the identifier on the wire. -/
def Unmatched (types : DerSchema) (wire : Bytes) (identity : Nat) : Prop :=
  ∀ component ∈ (types identity).components, ∀ leaf nesting,
    Alternative types component leaf nesting → ¬ Resolves types leaf wire

/-- What a resolution says about a component: its result stands for it and has the identifier,
and without a result nothing that stands for it has. -/
structure ResolvesTo (types : DerSchema) (wire : Bytes) (component : DerSchemaComponent)
    (result : Option DerSchemaComponent × List Nat) : Prop where
  found : ∀ leaf, result.1 = some leaf →
    Resolves types leaf wire ∧ ∃ nesting, Alternative types component leaf nesting
  missed : result.1 = none → ∀ leaf nesting, Alternative types component leaf nesting →
    ¬ Resolves types leaf wire
  failed : ∀ identity ∈ result.2, Unmatched types wire identity

/-- The resolution of a list, from that of each component. -/
theorem first_resolved_spec
    {resolve : DerSchemaComponent → List Nat → Option DerSchemaComponent × List Nat}
    {components : List DerSchemaComponent}
    (hresolve : ∀ component ∈ components, ∀ failed : List Nat,
      (∀ identity ∈ failed, Unmatched types wire identity) →
      ResolvesTo types wire component (resolve component failed))
    {failed : List Nat} (hfailed : ∀ identity ∈ failed, Unmatched types wire identity) :
    (∀ leaf, (firstResolved resolve components failed).1 = some leaf →
        Resolves types leaf wire ∧ ∃ component ∈ components, ∃ nesting,
          Alternative types component leaf nesting) ∧
      ((firstResolved resolve components failed).1 = none → ∀ component ∈ components,
        ∀ leaf nesting, Alternative types component leaf nesting →
          ¬ Resolves types leaf wire) ∧
      ∀ identity ∈ (firstResolved resolve components failed).2,
        Unmatched types wire identity := by
  induction components generalizing failed with
  | nil => exact ⟨by simp [firstResolved], by simp, hfailed⟩
  | cons first rest ih =>
    have hfirst := hresolve first List.mem_cons_self failed hfailed
    unfold firstResolved
    cases hresult : resolve first failed with
    | mk result failed' =>
      rw [hresult] at hfirst
      cases result with
      | some leaf =>
        refine ⟨fun other hother => ?_, by simp, hfirst.failed⟩
        obtain ⟨hmatches, hnesting⟩ := hfirst.found other hother
        exact ⟨hmatches, first, List.mem_cons_self, hnesting⟩
      | none =>
        obtain ⟨hfound, hmissed, hrest⟩ :=
          ih (fun component hmem => hresolve component (List.mem_cons_of_mem _ hmem))
            hfirst.failed
        refine ⟨fun leaf hleaf => ?_, fun hnone component hmem => ?_, hrest⟩
        · obtain ⟨hmatches, component, hmem, hnesting⟩ := hfound leaf hleaf
          exact ⟨hmatches, component, List.mem_cons_of_mem _ hmem, hnesting⟩
        · cases hmem with
          | head => exact hfirst.missed rfl
          | tail _ hmem => exact hmissed hnone component hmem

/-- A component that stands for itself resolves to itself or to nothing. -/
theorem matching_resolves_to {component : DerSchemaComponent} {tag : Except Status Bytes}
    (hopens : component.opens types = false)
    (htag : Resolves types component wire ↔ tag = .ok wire) {failed : List Nat}
    (hfailed : ∀ identity ∈ failed, Unmatched types wire identity) :
    ResolvesTo types wire component (matching component wire tag, failed) where
  found leaf hleaf := by
    obtain ⟨rfl, hsame⟩ := matching_some hleaf
    exact ⟨htag.mpr hsame, 0, .here hopens⟩
  missed hnone leaf nesting halternative := by
    obtain ⟨rfl, -⟩ := halternative.of_not_opens hopens
    intro hresolves
    rw [htag.mp hresolves] at hnone
    simp [matching] at hnone
  failed := hfailed

/-- Within the depth, `resolve_tag` decides whether an alternative has the identifier. -/
theorem resolve_tag_spec {remaining : Nat} {component : DerSchemaComponent} {failed : List Nat}
    (hdepth : ∀ leaf nesting, Alternative types component leaf nesting → nesting < remaining)
    (hfailed : ∀ identity ∈ failed, Unmatched types wire identity) :
    ResolvesTo types wire component (resolveTag types wire remaining component failed) := by
  induction remaining generalizing component failed with
  | zero =>
    refine ⟨by simp [resolveTag], fun _ leaf nesting halternative => ?_, hfailed⟩
    exact absurd (hdepth leaf nesting halternative) (Nat.not_lt_zero _)
  | succ remaining ih =>
    unfold resolveTag
    split
    next htagged =>
      refine matching_resolves_to ?_ ?_ hfailed
      · simp [DerSchemaComponent.opens, htagged]
      · rw [Resolves, if_pos htagged]
    next huntagged =>
      have hnone : component.tagging = .none := by simpa using huntagged
      split
      next hany =>
        have hopens : component.opens types = false := by
          simp [DerSchemaComponent.opens, hany]
        have hresolves : Resolves types component wire := by
          rw [Resolves, if_neg huntagged]
          exact .inl hany
        refine ⟨fun leaf hleaf => ?_, by simp, hfailed⟩
        cases hleaf
        exact ⟨hresolves, 0, .here hopens⟩
      next hchoice =>
        have hopens : component.opens types = true := by
          simp [DerSchemaComponent.opens, hnone, hchoice]
        -- nothing below a type stands for the component unless it stands for an alternative
        have hunmatched : Unmatched types wire component.type →
            ∀ leaf nesting, Alternative types component leaf nesting →
              ¬ Resolves types leaf wire := by
          intro hall leaf nesting halternative
          cases halternative with
          | here hclosed =>
            rw [hopens] at hclosed
            cases hclosed
          | choice _ hmem hnested => exact hall _ hmem _ _ hnested
        split
        next hknown =>
          exact ⟨by simp, fun _ => hunmatched (hfailed _ hknown), hfailed⟩
        next hknown =>
          obtain ⟨hfound, hmissed, hrest⟩ := @first_resolved_spec types wire
            (resolveTag types wire remaining) (types component.type).components
            (fun alternative hmem failed hfailed => ih (fun leaf nesting hnested =>
              Nat.lt_of_succ_lt_succ (hdepth leaf _ (.choice hopens hmem hnested))) hfailed)
            failed hfailed
          split
          next resolved failed' hresult =>
            rw [hresult] at hfound hrest
            refine ⟨fun leaf hleaf => ?_, by simp, hrest⟩
            obtain ⟨hmatches, alternative, hmem, nesting, hnested⟩ := hfound leaf hleaf
            exact ⟨hmatches, _, .choice hopens hmem hnested⟩
          next failed' hresult =>
            rw [hresult] at hmissed hrest
            have hall : Unmatched types wire component.type := hmissed rfl
            refine ⟨by simp, fun _ => hunmatched hall, fun identity hmem => ?_⟩
            dsimp only at hmem
            split at hmem
            · rcases List.mem_append.mp hmem with hold | hnew
              · exact hrest identity hold
              · rw [List.mem_singleton.mp hnew]
                exact hall
            · exact hrest identity hmem
      next hother =>
        have hopens : component.opens types = false := by
          simp only [DerSchemaComponent.opens, Bool.and_eq_false_imp, decide_eq_true_eq,
            decide_eq_false_iff_not]
          exact fun _ => hother
        refine matching_resolves_to hopens ?_ hfailed
        rw [Resolves, if_neg huntagged]
        exact or_iff_right (by assumption)

end Resolution

section Distinct

variable {types : DerSchema} {root : Nat}

/-- Distinct tags among the components of a SET or CHOICE: another component with one identifier
has another tag, and an untagged choice resolves the tag in neither form. -/
def DistinctTags (types : DerSchema) (type : DerSchemaType) : Prop :=
  ∀ (i j : Nat) (component other : DerSchemaComponent), type.components[i]? = some component →
    type.components[j]? = some other → i ≠ j → component.fixed types = true →
    (other.fixed types = true → other.tag types ≠ component.tag types) ∧
      (other.opens types = true → ∀ constructed wire,
        (component.tag types).identifier constructed = .ok wire →
          resolveAt types other wire = none)

/-- No tag stands in both forms: what another component stands for has the form of a component
whose tag it shares. -/
def OneForm (types : DerSchema) (type : DerSchemaType) : Prop :=
  ∀ (i j : Nat) (component other leaf : DerSchemaComponent) (nesting : Nat),
    type.components[i]? = some component → type.components[j]? = some other → i ≠ j →
    component.fixed types = true → Alternative types other leaf nesting →
    leaf.tag types = component.tag types →
      leaf.constructed types = component.constructed types

/-- What the check establishes of every type that the root reaches. -/
theorem der_schema_check_ok (h : derSchemaCheck types root = .ok ()) :
    ∃ marks : ChoiceMarks, marks.Sound types ∧
      ∀ identity, DerSchemaReaches types root identity →
        checkType types (types identity) = .ok () ∧
        checkIdentifiers types (types identity) = .ok () ∧
        ((types identity).kind = .choice →
          ∃ height, marks.complete.lookup identity = some height) := by
  unfold derSchemaCheck at h
  obtain ⟨graph, hgraph, h⟩ := bind_ok.mp h
  cases hmarks : (graph.filter fun identity => (types identity).kind = .choice).foldlM
      (fun marks identity => checkChoicePath types derSchemaMaxTypeDepth identity marks)
      ({} : ChoiceMarks) with
  | error status =>
    change Except.bind (List.foldlM _ _ _) _ = _ at h
    rw [hmarks] at h
    cases h
  | ok marks =>
    change Except.bind (List.foldlM _ _ _) _ = _ at h
    rw [hmarks] at h
    have hsound : ({} : ChoiceMarks).Sound types := fun node height hlookup => by
      cases hlookup
    obtain ⟨-, hmarksSound, hcomplete⟩ := choice_paths_ok hmarks hsound
    refine ⟨marks, hmarksSound, fun identity hreach => ?_⟩
    obtain ⟨hmem, haccepted⟩ := reaches_collected hgraph hreach
    refine ⟨haccepted, forM_ok h identity hmem, fun hchoice => ?_⟩
    exact hcomplete identity (List.mem_filter.mpr ⟨hmem, by simpa using hchoice⟩)

/-- A component of a reachable SET or CHOICE is reachable. -/
theorem reaches_component {identity : Nat} (hreach : DerSchemaReaches types root identity)
    (hkind : (types identity).kind = .set ∨ (types identity).kind = .choice)
    {component : DerSchemaComponent} (hmem : component ∈ (types identity).components) :
    DerSchemaReaches types root component.type := by
  refine .reference hreach ?_
  unfold DerSchemaType.references
  rcases hkind with hset | hchoice
  · rw [hset]
    exact hmem
  · rw [hchoice]
    exact hmem

/-- An identifier that is not taken is resolved by no other component. -/
theorem identifier_free {type : DerSchemaType} {i : Nat} {component : DerSchemaComponent}
    (hfixed : component.fixed types = true) (tag : Except Status Bytes)
    (htag : Resolves types component = fun wire => tag = .ok wire)
    (hfree : (match tag with
      | .error _ => Except.error Status.invalidSchema
      | .ok tag =>
        if identifierTaken types type.components i tag then .error .invalidSchema
        else .ok ()) = .ok ()) :
    ∃ wire, (component.tag types).identifier (component.constructed types) = .ok wire ∧
      ∀ (j : Nat) (other : DerSchemaComponent), type.components[j]? = some other → i ≠ j →
        resolveAt types other wire = none := by
  cases tag with
  | error status => cases hfree
  | ok wire =>
    dsimp only at hfree
    obtain ⟨hnone, hfree⟩ := guard_ok.mp hfree
    refine ⟨wire, (resolves_iff hfixed wire).mp (by rw [htag]), ?_⟩
    intro j other hother hne
    by_contra hsome
    apply hnone
    unfold identifierTaken
    rw [List.any_eq_true]
    refine ⟨(other, j), List.mem_filter.mpr
      ⟨List.mem_zipIdx_iff_getElem?.mpr hother, by simpa using Ne.symm hne⟩, ?_⟩
    exact Option.isSome_iff_ne_none.mpr hsome

/-- A component with one identifier has one that no other component resolves. -/
theorem check_identifiers_ok {type : DerSchemaType}
    (hkind : type.kind = .set ∨ type.kind = .choice)
    (h : checkIdentifiers types type = .ok ()) {i : Nat} {component : DerSchemaComponent}
    (hcomponent : type.components[i]? = some component)
    (hfixed : component.fixed types = true) :
    ∃ wire, (component.tag types).identifier (component.constructed types) = .ok wire ∧
      ∀ (j : Nat) (other : DerSchemaComponent), type.components[j]? = some other → i ≠ j →
        resolveAt types other wire = none := by
  unfold checkIdentifiers at h
  rw [if_neg (by rintro ⟨hset, hchoice⟩; exact hkind.elim hset hchoice)] at h
  have hentry := forM_ok h (component, i) (List.mem_zipIdx_iff_getElem?.mpr hcomponent)
  dsimp only at hentry
  -- both branches compare one identifier with the other components
  have hfree := @identifier_free types type i component hfixed
  split at hentry
  next htagged =>
    refine hfree _ (funext fun wire => ?_) hentry
    rw [Resolves, if_pos htagged]
  next huntagged =>
    simp only [DerSchemaComponent.fixed, Bool.or_eq_true, decide_eq_true_eq, huntagged, false_or,
      Bool.and_eq_true] at hfixed
    split at hentry
    next hchoice => exact absurd hchoice hfixed.1
    next hother =>
      refine hfree _ (funext fun wire => ?_) hentry
      rw [Resolves, if_neg huntagged]
      exact propext (or_iff_right hfixed.2)

/-- What stands for a component of a SET or CHOICE has one identifier, which can be made. -/
theorem alternative_made (h : derSchemaCheck types root = .ok ())
    {component leaf : DerSchemaComponent} {nesting : Nat}
    (halternative : Alternative types component leaf nesting) {identity : Nat}
    (hreach : DerSchemaReaches types root identity)
    (hkind : (types identity).kind = .set ∨ (types identity).kind = .choice)
    (hmem : component ∈ (types identity).components) :
    leaf.fixed types = true ∧
      ∃ wire, (leaf.tag types).identifier (leaf.constructed types) = .ok wire := by
  obtain ⟨marks, -, hchecked⟩ := der_schema_check_ok h
  induction halternative generalizing identity with
  | @here component hopens =>
    obtain ⟨htype, hidentifiers, -⟩ := hchecked identity hreach
    have hany := check_type_any hkind htype component hmem
    have hfixed : component.fixed types = true := by
      unfold DerSchemaComponent.opens at hopens
      unfold DerSchemaComponent.fixed
      by_cases htagging : component.tagging = .none
      · simp only [htagging, true_and] at hany
        simp only [htagging, decide_true, Bool.true_and, decide_eq_false_iff_not] at hopens
        simp [hopens, hany]
      · simp [htagging]
    obtain ⟨i, hi⟩ := List.getElem?_of_mem hmem
    obtain ⟨wire, hwire, -⟩ := check_identifiers_ok hkind hidentifiers hi hfixed
    exact ⟨hfixed, wire, hwire⟩
  | @choice component alternative leaf nesting hopens hinside _ ih =>
    have hchoice : (types component.type).kind = .choice := by
      simp only [DerSchemaComponent.opens, Bool.and_eq_true, decide_eq_true_eq] at hopens
      exact hopens.2
    exact ih (reaches_component hreach hkind hmem) (.inr hchoice) hinside

/-- The check leaves `resolve_tag` enough depth for the components of a SET or CHOICE. -/
theorem resolve_at_spec (h : derSchemaCheck types root = .ok ()) {identity : Nat}
    (hreach : DerSchemaReaches types root identity)
    (hkind : (types identity).kind = .set ∨ (types identity).kind = .choice)
    {component : DerSchemaComponent} (hmem : component ∈ (types identity).components)
    (wire : Bytes) :
    ResolvesTo types wire component
      (resolveTag types wire (derSchemaMaxTypeDepth + 1) component []) := by
  obtain ⟨marks, hsound, hchecked⟩ := der_schema_check_ok h
  refine resolve_tag_spec (fun leaf nesting halternative => ?_) (by simp)
  cases hopens : component.opens types with
  | false =>
    obtain ⟨-, rfl⟩ := halternative.of_not_opens hopens
    exact Nat.succ_pos _
  | true =>
    have hchoice : (types component.type).kind = .choice := by
      simp only [DerSchemaComponent.opens, Bool.and_eq_true, decide_eq_true_eq] at hopens
      exact hopens.2
    obtain ⟨-, -, hcomplete⟩ := hchecked _ (reaches_component hreach hkind hmem)
    obtain ⟨height, hheight⟩ := hcomplete hchoice
    obtain ⟨-, hmost, -⟩ := hsound _ _ hheight
    have := alternative_nesting hsound halternative hheight hopens
    omega

/-- A checked SET or CHOICE has distinct tags exactly when no tag stands in both forms. -/
theorem distinct_tags_iff (h : derSchemaCheck types root = .ok ()) {identity : Nat}
    (hreach : DerSchemaReaches types root identity)
    (hkind : (types identity).kind = .set ∨ (types identity).kind = .choice) :
    DistinctTags types (types identity) ↔ OneForm types (types identity) := by
  obtain ⟨marks, -, hchecked⟩ := der_schema_check_ok h
  obtain ⟨-, hidentifiers, -⟩ := hchecked identity hreach
  constructor
  · intro hdistinct i j component other leaf nesting hi hj hne hfixed halternative htag
    obtain ⟨htags, hchoices⟩ := hdistinct i j component other hi hj hne hfixed
    have hmem := List.mem_of_getElem? hj
    obtain ⟨hleaf, wire, hwire⟩ := alternative_made h halternative hreach hkind hmem
    exfalso
    cases hopens : other.opens types with
    | false =>
      obtain ⟨rfl, -⟩ := halternative.of_not_opens hopens
      exact htags hleaf htag
    | true =>
      -- the choice resolves the identifier of the alternative
      have hspec := resolve_at_spec h hreach hkind hmem wire
      have hnone := hchoices hopens (leaf.constructed types) wire (htag ▸ hwire)
      exact hspec.missed hnone leaf nesting halternative ((resolves_iff hleaf wire).mpr hwire)
  · intro hform i j component other hi hj hne hfixed
    obtain ⟨wire, hwire, hfree⟩ := check_identifiers_ok hkind hidentifiers hi hfixed
    have hmem := List.mem_of_getElem? hj
    have hnone := hfree j other hj hne
    refine ⟨fun hother htag => ?_, fun hopens constructed made hmade => ?_⟩
    · have halternative : Alternative types other other 0 := .here (fixed_not_opens hother)
      have hsame := hform i j component other other 0 hi hj hne hfixed halternative htag
      have hresolves : Resolves types other wire := by
        rw [resolves_iff hother, htag, hsame]
        exact hwire
      exact (resolve_at_spec h hreach hkind hmem wire).missed hnone other 0 halternative hresolves
    · cases hresult : resolveAt types other made with
      | none => rfl
      | some leaf =>
        exfalso
        obtain ⟨hresolves, nesting, halternative⟩ :=
          (resolve_at_spec h hreach hkind hmem made).found leaf hresult
        obtain ⟨hleaf, -⟩ := alternative_made h halternative hreach hkind hmem
        obtain ⟨htag, hconstructed⟩ :=
          der_tag_make_inj ((resolves_iff hleaf made).mp hresolves) hmade
        have hsame :=
          hform i j component other leaf nesting hi hj hne hfixed halternative htag
        -- the identifier that resolves is the one that was probed
        rw [← hconstructed, hsame] at hmade
        obtain rfl : made = wire := Except.ok.inj (hmade.symm.trans hwire)
        rw [hnone] at hresult
        cases hresult

/-- The definition of `SET { [0] IMPLICIT INTEGER, [0] IMPLICIT SEQUENCE { } }`. -/
def bothFormsSchema : DerSchema
  | 0 =>
    { kind := .set
      components := [
        { type := 1, tagging := .implicit, tagClass := .contextSpecific },
        { type := 2, tagging := .implicit, tagClass := .contextSpecific }] }
  | 1 => { kind := .universal, universalNumber := 2 }
  | _ => { kind := .sequence }

/-- In a definition that the check accepts, the components of every SET and CHOICE have distinct
tags exactly when in none of them a tag stands in both forms. -/
theorem der_schema_distinct (h : derSchemaCheck types root = .ok ()) :
    (∀ identity, DerSchemaReaches types root identity →
      ((types identity).kind = .set ∨ (types identity).kind = .choice) →
        DistinctTags types (types identity)) ↔
      ∀ identity, DerSchemaReaches types root identity →
        ((types identity).kind = .set ∨ (types identity).kind = .choice) →
          OneForm types (types identity) := by
  refine forall_congr' fun identity => ?_
  refine forall_congr' fun hreach => ?_
  exact forall_congr' fun hkind => distinct_tags_iff h hreach hkind

/-- The check accepts the definition, so its distinctness is decided by the forms. -/
theorem der_schema_distinct_sample :
    derSchemaCheck bothFormsSchema 0 = .ok () ∧
      ((∀ identity, DerSchemaReaches bothFormsSchema 0 identity →
        ((bothFormsSchema identity).kind = .set ∨ (bothFormsSchema identity).kind = .choice) →
          DistinctTags bothFormsSchema (bothFormsSchema identity)) ↔
        ∀ identity, DerSchemaReaches bothFormsSchema 0 identity →
          ((bothFormsSchema identity).kind = .set ∨ (bothFormsSchema identity).kind = .choice) →
            OneForm bothFormsSchema (bothFormsSchema identity)) :=
  ⟨by decide +kernel, der_schema_distinct (by decide +kernel)⟩

/-- The check accepts two components with the tag `[0]`, one primitive and one constructed. -/
theorem der_schema_both_forms :
    derSchemaCheck bothFormsSchema 0 = .ok () ∧ DerSchemaReaches bothFormsSchema 0 0 ∧
      (bothFormsSchema 0).kind = .set ∧ ¬ DistinctTags bothFormsSchema (bothFormsSchema 0) := by
  refine ⟨by decide +kernel, .root, rfl, fun hdistinct => ?_⟩
  exact (hdistinct 0 1 _ _ rfl rfl (by decide) rfl).1 rfl rfl

end Distinct

end OpenTlv
