import OpenTlv.Asn1.DerSchema
import OpenTlv.Asn1.DerTree

/-!
# Schema-aware reading against the plain reader

Whatever the schema reader accepts is a well-formed element: every open container is followed by
contents, and the elements that are charged are the elements of the input. The plain reader then
accepts the same element unless something lies deeper than the limit, which the schema reader
allows by one level inside a component of type ANY and inside an extension addition.
-/

namespace OpenTlv

section Identifiers

variable {types : DerSchema} {component resolved : DerSchemaComponent} {wire : Bytes}

/-- The constructed bit of a lead octet is the one that was put in. -/
theorem lead_constructed (tagClass : Asn1Class) (constructed : Bool) (low : UInt8)
    (hlow : low.toNat ≤ 31) :
    ((tagClass.bits ||| (if constructed then asn1ConstructedBit else 0) ||| low) &&&
      asn1ConstructedBit == asn1ConstructedBit) = constructed := by
  have hall : ∀ n : Fin 32, ∀ tagClass : Asn1Class, ∀ constructed : Bool,
      ((tagClass.bits ||| (if constructed then asn1ConstructedBit else 0) |||
        UInt8.ofNat n.val) &&& asn1ConstructedBit == asn1ConstructedBit) = constructed := by
    intro n tagClass constructed
    cases tagClass <;> cases constructed <;> revert n <;> decide +kernel
  have h := hall ⟨low.toNat, by omega⟩ tagClass constructed
  rwa [UInt8.ofNat_toNat] at h

theorem is_constructed_cons (lead : UInt8) (rest : Bytes) :
    asn1IsConstructed (lead :: rest) =
      (lead &&& asn1ConstructedBit == asn1ConstructedBit) := by
  simp only [asn1IsConstructed, constructedBitPredicate, List.getElem?_cons_zero, Option.any_some]
  rw [show (asn1ConstructedBit != 0) = true from by decide,
    show (asn1ConstructedBit &&& ~~~asn1ConstructedBit == 0) = true from by decide]
  rfl

/-- An identifier that was made has the constructed bit that was asked for. -/
theorem der_tag_make_constructed {tagClass : Asn1Class} {constructed : Bool} {number : Nat}
    {tag : Bytes} (h : derTagMake tagClass constructed number = .ok tag) :
    asn1IsConstructed tag = constructed := by
  unfold derTagMake asn1TagMakeChecked at h
  dsimp only at h
  split at h
  · rename_i hlow
    split at h
    · cases h
    · cases h
      rw [is_constructed_cons]
      refine lead_constructed tagClass constructed _ ?_
      rw [UInt8.toNat_ofNat']
      omega
  · split at h
    · cases h
    · split at h
      · cases h
      · cases h
        rw [is_constructed_cons]
        exact lead_constructed tagClass constructed asn1TagNumberMask (by decide)

/-- What the resolved component says about a tag on the wire. -/
def Resolves (types : DerSchema) (component : DerSchemaComponent) (wire : Bytes) : Prop :=
  if component.tagging ≠ .none then componentIdentifier types component = .ok wire
  else (types component.type).kind = .any ∨ kindIdentifier (types component.type) = .ok wire

/-- A match resolves to the component of the wire's tag. -/
theorem matching_some {tag : Except Status Bytes}
    (h : matching component wire tag = some resolved) :
    resolved = component ∧ tag = .ok wire := by
  unfold matching at h
  split at h
  · cases h
  · split at h
    · rename_i hsame
      cases h
      exact ⟨rfl, by rw [hsame]⟩
    · cases h

/-- A property of every resolution holds of the first one. -/
theorem first_resolved_some
    {resolve : DerSchemaComponent → List Nat → Option DerSchemaComponent × List Nat}
    {good : DerSchemaComponent → Prop}
    (hresolve : ∀ component failed resolved, (resolve component failed).1 = some resolved →
      good resolved) :
    ∀ (components : List DerSchemaComponent) (failed : List Nat) (resolved : DerSchemaComponent),
      (firstResolved resolve components failed).1 = some resolved → good resolved
  | [], _, _, h => by cases h
  | component :: rest, failed, resolved, h => by
      unfold firstResolved at h
      split at h
      · rename_i found failed' hfound
        cases h
        exact hresolve component failed resolved (by rw [hfound])
      · exact first_resolved_some hresolve rest _ resolved h

/-- A resolved component accepts the tag. -/
theorem resolve_tag_some (remaining : Nat) (component : DerSchemaComponent) (failed : List Nat)
    (resolved : DerSchemaComponent)
    (h : (resolveTag types wire remaining component failed).1 = some resolved) :
    Resolves types resolved wire := by
  induction remaining generalizing component failed resolved with
  | zero => cases h
  | succ remaining ih =>
    unfold resolveTag at h
    split at h
    · rename_i htagged
      obtain ⟨rfl, hidentifier⟩ := matching_some h
      rwa [Resolves, if_pos htagged]
    · rename_i huntagged
      split at h
      · rename_i hany
        cases h
        rw [Resolves, if_neg huntagged]
        exact .inl hany
      · split at h
        · cases h
        · split at h
          · rename_i found failed' hfound
            cases h
            exact first_resolved_some ih (types component.type).components failed resolved
              (by rw [hfound])
          · cases h
      · obtain ⟨rfl, hidentifier⟩ := matching_some h
        rw [Resolves, if_neg huntagged]
        exact .inr hidentifier

/-- `resolve_at` finds a component whose identifier is on the wire. -/
theorem resolve_at_some (h : resolveAt types component wire = some resolved) :
    Resolves types resolved wire :=
  resolve_tag_some _ _ _ _ h

/-- An EXPLICIT wrapper is constructed. -/
theorem Resolves.explicit (h : Resolves types component wire)
    (htagging : component.tagging = .explicit) : asn1IsConstructed wire = true := by
  have htagged : component.tagging ≠ .none := by
    rw [htagging]
    decide
  rw [Resolves, if_pos htagged, componentIdentifier, if_pos htagging] at h
  exact der_tag_make_constructed h

/-- Without a wrapper the identifier is constructed as the type is, except for ANY. -/
theorem Resolves.constructed (h : Resolves types component wire)
    (htagging : component.tagging ≠ .explicit) (hany : (types component.type).kind ≠ .any) :
    asn1IsConstructed wire = typeIsConstructed (types component.type) := by
  unfold Resolves at h
  split at h
  · rw [componentIdentifier, if_neg htagging] at h
    exact der_tag_make_constructed h
  · rcases h with h | h
    · exact absurd h hany
    · unfold kindIdentifier at h
      unfold typeIsConstructed
      cases hkind : (types component.type).kind <;> rw [hkind] at h <;>
        first
        | exact der_tag_make_constructed h
        | cases h

/-- A leaf with contents that the validators know is primitive. -/
theorem validate_universal_primitive {number : Nat} {value : Bytes}
    (h : validateUniversalValue number value = .ok ()) : universalIsConstructed number = false := by
  unfold universalIsConstructed
  simp only [Bool.or_eq_false_iff, decide_eq_false_iff_not]
  refine ⟨⟨⟨⟨?_, ?_⟩, ?_⟩, ?_⟩, ?_⟩ <;>
  · rintro rfl
    cases h

end Identifiers

section Pieces

variable {data : Bytes} {limits : DerLimits} {offset size used : Nat} {element : ReadElement}

/-- An element in a part of the input: its extent and its value. -/
theorem slice_element (h : derReadElement (slice data offset size) 0 limits = .ok (element, used)) :
    element.value.length + 2 ≤ used ∧ used ≤ size ∧
      slice data (offset + used - element.value.length) element.value.length = element.value := by
  obtain ⟨hlow, hhigh, hvalue⟩ := der_read_element_ok h
  have hsize : used ≤ size := by
    unfold slice at hhigh
    rw [List.length_take] at hhigh
    omega
  refine ⟨hlow, hsize, ?_⟩
  conv => rhs; rw [hvalue]
  unfold slice
  rw [List.take_take, Nat.min_eq_left hsize, List.drop_take, List.drop_drop]
  congr 1
  · omega
  · congr 1
    omega

theorem slice_rest (data : Bytes) (offset size used : Nat) :
    (slice data offset size).drop used = slice data (offset + used) (size - used) := by
  unfold slice
  rw [List.drop_take, List.drop_drop]

/-- The contents of a part of the input, from those inside its first element and behind it. -/
theorem slice_contents {height count height' count' : Nat}
    (h : derReadElement (slice data offset size) 0 limits = .ok (element, used))
    (hinside : DerContents limits element.inside height count)
    (hrest : DerContents limits (slice data (offset + used) (size - used)) height' count') :
    DerContents limits (slice data offset size) (max (height + 1) height')
      (count + 1 + count') := by
  rw [← slice_rest] at hrest
  exact .cons h hinside hrest

theorem slice_zero (data : Bytes) (offset : Nat) : slice data offset 0 = [] :=
  List.take_zero

/-- What `read_one` returns and charges. -/
theorem schema_read_one_ok {count count' depth : Nat}
    (h : schemaReadOne data limits count offset size depth = .ok (element, used, count')) :
    derReadElement (slice data offset size) 0 limits = .ok (element, used) ∧
      depth ≤ limits.maxDepth ∧ count ≠ limits.maxElements ∧ count' = count + 1 := by
  unfold schemaReadOne at h
  obtain ⟨hlimit, h⟩ := guard_ok.mp h
  obtain ⟨read, hread, h⟩ := bind_ok.mp h
  cases h
  exact ⟨(der_read_element_base 0).mp hread, by omega, by omega, rfl⟩

/-- What `dispatch_any` accepts and charges. -/
theorem dispatch_any_ok {count count' depth : Nat} {constructed : Bool}
    (h : dispatchAny data limits count offset size constructed depth = .ok count') :
    (count ≤ limits.maxElements → count' ≤ limits.maxElements) ∧
      ∃ height number, count' = count + number ∧
        DerContents limits (if constructed then slice data offset size else []) height number := by
  unfold dispatchAny at h
  split at h
  · rename_i hprimitive
    cases h
    refine ⟨id, 0, 0, rfl, ?_⟩
    rw [if_neg (by rw [hprimitive]; exact Bool.false_ne_true)]
    exact .nil
  · rename_i hconstructed
    have hconstructed : constructed = true := by simpa using hconstructed
    cases hvisit : derVisit (slice data offset size)
        { limits with
          maxDepth := limits.maxDepth - depth
          maxElements := limits.maxElements - count }
        (some derSchemaCountVisitor) 0 with
    | error failed =>
      rw [hvisit] at h
      cases h
    | ok visited =>
      rw [hvisit] at h
      cases h
      obtain ⟨height, hcontents, -, hbound⟩ := der_visit_count hvisit
      dsimp only at hbound
      refine ⟨fun hcount => by omega, height, visited, rfl, ?_⟩
      rw [if_pos hconstructed]
      exact DerContents.of_limits (by rfl) hcontents

end Pieces

section Frames

variable {types : DerSchema} {data : Bytes} {limits : DerLimits}

/-- Every open container is followed by contents, `number` elements in all. -/
def SchemaPending (data : Bytes) (limits : DerLimits) : List DerSchemaFrame → Nat → Prop
  | [], number => number = 0
  | frame :: outer, number =>
    ∃ height inner rest, DerContents limits (slice data frame.pos (frame.ending - frame.pos))
      height inner ∧ SchemaPending data limits outer rest ∧ number = inner + rest

/-- Pending frames split into their parts. -/
theorem schema_pending_append {frames frames' : List DerSchemaFrame} {number : Nat}
    (h : SchemaPending data limits (frames ++ frames') number) :
    ∃ inner rest, SchemaPending data limits frames inner ∧
      SchemaPending data limits frames' rest ∧ number = inner + rest := by
  induction frames generalizing number with
  | nil => exact ⟨0, number, rfl, h, by omega⟩
  | cons frame frames ih =>
    obtain ⟨height, inner, rest, hcontents, hrest, rfl⟩ := h
    obtain ⟨inner', rest', hinner, hrest', rfl⟩ := ih hrest
    exact ⟨inner + inner', rest', ⟨height, inner, inner', hcontents, hinner, rfl⟩, hrest',
      by omega⟩

/-- An element is handled: what is left of it are the pushed containers, and the rest of its
elements are charged. -/
structure Handled (data : Bytes) (limits : DerLimits) (element : ReadElement)
    (count : Nat) (pushed : List DerSchemaFrame) (count' : Nat) : Prop where
  bound : count ≤ limits.maxElements → count' ≤ limits.maxElements
  contents : ∀ number, SchemaPending data limits pushed number →
    ∃ height inner, DerContents limits element.inside height inner ∧
      count + inner ≤ count' + number

/-- An element whose contents are left to the plain reader. -/
theorem dispatch_any_handled {offset size used base count count' depth : Nat}
    {element : ReadElement}
    (hread : derReadElement (slice data offset size) 0 limits = .ok (element, used))
    (hbase : base = offset + used - element.value.length)
    (h : dispatchAny data limits count base element.value.length
      (asn1IsConstructed element.tag) depth = .ok count') :
    Handled data limits element count [] count' := by
  obtain ⟨-, -, hvalue⟩ := slice_element hread
  obtain ⟨hbound, height, number, rfl, hcontents⟩ := dispatch_any_ok h
  rw [hbase, hvalue] at hcontents
  exact ⟨hbound, fun number' hnumber' => ⟨height, number, hcontents, by omega⟩⟩

/-- An element that is all inside a wrapper. -/
theorem Handled.wrap {element inner : ReadElement} {base count count' : Nat}
    {pushed : List DerSchemaFrame}
    (hread : derReadElement (slice data base element.value.length) 0 limits =
      .ok (inner, element.value.length))
    (hinside : element.inside = slice data base element.value.length)
    (hcount : count ≠ limits.maxElements)
    (h : Handled data limits inner (count + 1) pushed count') :
    Handled data limits element count pushed count' := by
  refine ⟨fun hle => h.bound (by omega), ?_⟩
  intro number hnumber
  obtain ⟨height, rest, hcontents, hcharged⟩ := h.contents number hnumber
  refine ⟨max (height + 1) 0, rest + 1 + 0, ?_, ?_⟩
  · rw [hinside]
    have hnothing : DerContents limits (slice data (base + element.value.length)
        (element.value.length - element.value.length)) 0 0 := by
      rw [Nat.sub_self, slice_zero]
      exact .nil
    exact slice_contents hread hcontents hnothing
  · omega

/-- An element with nothing inside. -/
theorem handled_empty {element : ReadElement} {count : Nat} (hinside : element.inside = []) :
    Handled data limits element count [] count := by
  refine ⟨id, fun number hnumber => ⟨0, 0, ?_, by omega⟩⟩
  rw [hinside]
  exact .nil

/-- A wrapper around an element that is left to the plain reader, which is charged twice. -/
theorem dispatch_any_wrapped {element inner : ReadElement} {base count count' depth : Nat}
    (hread : derReadElement (slice data base element.value.length) 0 limits =
      .ok (inner, element.value.length))
    (hinside : element.inside = slice data base element.value.length)
    (hcount : count ≠ limits.maxElements)
    (h : dispatchAny data limits (count + 1) base element.value.length
      (asn1IsConstructed inner.tag) depth = .ok count') :
    Handled data limits element count [] count' := by
  obtain ⟨hbound, height, number, rfl, hcontents⟩ := dispatch_any_ok h
  cases hconstructed : asn1IsConstructed inner.tag with
  | true =>
    rw [hconstructed, if_pos rfl] at hcontents
    refine ⟨fun hle => hbound (by omega), ?_⟩
    intro number' hnumber'
    refine ⟨height, number, ?_, by omega⟩
    rw [hinside]
    exact hcontents
  | false =>
    rw [hconstructed, if_neg Bool.false_ne_true] at hcontents
    obtain ⟨rfl, rfl⟩ := der_contents_nil hcontents
    refine Handled.wrap hread hinside hcount (handled_empty ?_)
    rw [ReadElement.inside, if_neg (by rw [hconstructed]; exact Bool.false_ne_true)]

/-- A container that is opened. -/
theorem handled_container {element : ReadElement} {base count type depth : Nat}
    (hinside : element.inside = slice data base element.value.length) :
    Handled data limits element count
      [{ type := type, depth := depth, pos := base, ending := base + element.value.length }]
      count := by
  refine ⟨id, ?_⟩
  rintro number ⟨height, inner, rest, hcontents, hrest, rfl⟩
  rw [Nat.add_sub_cancel_left, ← hinside] at hcontents
  exact ⟨height, inner, hcontents, by omega⟩

/-- `handle_matched_element` on an element that the component resolves. -/
theorem handle_matched_element_ok {fuel used offset size depth : Nat} {element : ReadElement}
    {component : DerSchemaComponent} {s s' : DerSchemaRun}
    (hread : derReadElement (slice data offset size) 0 limits = .ok (element, used))
    (hresolves : Resolves types component element.tag)
    (h : handleMatchedElement types data limits fuel element used offset component depth s =
      .ok s') :
    ∃ pushed, s'.frames = pushed ++ s.frames ∧
      Handled data limits element s.count pushed s'.count := by
  -- on the wrappers of EXPLICIT tags
  induction fuel generalizing element used offset size component depth s with
  | zero => cases h
  | succ fuel ih =>
    obtain ⟨-, -, hvalue⟩ := slice_element hread
    unfold handleMatchedElement at h
    dsimp only at h
    by_cases hexplicit : component.tagging = .explicit
    · rw [if_pos hexplicit] at h
      have hinside : element.inside = element.value := by
        rw [ReadElement.inside, if_pos (hresolves.explicit hexplicit)]
      obtain ⟨⟨inner, innerUsed, count⟩, hone, h⟩ := bind_ok.mp h
      obtain ⟨hinner, -, hcount, rfl⟩ := schema_read_one_ok hone
      simp only [bind, Except.bind] at h
      split at h
      · cases h
      rename_i hwhole
      have hwhole : innerUsed = element.value.length := by simpa using hwhole
      subst hwhole
      rw [← hvalue] at hinside
      split at h
      · rename_i hany
        obtain ⟨count, hdispatch, h⟩ := bind_ok.mp h
        cases h
        exact ⟨[], rfl, dispatch_any_wrapped hinner hinside hcount hdispatch⟩
      · cases hresolve : resolveAt types { type := component.type } inner.tag with
        | none =>
          rw [hresolve] at h
          cases h
        | some resolved =>
          rw [hresolve] at h
          obtain ⟨pushed, hframes, hhandled⟩ :=
            ih hinner (resolve_at_some hresolve) h
          exact ⟨pushed, hframes, hhandled.wrap hinner hinside hcount⟩
    · rw [if_neg hexplicit] at h
      have hplain := hresolves.constructed hexplicit
      have hcontainer : typeIsConstructed (types component.type) = true →
          (types component.type).kind ≠ .any →
          element.inside = slice data (offset + used - element.value.length)
            element.value.length := by
        intro hconstructed hany
        rw [hvalue, ReadElement.inside, if_pos ((hplain hany).trans hconstructed)]
      -- without a wrapper the kind of the type decides
      cases hkind : (types component.type).kind with
      | universal =>
        rw [hkind] at h
        cases hvalid : validateUniversalValue (types component.type).universalNumber
            element.value with
        | error status =>
          rw [hvalid] at h
          cases h
        | ok accepted =>
          rw [hvalid] at h
          have hprimitive := hplain (by rw [hkind]; decide)
          rw [typeIsConstructed, hkind] at hprimitive
          dsimp only at hprimitive
          rw [validate_universal_primitive hvalid] at hprimitive
          have hinside : element.inside = [] := by
            rw [ReadElement.inside, if_neg (by rw [hprimitive]; exact Bool.false_ne_true)]
          cases hleaf : validateLeafConstraint (types component.type) element.value with
          | error status =>
            rw [hleaf] at h
            cases h
          | ok accepted =>
            rw [hleaf] at h
            cases h
            exact ⟨[], rfl, handled_empty hinside⟩
      | any =>
        rw [hkind] at h
        dsimp only at h
        obtain ⟨count, hdispatch, h⟩ := bind_ok.mp h
        cases h
        exact ⟨[], rfl, dispatch_any_handled hread rfl hdispatch⟩
      | choice =>
        rw [hkind] at h
        cases h
      | sequence | set | setOf | sequenceOf =>
        rw [hkind] at h
        dsimp only at h
        obtain ⟨-, h⟩ := guard_ok.mp h
        cases h
        refine ⟨[_], rfl, handled_container (hcontainer ?_ ?_)⟩
        · rw [typeIsConstructed, hkind]
        · rw [hkind]
          decide

end Frames

section Steps

variable {types : DerSchema} {data : Bytes} {limits : DerLimits} {frame : DerSchemaFrame}
  {outer : List DerSchemaFrame} {s s' : DerSchemaRun}

/-- An element of the innermost container was read, and it was handled. -/
def SchemaMoved (data : Bytes) (limits : DerLimits) (frame : DerSchemaFrame)
    (outer : List DerSchemaFrame) (s s' : DerSchemaRun) : Prop :=
  ∃ element used frame' pushed,
    derReadElement (slice data frame.pos (frame.ending - frame.pos)) 0 limits =
      .ok (element, used) ∧
    s.count ≠ limits.maxElements ∧ s'.frames = pushed ++ frame' :: outer ∧
    frame'.pos = frame.pos + used ∧ frame'.ending = frame.ending ∧
    Handled data limits element (s.count + 1) pushed s'.count

/-- An element of a container that was read. -/
theorem schema_moved_of_read {element : ReadElement} {used count : Nat} {frame' : DerSchemaFrame}
    {pushed : List DerSchemaFrame}
    (hone : schemaReadOne data limits s.count frame.pos (frame.ending - frame.pos)
      (frame.depth + 1) = .ok (element, used, count))
    (hframes : s'.frames = pushed ++ frame' :: outer) (hpos : frame'.pos = frame.pos + used)
    (hending : frame'.ending = frame.ending)
    (hhandled : Handled data limits element count pushed s'.count) :
    SchemaMoved data limits frame outer s s' := by
  obtain ⟨hread, -, hcount, rfl⟩ := schema_read_one_ok hone
  exact ⟨element, used, frame', pushed, hread, hcount, hframes, hpos, hending, hhandled⟩

/-- An element that a component accepts. -/
theorem accept_element_moved {element : ReadElement} {used count : Nat} {frame' : DerSchemaFrame}
    {component resolved : DerSchemaComponent}
    (hone : schemaReadOne data limits s.count frame.pos (frame.ending - frame.pos)
      (frame.depth + 1) = .ok (element, used, count))
    (hresolved : resolveAt types component element.tag = some resolved)
    (h : acceptElement types data limits element used frame' outer resolved count = .ok s')
    (hpos : frame'.pos = frame.pos) (hending : frame'.ending = frame.ending) :
    SchemaMoved data limits frame outer s s' := by
  obtain ⟨hread, -, -, -⟩ := schema_read_one_ok hone
  unfold acceptElement at h
  rw [hpos] at h
  obtain ⟨pushed, hframes, hhandled⟩ :=
    handle_matched_element_ok hread (resolve_at_some hresolved) h
  exact schema_moved_of_read hone hframes rfl hending hhandled

/-- A SEQUENCE match resolves its component. -/
theorem match_sequence_some {tag : Bytes} {elemBase : Nat} {component resolved : DerSchemaComponent}
    {index' : Nat} (components : List DerSchemaComponent) (index : Nat)
    (h : matchSequence types tag elemBase components index =
      .ok (some (component, resolved), index')) :
    resolveAt types component tag = some resolved := by
  induction components generalizing index with
  | nil => cases h
  | cons other rest ih =>
    unfold matchSequence at h
    split at h
    · rename_i found hfound
      cases h
      exact hfound
    · split at h
      · cases h
      · exact ih (index + 1) h

/-- A SET match resolves its component. -/
theorem match_set_some {tag : Bytes} {component resolved : DerSchemaComponent} {index' : Nat}
    (components : List DerSchemaComponent) (index : Nat)
    (h : matchSet types tag components index = some (index', component, resolved)) :
    resolveAt types component tag = some resolved := by
  induction components generalizing index with
  | nil => cases h
  | cons other rest ih =>
    unfold matchSet at h
    split at h
    · rename_i found hfound
      cases h
      exact hfound
    · exact ih (index + 1) h

/-- A SEQUENCE step moves the frame forward. -/
theorem process_sequence_moved
    (h : processSequence types data limits frame outer s = .ok s') :
    SchemaMoved data limits frame outer s s' := by
  unfold processSequence at h
  obtain ⟨⟨element, used, count⟩, hone, h⟩ := bind_ok.mp h
  dsimp only at h
  obtain ⟨⟨found, index⟩, hmatch, h⟩ := bind_ok.mp h
  cases found with
  | some pair =>
    obtain ⟨component, resolved⟩ := pair
    dsimp only at h
    obtain ⟨-, h⟩ := guard_ok.mp h
    exact accept_element_moved hone (match_sequence_some _ _ hmatch) h rfl rfl
  | none =>
    dsimp only at h
    split at h
    · obtain ⟨count', hdispatch, h⟩ := bind_ok.mp h
      cases h
      obtain ⟨hread, -, -, -⟩ := schema_read_one_ok hone
      refine schema_moved_of_read hone (List.nil_append _).symm ?_ ?_
        (dispatch_any_handled hread rfl hdispatch)
      · rfl
      · rfl
    · cases h

/-- A SET step moves the frame forward. -/
theorem process_set_moved (h : processSet types data limits frame outer s = .ok s') :
    SchemaMoved data limits frame outer s s' := by
  unfold processSet at h
  obtain ⟨⟨element, used, count⟩, hone, h⟩ := bind_ok.mp h
  dsimp only at h
  cases hmatch : matchSet types element.tag (types frame.type).components 0 with
  | none =>
    rw [hmatch] at h
    cases h
  | some found =>
    rw [hmatch] at h
    obtain ⟨index, component, resolved⟩ := found
    dsimp only at h
    obtain ⟨-, h⟩ := guard_ok.mp h
    obtain ⟨-, h⟩ := guard_ok.mp h
    obtain ⟨-, h⟩ := guard_ok.mp h
    exact accept_element_moved hone (match_set_some _ _ hmatch) h rfl rfl

/-- A SET OF step moves the frame forward. -/
theorem process_set_of_moved (h : processSetOf types data limits frame outer s = .ok s') :
    SchemaMoved data limits frame outer s s' := by
  unfold processSetOf at h
  obtain ⟨-, h⟩ := guard_ok.mp h
  obtain ⟨⟨element, used, count⟩, hone, h⟩ := bind_ok.mp h
  dsimp only at h
  split at h
  · cases h
  · rename_i resolved hresolved
    obtain ⟨component, -, hresolved⟩ := Option.bind_eq_some_iff.mp hresolved
    obtain ⟨-, h⟩ := guard_ok.mp h
    exact accept_element_moved hone hresolved h rfl rfl

/-- A SEQUENCE OF step moves the frame forward. -/
theorem process_sequence_of_moved
    (h : processSequenceOf types data limits frame outer s = .ok s') :
    SchemaMoved data limits frame outer s s' := by
  unfold processSequenceOf at h
  obtain ⟨-, h⟩ := guard_ok.mp h
  obtain ⟨⟨element, used, count⟩, hone, h⟩ := bind_ok.mp h
  dsimp only at h
  split at h
  · cases h
  · rename_i resolved hresolved
    obtain ⟨component, -, hresolved⟩ := Option.bind_eq_some_iff.mp hresolved
    exact accept_element_moved hone hresolved h rfl rfl

/-- An iteration leaves a container that is used up, or reads an element of it. -/
theorem schema_step_cases (hframes : s.frames = frame :: outer)
    (h : schemaStep types data limits s = .ok s') :
    (frame.pos = frame.ending ∧ s' = { s with frames := outer }) ∨
      SchemaMoved data limits frame outer s s' := by
  unfold schemaStep at h
  rw [hframes] at h
  dsimp only at h
  split at h
  · rename_i hend
    obtain ⟨-, h⟩ := guard_ok.mp h
    cases h
    exact .inl ⟨hend, rfl⟩
  · split at h
    · exact .inr (process_sequence_moved h)
    · exact .inr (process_set_moved h)
    · exact .inr (process_set_of_moved h)
    · exact .inr (process_sequence_of_moved h)
    · cases h
    · cases h
    · cases h

/-- What is ahead after an iteration was ahead before it, with the elements it charges. -/
theorem schema_step_pending (hlive : s.frames ≠ [])
    (hcount : s.count ≤ limits.maxElements) (h : schemaStep types data limits s = .ok s') :
    s'.count ≤ limits.maxElements ∧
      ∀ number, SchemaPending data limits s'.frames number →
        ∃ number', SchemaPending data limits s.frames number' ∧
          s.count + number' ≤ s'.count + number := by
  cases hframes : s.frames with
  | nil => exact absurd hframes hlive
  | cons frame outer =>
    rcases schema_step_cases hframes h with ⟨hend, rfl⟩ |
      ⟨element, used, frame', pushed, hread, hnot, hframes', hpos, hending, hhandled⟩
    · refine ⟨hcount, ?_⟩
      intro number hnumber
      refine ⟨number, ⟨0, 0, number, ?_, hnumber, by omega⟩, Nat.le_refl _⟩
      rw [hend, Nat.sub_self, slice_zero]
      exact .nil
    · refine ⟨hhandled.bound (by omega), ?_⟩
      intro number hnumber
      rw [hframes'] at hnumber
      obtain ⟨ahead, rest, hahead, hrest, rfl⟩ := schema_pending_append hnumber
      obtain ⟨height, behind, outside, hbehind, houtside, rfl⟩ := hrest
      obtain ⟨height', inner, hinner, hcharged⟩ := hhandled.contents ahead hahead
      rw [hpos, hending, ← Nat.sub_sub] at hbehind
      exact ⟨inner + 1 + behind + outside,
        ⟨_, _, _, slice_contents hread hinner hbehind, houtside, rfl⟩, by omega⟩

/-- A run that ends has contents ahead in every open container, within the element limit. -/
theorem schema_drive_pending {fuel : Nat} (hcount : s.count ≤ limits.maxElements)
    (h : drive (Status.callback, none) (·.frames.isEmpty) (schemaStep types data limits) fuel s =
      .ok s') :
    ∃ number, SchemaPending data limits s.frames number ∧
      s.count + number ≤ limits.maxElements := by
  have hdone : s.frames.isEmpty = true → ∃ number, SchemaPending data limits s.frames number ∧
      s.count + number ≤ limits.maxElements := by
    intro hempty
    rw [List.isEmpty_iff] at hempty
    rw [hempty]
    exact ⟨0, rfl, hcount⟩
  induction fuel generalizing s with
  | zero =>
    unfold drive at h
    split at h
    · rename_i hempty
      exact hdone hempty
    · cases h
  | succ fuel ih =>
    unfold drive at h
    split at h
    · rename_i hempty
      exact hdone hempty
    · rename_i hlive
      obtain ⟨next, hstep, h⟩ := bind_ok.mp h
      have hlive' : s.frames ≠ [] := by simpa using hlive
      obtain ⟨hbound, hback⟩ := schema_step_pending hlive' hcount hstep
      obtain ⟨number, hnumber, hle⟩ := ih hbound h (fun hempty => by
        rw [List.isEmpty_iff] at hempty
        rw [hempty]
        exact ⟨0, rfl, hbound⟩)
      obtain ⟨number', hnumber', hle'⟩ := hback number hnumber
      exact ⟨number', hnumber', by omega⟩

end Steps

section Read

variable {types : DerSchema} {data : Bytes} {root : Nat} {limits : DerSchemaLimits}
  {element : ReadElement} {used : Nat}

/-- What the schema reader accepts is an element with contents, within the element limit. -/
theorem schema_read_input_contents
    (h : schemaReadInput types data root limits = .ok (element, used)) :
    limits.base.maxDepth ≤ derMaxDepth ∧ data.length ≤ limits.base.maxInputSize ∧
      derReadElement data 0 limits.base = .ok (element, used) ∧
      ∃ height count, DerContents limits.base element.inside height count ∧
        count + 1 ≤ limits.base.maxElements := by
  unfold schemaReadInput at h
  split at h
  · cases h
  rename_i hdepth
  split at h
  · cases h
  rename_i hsize
  split at h
  · cases h
  obtain ⟨⟨first, firstUsed, count⟩, hone, h⟩ := bind_ok.mp h
  dsimp only at h
  obtain ⟨hread, -, hlimit, rfl⟩ := schema_read_one_ok hone
  have hwhole : slice data 0 data.length = data := by
    rw [slice, List.drop_zero, List.take_length]
  cases hresolve : resolveAt types { type := root } first.tag with
  | none =>
    rw [hresolve] at h
    cases h
  | some resolved =>
    rw [hresolve] at h
    dsimp only at h
    obtain ⟨s, hhandle, h⟩ := bind_ok.mp h
    cases hdrive : drive (Status.callback, none) (·.frames.isEmpty)
        (schemaStep types data limits.base) (data.length + 1) s with
    | error failed =>
      rw [hdrive] at h
      cases h
    | ok s' =>
      rw [hdrive] at h
      cases h
      obtain ⟨pushed, hframes, hhandled⟩ :=
        handle_matched_element_ok hread (resolve_at_some hresolve) hhandle
      rw [List.append_nil] at hframes
      obtain ⟨number, hpending, hle⟩ :=
        schema_drive_pending (hhandled.bound (by dsimp only; omega)) hdrive
      rw [hframes] at hpending
      obtain ⟨height, inner, hcontents, hcharged⟩ :=
        hhandled.contents number hpending
      rw [hwhole] at hread
      dsimp only at hcharged
      exact ⟨by omega, by omega, hread, height, inner, hcontents, by omega⟩

/-- Whatever the schema reader accepts, the plain reader accepts in the same extent if and only if
no element of it lies deeper than the limit. -/
theorem der_schema_read_strict
    (h : derSchemaRead types data root limits = .ok (element, used)) :
    derRead data limits.base = .ok (element, used) ↔
      derDepth data limits.base ≤ limits.base.maxDepth := by
  unfold derSchemaRead at h
  cases hcheck : derSchemaCheck types root with
  | error status =>
    rw [hcheck] at h
    cases h
  | ok accepted =>
    rw [hcheck] at h
    obtain ⟨hdepth, hsize, hread, height, count, hcontents, hcount⟩ :=
      schema_read_input_contents h
    rw [der_depth_eq hread hcontents, der_read_ok_iff]
    constructor
    · rintro ⟨-, -, -, height', count', hcontents', hheight', -⟩
      rw [(der_contents_unique hcontents hcontents').1]
      exact hheight'
    · intro hheight
      exact ⟨hdepth, hsize, hread, height, count, hcontents, hheight, hcount⟩

/-- SEQUENCE of one ANY. -/
def wrappedAny : DerSchema
  | 0 => { kind := .sequence, components := [{ type := 1 }] }
  | _ => { kind := .any }

theorem der_schema_read_strict_any :
    derSchemaRead wrappedAny [0x30, 4, 0x30, 2, 5, 0] 0 ⟨⟨2, 100, 100, 100⟩, 10⟩ =
        .ok (⟨[0x30], [0x30, 2, 5, 0]⟩, 6) ∧
      (derRead [0x30, 4, 0x30, 2, 5, 0] ⟨2, 100, 100, 100⟩ =
          .ok (⟨[0x30], [0x30, 2, 5, 0]⟩, 6) ↔
        derDepth [0x30, 4, 0x30, 2, 5, 0] ⟨2, 100, 100, 100⟩ ≤ 2) :=
  have haccepted : derSchemaRead wrappedAny [0x30, 4, 0x30, 2, 5, 0] 0 ⟨⟨2, 100, 100, 100⟩, 10⟩ =
      .ok (⟨[0x30], [0x30, 2, 5, 0]⟩, 6) := by
    decide +kernel
  ⟨haccepted, der_schema_read_strict haccepted⟩

/-- At depth limit 1 an ANY may have an element at depth 2, which the plain reader refuses. -/
theorem der_schema_read_deeper :
    derSchemaRead wrappedAny [0x30, 4, 0x30, 2, 5, 0] 0 ⟨⟨1, 100, 100, 100⟩, 10⟩ =
        .ok (⟨[0x30], [0x30, 2, 5, 0]⟩, 6) ∧
      derRead [0x30, 4, 0x30, 2, 5, 0] ⟨1, 100, 100, 100⟩ = .error (.limit, some 4) := by
  decide +kernel

end Read

end OpenTlv
