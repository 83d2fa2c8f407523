import OpenTlv.Asn1.DerSchemaDistinct
import OpenTlv.Schema.Coverage

/-!
# What the definition check of DER schemas covers

The first loop of `check_graph` is a search over the types that the root reaches. The second one
measures the chains of untagged choices. It passes exactly when no chain returns to a type and
none is longer than the limit, whatever types it enters the graph at.
-/

namespace OpenTlv

/-- What a value constraint owes its leaf. -/
def ValueConstraint.Proper : ValueConstraint → Prop
  | .none => True
  | .range minValue maxValue => minValue ≤ maxValue
  | .allowedValues _ => True

/-- What a component owes its type. -/
structure ComponentRules (types : DerSchema) (kind : DerSchemaKind)
    (component : DerSchemaComponent) : Prop where
  chosen : kind = .choice → component.presence = .required ∧ component.defaultEncoding = none
  default : component.presence = .default → component.defaultEncoding.getD [] ≠ []
  implicit : component.tagging = .implicit →
    (types component.type).kind ≠ .choice ∧ (types component.type).kind ≠ .any
  known : kind = .set ∨ kind = .choice → component.tagging = .none →
    (types component.type).kind ≠ .any

/-- The local rules for a type. -/
structure TypeRules (types : DerSchema) (type : DerSchemaType) : Prop where
  leaf : type.kind = .universal → ∀ constraint, type.constraint = some constraint →
    constraint.minLength ≤ constraint.maxLength ∧
      ∀ value, constraint.valueConstraint = some value →
        (type.universalNumber = 2 ∨ type.universalNumber = 10) ∧ value.Proper
  collection : type.kind = .setOf ∨ type.kind = .sequenceOf → ∃ element,
    type.element = some element ∧ type.minElements ≤ type.maxElements ∧
      element.presence = .required
  composite : type.kind = .sequence ∨ type.kind = .set ∨ type.kind = .choice →
    type.components.length ≤ derSchemaMaxComponents
  components : ∀ component ∈ type.references, ComponentRules types type.kind component

variable {types : DerSchema} {root : Nat}

/-- The check accepts exactly the proper constraints. -/
theorem value_constraint_check_iff (value : ValueConstraint) :
    valueConstraintCheck value = .ok () ↔ value.Proper := by
  cases value with
  | none => exact ⟨fun _ => trivial, fun _ => rfl⟩
  | allowedValues values => exact ⟨fun _ => trivial, fun _ => rfl⟩
  | range minValue maxValue =>
    show (if minValue ≤ maxValue then Except.ok () else .error Status.invalidSchema) = _ ↔
      minValue ≤ maxValue
    by_cases h : minValue ≤ maxValue
    · rw [if_pos h]
      exact ⟨fun _ => h, fun _ => rfl⟩
    · rw [if_neg h]
      exact ⟨fun hfailed => (by cases hfailed), fun hless => absurd hless h⟩

/-- What the check of one component accepts. -/
theorem check_component_iff (component : DerSchemaComponent) (inChoice : Bool) :
    checkComponent types component inChoice = .ok () ↔
      ¬ (inChoice = true ∧
        (component.presence ≠ .required ∨ component.defaultEncoding.isSome = true)) ∧
      ¬ (component.presence = .default ∧ component.defaultEncoding.getD [] = []) ∧
      ¬ (component.tagging = .implicit ∧ ((types component.type).kind = .choice ∨
        (types component.type).kind = .any)) := by
  unfold checkComponent
  split
  next hchosen => exact ⟨fun h => (by cases h), fun h => absurd hchosen h.1⟩
  next hchosen =>
    split
    next hdefault => exact ⟨fun h => (by cases h), fun h => absurd hdefault h.2.1⟩
    next hdefault =>
      split
      next himplicit => exact ⟨fun h => (by cases h), fun h => absurd himplicit h.2.2⟩
      next himplicit => exact ⟨fun _ => ⟨hchosen, hdefault, himplicit⟩, fun _ => rfl⟩

theorem component_rules_iff {kind : DerSchemaKind} {component : DerSchemaComponent} :
    ComponentRules types kind component ↔
      checkComponent types component (kind = .choice) = .ok () ∧
        ¬ ((kind = .set ∨ kind = .choice) ∧ component.tagging = .none ∧
          (types component.type).kind = .any) := by
  rw [check_component_iff]
  simp only [decide_eq_true_eq, not_and, not_or, not_not, Option.not_isSome_iff_eq_none]
  exact ⟨fun h => ⟨⟨h.chosen, h.default, h.implicit⟩, h.known⟩,
    fun h => ⟨h.1.1, h.1.2.1, h.1.2.2, h.2⟩⟩

/-- A list passes when every component keeps the rules. -/
theorem check_components_iff (kind : DerSchemaKind) (components : List DerSchemaComponent) :
    checkComponents types kind components = .ok () ↔
      ∀ component ∈ components, ComponentRules types kind component := by
  induction components with
  | nil => exact ⟨fun _ _ hmem => (by cases hmem), fun _ => rfl⟩
  | cons component rest ih =>
    rw [List.forall_mem_cons, ← ih, component_rules_iff]
    show (checkComponent types component (kind = .choice) >>= _) = _ ↔ _
    cases checkComponent types component (kind = .choice) with
    | error status => exact ⟨fun h => (by cases h), fun h => (by cases h.1.1)⟩
    | ok accepted =>
      show (if _ then _ else checkComponents types kind rest) = _ ↔ _
      split
      next hany => exact ⟨fun h => (by cases h), fun h => absurd hany h.1.2⟩
      next hany => exact ⟨fun h => ⟨⟨rfl, hany⟩, h⟩, fun h => h.2⟩

/-- The rules of SEQUENCE, SET and CHOICE. -/
theorem composite_rules_iff {type : DerSchemaType}
    (hkind : type.kind = .sequence ∨ type.kind = .set ∨ type.kind = .choice) :
    TypeRules types type ↔ type.components.length ≤ derSchemaMaxComponents ∧
      ∀ component ∈ type.components, ComponentRules types type.kind component := by
  have hreferences : type.references = type.components := by
    unfold DerSchemaType.references
    rcases hkind with h | h | h <;> rw [h]
  constructor
  · intro h
    exact ⟨h.composite hkind, hreferences ▸ h.components⟩
  · intro h
    refine ⟨fun hleaf => ?_, fun hcollection => ?_, fun _ => h.1, hreferences ▸ h.2⟩
    · rw [hleaf] at hkind
      simp at hkind
    · rcases hcollection with hof | hof <;> simp [hof] at hkind

/-- The rules of SEQUENCE OF and SET OF. -/
theorem collection_rules_iff {type : DerSchemaType}
    (hkind : type.kind = .setOf ∨ type.kind = .sequenceOf) :
    TypeRules types type ↔ ∃ element, type.element = some element ∧
      (type.minElements ≤ type.maxElements ∧ element.presence = .required) ∧
        ComponentRules types type.kind element := by
  have hreferences : type.references = type.element.toList := by
    unfold DerSchemaType.references
    rcases hkind with h | h <;> rw [h]
  constructor
  · intro h
    obtain ⟨element, helement, hbounds⟩ := h.collection hkind
    refine ⟨element, helement, hbounds, h.components element ?_⟩
    rw [hreferences, helement]
    exact List.mem_singleton_self element
  · intro h
    obtain ⟨element, helement, hbounds, hrules⟩ := h
    refine ⟨fun hleaf => ?_, fun _ => ⟨element, helement, hbounds⟩, fun hcomposite => ?_,
      fun component hmem => ?_⟩
    · rw [hleaf] at hkind
      simp at hkind
    · rcases hkind with hof | hof <;> simp [hof] at hcomposite
    · rw [hreferences, helement] at hmem
      rw [List.mem_singleton.mp hmem]
      exact hrules

/-- The rules of a universal type. -/
theorem leaf_rules_iff {type : DerSchemaType} (hkind : type.kind = .universal) :
    TypeRules types type ↔ ∀ constraint, type.constraint = some constraint →
      constraint.minLength ≤ constraint.maxLength ∧
        ∀ value, constraint.valueConstraint = some value →
          (type.universalNumber = 2 ∨ type.universalNumber = 10) ∧ value.Proper := by
  constructor
  · intro h
    exact h.leaf hkind
  · intro h
    refine ⟨fun _ => h, fun hcollection => ?_, fun hcomposite => ?_, fun component hmem => ?_⟩
    · simp [hkind] at hcollection
    · simp [hkind] at hcomposite
    · unfold DerSchemaType.references at hmem
      rw [hkind] at hmem
      cases hmem

theorem any_rules {type : DerSchemaType} (hkind : type.kind = .any) : TypeRules types type := by
  refine ⟨fun hleaf => ?_, fun hcollection => ?_, fun hcomposite => ?_, fun component hmem => ?_⟩
  · simp [hkind] at hleaf
  · simp [hkind] at hcollection
  · simp [hkind] at hcomposite
  · unfold DerSchemaType.references at hmem
    rw [hkind] at hmem
    cases hmem

/-- The check of a universal type is its rules. -/
theorem check_leaf_iff {type : DerSchemaType} (hkind : type.kind = .universal) :
    checkType types type = .ok () ↔ TypeRules types type := by
  rw [leaf_rules_iff hkind]
  unfold checkType
  rw [hkind]
  dsimp only
  cases type.constraint with
  | none => exact ⟨fun _ _ hnone => (by cases hnone), fun _ => rfl⟩
  | some constraint =>
    simp only [Option.some.injEq, forall_eq']
    by_cases hlengths : constraint.minLength > constraint.maxLength
    · rw [if_pos hlengths]
      exact ⟨fun h => (by cases h), fun h => absurd h.1 (by omega)⟩
    · rw [if_neg hlengths]
      have hle : constraint.minLength ≤ constraint.maxLength := by omega
      cases constraint.valueConstraint with
      | none => exact ⟨fun _ => ⟨hle, fun _ hnone => (by cases hnone)⟩, fun _ => rfl⟩
      | some value =>
        simp only [Option.some.injEq, forall_eq']
        by_cases hnumber : type.universalNumber ≠ 2 ∧ type.universalNumber ≠ 10
        · rw [if_pos hnumber]
          exact ⟨fun h => (by cases h), fun h => absurd h.2.1 (by omega)⟩
        · rw [if_neg hnumber, value_constraint_check_iff]
          exact ⟨fun h => ⟨hle, by omega, h⟩, fun h => h.2.2⟩

/-- The check of a collection is the check of its element under the bounds. -/
theorem check_collection_eq {type : DerSchemaType}
    (hkind : type.kind = .setOf ∨ type.kind = .sequenceOf) :
    checkType types type = match type.element with
      | none => .error .invalidSchema
      | some element =>
        if type.minElements > type.maxElements ∨ element.presence ≠ .required then
          .error .invalidSchema
        else checkComponents types type.kind [element] := by
  unfold checkType
  cases type.element with
  | none => rcases hkind with h | h <;> simp only [h]
  | some element => rcases hkind with h | h <;> simp only [h]

/-- The check of a collection is its rules. -/
theorem check_collection_iff {type : DerSchemaType}
    (hkind : type.kind = .setOf ∨ type.kind = .sequenceOf) :
    checkType types type = .ok () ↔ TypeRules types type := by
  rw [collection_rules_iff hkind, check_collection_eq hkind]
  cases type.element with
  | none => exact ⟨fun h => (by cases h), fun h => (by cases h.choose_spec.1)⟩
  | some element =>
    simp only [Option.some.injEq, exists_eq_left']
    by_cases hbounds : type.minElements > type.maxElements ∨ element.presence ≠ .required
    · rw [if_pos hbounds]
      refine ⟨fun h => (by cases h), fun h => ?_⟩
      rcases hbounds with hmore | hpresence
      · exact absurd h.1.1 (by omega)
      · exact absurd h.1.2 hpresence
    · rw [if_neg hbounds, check_components_iff, List.forall_mem_singleton]
      rw [not_or, not_not] at hbounds
      exact ⟨fun h => ⟨⟨by omega, hbounds.2⟩, h⟩, fun h => h.2⟩

/-- The check of a composite type is its rules. -/
theorem check_composite_iff {type : DerSchemaType}
    (hkind : type.kind = .sequence ∨ type.kind = .set ∨ type.kind = .choice) :
    checkType types type = .ok () ↔ TypeRules types type := by
  have hunfold : checkType types type =
      if type.components.length > derSchemaMaxComponents then .error .unsupported
      else checkComponents types type.kind type.components := by
    unfold checkType
    rcases hkind with h | h | h <;> rw [h]
  rw [composite_rules_iff hkind, hunfold]
  by_cases hmany : type.components.length > derSchemaMaxComponents
  · rw [if_pos hmany]
    exact ⟨fun h => (by cases h), fun h => absurd h.1 (by omega)⟩
  · rw [if_neg hmany, check_components_iff]
    exact ⟨fun h => ⟨by omega, h⟩, fun h => h.2⟩

/-- `check_type` accepts the types that keep the rules for types. -/
theorem check_type_iff (type : DerSchemaType) :
    checkType types type = .ok () ↔ TypeRules types type := by
  cases hkind : type.kind with
  | universal => exact check_leaf_iff hkind
  | any =>
    refine ⟨fun _ => any_rules hkind, fun _ => ?_⟩
    unfold checkType
    rw [hkind]
  | setOf => exact check_collection_iff (.inl hkind)
  | sequenceOf => exact check_collection_iff (.inr hkind)
  | sequence => exact check_composite_iff (.inl hkind)
  | set => exact check_composite_iff (.inr (.inl hkind))
  | choice => exact check_composite_iff (.inr (.inr hkind))

/-- The enumeration covers the types that the root reaches, all of them and no others. -/
theorem collect_types_iff (types : DerSchema) (root : Nat) :
    (∃ graph, collectTypes types (derSchemaMaxTypes + 1) 0 [root] = .ok graph) ↔
      {identity | DerSchemaReaches types root identity}.encard ≤ derSchemaMaxTypes ∧
        ∀ identity, DerSchemaReaches types root identity →
          TypeRules types (types identity) := by
  simp only [collect_types_eq, der_schema_reaches_iff, ← check_type_iff]
  exact Worklist.explore_ok_iff (by decide) (by omega)

/-- The collected types are the reachable ones. -/
theorem mem_collect_types {graph : List Nat}
    (h : collectTypes types (derSchemaMaxTypes + 1) 0 [root] = .ok graph) {identity : Nat} :
    identity ∈ graph ↔ DerSchemaReaches types root identity := by
  rw [collect_types_eq] at h
  rw [der_schema_reaches_iff]
  exact Worklist.mem_explore_iff (by decide) (by omega) h

/-! ## Chains of untagged choices -/

/-- An untagged alternative of a CHOICE is a CHOICE itself. -/
def ChoiceEdge (types : DerSchema) (node child : Nat) : Prop :=
  child ∈ transparentChoices types (types node)

/-- A chain of untagged choices that starts at a CHOICE of the definition. -/
structure ChoiceChain (types : DerSchema) (root : Nat) (chain : List Nat) : Prop where
  edges : chain.IsChain (ChoiceEdge types)
  start : ∀ identity, chain.head? = some identity →
    DerSchemaReaches types root identity ∧ (types identity).kind = .choice

/-- The second loop of `check_graph`. -/
def checkChoicePaths (types : DerSchema) (graph : List Nat) : Except Status ChoiceMarks :=
  (graph.filter fun identity => (types identity).kind = .choice).foldlM
    (fun marks identity => checkChoicePath types derSchemaMaxTypeDepth identity marks)
    ({} : ChoiceMarks)

/-- The three loops of `check_graph`. -/
theorem der_schema_check_eq (types : DerSchema) (root : Nat) : derSchemaCheck types root =
    (collectTypes types (derSchemaMaxTypes + 1) 0 [root] >>= fun graph =>
      checkChoicePaths types graph >>= fun _ =>
        graph.forM fun identity => checkIdentifiers types (types identity)) :=
  rfl

/-- The heights fall along a chain, so it is no longer than the first of them and returns
nowhere. -/
theorem chain_heights {marks : ChoiceMarks} (hsound : marks.Sound types) {chain : List Nat}
    (hedges : chain.IsChain (ChoiceEdge types)) {node height : Nat}
    (hhead : chain.head? = some node) (hheight : marks.complete.lookup node = some height) :
    chain.length ≤ height ∧ chain.Nodup ∧
      ∀ other ∈ chain, ∃ below ≤ height, marks.complete.lookup other = some below := by
  induction chain generalizing node height with
  | nil => cases hhead
  | cons first rest ih =>
    cases hhead
    obtain ⟨hpositive, -, hbelow⟩ := hsound _ _ hheight
    cases rest with
    | nil =>
      refine ⟨hpositive, by simp, fun other hother => ?_⟩
      rw [List.mem_singleton.mp hother]
      exact ⟨height, le_refl _, hheight⟩
    | cons second rest =>
      obtain ⟨hedge, hrest⟩ := List.isChain_cons_cons.mp hedges
      obtain ⟨below, hlookup, hless⟩ := hbelow second hedge
      obtain ⟨hlength, hnodup, hall⟩ := ih hrest rfl hlookup
      refine ⟨by rw [List.length_cons]; omega, List.nodup_cons.mpr ⟨fun hmem => ?_, hnodup⟩,
        fun other hother => ?_⟩
      · -- a type that returned would have two heights
        obtain ⟨lower, hle, hlower⟩ := hall first hmem
        rw [hheight] at hlower
        cases hlower
        omega
      · cases hother with
        | head => exact ⟨height, le_refl _, hheight⟩
        | tail _ hother =>
          obtain ⟨lower, hle, hlower⟩ := hall other hother
          exact ⟨lower, by omega, hlower⟩

/-- The heights of the complete types are the lengths of chains. -/
def ChoiceMarks.Realized (types : DerSchema) (marks : ChoiceMarks) : Prop :=
  ∀ node height, marks.complete.lookup node = some height →
    ∃ tail, (node :: tail).IsChain (ChoiceEdge types) ∧ (node :: tail).length = height

/-- Marks that a search may start from, with some types active. -/
structure ChoiceMarks.Ready (types : DerSchema) (active : List Nat) (marks : ChoiceMarks) :
    Prop where
  active : marks.active = active
  sound : marks.Sound types
  realized : marks.Realized types

/-- The length of some chain from a type. -/
def ChainLength (types : DerSchema) (node length : Nat) : Prop :=
  ∃ tail, (node :: tail).IsChain (ChoiceEdge types) ∧ (node :: tail).length = length

/-- The loop over the untagged choices of a type passes when each of them does, and its height is
the length of a chain. -/
theorem choice_children_pass
    {step : Nat × ChoiceMarks → Nat → Except Status (Nat × ChoiceMarks)} {node : Nat}
    {active children : List Nat} (hedges : ∀ child ∈ children, ChoiceEdge types node child)
    (hstep : ∀ child ∈ children, ∀ height marks, marks.Ready types active →
      ∃ after below, step (height, marks) child = .ok (max height (1 + below), after) ∧
        after.Ready types active ∧ after.complete.lookup child = some below)
    {height : Nat} {marks : ChoiceMarks} (hmarks : marks.Ready types active)
    (hheight : ChainLength types node height) :
    ∃ after, children.foldlM step (height, marks) = .ok after ∧ after.2.Ready types active ∧
      ChainLength types node after.1 := by
  induction children generalizing height marks with
  | nil => exact ⟨(height, marks), rfl, hmarks, hheight⟩
  | cons child rest ih =>
    obtain ⟨next, below, hfirst, hnext, hbelow⟩ :=
      hstep child List.mem_cons_self height marks hmarks
    obtain ⟨tail, htail, hlength⟩ := hnext.realized child below hbelow
    have hlonger : ChainLength types node (max height (1 + below)) := by
      rcases Nat.le_total height (1 + below) with hle | hle
      · rw [Nat.max_eq_right hle]
        refine ⟨child :: tail, List.isChain_cons_cons.mpr
          ⟨hedges child List.mem_cons_self, htail⟩, ?_⟩
        rw [List.length_cons, hlength, Nat.add_comm]
      · rw [Nat.max_eq_left hle]
        exact hheight
    rw [List.foldlM_cons, hfirst]
    exact ih (fun other hother => hedges other (List.mem_cons_of_mem _ hother))
      (fun other hother => hstep other (List.mem_cons_of_mem _ hother)) hnext hlonger

/-- A search passes when every chain that goes on from its path is short and returns nowhere. -/
theorem check_choice_path_passes {remaining node : Nat} {active : List Nat} {marks : ChoiceMarks}
    (hroom : remaining + active.length = derSchemaMaxTypeDepth)
    (hpath : (active.reverse ++ [node]).IsChain (ChoiceEdge types))
    (hchains : ∀ tail, (active.reverse ++ node :: tail).IsChain (ChoiceEdge types) →
      (active.reverse ++ node :: tail).Nodup ∧
        (active.reverse ++ node :: tail).length ≤ derSchemaMaxTypeDepth)
    (hmarks : marks.Ready types active) :
    ∃ after, checkChoicePath types remaining node marks = .ok after ∧ after.Realized types := by
  induction remaining generalizing node active marks with
  | zero =>
    obtain ⟨-, hlength⟩ := hchains [] hpath
    rw [List.length_append, List.length_reverse, List.length_singleton] at hlength
    omega
  | succ remaining ih =>
    obtain ⟨hnodup, -⟩ := hchains [] hpath
    have hfresh : node ∉ marks.active := by
      rw [hmarks.active]
      intro hmem
      exact (List.nodup_append.mp hnodup).2.2 node (List.mem_reverse.mpr hmem) node
        (List.mem_singleton_self node) rfl
    obtain ⟨step, hstep, hrun⟩ := @check_choice_path_step types remaining node marks
    rw [hrun, if_neg hfresh]
    by_cases hcomplete : (marks.complete.lookup node).isSome = true
    · rw [if_pos hcomplete]
      exact ⟨marks, rfl, hmarks.realized⟩
    · rw [if_neg hcomplete]
      have hentered : ({ marks with active := node :: marks.active } : ChoiceMarks).Ready types
          (node :: active) :=
        ⟨by rw [hmarks.active], hmarks.sound, hmarks.realized⟩
      have hchildren := @choice_children_pass types step node (node :: active)
        (transparentChoices types (types node)) (fun _ hchild => hchild)
        (fun child hchild height below hbelow => by
          have hlonger : ((node :: active).reverse ++ [child]).IsChain (ChoiceEdge types) := by
            rw [List.reverse_cons, List.append_assoc]
            exact List.isChain_append_cons_cons.mpr
              ⟨hpath, hchild, List.isChain_singleton child⟩
          obtain ⟨after, hafter, hrealized⟩ := ih (by rw [List.length_cons]; omega) hlonger
            (fun tail htail => by
              rw [List.reverse_cons, List.append_assoc] at htail ⊢
              exact hchains (child :: tail) htail) hbelow
          obtain ⟨hextends, hsound, length, hlength⟩ := check_choice_path_ok hafter hbelow.sound
          refine ⟨after, length, ?_, ⟨hextends.active.trans hbelow.active, hsound, hrealized⟩,
            hlength⟩
          rw [hstep]
          dsimp only
          rw [hafter]
          show Except.ok _ = _
          rw [hlength]
          rfl)
        1 _ hentered ⟨[], List.isChain_singleton node, rfl⟩
      obtain ⟨⟨height, left⟩, hfold, hleft, tail, htail, hheight⟩ := hchildren
      dsimp only at hleft hheight
      have hshort : height ≤ derSchemaMaxTypeDepth := by
        have hwhole : (active.reverse ++ node :: tail).IsChain (ChoiceEdge types) :=
          List.isChain_split.mpr ⟨hpath, htail⟩
        obtain ⟨-, hlength⟩ := hchains tail hwhole
        rw [List.length_append, hheight] at hlength
        omega
      rw [hfold]
      refine ⟨{ active := left.active.erase node
                complete := (node, height) :: left.complete }, if_neg (by omega), ?_⟩
      intro other otherHeight hlookup
      change ((node, height) :: left.complete).lookup other = some otherHeight at hlookup
      by_cases hsame : other = node
      · subst hsame
        rw [List.lookup_cons, beq_self_eq_true] at hlookup
        cases hlookup
        exact ⟨tail, htail, hheight⟩
      · rw [List.lookup_cons, beq_eq_false_iff_ne.mpr hsame] at hlookup
        exact hleft.realized other otherHeight hlookup

/-- The second loop of `check_graph` passes when all chains of the definition are short and return
nowhere. -/
theorem choice_paths_pass {identities : List Nat} {marks : ChoiceMarks}
    (hidentities : ∀ identity ∈ identities,
      DerSchemaReaches types root identity ∧ (types identity).kind = .choice)
    (hchains : ∀ chain, ChoiceChain types root chain →
      chain.Nodup ∧ chain.length ≤ derSchemaMaxTypeDepth)
    (hmarks : marks.Ready types []) :
    ∃ after, identities.foldlM (fun marks identity =>
      checkChoicePath types derSchemaMaxTypeDepth identity marks) marks = .ok after := by
  induction identities generalizing marks with
  | nil => exact ⟨marks, rfl⟩
  | cons first rest ih =>
    obtain ⟨next, hfirst, hrealized⟩ := @check_choice_path_passes types derSchemaMaxTypeDepth
      first [] marks rfl (List.isChain_singleton first)
      (fun tail htail => hchains (first :: tail) ⟨htail, fun identity hhead => by
        cases hhead
        exact hidentities first List.mem_cons_self⟩) hmarks
    obtain ⟨hextends, hsound, -⟩ := check_choice_path_ok hfirst hmarks.sound
    rw [List.foldlM_cons, hfirst]
    exact ih (fun identity hmem => hidentities identity (List.mem_cons_of_mem _ hmem))
      ⟨hextends.active.trans hmarks.active, hsound, hrealized⟩

/-- The second loop of `check_graph` passes exactly when all chains of the definition are short
and return nowhere. -/
theorem choice_paths_iff {graph : List Nat}
    (hgraph : collectTypes types (derSchemaMaxTypes + 1) 0 [root] = .ok graph) :
    (∃ marks, checkChoicePaths types graph = .ok marks) ↔
      ∀ chain, ChoiceChain types root chain →
        chain.Nodup ∧ chain.length ≤ derSchemaMaxTypeDepth := by
  have hempty : ({} : ChoiceMarks).Sound types := fun node height hlookup => by cases hlookup
  constructor
  · intro h chain hchain
    obtain ⟨marks, hmarks⟩ := h
    obtain ⟨-, hsound, hcomplete⟩ := choice_paths_ok hmarks hempty
    cases chain with
    | nil => exact ⟨List.nodup_nil, Nat.zero_le _⟩
    | cons first rest =>
      obtain ⟨hreach, hchoice⟩ := hchain.start first rfl
      have hmem : first ∈ graph.filter fun identity => (types identity).kind = .choice :=
        List.mem_filter.mpr ⟨(mem_collect_types hgraph).mpr hreach, by simpa using hchoice⟩
      obtain ⟨height, hheight⟩ := hcomplete first hmem
      obtain ⟨hlength, hnodup, -⟩ := chain_heights hsound hchain.edges rfl hheight
      have := (hsound first height hheight).2.1
      exact ⟨hnodup, by omega⟩
  · intro hchains
    refine @choice_paths_pass types root _ _ (fun identity hmem => ?_) hchains
      ⟨rfl, hempty, fun node height hlookup => by cases hlookup⟩
    obtain ⟨hknown, hchoice⟩ := List.mem_filter.mp hmem
    exact ⟨(mem_collect_types hgraph).mp hknown, by simpa using hchoice⟩

theorem identifiers_pass_iff {graph : List Nat} {check : Nat → Except Status Unit} :
    graph.forM check = .ok () ↔ ∀ identity ∈ graph, check identity = .ok () := by
  induction graph with
  | nil => exact ⟨fun _ _ hmem => (by cases hmem), fun _ => rfl⟩
  | cons first rest ih =>
    rw [List.forall_mem_cons, ← ih]
    show (check first >>= fun _ => rest.forM check) = _ ↔ _
    cases check first with
    | error status => exact ⟨fun h => (by cases h), fun h => (by cases h.1)⟩
    | ok accepted => exact ⟨fun h => ⟨rfl, h⟩, fun h => h.2⟩

/-- `tlv_der_schema_check` covers the types that the root reaches, the chains of untagged choices
among them and the identifiers of their components. -/
theorem der_schema_check_iff (types : DerSchema) (root : Nat) :
    derSchemaCheck types root = .ok () ↔
      ({identity | DerSchemaReaches types root identity}.encard ≤ derSchemaMaxTypes ∧
        ∀ identity, DerSchemaReaches types root identity → TypeRules types (types identity)) ∧
      (∀ chain, ChoiceChain types root chain →
        chain.Nodup ∧ chain.length ≤ derSchemaMaxTypeDepth) ∧
      ∀ identity, DerSchemaReaches types root identity →
        checkIdentifiers types (types identity) = .ok () := by
  rw [der_schema_check_eq, ← collect_types_iff]
  cases hgraph : collectTypes types (derSchemaMaxTypes + 1) 0 [root] with
  | error status => exact ⟨fun h => (by cases h), fun h => (by cases h.1.choose_spec)⟩
  | ok graph =>
    rw [← choice_paths_iff hgraph]
    show (checkChoicePaths types graph >>= _) = _ ↔ _
    cases checkChoicePaths types graph with
    | error status => exact ⟨fun h => (by cases h), fun h => (by cases h.2.1.choose_spec)⟩
    | ok marks =>
      simp only [← mem_collect_types hgraph]
      show graph.forM _ = _ ↔ _
      rw [identifiers_pass_iff]
      exact ⟨fun h => ⟨⟨graph, rfl⟩, ⟨marks, rfl⟩, h⟩, fun h => h.2.2⟩

end OpenTlv
