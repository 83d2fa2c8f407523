import OpenTlv.Asn1.DerSchemaCoverage

/-!
# The failed types of `resolve_tag` against a plain search

`resolve_tag` gives up below a fixed depth, and it searches no type twice that failed. In a
checked definition neither shows: the heights that `check_choice_path` computed bound the depth,
and the types that fail below a CHOICE are lower than it, so each enters the cache once.
-/

namespace OpenTlv

section Plain

variable (types : DerSchema) (wire : Bytes)

/-- The first component that a search finds something for, `none` when a search does not end. -/
def firstPlain (search : DerSchemaComponent → Option (Option DerSchemaComponent)) :
    List DerSchemaComponent → Option (Option DerSchemaComponent)
  | [] => some none
  | component :: rest =>
    match search component with
    | none => none
    | some (some resolved) => some (some resolved)
    | some none => firstPlain search rest

/-- The first alternative of a component, in the order of declaration, that has the identifier.
The search remembers nothing; it is `none` when the fuel runs out. -/
def searchPlain : Nat → DerSchemaComponent → Option (Option DerSchemaComponent)
  | 0, _ => none
  | fuel + 1, component =>
    if component.tagging ≠ .none then
      some (matching component wire (componentIdentifier types component))
    else
      match (types component.type).kind with
      | .any => some (some component)
      | .choice => firstPlain (searchPlain fuel) (types component.type).components
      | _ => some (matching component wire (kindIdentifier (types component.type)))

/-- What could go wrong in `resolve_tag`. -/
inductive ResolutionFault where
  | depth
  | overflow
  | suppressed
  deriving Repr, DecidableEq

/-- `firstResolved` with faults. -/
def firstMonitored (resolve : DerSchemaComponent → List Nat →
      Except ResolutionFault (Option DerSchemaComponent × List Nat)) :
    List DerSchemaComponent → List Nat →
      Except ResolutionFault (Option DerSchemaComponent × List Nat)
  | [], failed => .ok (none, failed)
  | component :: rest, failed =>
    match resolve component failed with
    | .error fault => .error fault
    | .ok (some resolved, failed) => .ok (some resolved, failed)
    | .ok (none, failed) => firstMonitored resolve rest failed

/-- `resolveTag` under a monitor: the depth cutoff is a fault, a failed type that does not fit is
one, and so is a failed type below which a plain search finds something. -/
def resolveTagMonitored : Nat → DerSchemaComponent → List Nat →
    Except ResolutionFault (Option DerSchemaComponent × List Nat)
  | 0, _, _ => .error .depth
  | remaining + 1, component, failed =>
    if component.tagging ≠ .none then
      .ok (matching component wire (componentIdentifier types component), failed)
    else
      match (types component.type).kind with
      | .any => .ok (some component, failed)
      | .choice =>
        if component.type ∈ failed then
          if firstPlain (searchPlain types wire remaining)
              (types component.type).components = some none then .ok (none, failed)
          else .error .suppressed
        else
          match firstMonitored (resolveTagMonitored remaining)
              (types component.type).components failed with
          | .error fault => .error fault
          | .ok (some resolved, failed) => .ok (some resolved, failed)
          | .ok (none, failed) =>
            if failed.length < derSchemaMaxTypes then
              .ok (none, failed ++ [component.type])
            else .error .overflow
      | _ => .ok (matching component wire (kindIdentifier (types component.type)), failed)

end Plain

variable {types : DerSchema} {wire : Bytes} {root : Nat}

/-- The monitored search finds what the memoised one finds. -/
theorem first_monitored_ok
    {resolve : DerSchemaComponent → List Nat → Option DerSchemaComponent × List Nat}
    {monitored : DerSchemaComponent → List Nat →
      Except ResolutionFault (Option DerSchemaComponent × List Nat)}
    (hresolve : ∀ component failed result,
      monitored component failed = .ok result → resolve component failed = result)
    {components : List DerSchemaComponent} {failed : List Nat}
    {result : Option DerSchemaComponent × List Nat}
    (h : firstMonitored monitored components failed = .ok result) :
    firstResolved resolve components failed = result := by
  induction components generalizing failed with
  | nil =>
    cases h
    rfl
  | cons component rest ih =>
    unfold firstMonitored at h
    unfold firstResolved
    cases hfirst : monitored component failed with
    | error fault =>
      rw [hfirst] at h
      cases h
    | ok first =>
      rw [hfirst] at h
      rw [hresolve component failed first hfirst]
      obtain ⟨found, failed'⟩ := first
      cases found with
      | none => exact ih h
      | some resolved =>
        cases h
        rfl

/-- Without a fault the monitor changes nothing. -/
theorem resolve_tag_monitored_ok {remaining : Nat} {component : DerSchemaComponent}
    {failed : List Nat} {result : Option DerSchemaComponent × List Nat}
    (h : resolveTagMonitored types wire remaining component failed = .ok result) :
    resolveTag types wire remaining component failed = result := by
  induction remaining generalizing component failed result with
  | zero => cases h
  | succ remaining ih =>
    unfold resolveTagMonitored at h
    unfold resolveTag
    by_cases htagged : component.tagging ≠ .none
    · rw [if_pos htagged] at h ⊢
      cases h
      rfl
    · rw [if_neg htagged] at h ⊢
      cases hkind : (types component.type).kind with
      | choice =>
        rw [hkind] at h
        dsimp only at h ⊢
        by_cases hknown : component.type ∈ failed
        · rw [if_pos hknown] at h ⊢
          split at h
          · cases h
            rfl
          · cases h
        · rw [if_neg hknown] at h ⊢
          cases hfirst : firstMonitored (resolveTagMonitored types wire remaining)
              (types component.type).components failed with
          | error fault =>
            rw [hfirst] at h
            cases h
          | ok first =>
            rw [hfirst] at h
            rw [first_monitored_ok (fun _ _ _ hok => ih hok) hfirst]
            obtain ⟨found, failed'⟩ := first
            cases found with
            | some resolved =>
              cases h
              rfl
            | none =>
              dsimp only at h ⊢
              split at h
              next hroom =>
                cases h
                rw [if_pos hroom]
              · cases h
      | _ =>
        rw [hkind] at h
        cases h
        rfl

/-- More fuel keeps what the plain search found. -/
theorem first_plain_mono {search search' : DerSchemaComponent → Option (Option DerSchemaComponent)}
    (hsearch : ∀ component found, search component = some found → search' component = some found)
    {components : List DerSchemaComponent} {found : Option DerSchemaComponent}
    (h : firstPlain search components = some found) :
    firstPlain search' components = some found := by
  induction components with
  | nil => exact h
  | cons component rest ih =>
    unfold firstPlain at h ⊢
    cases hfirst : search component with
    | none =>
      rw [hfirst] at h
      cases h
    | some first =>
      rw [hfirst] at h
      rw [hsearch component first hfirst]
      cases first with
      | some resolved => exact h
      | none => exact ih h

/-- A plain search that ends is the same with more fuel. -/
theorem search_plain_mono {fuel fuel' : Nat} (hle : fuel ≤ fuel') {component : DerSchemaComponent}
    {found : Option DerSchemaComponent} (h : searchPlain types wire fuel component = some found) :
    searchPlain types wire fuel' component = some found := by
  induction fuel generalizing fuel' component found with
  | zero => cases h
  | succ fuel ih =>
    obtain ⟨more, rfl⟩ : ∃ more, fuel' = more + 1 := ⟨fuel' - 1, by omega⟩
    unfold searchPlain at h ⊢
    split at h
    next htagged => rw [if_pos htagged, h]
    next htagged =>
      rw [if_neg htagged]
      cases hkind : (types component.type).kind with
      | choice =>
        rw [hkind] at h
        exact first_plain_mono (fun _ _ hsome => ih (by omega) hsome) h
      | _ =>
        rw [hkind] at h
        exact h

/-! ## The heights of the choices -/

/-- What the check leaves behind: the choices of the definition with their heights, and a bound
on the number of types. -/
structure ChoiceHeights (types : DerSchema) (root : Nat) (marks : ChoiceMarks) : Prop where
  sound : marks.Sound types
  complete : ∀ identity, DerSchemaReaches types root identity →
    (types identity).kind = .choice → ∃ height, marks.complete.lookup identity = some height
  few : ∀ identities : List Nat, identities.Nodup →
    (∀ identity ∈ identities, DerSchemaReaches types root identity) →
    identities.length ≤ derSchemaMaxTypes

/-- A checked schema ranks its CHOICE types. -/
theorem der_schema_check_heights (h : derSchemaCheck types root = .ok ()) :
    ∃ marks, ChoiceHeights types root marks := by
  obtain ⟨marks, hsound, hchecked⟩ := der_schema_check_ok h
  obtain ⟨⟨hfew, -⟩, -, -⟩ := (der_schema_check_iff types root).mp h
  refine ⟨marks, hsound, fun identity hreach hkind => (hchecked identity hreach).2.2 hkind,
    fun identities hnodup hreach => ?_⟩
  have hsubset : (identities.toFinset : Set Nat) ⊆
      {identity | DerSchemaReaches types root identity} := fun identity hmem =>
    hreach identity (List.mem_toFinset.mp hmem)
  have hcard : (identities.length : ℕ∞) ≤ (derSchemaMaxTypes : ℕ∞) := by
    calc (identities.length : ℕ∞)
        = (identities.toFinset.card : ℕ∞) := by rw [List.toFinset_card_of_nodup hnodup]
      _ = (identities.toFinset : Set Nat).encard := (Set.encard_coe_eq_coe_finsetCard _).symm
      _ ≤ _ := Set.encard_le_encard hsubset
      _ ≤ _ := hfew
  exact_mod_cast hcard

/-- The height of an untagged choice; other components have none. -/
def ChoiceMarks.rank (types : DerSchema) (marks : ChoiceMarks)
    (component : DerSchemaComponent) : Nat :=
  if component.opens types = true then (marks.complete.lookup component.type).getD 0 else 0

/-- The alternatives of a choice rank below it. -/
theorem rank_alternative {marks : ChoiceMarks} (hsound : marks.Sound types)
    {component alternative : DerSchemaComponent} {height : Nat}
    (hheight : marks.complete.lookup component.type = some height)
    (hmem : alternative ∈ (types component.type).components) :
    marks.rank types alternative < height := by
  obtain ⟨hpositive, -, hbelow⟩ := hsound component.type height hheight
  unfold ChoiceMarks.rank
  by_cases hopens : alternative.opens types = true
  · have hchild : alternative.type ∈ transparentChoices types (types component.type) :=
      List.mem_map_of_mem (List.mem_filter.mpr ⟨hmem, hopens⟩)
    obtain ⟨below, hlookup, hless⟩ := hbelow alternative.type hchild
    rw [if_pos hopens, hlookup]
    exact hless
  · rw [if_neg hopens]
    exact hpositive

/-! ## The failed types -/

/-- What holds of the failed types: none is twice among them, and a plain search below one of them
finds nothing. -/
structure Recorded (types : DerSchema) (wire : Bytes) (root : Nat) (failed : List Nat) :
    Prop where
  nodup : failed.Nodup
  reaches : ∀ identity ∈ failed, DerSchemaReaches types root identity
  unmatched : ∀ identity ∈ failed, ∀ fuel found,
    firstPlain (searchPlain types wire fuel) (types identity).components = some found →
      found = none

/-- A monitored search and a plain one have the same result; the types that failed on the way
lie below a height. -/
def Searched (types : DerSchema) (wire : Bytes) (root : Nat) (marks : ChoiceMarks) (height : Nat)
    (failed : List Nat)
    (outcome : Except ResolutionFault (Option DerSchemaComponent × List Nat))
    (plain : Option (Option DerSchemaComponent)) : Prop :=
  ∃ found added, outcome = .ok (found, failed ++ added) ∧ plain = some found ∧
    Recorded types wire root (failed ++ added) ∧
    ∀ identity ∈ added, ∃ below, marks.complete.lookup identity = some below ∧ below < height

variable {marks : ChoiceMarks} {failed : List Nat}

theorem Searched.mono {height height' : Nat} (hle : height ≤ height')
    {outcome : Except ResolutionFault (Option DerSchemaComponent × List Nat)}
    {plain : Option (Option DerSchemaComponent)}
    (h : Searched types wire root marks height failed outcome plain) :
    Searched types wire root marks height' failed outcome plain := by
  obtain ⟨found, added, houtcome, hplain, hrecorded, hbelow⟩ := h
  refine ⟨found, added, houtcome, hplain, hrecorded, fun identity hmem => ?_⟩
  obtain ⟨below, hlookup, hless⟩ := hbelow identity hmem
  exact ⟨below, hlookup, Nat.lt_of_lt_of_le hless hle⟩

/-- A search that adds no failed type. -/
theorem Searched.still {height : Nat} {found : Option DerSchemaComponent}
    (hfailed : Recorded types wire root failed) :
    Searched types wire root marks height failed (.ok (found, failed)) (some found) :=
  ⟨found, [], by rw [List.append_nil], rfl, by rwa [List.append_nil],
    fun _ hmem => by cases hmem⟩

/-- The monitored search of a list, from that of each component. -/
theorem first_monitored_spec {height : Nat}
    {resolve : DerSchemaComponent → List Nat →
      Except ResolutionFault (Option DerSchemaComponent × List Nat)}
    {search : DerSchemaComponent → Option (Option DerSchemaComponent)}
    {components : List DerSchemaComponent}
    (hstep : ∀ component ∈ components, ∀ failed, Recorded types wire root failed →
      Searched types wire root marks height failed (resolve component failed) (search component))
    (hfailed : Recorded types wire root failed) :
    Searched types wire root marks height failed (firstMonitored resolve components failed)
      (firstPlain search components) := by
  induction components generalizing failed with
  | nil => exact Searched.still hfailed
  | cons component rest ih =>
    obtain ⟨found, added, houtcome, hplain, hrecorded, hbelow⟩ :=
      hstep component List.mem_cons_self failed hfailed
    unfold firstMonitored firstPlain
    rw [houtcome, hplain]
    cases found with
    | some resolved => exact ⟨some resolved, added, rfl, rfl, hrecorded, hbelow⟩
    | none =>
      obtain ⟨found', added', houtcome', hplain', hrecorded', hbelow'⟩ :=
        ih (fun other hmem => hstep other (List.mem_cons_of_mem _ hmem)) hrecorded
      rw [List.append_assoc] at houtcome' hrecorded'
      refine ⟨found', added ++ added', houtcome', hplain', hrecorded', fun identity hmem => ?_⟩
      rcases List.mem_append.mp hmem with hfirst | hrest
      · exact hbelow identity hfirst
      · exact hbelow' identity hrest

/-- A type that failed is recorded next to the types below it, and there is room for it. -/
theorem Recorded.push {identity remaining : Nat} (hmarks : ChoiceHeights types root marks)
    (h : Recorded types wire root failed) (hnew : identity ∉ failed)
    (hreach : DerSchemaReaches types root identity)
    (hplain : firstPlain (searchPlain types wire remaining) (types identity).components =
      some none) :
    Recorded types wire root (failed ++ [identity]) ∧ failed.length < derSchemaMaxTypes := by
  have hnodup : (failed ++ [identity]).Nodup := by
    rw [List.nodup_append]
    refine ⟨h.nodup, List.nodup_singleton identity, fun other hother last hlast hsame => ?_⟩
    rw [List.mem_singleton.mp hlast] at hsame
    exact hnew (hsame ▸ hother)
  have hreaches : ∀ other ∈ failed ++ [identity], DerSchemaReaches types root other := by
    intro other hmem
    rcases List.mem_append.mp hmem with hold | hlast
    · exact h.reaches other hold
    · rw [List.mem_singleton.mp hlast]
      exact hreach
  have hlength := hmarks.few _ hnodup hreaches
  rw [List.length_append, List.length_singleton] at hlength
  refine ⟨⟨hnodup, hreaches, fun other hmem fuel found hfound => ?_⟩, hlength⟩
  rcases List.mem_append.mp hmem with hold | hlast
  · exact h.unmatched other hold fuel found hfound
  · rw [List.mem_singleton.mp hlast] at hfound
    -- both searches end, so more fuel makes them one
    have hleft := first_plain_mono (fun _ _ hsome =>
      search_plain_mono (Nat.le_max_left fuel remaining) hsome) hfound
    have hright := first_plain_mono (fun _ _ hsome =>
      search_plain_mono (Nat.le_max_right fuel remaining) hsome) hplain
    rw [hleft] at hright
    exact Option.some.inj hright

/-- Within the heights of a checked definition the monitor sees no fault, and the plain search
ends with the same result. -/
theorem resolve_tag_monitored_spec (hmarks : ChoiceHeights types root marks) {remaining : Nat}
    {component : DerSchemaComponent} (hreach : DerSchemaReaches types root component.type)
    (hdepth : marks.rank types component < remaining)
    (hfailed : Recorded types wire root failed) :
    Searched types wire root marks (marks.rank types component + 1) failed
      (resolveTagMonitored types wire remaining component failed)
      (searchPlain types wire remaining component) := by
  induction remaining generalizing component failed with
  | zero => exact absurd hdepth (Nat.not_lt_zero _)
  | succ remaining ih =>
    unfold resolveTagMonitored searchPlain
    by_cases htagged : component.tagging ≠ .none
    · rw [if_pos htagged, if_pos htagged]
      exact Searched.still hfailed
    · rw [if_neg htagged, if_neg htagged]
      cases hkind : (types component.type).kind with
      | choice =>
        have hopens : component.opens types = true := by
          simp only [ne_eq, not_not] at htagged
          simp [DerSchemaComponent.opens, htagged, hkind]
        obtain ⟨height, hheight⟩ := hmarks.complete component.type hreach hkind
        have hrank : marks.rank types component = height := by
          unfold ChoiceMarks.rank
          rw [if_pos hopens, hheight, Option.getD_some]
        rw [hrank] at hdepth ⊢
        have hall := @first_monitored_spec types wire root marks failed height
          (resolveTagMonitored types wire remaining) (searchPlain types wire remaining)
          (types component.type).components
          (fun alternative hmem failed hfailed => by
            have hless := rank_alternative hmarks.sound hheight hmem
            refine (ih ?_ (by omega) hfailed).mono hless
            exact reaches_component hreach (.inr hkind) hmem)
          hfailed
        obtain ⟨found, added, houtcome, hplain, hrecorded, hbelow⟩ := hall
        dsimp only
        by_cases hknown : component.type ∈ failed
        · rw [if_pos hknown]
          have hnone := hfailed.unmatched component.type hknown remaining found hplain
          subst hnone
          rw [if_pos hplain, hplain]
          exact Searched.still hfailed
        · rw [if_neg hknown, houtcome, hplain]
          cases found with
          | some resolved =>
            exact Searched.mono (Nat.le_succ height)
              ⟨some resolved, added, rfl, rfl, hrecorded, hbelow⟩
          | none =>
            have hnew : component.type ∉ failed ++ added := by
              intro hmem
              rcases List.mem_append.mp hmem with hold | hadded
              · exact hknown hold
              · -- what failed below the type is lower than it
                obtain ⟨below, hlookup, hless⟩ := hbelow component.type hadded
                rw [hheight] at hlookup
                cases hlookup
                omega
            obtain ⟨hpushed, hroom⟩ := hrecorded.push hmarks hnew hreach hplain
            dsimp only
            rw [if_pos hroom]
            rw [List.append_assoc] at hpushed ⊢
            refine ⟨none, added ++ [component.type], rfl, rfl, hpushed,
              fun identity hmem => ?_⟩
            rcases List.mem_append.mp hmem with hadded | hlast
            · obtain ⟨below, hlookup, hless⟩ := hbelow identity hadded
              exact ⟨below, hlookup, by omega⟩
            · rw [List.mem_singleton.mp hlast]
              exact ⟨height, hheight, by omega⟩
      | _ => exact Searched.still hfailed

/-- In a checked definition `resolve_at` is the plain search: the search ends, its result is the
same, and the monitor sees neither the depth cutoff nor an overflow of the failed types nor a
match that they suppress. -/
theorem resolve_at_exact (h : derSchemaCheck types root = .ok ()) {identity : Nat}
    (hreach : DerSchemaReaches types root identity) {component : DerSchemaComponent}
    (hmem : component ∈ (types identity).references) (wire : Bytes) :
    (∀ fuel, derSchemaMaxTypeDepth < fuel →
      searchPlain types wire fuel component = some (resolveAt types component wire)) ∧
    resolveTagMonitored types wire (derSchemaMaxTypeDepth + 1) component [] =
      .ok (resolveTag types wire (derSchemaMaxTypeDepth + 1) component []) := by
  obtain ⟨marks, hmarks⟩ := der_schema_check_heights h
  have htype : DerSchemaReaches types root component.type := .reference hreach hmem
  have hdepth : marks.rank types component < derSchemaMaxTypeDepth + 1 := by
    unfold ChoiceMarks.rank
    by_cases hopens : component.opens types = true
    · have hchoice : (types component.type).kind = .choice := by
        simp only [DerSchemaComponent.opens, Bool.and_eq_true, decide_eq_true_eq] at hopens
        exact hopens.2
      obtain ⟨height, hheight⟩ := hmarks.complete component.type htype hchoice
      have := (hmarks.sound component.type height hheight).2.1
      rw [if_pos hopens, hheight, Option.getD_some]
      omega
    · rw [if_neg hopens]
      exact Nat.succ_pos _
  have hempty : Recorded types wire root [] :=
    ⟨List.nodup_nil, fun _ hmem => (by cases hmem), fun _ hmem => (by cases hmem)⟩
  obtain ⟨found, added, houtcome, hplain, -, -⟩ :=
    resolve_tag_monitored_spec hmarks htype hdepth hempty
  have hresolved := resolve_tag_monitored_ok houtcome
  refine ⟨fun fuel hfuel => ?_, by rw [houtcome, hresolved]⟩
  unfold resolveAt
  rw [hresolved]
  exact search_plain_mono hfuel hplain

/-- A SEQUENCE of a CHOICE that reaches a type on two paths. -/
def sharedChoiceSchema : DerSchema
  | 0 => { kind := .sequence, components := [{ type := 5 }] }
  | 1 =>
    { kind := .choice
      components := [
        { type := 4, tagging := .implicit, tagClass := .contextSpecific, tagNumber := 1 },
        { type := 3 }] }
  | 2 =>
    { kind := .choice
      components := [
        { type := 3 },
        { type := 4, tagging := .implicit, tagClass := .contextSpecific, tagNumber := 2 }] }
  | 3 =>
    { kind := .choice
      components := [
        { type := 4, tagging := .implicit, tagClass := .contextSpecific, tagNumber := 3 }] }
  | 4 => { kind := .universal, universalNumber := 2 }
  | _ => { kind := .choice, components := [{ type := 1 }, { type := 2 }] }

/-- On the second path to the shared type the search meets it among the failed ones. -/
theorem resolve_at_exact_shared :
    (∀ fuel, derSchemaMaxTypeDepth < fuel →
      searchPlain sharedChoiceSchema [0x82] fuel { type := 5 } =
        some (resolveAt sharedChoiceSchema { type := 5 } [0x82])) ∧
    resolveTagMonitored sharedChoiceSchema [0x82] (derSchemaMaxTypeDepth + 1) { type := 5 } [] =
      .ok (resolveTag sharedChoiceSchema [0x82] (derSchemaMaxTypeDepth + 1) { type := 5 } []) :=
  @resolve_at_exact sharedChoiceSchema 0 (by decide +kernel) 0 .root { type := 5 }
    (by decide +kernel) [0x82]

end OpenTlv
