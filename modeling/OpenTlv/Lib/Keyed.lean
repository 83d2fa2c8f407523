import Mathlib.Tactic

/-!
# Differences of keyed lists

Lists of entries with distinct keys, read by `List.lookup`, and the difference of two of them: the
keys where one list has an entry and the other none, and the common keys whose entries are not
related. `mem_diff_iff` says so key by key, and everything else about a difference follows from it.
-/

namespace OpenTlv

namespace Keyed

variable {K V W : Type} [BEq K] [LawfulBEq K]

/-- In a list with distinct keys every entry is found. -/
theorem lookup_iff {list : List (K × V)} (hkeys : (list.map Prod.fst).Nodup) {key : K}
    {value : V} : list.lookup key = some value ↔ (key, value) ∈ list := by
  induction list with
  | nil => simp
  | cons entry list ih =>
    obtain ⟨other, stored⟩ := entry
    rw [List.map_cons, List.nodup_cons] at hkeys
    rw [List.lookup_cons, List.mem_cons]
    by_cases hkey : key = other
    · subst hkey
      have hnot : (key, value) ∉ list := fun hmem =>
        hkeys.1 (List.mem_map.mpr ⟨(key, value), hmem, rfl⟩)
      simp [hnot, eq_comm]
    · rw [beq_eq_false_iff_ne.mpr hkey]
      simpa [hkey] using ih hkeys.2

/-- A key is found where an entry has it. -/
theorem lookup_some_of_mem {list : List (K × V)} {key : K} (h : key ∈ list.map Prod.fst) :
    ∃ value, list.lookup key = some value := by
  obtain ⟨⟨other, value⟩, hmem, rfl⟩ := List.mem_map.mp h
  cases hlookup : list.lookup other with
  | some value => exact ⟨value, rfl⟩
  | none =>
    rw [List.lookup_eq_none_iff] at hlookup
    simpa using hlookup _ hmem

/-- A key that is found is the key of an entry. -/
theorem mem_of_lookup {list : List (K × V)} {key : K} {value : V}
    (h : list.lookup key = some value) : key ∈ list.map Prod.fst := by
  obtain ⟨before, after, rfl, _⟩ := List.lookup_eq_some_iff.mp h
  simp

/-- Keys may be renamed apart, and values be mapped. -/
theorem lookup_rename {K' : Type} [BEq K'] [LawfulBEq K'] {name : K → K'}
    (hname : Function.Injective name) (f : V → W) (list : List (K × V)) (key : K) :
    (list.map fun entry => (name entry.1, f entry.2)).lookup (name key) =
      (list.lookup key).map f := by
  induction list with
  | nil => rfl
  | cons entry list ih =>
    rw [List.map_cons, List.lookup_cons, List.lookup_cons, ih]
    by_cases hkey : key = entry.1
    · simp [hkey]
    · have hother : name key ≠ name entry.1 := fun h => hkey (hname h)
      rw [beq_eq_false_iff_ne.mpr hkey, beq_eq_false_iff_ne.mpr hother]

/-- What the left list has at a key where the right one has nothing related. -/
def leftDiff (differs : V → W → Bool) (right : List (K × W)) (entry : K × V) :
    Option (K × Option V × Option W) :=
  match right.lookup entry.1 with
  | none => some (entry.1, some entry.2, none)
  | some other => if differs entry.2 other then some (entry.1, some entry.2, some other) else none

/-- What the right list has at a key where the left one has nothing. -/
def rightDiff (left : List (K × V)) (entry : K × W) : Option (K × Option V × Option W) :=
  if (left.lookup entry.1).isSome then none else some (entry.1, none, some entry.2)

/-- The difference of two lists. -/
def diff (differs : V → W → Bool) (left : List (K × V)) (right : List (K × W)) :
    List (K × Option V × Option W) :=
  left.filterMap (leftDiff differs right) ++ right.filterMap (rightDiff left)

section Difference

variable {differs : V → W → Bool} {left : List (K × V)} {right : List (K × W)}

omit [LawfulBEq K] in
/-- A change of the left side has a differing partner or none. -/
theorem left_diff_some {entry : K × V} {change : K × Option V × Option W}
    (h : leftDiff differs right entry = some change) :
    change = (entry.1, some entry.2, right.lookup entry.1) ∧
      ¬ Option.Rel (fun v w => differs v w = false) (some entry.2) (right.lookup entry.1) := by
  unfold leftDiff at h
  cases hlookup : right.lookup entry.1 with
  | none =>
    rw [hlookup] at h
    refine ⟨(Option.some.inj h).symm, fun hrel => ?_⟩
    cases hrel
  | some other =>
    rw [hlookup] at h
    cases hdiffers : differs entry.2 other with
    | false => simp [hdiffers] at h
    | true =>
      simp only [hdiffers, if_true, Option.some.injEq] at h
      refine ⟨h.symm, fun hrel => ?_⟩
      cases hrel with
      | some hsame => exact absurd (hdiffers.symm.trans hsame) (by simp)

omit [LawfulBEq K] in
/-- A change of the right side has no partner. -/
theorem right_diff_some {entry : K × W} {change : K × Option V × Option W} :
    rightDiff left entry = some change ↔
      left.lookup entry.1 = none ∧ change = (entry.1, none, some entry.2) := by
  unfold rightDiff
  cases left.lookup entry.1 <;> simp [eq_comm]

/-- A difference has a change where the entries at a key are not related. -/
theorem mem_diff_iff (hleft : (left.map Prod.fst).Nodup) (hright : (right.map Prod.fst).Nodup)
    {key : K} {x : Option V} {y : Option W} :
    (key, x, y) ∈ diff differs left right ↔
      x = left.lookup key ∧ y = right.lookup key ∧
        ¬ Option.Rel (fun v w => differs v w = false) x y := by
  rw [diff, List.mem_append, List.mem_filterMap, List.mem_filterMap]
  constructor
  · intro h
    obtain ⟨entry, hmem, hchange⟩ | ⟨entry, hmem, hchange⟩ := h
    · obtain ⟨hequal, hrel⟩ := left_diff_some hchange
      cases hequal
      exact ⟨((lookup_iff hleft).mpr hmem).symm, rfl, hrel⟩
    · obtain ⟨hnone, hequal⟩ := right_diff_some.mp hchange
      cases hequal
      exact ⟨hnone.symm, ((lookup_iff hright).mpr hmem).symm, fun hrel => (by cases hrel)⟩
  · intro h
    obtain ⟨rfl, rfl, hrel⟩ := h
    cases hlookup : left.lookup key with
    | some value =>
      rw [hlookup] at hrel
      refine .inl ⟨(key, value), (lookup_iff hleft).mp hlookup, ?_⟩
      unfold leftDiff
      cases hother : right.lookup key with
      | none => rfl
      | some other =>
        rw [hother] at hrel
        have hdiffers : differs value other = true := by
          by_contra hsame
          exact hrel (.some (Bool.not_eq_true _ ▸ hsame))
        simp [hdiffers]
    | none =>
      rw [hlookup] at hrel
      cases hother : right.lookup key with
      | none =>
        rw [hother] at hrel
        exact absurd .none hrel
      | some other =>
        exact .inr ⟨(key, other), (lookup_iff hright).mp hother,
          right_diff_some.mpr ⟨hlookup, rfl⟩⟩

/-- The keys of a difference are distinct. -/
theorem diff_keys_nodup (hleft : (left.map Prod.fst).Nodup)
    (hright : (right.map Prod.fst).Nodup) :
    ((diff differs left right).map Prod.fst).Nodup := by
  have hfst : ∀ (entry : K × V) change, leftDiff differs right entry = some change →
      change.1 = entry.1 := by
    intro entry change hchange
    rw [(left_diff_some hchange).1]
  have hsnd : ∀ (entry : K × W) change, rightDiff left entry = some change →
      change.1 = entry.1 := by
    intro entry change hchange
    rw [(right_diff_some.mp hchange).2]
  have hsub : ∀ {X : Type} (f : K × X → Option (K × Option V × Option W)) (list : List (K × X)),
      (∀ entry change, f entry = some change → change.1 = entry.1) →
        ((list.filterMap f).map Prod.fst).Sublist (list.map Prod.fst) := by
    intro X f list hf
    induction list with
    | nil => exact List.Sublist.slnil
    | cons entry list ih =>
      rw [List.map_cons]
      cases hentry : f entry with
      | none =>
        rw [List.filterMap_cons_none hentry]
        exact ih.cons _
      | some change =>
        rw [List.filterMap_cons_some hentry, List.map_cons, hf entry change hentry]
        exact ih.cons_cons _
  rw [diff, List.map_append]
  refine List.nodup_append.mpr ⟨(hsub _ left hfst).nodup hleft, (hsub _ right hsnd).nodup hright,
    ?_⟩
  intro key hkey other hother hequal
  subst hequal
  obtain ⟨change, hchange, rfl⟩ := List.mem_map.mp hother
  obtain ⟨entry, -, hentry⟩ := List.mem_filterMap.mp hchange
  obtain ⟨hnone, rfl⟩ := right_diff_some.mp hentry
  obtain ⟨value, hvalue⟩ := lookup_some_of_mem ((hsub _ left hfst).subset hkey)
  exact absurd (hnone.symm.trans hvalue) (by simp)

/-- There is no difference where the entries at every key are related. -/
theorem diff_nil_iff (hleft : (left.map Prod.fst).Nodup) (hright : (right.map Prod.fst).Nodup) :
    diff differs left right = [] ↔
      ∀ key, Option.Rel (fun v w => differs v w = false) (left.lookup key)
        (right.lookup key) := by
  rw [List.eq_nil_iff_forall_not_mem]
  constructor
  · intro h key
    by_contra hrel
    exact h _ ((mem_diff_iff hleft hright).mpr ⟨rfl, rfl, hrel⟩)
  · intro h change hmem
    obtain ⟨key, x, y⟩ := change
    obtain ⟨rfl, rfl, hrel⟩ := (mem_diff_iff hleft hright).mp hmem
    exact hrel (h key)

/-- The difference the other way round has the same changes with the sides exchanged. -/
theorem diff_swap {other : W → V → Bool} (hother : ∀ v w, other w v = differs v w)
    (hleft : (left.map Prod.fst).Nodup) (hright : (right.map Prod.fst).Nodup) :
    (diff other right left).Perm
      ((diff differs left right).map fun change => (change.1, change.2.2, change.2.1)) := by
  have hnodup : ((diff differs left right).map Prod.fst).Nodup := diff_keys_nodup hleft hright
  refine (List.perm_ext_iff_of_nodup (diff_keys_nodup hright hleft).of_map
    (hnodup.of_map.map ?_)).mpr ?_
  · rintro ⟨key, x, y⟩ ⟨key', x', y'⟩ hequal
    simp only [Prod.mk.injEq] at hequal ⊢
    exact ⟨hequal.1, hequal.2.2, hequal.2.1⟩
  · intro change
    obtain ⟨key, y, x⟩ := change
    have hrel : Option.Rel (fun w v => other w v = false) y x ↔
        Option.Rel (fun v w => differs v w = false) x y := by
      constructor
      · intro h
        cases h with
        | none => exact .none
        | some hsame => exact .some ((hother _ _).symm.trans hsame)
      · intro h
        cases h with
        | none => exact .none
        | some hsame => exact .some ((hother _ _).trans hsame)
    rw [mem_diff_iff hright hleft, hrel, List.mem_map]
    constructor
    · intro h
      obtain ⟨hy, hx, hnot⟩ := h
      exact ⟨(key, x, y), (mem_diff_iff hleft hright).mpr ⟨hx, hy, hnot⟩, rfl⟩
    · intro h
      obtain ⟨⟨other, v, w⟩, hmem, hequal⟩ := h
      simp only [Prod.mk.injEq] at hequal
      obtain ⟨rfl, rfl, rfl⟩ := hequal
      obtain ⟨hx, hy, hnot⟩ := (mem_diff_iff hleft hright).mp hmem
      exact ⟨hy, hx, hnot⟩

end Difference

end Keyed

end OpenTlv
