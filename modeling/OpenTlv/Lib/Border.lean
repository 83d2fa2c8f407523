import Mathlib.Data.List.Basic
import Mathlib.Tactic

/-!
# Borders of a pattern

The combinatorics of prefix-function searching. `Ends pattern text k` says that the first `k`
symbols of the pattern end the text, and `Longest` that no longer stretch below a bound does.
`Candidate` is the invariant of the fallback loop for one more symbol: `Candidate.extend`,
`Candidate.exhaust` and `Candidate.fall` are its three steps. `infix_iff_ends` reads an
occurrence off the stretches.
-/

namespace OpenTlv.Border

variable {α : Type} {pattern text : List α}

/-- The first `k` symbols of the pattern end the text. -/
def Ends (pattern text : List α) (k : Nat) : Prop :=
  k ≤ pattern.length ∧ pattern.take k <:+ text

/-- The longest stretch below the bound. -/
structure Longest (pattern text : List α) (bound k : Nat) : Prop where
  ends : Ends pattern text k
  lt : k < bound
  le_of_ends : ∀ j, Ends pattern text j → j < bound → j ≤ k

/-- A stretch that no longer one can replace when the text grows by `symbol`. -/
structure Candidate (pattern text : List α) (symbol : α) (bound k : Nat) : Prop where
  ends : Ends pattern text k
  lt : k < bound
  le_of_ends : ∀ j, Ends pattern text j → j < bound → pattern[j]? = some symbol → j ≤ k

theorem ends_zero (pattern text : List α) : Ends pattern text 0 :=
  ⟨Nat.zero_le _, by simp⟩

/-- A shorter stretch ends the longer one. -/
theorem Ends.shorter {j k : Nat} (hj : Ends pattern text j) (hk : Ends pattern text k)
    (h : j ≤ k) : Ends pattern (pattern.take k) j := by
  refine ⟨hj.1, List.suffix_of_suffix_length_le hj.2 hk.2 ?_⟩
  simp only [List.length_take]
  omega

/-- An end of an end is an end. -/
theorem Ends.trans {j k : Nat} (hj : Ends pattern (pattern.take k) j)
    (hk : Ends pattern text k) : Ends pattern text j :=
  ⟨hj.1, hj.2.trans hk.2⟩

/-- The stretches of a longer text are the stretches before it that its last symbol extends. -/
theorem ends_append_singleton {symbol : α} {k : Nat} :
    Ends pattern (text ++ [symbol]) (k + 1) ↔
      Ends pattern text k ∧ pattern[k]? = some symbol := by
  constructor
  · rintro ⟨hle, hsuffix⟩
    have hk : k < pattern.length := hle
    rw [List.take_succ_eq_append_getElem hk] at hsuffix
    obtain ⟨front, hfront⟩ := hsuffix
    rw [← List.append_assoc] at hfront
    obtain ⟨hinit, hlast⟩ := List.append_inj' hfront rfl
    refine ⟨⟨by omega, front, hinit⟩, ?_⟩
    rw [List.getElem?_eq_getElem hk]
    simpa using hlast
  · rintro ⟨⟨-, front, hfront⟩, hsymbol⟩
    obtain ⟨hk, hget⟩ := List.getElem?_eq_some_iff.mp hsymbol
    refine ⟨hk, front, ?_⟩
    rw [List.take_succ_eq_append_getElem hk, ← List.append_assoc, hfront, hget]

/-- There is at most one longest stretch. -/
theorem Longest.unique {bound k k' : Nat} (h : Longest pattern text bound k)
    (h' : Longest pattern text bound k') : k = k' :=
  Nat.le_antisymm (h'.le_of_ends k h.ends h.lt) (h.le_of_ends k' h'.ends h'.lt)

/-- Below a positive bound there is a longest stretch. -/
theorem exists_longest (pattern text : List α) {bound : Nat} (hbound : 0 < bound) :
    ∃ k, Longest pattern text bound k := by
  induction bound with
  | zero => omega
  | succ bound ih =>
    by_cases hends : Ends pattern text bound
    · exact ⟨bound, hends, by omega, fun j _ hj => by omega⟩
    · rcases Nat.eq_zero_or_pos bound with rfl | hpos
      · exact absurd (ends_zero pattern text) hends
      · obtain ⟨k, hk⟩ := ih hpos
        refine ⟨k, hk.ends, by have := hk.lt; omega, fun j hj hlt => ?_⟩
        have hne : j ≠ bound := by
          rintro rfl
          exact hends hj
        exact hk.le_of_ends j hj (by omega)

/-- The longest stretch is a candidate for every symbol. -/
theorem Longest.candidate {bound k : Nat} (h : Longest pattern text bound k) (symbol : α) :
    Candidate pattern text symbol bound k :=
  ⟨h.ends, h.lt, fun j hj hlt _ => h.le_of_ends j hj hlt⟩

/-- A candidate that the symbol extends gives the longest stretch of the longer text. -/
theorem Candidate.extend {symbol : α} {bound k : Nat}
    (h : Candidate pattern text symbol bound k) (hsymbol : pattern[k]? = some symbol) :
    Longest pattern (text ++ [symbol]) (bound + 1) (k + 1) := by
  have hlt := h.lt
  refine ⟨ends_append_singleton.mpr ⟨h.ends, hsymbol⟩, by omega, ?_⟩
  intro j hj hbound
  cases j with
  | zero => omega
  | succ j =>
    obtain ⟨hends, hnext⟩ := ends_append_singleton.mp hj
    have := h.le_of_ends j hends (by omega) hnext
    omega

/-- When the empty candidate is not extended, nothing ends the longer text. -/
theorem Candidate.exhaust {symbol : α} {bound : Nat}
    (h : Candidate pattern text symbol bound 0) (hsymbol : pattern[0]? ≠ some symbol) :
    Longest pattern (text ++ [symbol]) (bound + 1) 0 := by
  refine ⟨ends_zero _ _, by omega, ?_⟩
  intro j hj hbound
  cases j with
  | zero => omega
  | succ j =>
    obtain ⟨hends, hnext⟩ := ends_append_singleton.mp hj
    have hzero := h.le_of_ends j hends (by omega) hnext
    have hj : j = 0 := by omega
    subst hj
    exact absurd hnext hsymbol

/-- A candidate that the symbol does not extend falls back to its longest proper border. -/
theorem Candidate.fall {symbol : α} {bound k border : Nat}
    (h : Candidate pattern text symbol bound k) (hsymbol : pattern[k]? ≠ some symbol)
    (hborder : Longest pattern (pattern.take k) k border) :
    Candidate pattern text symbol bound border := by
  refine ⟨hborder.ends.trans h.ends, hborder.lt.trans h.lt, ?_⟩
  intro j hj hbound hnext
  have hle := h.le_of_ends j hj hbound hnext
  have hne : j ≠ k := by
    rintro rfl
    exact hsymbol hnext
  exact hborder.le_of_ends j (hj.shorter h.ends hle) (by omega)

/-- A pattern occurs exactly when all of it ends some front part of the text. -/
theorem infix_iff_ends :
    pattern <:+: text ↔ ∃ i, Ends pattern (text.take i) pattern.length := by
  constructor
  · rintro ⟨front, back, rfl⟩
    refine ⟨(front ++ pattern).length, Nat.le_refl _, front, ?_⟩
    rw [List.take_length, List.take_left' rfl]
  · rintro ⟨i, -, front, hfront⟩
    refine ⟨front, text.drop i, ?_⟩
    rw [List.take_length] at hfront
    rw [hfront, List.take_append_drop]

end OpenTlv.Border
