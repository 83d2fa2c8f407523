import Mathlib.Tactic

/-!
# Sequences of self-delimiting items

Items of which none is empty and none continues another one, so that a list starts with at most one
of them. A list of such items in front of something that is no item is then taken apart in one way
only, item by item from the front.
-/

namespace OpenTlv

variable {α : Type}

/-- No item is empty, and at most one item stands at the front of a list. -/
structure PrefixCode (item : List α → Prop) : Prop where
  nonempty : ∀ {code}, item code → code ≠ []
  unique : ∀ {first second rest rest' : List α}, item first → item second →
    first ++ rest = second ++ rest' → first = second

/-- What stands before the first separator can be told from what stands behind it. -/
theorem append_separator_inj {separator : α} {before before' after after' : List α}
    (hbefore : separator ∉ before) (hbefore' : separator ∉ before')
    (h : before ++ separator :: after = before' ++ separator :: after') :
    before = before' ∧ after = after' := by
  induction before generalizing before' with
  | nil =>
    cases before' with
    | nil => exact ⟨rfl, (List.cons.inj h).2⟩
    | cons a rest =>
      obtain ⟨rfl, -⟩ := List.cons.inj h
      exact absurd (List.mem_cons_self ..) hbefore'
  | cons a rest ih =>
    cases before' with
    | nil =>
      obtain ⟨rfl, -⟩ := List.cons.inj h
      exact absurd (List.mem_cons_self ..) hbefore
    | cons b rest' =>
      obtain ⟨rfl, htail⟩ := List.cons.inj h
      obtain ⟨rfl, hafter⟩ := ih (fun hmem => hbefore (List.mem_cons_of_mem _ hmem))
        (fun hmem => hbefore' (List.mem_cons_of_mem _ hmem)) htail
      exact ⟨rfl, hafter⟩

/-- A list in front of which no item stands. -/
def Ended (item : List α → Prop) (tail : List α) : Prop :=
  ∀ code rest, item code → tail ≠ code ++ rest

/-- Items and what ends them. -/
structure Sequence (item : List α → Prop) (items : List (List α)) (tail : List α) : Prop where
  items : ∀ code ∈ items, item code
  tail : Ended item tail

variable {item : List α → Prop} {items others : List (List α)} {code rest tail tail' : List α}

theorem Sequence.cons (hcode : item code) (h : Sequence item items tail) :
    Sequence item (code :: items) tail :=
  ⟨fun other hother => by
    obtain rfl | hother := List.mem_cons.mp hother
    · exact hcode
    · exact h.items other hother, h.tail⟩

/-- Nothing ends a sequence. -/
theorem ended_nil (hcode : PrefixCode item) : Ended item [] := by
  intro code rest hitem hequal
  exact hcode.nonempty hitem (List.append_eq_nil_iff.mp hequal.symm).1

/-- The first item of a sequence is the item at its front. -/
theorem Sequence.uncons (hcode : PrefixCode item) (hitem : item code)
    (h : Sequence item items tail) (hequal : code ++ rest = items.flatten ++ tail) :
    ∃ others, items = code :: others ∧ Sequence item others tail ∧
      rest = others.flatten ++ tail := by
  cases items with
  | nil => exact absurd hequal.symm (h.tail code rest hitem)
  | cons first others =>
    rw [List.flatten_cons, List.append_assoc] at hequal
    have hfirst := h.items first (List.mem_cons_self ..)
    obtain rfl := hcode.unique hitem hfirst hequal
    exact ⟨others, rfl, ⟨fun other hother => h.items other (List.mem_cons_of_mem _ hother),
      h.tail⟩, List.append_cancel_left hequal⟩

/-- A sequence starts with what ends it only when it has no items. -/
theorem Sequence.no_items (h : Sequence item items tail) (hended : Ended item tail')
    (hequal : tail' = items.flatten ++ tail) : items = [] := by
  cases items with
  | nil => rfl
  | cons first others =>
    rw [List.flatten_cons, List.append_assoc] at hequal
    exact absurd hequal (hended first _ (h.items first (List.mem_cons_self ..)))

end OpenTlv
