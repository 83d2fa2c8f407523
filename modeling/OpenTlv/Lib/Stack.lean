import Mathlib.Tactic

/-!
# Arrays of fixed capacity in use up to some item

An array that a program fills from its front: items are pushed behind the last one, popped from
there, and read or changed inside the part in use. Every other access has no result. The capacity
is never exceeded, and no operation changes it.
-/

namespace OpenTlv

/-- An array of fixed capacity with its items in use, the first one first. -/
structure Stack (α : Type) where
  capacity : Nat
  items : List α
  fits : items.length ≤ capacity
  deriving DecidableEq

namespace Stack

variable {α : Type}

/-- An array of which nothing is in use. -/
def empty (capacity : Nat) : Stack α :=
  ⟨capacity, [], Nat.zero_le _⟩

/-- The number of items in use. -/
def size (s : Stack α) : Nat :=
  s.items.length

/-- Store items behind the last one. -/
def append (s : Stack α) (items : List α) : Option (Stack α) :=
  if h : s.items.length + items.length ≤ s.capacity then
    some ⟨s.capacity, s.items ++ items, by rw [List.length_append]; exact h⟩
  else none

/-- Store one item behind the last one. -/
def push (s : Stack α) (item : α) : Option (Stack α) :=
  s.append [item]

/-- The last item. -/
def top (s : Stack α) : Option α :=
  s.items.getLast?

/-- The array without its last item. -/
def drop (s : Stack α) : Stack α :=
  ⟨s.capacity, s.items.dropLast, by
    rw [List.length_dropLast]
    exact (Nat.sub_le _ _).trans s.fits⟩

/-- The last item, and the array without it. -/
def pop (s : Stack α) : Option (α × Stack α) :=
  s.top.map fun item => (item, s.drop)

/-- An item in use. -/
def read (s : Stack α) (index : Nat) : Option α :=
  s.items[index]?

/-- The array with the item at `index` changed. -/
def changed (s : Stack α) (index : Nat) (change : α → α) : Stack α :=
  ⟨s.capacity, s.items.modify index change, by
    rw [List.length_modify]
    exact s.fits⟩

/-- Change an item in use. -/
def update (s : Stack α) (index : Nat) (change : α → α) : Option (Stack α) :=
  if index < s.items.length then some (s.changed index change) else none

@[simp] theorem size_empty (capacity : Nat) : (empty capacity : Stack α).size = 0 :=
  rfl

@[simp] theorem items_empty (capacity : Nat) : (empty capacity : Stack α).items = [] :=
  rfl

@[simp] theorem capacity_empty (capacity : Nat) :
    (empty capacity : Stack α).capacity = capacity :=
  rfl

@[simp] theorem items_changed (s : Stack α) (index : Nat) (change : α → α) :
    (s.changed index change).items = s.items.modify index change :=
  rfl

@[simp] theorem size_changed (s : Stack α) (index : Nat) (change : α → α) :
    (s.changed index change).size = s.size :=
  List.length_modify ..

theorem size_le (s : Stack α) : s.size ≤ s.capacity :=
  s.fits

/-- Storing succeeds where there is room. -/
theorem append_of_le {s : Stack α} {items : List α} (h : s.size + items.length ≤ s.capacity) :
    ∃ s', s.append items = some s' ∧ s'.items = s.items ++ items ∧ s'.capacity = s.capacity :=
  ⟨_, dif_pos h, rfl, rfl⟩

/-- A push below the capacity succeeds. -/
theorem push_of_lt {s : Stack α} {item : α} (h : s.size < s.capacity) :
    ∃ s', s.push item = some s' ∧ s'.items = s.items ++ [item] ∧ s'.capacity = s.capacity :=
  append_of_le h

/-- Popping takes the last item off. -/
theorem pop_eq_some {s s' : Stack α} {item : α} (h : s.pop = some (item, s')) :
    s.items = s'.items ++ [item] ∧ s'.capacity = s.capacity := by
  unfold pop top at h
  obtain ⟨last, hlast, heq⟩ := Option.map_eq_some_iff.mp h
  cases heq
  exact ⟨(List.dropLast_append_getLast? _ hlast).symm, rfl⟩

/-- An array that is in use has a last item. -/
theorem pop_of_pos {s : Stack α} (h : 0 < s.size) :
    ∃ item s', s.pop = some (item, s') ∧ s.items = s'.items ++ [item] ∧
      s'.capacity = s.capacity := by
  have hne : s.items ≠ [] := List.ne_nil_of_length_pos h
  have hpop : s.pop = some (s.items.getLast hne, s.drop) := by
    unfold pop top
    rw [List.getLast?_eq_some_getLast hne]
    rfl
  exact ⟨_, _, hpop, pop_eq_some hpop⟩

theorem read_of_lt {s : Stack α} {index : Nat} (h : index < s.size) :
    s.read index = some (s.items.get ⟨index, h⟩) :=
  List.getElem?_eq_getElem h

theorem update_of_lt {s : Stack α} {index : Nat} (change : α → α) (h : index < s.size) :
    s.update index change = some (s.changed index change) :=
  if_pos h

end Stack

end OpenTlv
