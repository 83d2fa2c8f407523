import Mathlib.Tactic

/-!
# Bounded storage areas

A caller-owned array as a fixed extent and a cell for every index. Reads and writes outside
the extent have no result, so that a program over areas says by itself where it stays in
range. The extent never changes. The areas of one memory are stretches of its addresses.
-/

namespace OpenTlv

/-- An array of fixed extent. -/
structure Area (α : Type) where
  size : Nat
  cell : Nat → α

namespace Area

variable {α : Type}

/-- An area filled with one value. -/
def fill (size : Nat) (value : α) : Area α :=
  ⟨size, fun _ => value⟩

/-- Read inside the extent. -/
def read (area : Area α) (index : Nat) : Option α :=
  if index < area.size then some (area.cell index) else none

/-- The cells after storing at `index`. -/
def put (area : Area α) (index : Nat) (value : α) : Area α :=
  ⟨area.size, fun i => if i = index then value else area.cell i⟩

/-- Write inside the extent. -/
def write (area : Area α) (index : Nat) (value : α) : Option (Area α) :=
  if index < area.size then some (area.put index value) else none

/-- Combine two areas of one extent cell by cell. -/
def combine (f : α → α → α) (first second : Area α) : Area α :=
  ⟨first.size, fun i => f (first.cell i) (second.cell i)⟩

/-- The number of cells of the extent that hold. -/
def count (area : Area Bool) : Nat :=
  (List.range area.size).countP fun i => area.cell i

@[simp] theorem fill_size (size : Nat) (value : α) : (fill size value).size = size := rfl

@[simp] theorem fill_cell (size : Nat) (value : α) (i : Nat) :
    (fill size value).cell i = value := rfl

@[simp] theorem put_size (area : Area α) (index : Nat) (value : α) :
    (area.put index value).size = area.size := rfl

@[simp] theorem put_cell_self (area : Area α) (index : Nat) (value : α) :
    (area.put index value).cell index = value := by
  simp [put]

theorem put_cell_of_ne (area : Area α) {index i : Nat} (value : α) (h : i ≠ index) :
    (area.put index value).cell i = area.cell i := by
  simp [put, h]

@[simp] theorem combine_cell (f : α → α → α) (first second : Area α) (i : Nat) :
    (combine f first second).cell i = f (first.cell i) (second.cell i) := rfl

theorem read_of_lt {area : Area α} {index : Nat} (h : index < area.size) :
    area.read index = some (area.cell index) := by
  simp [read, h]

theorem write_of_lt {area : Area α} {index : Nat} (value : α) (h : index < area.size) :
    area.write index value = some (area.put index value) := by
  simp [write, h]

end Area

/-- A stretch of addresses. -/
structure Stretch where
  start : Nat
  size : Nat

/-- Stretches from `low` to `high` that lie one behind the other. -/
def InLine : Nat → List Stretch → Nat → Prop
  | low, [], high => low ≤ high
  | low, stretch :: rest, high =>
    low ≤ stretch.start ∧ InLine (stretch.start + stretch.size) rest high

/-- `count` cells of one width. -/
def cellsAt (start width count : Nat) : List Stretch :=
  (List.range count).map fun i => ⟨start + i * width, width⟩

/-- Stretches in line stay so between wider bounds. -/
theorem InLine.mono {low low' high high' : Nat} {stretches : List Stretch} (hlow : low' ≤ low)
    (hhigh : high ≤ high') (h : InLine low stretches high) : InLine low' stretches high' := by
  induction stretches generalizing low low' with
  | nil => exact (hlow.trans h).trans hhigh
  | cons stretch rest ih => exact ⟨hlow.trans h.1, ih (Nat.le_refl _) h.2⟩

/-- Stretches in line one after the other. -/
theorem InLine.append {low middle high : Nat} {first second : List Stretch}
    (hfirst : InLine low first middle) (hsecond : InLine middle second high) :
    InLine low (first ++ second) high := by
  induction first generalizing low with
  | nil => exact hsecond.mono hfirst (Nat.le_refl _)
  | cons stretch rest ih => exact ⟨hfirst.1, ih hfirst.2⟩

/-- Cells of one width are in line. -/
theorem in_line_cells (start width count : Nat) :
    InLine start (cellsAt start width count) (start + count * width) := by
  induction count with
  | zero => exact Nat.le_add_right _ _
  | succ count ih =>
    rw [cellsAt, List.range_succ, List.map_append]
    exact ih.append ⟨Nat.le_refl _, by rw [Nat.succ_mul, Nat.add_assoc]; exact Nat.le_refl _⟩

end OpenTlv
