import OpenTlv.Lib.LinkedWalk
import OpenTlv.Lib.Paths

/-!
# Walks that know their depth

The preorder walk of linked nodes where the loop counts its depth up and down by itself, as a path
matcher needs it. `Holds.visits_deeper` says that on a forest it sees the nodes with the depths that
`Forest.walk` gives them, so that the rules of paths apply to heaps.
-/

namespace OpenTlv

variable {A D : Type}

namespace LinkHeap

/-- The node behind a subtree, with its depth. -/
def climbDeep (heap : LinkHeap A D) : Nat → A → Nat → Option (Option (A × Nat))
  | 0, _, _ => none
  | fuel + 1, node, depth => do
      let cell ← heap.cells node
      match cell.next, cell.parent with
      | some next, _ => some (some (next, depth))
      | none, some parent => heap.climbDeep fuel parent (depth - 1)
      | none, none => some none

/-- The next node in preorder, with its depth. -/
def walkDeep (heap : LinkHeap A D) (fuel : Nat) (place : A × Nat) :
    Option (Option (A × Nat)) := do
  let cell ← heap.cells place.1
  match cell.first with
  | some first => some (some (first, place.2 + 1))
  | none => heap.climbDeep fuel place.1 place.2

end LinkHeap

/-- The nodes of a linked forest as a forest. -/
def LinkForest.tree : LinkForest A D → Forest (A × D)
  | .nil => .nil
  | .node addr data inner rest => .branch (addr, data) inner.tree (addr, data) rest.tree

/-- Where a walk is at an entry of a listing. -/
def walkPlace (entry : (A × D) × Nat) : A × Nat :=
  (entry.1.1, entry.2)

/-- The walk of the tree meets the items of the forest. -/
theorem tree_items (forest : LinkForest A D) (depth : Nat) :
    (forest.tree.walk depth).map (·.1) = forest.items := by
  induction forest generalizing depth with
  | nil => rfl
  | node addr data inner rest ihInner ihRest =>
    simp [LinkForest.tree, Forest.walk, LinkForest.items, ihInner, ihRest]

/-- The walk meets each node once. -/
theorem tree_length (forest : LinkForest A D) (depth : Nat) :
    (forest.tree.walk depth).length = forest.size := by
  induction forest generalizing depth with
  | nil => rfl
  | node addr data inner rest ihInner ihRest =>
    rw [LinkForest.tree, Forest.walk, List.length_cons, List.length_append, ihInner, ihRest]
    rfl

/-- A change of the data moves no node. -/
theorem tree_map_places (f : A → D → D) (forest : LinkForest A D) (depth : Nat) :
    ((forest.map f).tree.walk depth).map walkPlace = (forest.tree.walk depth).map walkPlace := by
  induction forest generalizing depth with
  | nil => rfl
  | node addr data inner rest ihInner ihRest =>
    simp [LinkForest.map, LinkForest.tree, Forest.walk, walkPlace, ihInner, ihRest]

section Visits

variable {next : A → Option (Option A)} {first last : Option A}

/-- A visit starts at the head of its list. -/
theorem Visits.first_eq {list : List A} (h : Visits next first list last) :
    first = list.head?.or last := by
  cases h with
  | done place => rfl
  | step hnext hrest => rfl

/-- Behind each node of a walk comes the next one of its list. -/
theorem Visits.next_at {front rest : List A} {node : A}
    (h : Visits next first (front ++ node :: rest) last) :
    next node = some (rest.head?.or last) := by
  induction front generalizing first with
  | nil =>
    cases h with
    | step hnext hrest => rw [hnext, hrest.first_eq]
  | cons entry front ih =>
    cases h with
    | step hnext hrest => exact ih hrest

end Visits

section Walk

variable {heap : LinkHeap A D} {parent prev : Option A} {forest : LinkForest A D}

/-- More fuel climbs to the same place at the same depth. -/
theorem climb_deep_mono {fuel more : Nat} {node : A} {depth : Nat} {place : Option (A × Nat)}
    (h : heap.climbDeep fuel node depth = some place) (hle : fuel ≤ more) :
    heap.climbDeep more node depth = some place := by
  induction fuel generalizing node depth more with
  | zero => cases h
  | succ fuel ih =>
    obtain ⟨more, rfl⟩ : ∃ less, more = less + 1 := ⟨more - 1, by omega⟩
    simp only [LinkHeap.climbDeep, Option.bind_eq_bind, Option.bind_eq_some_iff] at h ⊢
    obtain ⟨cell, hcell, hplace⟩ := h
    refine ⟨cell, hcell, ?_⟩
    split at hplace
    · exact hplace
    · exact ih hplace (by omega)
    · exact hplace

/-- Where the walk goes on behind a list at some depth. -/
def LinkHeap.LeavesDeep (heap : LinkHeap A D) (fuel depth : Nat) :
    Option A → Option (A × Nat) → Prop
  | some parent, place => heap.climbDeep fuel parent (depth - 1) = some place
  | none, place => place = none

/-- A list is walked in preorder with the depths of its nodes. -/
theorem Holds.visits_deep (h : Holds heap.cells parent prev none forest) {depth : Nat}
    {place : Option (A × Nat)} {fuel more : Nat} (hleaves : heap.LeavesDeep fuel depth parent place)
    (hmore : fuel + forest.size ≤ more) :
    Visits (heap.walkDeep more) ((forest.firstAddr.map (·, depth)).or place)
      ((forest.tree.walk depth).map walkPlace) place := by
  induction forest generalizing parent prev place depth fuel with
  | nil => exact .done place
  | node addr data inner rest ihInner ihRest =>
    obtain ⟨hcell, hinner, hrest⟩ := h
    have hsize : (LinkForest.node addr data inner rest).size = inner.size + rest.size + 1 := rfl
    have hclimb : heap.climbDeep (fuel + 1) addr depth =
        some ((rest.firstAddr.map (·, depth)).or place) := by
      simp only [LinkHeap.climbDeep, hcell, Option.bind_eq_bind, Option.bind_some, Option.or_none]
      cases rest.firstAddr with
      | some next => rfl
      | none =>
        cases parent with
        | some parent => exact hleaves
        | none => exact congrArg some (Eq.symm hleaves)
    have hnext : heap.walkDeep more (addr, depth) =
        some ((inner.firstAddr.map (·, depth + 1)).or
          ((rest.firstAddr.map (·, depth)).or place)) := by
      simp only [LinkHeap.walkDeep, hcell, Option.bind_eq_bind, Option.bind_some]
      cases inner.firstAddr with
      | some first => rfl
      | none => exact climb_deep_mono hclimb (by omega)
    -- behind what is inside the loop is one level up again
    have hbehind : heap.LeavesDeep (fuel + 1) (depth + 1) (some addr) _ := hclimb
    have hin := ihInner hinner hbehind (by omega)
    have hout := ihRest hrest hleaves (by omega)
    rw [LinkForest.tree, Forest.walk, List.map_cons, List.map_append]
    exact .step hnext (hin.trans hout)

end Walk

end OpenTlv
