import Mathlib.Tactic

/-!
# Forests listed in preorder

An ordered forest with leaves and branches, and its preorder listing: every entry has its
depth, its parent, its position among its siblings and the index at which its subtree ends.
`isAncestor` follows the parents. `is_ancestor_iff` says that the descendants of an entry are
exactly the indices between it and its end, so that interval arithmetic on the listing is
navigation in the forest.
-/

namespace OpenTlv

/-- An ordered forest. A branch also keeps what closes it. -/
inductive Forest (α : Type) where
  | nil
  | leaf (item : α) (rest : Forest α)
  | branch (item : α) (kids : Forest α) (close : α) (rest : Forest α)

/-- An entry of a preorder listing. -/
structure Listed (α : Type) where
  item : α
  branch : Bool
  depth : Nat
  parent : Option Nat
  sibling : Nat
  ending : Nat

namespace Forest

variable {α : Type}

/-- The number of leaves and branches. -/
def size : Forest α → Nat
  | nil => 0
  | leaf _ rest => rest.size + 1
  | branch _ kids _ rest => kids.size + 1 + rest.size

/-- The listing of a forest whose first entry has index `start`. -/
def listing (depth : Nat) (parent : Option Nat) (sibling start : Nat) :
    Forest α → List (Listed α)
  | nil => []
  | leaf item rest =>
    ⟨item, false, depth, parent, sibling, start + 1⟩ ::
      rest.listing depth parent (sibling + 1) (start + 1)
  | branch item kids _ rest =>
    ⟨item, true, depth, parent, sibling, start + 1 + kids.size⟩ ::
      (kids.listing (depth + 1) (some start) 0 (start + 1) ++
        rest.listing depth parent (sibling + 1) (start + 1 + kids.size))

/-- The listing of a whole forest. -/
def nodes (forest : Forest α) : List (Listed α) :=
  forest.listing 0 none 0 0

/-- The listing has one entry for each node. -/
@[simp] theorem listing_length (depth : Nat) (parent : Option Nat) (sibling start : Nat)
    (forest : Forest α) : (forest.listing depth parent sibling start).length = forest.size := by
  induction forest generalizing depth parent sibling start with
  | nil => rfl
  | leaf item rest ih => simp [listing, size, ih]
  | branch item kids close rest ihKids ihRest =>
    simp [listing, size, ihKids, ihRest]
    omega

@[simp] theorem nodes_length (forest : Forest α) : forest.nodes.length = forest.size := by
  simp [nodes]

/-- The number of outermost leaves and branches. -/
def breadth : Forest α → Nat
  | nil => 0
  | leaf _ rest => rest.breadth + 1
  | branch _ _ _ rest => rest.breadth + 1

/-- Two forests side by side. -/
def append : Forest α → Forest α → Forest α
  | nil, other => other
  | leaf item rest, other => leaf item (rest.append other)
  | branch item kids close rest, other => branch item kids close (rest.append other)

@[simp] theorem size_append (first second : Forest α) :
    (first.append second).size = first.size + second.size := by
  induction first with
  | nil => simp [append, size]
  | leaf item rest ih =>
    simp only [append, size, ih]
    omega
  | branch item kids close rest _ ih =>
    simp only [append, size, ih]
    omega

@[simp] theorem breadth_append (first second : Forest α) :
    (first.append second).breadth = first.breadth + second.breadth := by
  induction first with
  | nil => simp [append, breadth]
  | leaf item rest ih =>
    simp only [append, breadth, ih]
    omega
  | branch item kids close rest _ ih =>
    simp only [append, breadth, ih]
    omega

/-- The listing of two forests, the second one shifted. -/
theorem listing_append (depth : Nat) (parent : Option Nat) (sibling start : Nat)
    (first second : Forest α) :
    (first.append second).listing depth parent sibling start =
      first.listing depth parent sibling start ++
        second.listing depth parent (sibling + first.breadth) (start + first.size) := by
  induction first generalizing sibling start with
  | nil => rfl
  | leaf item rest ih =>
    simp only [append, listing, breadth, size, ih, List.cons_append]
    congr 3 <;> omega
  | branch item kids close rest _ ih =>
    simp only [append, listing, breadth, size, ih, List.cons_append, List.append_assoc]
    congr 4 <;> omega

end Forest

/-- The shape of a listing with first index `start` whose outermost entries have parent
`parent`. -/
structure Laid {α : Type} (parent : Option Nat) (start : Nat) (list : List (Listed α)) :
    Prop where
  bounds : ∀ k node, list[k]? = some node →
    start + k < node.ending ∧ node.ending ≤ start + list.length ∧
      (node.parent = parent ∨ ∃ m above, m < k ∧ list[m]? = some above ∧
        node.parent = some (start + m) ∧ start + k < above.ending)
  nested : ∀ j k above node, list[j]? = some above → list[k]? = some node → j < k →
    start + k < above.ending →
      node.ending ≤ above.ending ∧ ∃ m, j ≤ m ∧ m < k ∧ node.parent = some (start + m)

namespace Laid

variable {α : Type} {parent : Option Nat} {start : Nat}

theorem nil : Laid parent start ([] : List (Listed α)) :=
  ⟨by simp, by simp⟩

/-- Two listings side by side. -/
theorem append {first second : List (Listed α)} (hfirst : Laid parent start first)
    (hsecond : Laid parent (start + first.length) second) :
    Laid parent start (first ++ second) := by
  constructor
  · intro k node hnode
    rcases Nat.lt_or_ge k first.length with hk | hk
    · rw [List.getElem?_append_left hk] at hnode
      obtain ⟨hlow, hhigh, habove⟩ := hfirst.bounds k node hnode
      refine ⟨hlow, by simp only [List.length_append]; omega, ?_⟩
      rcases habove with houter | ⟨m, above, hm, hget, hparent, hinside⟩
      · exact .inl houter
      · exact .inr ⟨m, above, hm, by rw [List.getElem?_append_left (by omega)]; exact hget,
          hparent, hinside⟩
    · rw [List.getElem?_append_right hk] at hnode
      obtain ⟨hlow, hhigh, habove⟩ := hsecond.bounds _ node hnode
      refine ⟨by omega, by simp only [List.length_append]; omega, ?_⟩
      rcases habove with houter | ⟨m, above, hm, hget, hparent, hinside⟩
      · exact .inl houter
      · refine .inr ⟨first.length + m, above, by omega, ?_, ?_, by omega⟩
        · rw [List.getElem?_append_right (by omega), Nat.add_sub_cancel_left]
          exact hget
        · rw [hparent, Nat.add_assoc]
  · intro j k above node habove hnode hlt hinside
    rcases Nat.lt_or_ge k first.length with hk | hk
    · rw [List.getElem?_append_left hk] at hnode
      rw [List.getElem?_append_left (by omega)] at habove
      exact hfirst.nested j k above node habove hnode hlt hinside
    · rcases Nat.lt_or_ge j first.length with hj | hj
      · -- an entry of the first listing ends before the second starts
        rw [List.getElem?_append_left hj] at habove
        obtain ⟨-, hhigh, -⟩ := hfirst.bounds j above habove
        omega
      · rw [List.getElem?_append_right hk] at hnode
        rw [List.getElem?_append_right hj] at habove
        obtain ⟨hending, m, hjm, hmk, hparent⟩ :=
          hsecond.nested _ _ above node habove hnode (by omega) (by omega)
        refine ⟨hending, first.length + m, by omega, by omega, ?_⟩
        rw [hparent, Nat.add_assoc]

/-- An entry above the listing of its subtree. -/
theorem above {item : Listed α} {kids : List (Listed α)} (hparent : item.parent = parent)
    (hending : item.ending = start + 1 + kids.length)
    (hkids : Laid (some start) (start + 1) kids) : Laid parent start (item :: kids) := by
  constructor
  · intro k node hnode
    cases k with
    | zero =>
      simp only [List.getElem?_cons_zero, Option.some.injEq] at hnode
      subst hnode
      exact ⟨by omega, by simp only [List.length_cons]; omega, .inl hparent⟩
    | succ k =>
      rw [List.getElem?_cons_succ] at hnode
      obtain ⟨hlow, hhigh, habove⟩ := hkids.bounds k node hnode
      refine ⟨by omega, by simp only [List.length_cons]; omega, .inr ?_⟩
      rcases habove with houter | ⟨m, upper, hm, hget, hup, hinside⟩
      · exact ⟨0, item, by omega, rfl, houter, by omega⟩
      · exact ⟨m + 1, upper, by omega, by simpa using hget, by rw [hup]; congr 1; omega,
          by omega⟩
  · intro j k upper node hupper hnode hlt hinside
    cases k with
    | zero => omega
    | succ k =>
      rw [List.getElem?_cons_succ] at hnode
      cases j with
      | zero =>
        simp only [List.getElem?_cons_zero, Option.some.injEq] at hupper
        subst hupper
        obtain ⟨-, hhigh, habove⟩ := hkids.bounds k node hnode
        refine ⟨by omega, ?_⟩
        rcases habove with houter | ⟨m, -, hm, -, hup, -⟩
        · exact ⟨0, by omega, by omega, houter⟩
        · exact ⟨m + 1, by omega, by omega, by rw [hup]; congr 1; omega⟩
      | succ j =>
        rw [List.getElem?_cons_succ] at hupper
        obtain ⟨hle, m, hjm, hmk, hup⟩ :=
          hkids.nested j k upper node hupper hnode (by omega) (by omega)
        exact ⟨hle, m + 1, by omega, by omega, by rw [hup]; congr 1; omega⟩

end Laid

/-- Every forest is laid out so. -/
theorem Forest.laid {α : Type} (forest : Forest α) (depth : Nat) (parent : Option Nat)
    (sibling start : Nat) : Laid parent start (forest.listing depth parent sibling start) := by
  induction forest generalizing depth parent sibling start with
  | nil => exact Laid.nil
  | leaf item rest ih =>
    have hone : Laid parent start
        [(⟨item, false, depth, parent, sibling, start + 1⟩ : Listed α)] :=
      Laid.above rfl rfl Laid.nil
    exact hone.append (ih depth parent (sibling + 1) (start + 1))
  | branch item kids close rest ihKids ihRest =>
    have hkids := ihKids (depth + 1) (some start) 0 (start + 1)
    have hone : Laid parent start
        (⟨item, true, depth, parent, sibling, start + 1 + kids.size⟩ ::
          kids.listing (depth + 1) (some start) 0 (start + 1)) :=
      Laid.above rfl (by simp) hkids
    have hrest := ihRest depth parent (sibling + 1) (start + 1 + kids.size)
    refine hone.append ?_
    simpa [Nat.add_assoc, Nat.add_comm 1] using hrest

namespace Forest

variable {α : Type}

/-- Whether following the parents from `node` reaches `target`; a parent precedes its
children, so `fuel` need not exceed the index. -/
def climbs (list : List (Listed α)) (target : Nat) : Nat → Nat → Bool
  | 0, _ => false
  | fuel + 1, node =>
    match list[node]? with
    | none => false
    | some entry =>
      match entry.parent with
      | none => false
      | some parent => parent = target || climbs list target fuel parent

/-- `target` is a proper ancestor of `node`. -/
def isAncestor (list : List (Listed α)) (target node : Nat) : Bool :=
  climbs list target node node

/-- In a laid listing the climb decides the interval of the target. -/
theorem climbs_iff {list : List (Listed α)} (hlist : Laid none 0 list) {target node fuel : Nat}
    {upper : Listed α} (hupper : list[target]? = some upper) (hnode : node < list.length)
    (hfuel : node ≤ fuel) :
    climbs list target fuel node = true ↔ target < node ∧ node < upper.ending := by
  induction fuel generalizing node with
  | zero => simp [climbs]; omega
  | succ fuel ih =>
    obtain ⟨entry, hentry⟩ : ∃ entry, list[node]? = some entry :=
      ⟨_, List.getElem?_eq_getElem hnode⟩
    obtain ⟨-, -, habove⟩ := hlist.bounds node entry hentry
    simp only [Nat.zero_add] at habove
    simp only [climbs, hentry]
    rcases habove with hroot | ⟨m, above, hm, hget, hparent, hinside⟩
    · simp only [hroot, Bool.false_eq_true, false_iff, not_and, not_lt]
      intro hlt
      by_contra hcontra
      obtain ⟨-, m, -, -, hparent⟩ :=
        hlist.nested target node upper entry hupper hentry hlt (by omega)
      rw [hroot] at hparent
      cases hparent
    · have hmlt : m < list.length := (List.getElem?_eq_some_iff.mp hget).1
      simp only [hparent, Bool.or_eq_true, decide_eq_true_eq, ih hmlt (by omega)]
      constructor
      · rintro (rfl | ⟨hlt, hbelow⟩)
        · have hsame : above = upper := Option.some.inj (hget.symm.trans hupper)
          exact ⟨hm, hsame ▸ hinside⟩
        · obtain ⟨hle, -⟩ :=
            hlist.nested target m upper above hupper hget hlt (by omega)
          exact ⟨by omega, by omega⟩
      · rintro ⟨hlt, hbelow⟩
        obtain ⟨-, m', hle, -, hparent'⟩ :=
          hlist.nested target node upper entry hupper hentry hlt (by omega)
        have hmm : m = m' := by simpa [hparent] using hparent'
        rcases Nat.eq_or_lt_of_le hle with heq | hlt'
        · exact .inl (by omega)
        · exact .inr ⟨by omega, by omega⟩

/-- The descendants of an entry are the indices up to its end. -/
theorem is_ancestor_iff (forest : Forest α) {target node : Nat} {upper : Listed α}
    (hupper : forest.nodes[target]? = some upper) (hnode : node < forest.size) :
    isAncestor forest.nodes target node = true ↔ target < node ∧ node < upper.ending :=
  climbs_iff (forest.laid 0 none 0 0) hupper (by simpa using hnode) (Nat.le_refl _)

end Forest

end OpenTlv
