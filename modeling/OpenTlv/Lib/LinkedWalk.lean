import OpenTlv.Lib.LinkedHeap

/-!
# Loops over linked nodes

Loops that follow the links of a forest, with fuel: the preorder walk by parent links, the climb to
the root, the deletion of a subtree from its first leaf on and the move of a list to another owner.
Fuel that runs out is undefined (`none`), and each specification says how much is enough.
-/

namespace OpenTlv

variable {A D : Type} [DecidableEq A]

namespace LinkHeap

/-- The node behind a subtree that was walked: behind `node` or its nearest ancestor that has a
next node, inside of the subtree of `root` or in the whole forest. -/
def climb (heap : LinkHeap A D) (root : Option A) : Nat → A → Option (Option A)
  | 0, _ => none
  | fuel + 1, node =>
    if root = some node then some none
    else do
      let cell ← heap.cells node
      match cell.next, cell.parent with
      | some next, _ => some (some next)
      | none, some parent => heap.climb root fuel parent
      | none, none => if root = none then some none else none

/-- The next node in preorder. -/
def walkNext (heap : LinkHeap A D) (root : Option A) (fuel : Nat) (node : A) :
    Option (Option A) := do
  let cell ← heap.cells node
  match cell.first with
  | some first => some (some first)
  | none => heap.climb root fuel node

/-- The number of nodes from `node` on. -/
def countFrom (heap : LinkHeap A D) (root : A) (bound : Nat) : Nat → Nat → Option A → Option Nat
  | _, total, none => some total
  | 0, _, some _ => none
  | fuel + 1, total, some node => do
      let next ← heap.walkNext (some root) bound node
      heap.countFrom root bound fuel (total + 1) next

/-- The number of nodes in a subtree. -/
def subtreeSize (heap : LinkHeap A D) (fuel : Nat) (node : A) : Option Nat :=
  heap.countFrom node fuel fuel 0 (some node)

/-- The number of ancestors of a node, from `depth` on. -/
def depthFrom (heap : LinkHeap A D) : Nat → Nat → A → Option Nat
  | 0, _, _ => none
  | fuel + 1, depth, node => do
      let cell ← heap.cells node
      match cell.parent with
      | none => some depth
      | some parent => heap.depthFrom fuel (depth + 1) parent

/-- The nodes of a subtree are given back, the first leaf first. -/
def freeFrom (root : A) : Nat → LinkHeap A D → Option A → Option (LinkHeap A D)
  | _, heap, none => some heap
  | 0, _, some _ => none
  | fuel + 1, heap, some node => do
      let cell ← heap.cells node
      match cell.first with
      | some first => freeFrom root fuel heap (some first)
      | none =>
        match if node = root then none else cell.parent with
        | none => freeFrom root fuel (heap.release node) none
        | some parent =>
          let heap ← heap.modify parent fun above => { above with first := cell.next }
          freeFrom root fuel (heap.release node) (some parent)

def freeSubtree (heap : LinkHeap A D) (fuel : Nat) (root : A) : Option (LinkHeap A D) :=
  freeFrom root fuel heap (some root)

/-- The subtrees of a list of siblings are given back. -/
def freeSiblings (bound : Nat) : Nat → LinkHeap A D → Option A → Option (LinkHeap A D)
  | _, heap, none => some heap
  | 0, _, some _ => none
  | fuel + 1, heap, some child => do
      let cell ← heap.cells child
      let heap ← heap.freeSubtree bound child
      freeSiblings bound fuel heap cell.next

/-- The nodes of a list get another parent. -/
def reparent (parent : A) : Nat → LinkHeap A D → Option A → Option (LinkHeap A D)
  | _, heap, none => some heap
  | 0, _, some _ => none
  | fuel + 1, heap, some child => do
      let heap ← heap.modify child fun cell => { cell with parent := some parent }
      let cell ← heap.cells child
      reparent parent fuel heap cell.next

end LinkHeap

/-- The nodes that a walk visits until it is at another place. -/
inductive Visits (next : A → Option (Option A)) : Option A → List A → Option A → Prop where
  | done (place : Option A) : Visits next place [] place
  | step {node : A} {place : Option A} {list : List A} {last : Option A}
      (hnext : next node = some place) (hrest : Visits next place list last) :
      Visits next (some node) (node :: list) last

section Walk

variable {heap : LinkHeap A D} {root parent prev : Option A} {forest : LinkForest A D}

omit [DecidableEq A] in
/-- Two visits, one after the other. -/
theorem Visits.trans {next : A → Option (Option A)} {first middle last : Option A}
    {list other : List A} (h : Visits next first list middle) (h' : Visits next middle other last) :
    Visits next first (list ++ other) last := by
  induction h with
  | done place => exact h'
  | step hnext _ ih => exact .step hnext (ih h')

omit [DecidableEq A] in
/-- There is one walk. -/
theorem Visits.unique {next : A → Option (Option A)} {place : Option A} {list list' : List A}
    (h : Visits next place list none) (h' : Visits next place list' none) : list = list' := by
  generalize hlast : (none : Option A) = last at h
  induction h generalizing list' with
  | done place =>
    subst hlast
    cases h'
    rfl
  | @step node place last list hnext _ ih =>
    cases h' with
    | step hnext' hrest' =>
      rw [hnext] at hnext'
      cases hnext'
      rw [ih hrest' hlast]

/-- More fuel climbs to the same place. -/
theorem climb_mono {fuel more : Nat} {node : A} {place : Option A}
    (h : heap.climb root fuel node = some place) (hle : fuel ≤ more) :
    heap.climb root more node = some place := by
  induction fuel generalizing node more with
  | zero => cases h
  | succ fuel ih =>
    obtain ⟨more, rfl⟩ : ∃ less, more = less + 1 := ⟨more - 1, by omega⟩
    simp only [LinkHeap.climb] at h ⊢
    split
    next hroot => simpa [hroot] using h
    next hroot =>
      simp only [hroot, if_false, Option.bind_eq_bind, Option.bind_eq_some_iff] at h ⊢
      obtain ⟨cell, hcell, hplace⟩ := h
      refine ⟨cell, hcell, ?_⟩
      split at hplace
      · exact hplace
      · exact ih hplace (by omega)
      · exact hplace

/-- Where the walk goes on behind the list of `parent`. -/
def LinkHeap.Leaves (heap : LinkHeap A D) (root : Option A) (fuel : Nat) :
    Option A → Option A → Prop
  | some parent, place => heap.climb root fuel parent = some place
  | none, place => root = none ∧ place = none

/-- A list is walked in preorder, and then the walk goes on behind it. -/
theorem Holds.visits (h : Holds heap.cells parent prev none forest)
    (hroot : ∀ r, root = some r → r ∉ forest.addrs) {place : Option A} {fuel more : Nat}
    (hleaves : heap.Leaves root fuel parent place) (hmore : fuel + forest.size ≤ more) :
    Visits (heap.walkNext root more) (forest.firstAddr.or place) forest.addrs place := by
  induction forest generalizing parent prev place fuel with
  | nil => exact .done place
  | node addr data inner rest ihinner ihrest =>
    obtain ⟨hcell, hinner, hrest⟩ := h
    have hsize : (LinkForest.node addr data inner rest).size = inner.size + rest.size + 1 := rfl
    have hself : root ≠ some addr := fun heq => hroot addr heq (by simp)
    have hclimb : heap.climb root (fuel + 1) addr = some (rest.firstAddr.or place) := by
      simp only [LinkHeap.climb, hself, if_false, hcell, Option.bind_eq_bind, Option.bind_some,
        Option.or_none]
      cases rest.firstAddr with
      | some next => rfl
      | none =>
        cases parent with
        | some parent => exact hleaves
        | none => simp [hleaves.1, hleaves.2]
    have hnext : heap.walkNext root more addr =
        some (inner.firstAddr.or (rest.firstAddr.or place)) := by
      simp only [LinkHeap.walkNext, hcell, Option.bind_eq_bind, Option.bind_some]
      cases inner.firstAddr with
      | some first => rfl
      | none => exact climb_mono hclimb (by omega)
    have hin := ihinner hinner (fun r hr hmem => hroot r hr (by simp [hmem])) hclimb (by omega)
    have hout := ihrest hrest (fun r hr hmem => hroot r hr (by simp [hmem])) hleaves (by omega)
    exact .step hnext (hin.trans hout)

/-- The walk of a subtree visits it in preorder. -/
theorem Holds.visits_subtree {node : A} {cell : LinkCell A D} {inner : LinkForest A D}
    (hcell : heap.cells node = some cell) (hfirst : cell.first = inner.firstAddr)
    (hinner : Holds heap.cells (some node) none none inner) (hnot : node ∉ inner.addrs) {fuel : Nat}
    (hfuel : inner.size < fuel) :
    Visits (heap.walkNext (some node) fuel) (some node) (node :: inner.addrs) none := by
  have hclimb : heap.climb (some node) 1 node = some none := by simp [LinkHeap.climb]
  have hnext : heap.walkNext (some node) fuel node = some (inner.firstAddr.or none) := by
    simp only [LinkHeap.walkNext, hcell, Option.bind_eq_bind, Option.bind_some, hfirst,
      Option.or_none]
    cases inner.firstAddr with
    | some first => rfl
    | none => exact climb_mono hclimb (by omega)
  refine .step hnext (hinner.visits ?_ hclimb (by omega))
  intro r hr
  cases hr
  exact hnot

/-- Counting along a visit gives the length of its list. -/
theorem Visits.count_from {root : A} {bound : Nat} {place : Option A} {list : List A}
    (h : Visits (heap.walkNext (some root) bound) place list none) {fuel : Nat} (total : Nat)
    (hfuel : list.length ≤ fuel) :
    heap.countFrom root bound fuel total place = some (total + list.length) := by
  generalize hlast : (none : Option A) = last at h
  induction h generalizing fuel total with
  | done place =>
    subst hlast
    cases fuel <;> rfl
  | step hnext hrest ih =>
    obtain ⟨fuel, rfl⟩ : ∃ less, fuel = less + 1 :=
      ⟨fuel - 1, by simp only [List.length_cons] at hfuel; omega⟩
    simp only [LinkHeap.countFrom, hnext, Option.bind_eq_bind, Option.bind_some]
    rw [ih (total + 1) (by simpa using hfuel) hlast]
    simp only [List.length_cons]
    congr 1
    omega

/-- The nodes of a subtree are counted. -/
theorem Holds.subtree_size {node : A} {cell : LinkCell A D} {inner : LinkForest A D}
    (hcell : heap.cells node = some cell) (hfirst : cell.first = inner.firstAddr)
    (hinner : Holds heap.cells (some node) none none inner) (hnot : node ∉ inner.addrs) {fuel : Nat}
    (hfuel : inner.size < fuel) : heap.subtreeSize fuel node = some (inner.size + 1) := by
  have hvisits := Holds.visits_subtree hcell hfirst hinner hnot hfuel
  have hcount := hvisits.count_from 0 (by simpa [LinkForest.addrs_length] using hfuel)
  simpa [LinkHeap.subtreeSize, LinkForest.addrs_length] using hcount

omit [DecidableEq A] in
/-- A node is as deep as its context says. -/
theorem LinkContext.depth_from {context : LinkContext A D} {list : LinkForest A D}
    (h : Holds heap.cells none none none (context.plug list)) {node : A} {cell : LinkCell A D}
    (hcell : heap.cells node = some cell) (hparent : cell.parent = context.owner none) {fuel : Nat}
    (depth : Nat) (hfuel : context.length < fuel) :
    heap.depthFrom fuel depth node = some (depth + context.length) := by
  induction context generalizing list node cell fuel depth with
  | nil =>
    obtain ⟨fuel, rfl⟩ : ∃ less, fuel = less + 1 := ⟨fuel - 1, by omega⟩
    simp [LinkHeap.depthFrom, hcell, hparent, LinkContext.owner]
  | cons level outer ih =>
    obtain ⟨fuel, rfl⟩ : ∃ less, fuel = less + 1 :=
      ⟨fuel - 1, by simp only [List.length_cons] at hfuel; omega⟩
    have hup := ih h (LinkContext.holds_owner h) rfl (depth + 1) (by simpa using hfuel)
    simp only [LinkHeap.depthFrom, hcell, hparent, LinkContext.owner, Option.bind_eq_bind,
      Option.bind_some, List.length_cons, hup]
    congr 1
    omega

/-- Behind a node the walk goes on with the next node or behind the list. -/
theorem LinkContext.climb_from {context : LinkContext A D} {list : LinkForest A D}
    (h : Holds heap.cells none none none (context.plug list)) {node : A} {cell : LinkCell A D}
    (hcell : heap.cells node = some cell) (hparent : cell.parent = context.owner none) {fuel : Nat}
    (hfuel : context.length < fuel) :
    heap.climb none fuel node = some (cell.next.or context.following) := by
  induction context generalizing list node cell fuel with
  | nil =>
    obtain ⟨fuel, rfl⟩ : ∃ less, fuel = less + 1 := ⟨fuel - 1, by omega⟩
    have hparent' : cell.parent = none := hparent
    simp only [LinkHeap.climb, hcell, hparent', Option.bind_eq_bind, Option.bind_some]
    cases cell.next <;> simp [LinkContext.following]
  | cons level outer ih =>
    obtain ⟨fuel, rfl⟩ : ∃ less, fuel = less + 1 :=
      ⟨fuel - 1, by simp only [List.length_cons] at hfuel; omega⟩
    have hup := ih h (LinkContext.holds_owner h) rfl (show outer.length < fuel by simpa using hfuel)
    have hparent' : cell.parent = some level.addr := hparent
    simp only [LinkHeap.climb, hcell, hparent', Option.bind_eq_bind, Option.bind_some]
    cases cell.next with
    | some next => simp
    | none => simpa [LinkContext.following] using hup

end Walk

section Free

/-- The heap without some nodes. -/
def LinkHeap.without (heap : LinkHeap A D) (list : List A) : LinkHeap A D :=
  { heap with cells := fun a => if a ∈ list then none else heap.cells a }

theorem LinkHeap.without_cells {heap : LinkHeap A D} {list : List A} {a : A} (h : a ∉ list) :
    (heap.without list).cells a = heap.cells a :=
  if_neg h

/-- The links that lead through a list from its first node on. -/
def Downward (cells : A → Option (LinkCell A D)) (parent : Option A) : LinkForest A D → Prop
  | .nil => True
  | .node addr _ inner rest =>
    (∃ cell, cells addr = some cell ∧ cell.parent = parent ∧ cell.next = rest.firstAddr ∧
      cell.first = inner.firstAddr) ∧
    Downward cells (some addr) inner ∧ Downward cells parent rest

variable {heap : LinkHeap A D} {parent prev : Option A} {forest : LinkForest A D}

omit [DecidableEq A] in
/-- Held cells are linked downwards. -/
theorem Holds.downward {cells : A → Option (LinkCell A D)}
    (h : Holds cells parent prev none forest) : Downward cells parent forest := by
  induction forest generalizing parent prev with
  | nil => trivial
  | node addr data inner rest ihinner ihrest =>
    obtain ⟨hcell, hinner, hrest⟩ := h
    exact ⟨⟨_, hcell, rfl, by simp, rfl⟩, ihinner hinner, ihrest hrest⟩

omit [DecidableEq A] in
/-- Downward links depend only on the cells of the forest. -/
theorem Downward.congr {cells cells' : A → Option (LinkCell A D)}
    (h : Downward cells parent forest) (hsame : ∀ a ∈ forest.addrs, cells' a = cells a) :
    Downward cells' parent forest := by
  induction forest generalizing parent with
  | nil => trivial
  | node addr data inner rest ihinner ihrest =>
    obtain ⟨⟨cell, hcell, hlinks⟩, hinner, hrest⟩ := h
    refine ⟨⟨cell, ?_, hlinks⟩, ihinner hinner fun a ha => hsame a (by simp [ha]),
      ihrest hrest fun a ha => hsame a (by simp [ha])⟩
    rw [hsame addr (by simp), hcell]

/-- Below `node` everything is given back, and the deletion is at `node` again. -/
theorem Downward.free_from {root node : A} {cell : LinkCell A D}
    (h : Downward heap.cells (some node) forest) (hcell : heap.cells node = some cell)
    (hfirst : cell.first = forest.firstAddr) (hnodup : (node :: forest.addrs).Nodup)
    (hroot : root ∉ forest.addrs) (fuel : Nat) :
    LinkHeap.freeFrom root (fuel + 2 * forest.size) heap (some node) =
      LinkHeap.freeFrom root fuel { heap.without forest.addrs with
        cells := putCell (heap.without forest.addrs).cells node
          (some { cell with first := none }) } (some node) := by
  induction forest generalizing heap node cell fuel with
  | nil =>
    have hsame : putCell (heap.without []).cells node (some { cell with first := none }) =
        heap.cells := by
      funext a
      by_cases ha : a = node
      · have hnone : cell.first = none := hfirst
        subst ha
        rw [put_cell_self, hcell, ← hnone]
      · rw [put_cell_other ha]
        rfl
    show _ = LinkHeap.freeFrom root fuel { heap with
      cells := putCell (heap.without []).cells node (some { cell with first := none }) } _
    rw [hsame]
    rfl
  | node addr data inner rest ihinner ihrest =>
    obtain ⟨⟨below, hbelow, hup, hnext, hdown⟩, hinner, hrest⟩ := h
    rw [LinkForest.addrs_node] at hnodup hroot
    obtain ⟨hnode, hlist⟩ := List.nodup_cons.mp hnodup
    obtain ⟨haddr, hboth⟩ := List.nodup_cons.mp hlist
    obtain ⟨hinnernodup, hrestnodup, hdisjoint⟩ := List.nodup_append.mp hboth
    have hna : node ≠ addr := fun heq => hnode (by simp [heq])
    have hra : addr ≠ root := fun heq => hroot (by simp [heq])
    have hninner : node ∉ inner.addrs := fun hmem => hnode (by simp [hmem])
    have hnrest : node ∉ rest.addrs := fun hmem => hnode (by simp [hmem])
    have hainner : addr ∉ inner.addrs := fun hmem => haddr (by simp [hmem])
    have harest : addr ∉ rest.addrs := fun hmem => haddr (by simp [hmem])
    have hsize : fuel + 2 * (LinkForest.node addr data inner rest).size =
        fuel + 2 * rest.size + 1 + 2 * inner.size + 1 := by
      show fuel + 2 * (inner.size + rest.size + 1) = _
      omega
    -- down to the first child, below which everything is given back
    have hdescend : LinkHeap.freeFrom root (fuel + 2 * rest.size + 1 + 2 * inner.size + 1) heap
        (some node) =
        LinkHeap.freeFrom root (fuel + 2 * rest.size + 1 + 2 * inner.size) heap (some addr) := by
      simp [LinkHeap.freeFrom, hcell, hfirst]
    rw [hsize, hdescend, ihinner hinner hbelow hdown (List.nodup_cons.mpr ⟨hainner, hinnernodup⟩)
      (fun hmem => hroot (by simp [hmem])) (fuel + 2 * rest.size + 1)]
    -- the child itself is given back, and its parent leads to the rest
    generalize hheap : ({ heap.without inner.addrs with
      cells := putCell (heap.without inner.addrs).cells addr
        (some { below with first := none }) } : LinkHeap A D) = pruned
    have hpruned : ∀ a, a ≠ addr → a ∉ inner.addrs → pruned.cells a = heap.cells a := by
      intro a ha hmem
      rw [← hheap]
      exact (put_cell_other ha).trans (LinkHeap.without_cells hmem)
    have hleaf : pruned.cells addr = some { below with first := none } := by
      rw [← hheap]
      exact put_cell_self _ _ _
    have hrelease : LinkHeap.freeFrom root (fuel + 2 * rest.size + 1) pruned (some addr) =
        LinkHeap.freeFrom root (fuel + 2 * rest.size) (LinkHeap.release { pruned with
          cells := putCell pruned.cells node (some { cell with first := rest.firstAddr }) } addr)
          (some node) := by
      simp [LinkHeap.freeFrom, hleaf, hra, hup, LinkHeap.modify, hpruned node hna hninner, hcell,
        hnext]
    rw [hrelease, @ihrest _ _ { cell with first := rest.firstAddr } ?_ ?_ rfl
      (List.nodup_cons.mpr ⟨hnrest, hrestnodup⟩) (fun hmem => hroot (by simp [hmem])) fuel]
    · congr 1
      subst hheap
      simp only [LinkHeap.release, LinkHeap.without, LinkHeap.mk.injEq, and_true]
      funext a
      by_cases han : a = node
      · simp [han]
      · by_cases haa : a = addr
        · subst haa
          simp [put_cell_other han]
        · simp only [put_cell_other han, put_cell_other haa, LinkForest.addrs_node,
            List.mem_cons, List.mem_append, haa, false_or]
          by_cases hr : a ∈ rest.addrs
          · simp [hr]
          · simp [hr]
    · refine hrest.congr fun a ha => ?_
      have haa : a ≠ addr := fun heq => harest (heq ▸ ha)
      have han : a ≠ node := fun heq => hnrest (heq ▸ ha)
      show putCell (putCell pruned.cells node _) addr none a = _
      rw [put_cell_other haa, put_cell_other han]
      exact hpruned a haa fun hmem => hdisjoint a hmem a ha rfl
    · show putCell (putCell pruned.cells node _) addr none node = _
      rw [put_cell_other hna, put_cell_self]

/-- A subtree is given back as a whole. -/
theorem Holds.free_subtree {node : A} {cell : LinkCell A D} {inner : LinkForest A D}
    (hcell : heap.cells node = some cell) (hfirst : cell.first = inner.firstAddr)
    (hinner : Holds heap.cells (some node) none none inner) (hnodup : (node :: inner.addrs).Nodup)
    {fuel : Nat} (hfuel : 2 * inner.size < fuel) :
    heap.freeSubtree fuel node = some (heap.without (node :: inner.addrs)) := by
  obtain ⟨fuel, rfl⟩ : ∃ less, fuel = less + 1 + 2 * inner.size :=
    ⟨fuel - 1 - 2 * inner.size, by omega⟩
  have hnot := (List.nodup_cons.mp hnodup).1
  rw [LinkHeap.freeSubtree, hinner.downward.free_from hcell hfirst hnodup hnot]
  simp only [LinkHeap.freeFrom, put_cell_self, Option.bind_eq_bind, Option.bind_some, if_true]
  simp only [LinkHeap.release, LinkHeap.without, Option.some.injEq, LinkHeap.mk.injEq, and_true]
  funext a
  by_cases ha : a = node
  · simp [ha]
  · simp [put_cell_other ha, ha]

/-- Removing twice removes both lists. -/
theorem LinkHeap.without_without (heap : LinkHeap A D) (list other : List A) :
    (heap.without list).without other = heap.without (list ++ other) := by
  simp only [LinkHeap.without, LinkHeap.mk.injEq, and_true]
  funext a
  by_cases ha : a ∈ list
  · simp [ha]
  · simp [ha]

/-- A list of siblings is given back. -/
theorem Holds.free_siblings (h : Holds heap.cells parent prev none forest)
    (hnodup : forest.addrs.Nodup) {bound fuel : Nat} (hbound : 2 * forest.size ≤ bound)
    (hfuel : forest.size ≤ fuel) :
    LinkHeap.freeSiblings bound fuel heap forest.firstAddr =
      some (heap.without forest.addrs) := by
  induction forest generalizing heap prev fuel with
  | nil => cases fuel <;> rfl
  | node addr data inner rest _ ih =>
    obtain ⟨hcell, hinner, hrest⟩ := h
    rw [LinkForest.addrs_node] at hnodup
    have hsize : (LinkForest.node addr data inner rest).size = inner.size + rest.size + 1 := rfl
    obtain ⟨fuel, rfl⟩ : ∃ less, fuel = less + 1 := ⟨fuel - 1, by omega⟩
    obtain ⟨hboth, hrestnodup, hdisjoint⟩ :=
      List.nodup_append.mp (List.cons_append ▸ hnodup :
        ((addr :: inner.addrs) ++ rest.addrs).Nodup)
    have hfree := Holds.free_subtree hcell rfl hinner hboth (show 2 * inner.size < bound by omega)
    have hkeep : Holds (heap.without (addr :: inner.addrs)).cells parent (some addr) none rest :=
      hrest.congr fun a ha => LinkHeap.without_cells fun hmem => hdisjoint a hmem a ha rfl
    simp only [LinkHeap.freeSiblings, LinkForest.first_addr_node, hcell, Option.bind_eq_bind,
      Option.bind_some, hfree, Option.or_none]
    rw [ih hkeep hrestnodup (by omega) (by omega), LinkHeap.without_without,
      LinkForest.addrs_node, List.cons_append]

/-- A list moves to another owner. -/
theorem Holds.reparent {other : A}
    (h : Holds heap.cells parent prev none forest) (hnodup : forest.addrs.Nodup) {fuel : Nat}
    (hfuel : forest.size ≤ fuel) :
    ∃ heap', LinkHeap.reparent other fuel heap forest.firstAddr = some heap' ∧
      Holds heap'.cells (some other) prev none forest ∧ heap'.first = heap.first ∧
      heap'.last = heap.last ∧ ∀ a ∉ forest.addrs, heap'.cells a = heap.cells a := by
  induction forest generalizing heap prev fuel with
  | nil => exact ⟨heap, by cases fuel <;> rfl, trivial, rfl, rfl, fun _ _ => rfl⟩
  | node addr data inner rest _ ih =>
    obtain ⟨hcell, hinner, hrest⟩ := h
    rw [LinkForest.addrs_node] at hnodup
    have hsize : (LinkForest.node addr data inner rest).size = inner.size + rest.size + 1 := rfl
    obtain ⟨fuel, rfl⟩ : ∃ less, fuel = less + 1 := ⟨fuel - 1, by omega⟩
    obtain ⟨hnot, hboth⟩ := List.nodup_cons.mp hnodup
    obtain ⟨-, hrestnodup, hdisjoint⟩ := List.nodup_append.mp hboth
    have hmodify : heap.modify addr (fun cell => { cell with parent := some other }) =
        some { heap with cells := putCell heap.cells addr (some ⟨data, some other, prev,
          rest.firstAddr, inner.firstAddr, inner.lastAddr⟩) } := by
      simp [LinkHeap.modify, hcell]
    have hkeep : ∀ a ∈ inner.addrs ++ rest.addrs, putCell heap.cells addr
        (some ⟨data, some other, prev, rest.firstAddr, inner.firstAddr, inner.lastAddr⟩) a =
        heap.cells a := fun a ha => put_cell_other fun heq => hnot (heq ▸ ha)
    obtain ⟨heap', hrun, hholds, hfirst, hlast, hframe⟩ :=
      @ih { heap with cells := putCell heap.cells addr (some ⟨data, some other, prev,
          rest.firstAddr, inner.firstAddr, inner.lastAddr⟩) } _
        (hrest.congr fun a ha => hkeep a (by simp [ha])) hrestnodup fuel (by omega)
    refine ⟨heap', ?_, ⟨?_, ?_, hholds⟩, hfirst, hlast, ?_⟩
    · simp only [LinkHeap.reparent, LinkForest.first_addr_node, hmodify, Option.bind_eq_bind,
        Option.bind_some, put_cell_self]
      exact hrun
    · rw [hframe addr fun hmem => hnot (by simp [hmem])]
      simp
    · refine hinner.congr fun a ha => ?_
      rw [hframe a fun hmem => hdisjoint a ha a hmem rfl]
      exact hkeep a (by simp [ha])
    · intro a ha
      rw [LinkForest.addrs_node] at ha
      rw [hframe a fun hmem => ha (by simp [hmem])]
      exact put_cell_other fun heq => ha (by simp [heq])

end Free

end OpenTlv
