import OpenTlv.Lib.LinkedForest

/-!
# Links in a heap

The operations on linked nodes, store by store. An operation is undefined (`none`) where it follows
a pointer to a node that is not alive, so that a specification with a result says that no such
pointer is followed. `Lists` says what list of children a node has, `ListEdit` what an operation
changes when it changes one such list, and `Lists.edit` takes an edit to the forest around the list.
-/

namespace OpenTlv

variable {A D : Type} [DecidableEq A]

/-- The cells with another value at one address. -/
def putCell (cells : A → Option (LinkCell A D)) (a : A) (value : Option (LinkCell A D)) :
    A → Option (LinkCell A D) :=
  fun b => if b = a then value else cells b

@[simp] theorem put_cell_self (cells : A → Option (LinkCell A D)) (a : A)
    (value : Option (LinkCell A D)) : putCell cells a value a = value :=
  if_pos rfl

theorem put_cell_other {cells : A → Option (LinkCell A D)} {a b : A}
    {value : Option (LinkCell A D)} (h : b ≠ a) : putCell cells a value b = cells b :=
  if_neg h

namespace LinkHeap

/-- A store to a live node. -/
def modify (heap : LinkHeap A D) (a : A) (f : LinkCell A D → LinkCell A D) :
    Option (LinkHeap A D) :=
  (heap.cells a).map fun cell => { heap with cells := putCell heap.cells a (some (f cell)) }

/-- A node comes to life. -/
def birth (heap : LinkHeap A D) (a : A) (cell : LinkCell A D) : LinkHeap A D :=
  { heap with cells := putCell heap.cells a (some cell) }

/-- A node is given back. -/
def release (heap : LinkHeap A D) (a : A) : LinkHeap A D :=
  { heap with cells := putCell heap.cells a none }

/-- The first child of a node, or the first root. -/
def firstOf (heap : LinkHeap A D) : Option A → Option (Option A)
  | none => some heap.first
  | some parent => (heap.cells parent).map LinkCell.first

/-- The last child of a node, or the last root. -/
def lastOf (heap : LinkHeap A D) : Option A → Option (Option A)
  | none => some heap.last
  | some parent => (heap.cells parent).map LinkCell.last

def setFirst (heap : LinkHeap A D) : Option A → Option A → Option (LinkHeap A D)
  | none, value => some { heap with first := value }
  | some parent, value => heap.modify parent fun cell => { cell with first := value }

def setLast (heap : LinkHeap A D) : Option A → Option A → Option (LinkHeap A D)
  | none, value => some { heap with last := value }
  | some parent, value => heap.modify parent fun cell => { cell with last := value }

/-- What precedes a place in a list, a node or the list itself, is made to point at `value`. -/
def pointNext (heap : LinkHeap A D) (parent prev value : Option A) : Option (LinkHeap A D) :=
  match prev with
  | some prev => heap.modify prev fun cell => { cell with next := value }
  | none => heap.setFirst parent value

/-- What follows a place in a list is made to point back at `value`. -/
def pointPrev (heap : LinkHeap A D) (parent next value : Option A) : Option (LinkHeap A D) :=
  match next with
  | some next => heap.modify next fun cell => { cell with prev := value }
  | none => heap.setLast parent value

/-- The node ahead of `before`, or of the end of the list. -/
def prevAt (heap : LinkHeap A D) (parent : Option A) : Option A → Option (Option A)
  | some before => (heap.cells before).map LinkCell.prev
  | none => heap.lastOf parent

/-- A node enters the list of `parent` ahead of `before`, or as its last one. -/
def link (heap : LinkHeap A D) (parent before : Option A) (node : A) : Option (LinkHeap A D) := do
  let heap ← heap.modify node fun cell => { cell with parent := parent }
  let prev ← heap.prevAt parent before
  let heap ← heap.modify node fun cell => { cell with next := before, prev := prev }
  let heap ← heap.pointNext parent prev (some node)
  heap.pointPrev parent before (some node)

/-- A node leaves the list that it is in. -/
def unlink (heap : LinkHeap A D) (node : A) : Option (LinkHeap A D) := do
  let cell ← heap.cells node
  let heap ← heap.pointNext cell.parent cell.prev cell.next
  let heap ← heap.pointPrev cell.parent cell.next cell.prev
  heap.modify node fun cell => { cell with parent := none, prev := none, next := none }

end LinkHeap

/-- The list of children of a node, or the list of roots. -/
structure Lists (heap : LinkHeap A D) (parent : Option A) (list : LinkForest A D) : Prop where
  holds : Holds heap.cells parent none none list
  first : heap.firstOf parent = some list.firstAddr
  last : heap.lastOf parent = some list.lastAddr

/-- One list becomes another; outside of both only their owner changes. -/
structure ListEdit (heap heap' : LinkHeap A D) (parent : Option A)
    (list list' : LinkForest A D) : Prop where
  lists : Lists heap' parent list'
  owner : ∀ a, parent = some a → heap'.cells a = (heap.cells a).map fun cell =>
    { cell with first := list'.firstAddr, last := list'.lastAddr }
  root : parent ≠ none → heap'.first = heap.first ∧ heap'.last = heap.last
  frame : ∀ a, parent ≠ some a → a ∉ list.addrs → a ∉ list'.addrs → heap'.cells a = heap.cells a

section Lists

variable {heap heap' : LinkHeap A D} {parent : Option A} {list list' : LinkForest A D}

omit [DecidableEq A] in
/-- The owner's cell links the ends of the list. -/
theorem Lists.owner_live (h : Lists heap parent list) {a : A} (ha : parent = some a) :
    ∃ cell, heap.cells a = some cell ∧ cell.first = list.firstAddr ∧
      cell.last = list.lastAddr := by
  subst ha
  have hfirst : (heap.cells a).map LinkCell.first = some list.firstAddr := h.first
  have hlast : (heap.cells a).map LinkCell.last = some list.lastAddr := h.last
  cases hcell : heap.cells a with
  | none => rw [hcell] at hfirst; cases hfirst
  | some cell =>
    rw [hcell] at hfirst hlast
    exact ⟨cell, rfl, Option.some.inj hfirst, Option.some.inj hlast⟩

/-- Links change inside of one list, and with them the ends that its owner keeps. -/
def LinkHeap.relink (heap : LinkHeap A D) (parent first last : Option A)
    (change : A → LinkCell A D → LinkCell A D) : LinkHeap A D where
  cells a := (heap.cells a).map fun cell =>
    if parent = some a then { cell with first := first, last := last } else change a cell
  first := if parent = none then first else heap.first
  last := if parent = none then last else heap.last

/-- A modified live cell changes alone. -/
theorem LinkHeap.modify_live {a : A} {f : LinkCell A D → LinkCell A D}
    (h : (heap.cells a).isSome) :
    heap.modify a f = some { heap with
      cells := fun b => (heap.cells b).map fun cell => if b = a then f cell else cell } := by
  obtain ⟨cell, hcell⟩ := Option.isSome_iff_exists.mp h
  simp only [modify, hcell, Option.map_some, Option.some.injEq, LinkHeap.mk.injEq, and_true]
  funext b
  by_cases hb : b = a
  · simp [hb, hcell]
  · simp [hb, put_cell_other]

/-- Setting the first link of a live parent. -/
theorem LinkHeap.set_first_live {value : Option A}
    (h : ∀ p, parent = some p → (heap.cells p).isSome) :
    heap.setFirst parent value = some {
      cells := fun b => (heap.cells b).map fun cell =>
        if parent = some b then { cell with first := value } else cell
      first := if parent = none then value else heap.first
      last := heap.last } := by
  cases parent with
  | none => simp [setFirst]
  | some p => simp [setFirst, modify_live (h p rfl), eq_comm]

/-- Setting the last link of a live parent. -/
theorem LinkHeap.set_last_live {value : Option A}
    (h : ∀ p, parent = some p → (heap.cells p).isSome) :
    heap.setLast parent value = some {
      cells := fun b => (heap.cells b).map fun cell =>
        if parent = some b then { cell with last := value } else cell
      first := heap.first
      last := if parent = none then value else heap.last } := by
  cases parent with
  | none => simp [setLast]
  | some p => simp [setLast, modify_live (h p rfl), eq_comm]

/-- Pointing forward from a live neighbour or parent. -/
theorem LinkHeap.point_next_live {prev value : Option A}
    (hprev : ∀ a, prev = some a → (heap.cells a).isSome)
    (hparent : ∀ p, parent = some p → (heap.cells p).isSome) :
    heap.pointNext parent prev value = some {
      cells := fun a => (heap.cells a).map fun cell =>
        if prev = some a then { cell with next := value }
        else if prev = none ∧ parent = some a then { cell with first := value } else cell
      first := if prev = none ∧ parent = none then value else heap.first
      last := heap.last } := by
  cases prev with
  | none => simp [pointNext, set_first_live hparent]
  | some prev => simp [pointNext, modify_live (hprev prev rfl), eq_comm]

/-- Pointing back from a live neighbour or parent. -/
theorem LinkHeap.point_prev_live {next value : Option A}
    (hnext : ∀ a, next = some a → (heap.cells a).isSome)
    (hparent : ∀ p, parent = some p → (heap.cells p).isSome) :
    heap.pointPrev parent next value = some {
      cells := fun a => (heap.cells a).map fun cell =>
        if next = some a then { cell with prev := value }
        else if next = none ∧ parent = some a then { cell with last := value } else cell
      first := heap.first
      last := if next = none ∧ parent = none then value else heap.last } := by
  cases next with
  | none => simp [pointPrev, set_last_live hparent]
  | some next => simp [pointPrev, modify_live (hnext next rfl), eq_comm]

theorem LinkHeap.relink_cells {first last : Option A} {change : A → LinkCell A D → LinkCell A D}
    {a : A} (h : parent ≠ some a) :
    (heap.relink parent first last change).cells a = (heap.cells a).map (change a) := by
  simp [relink, h]

/-- Both ends that the owner of a list keeps are stored. -/
theorem LinkHeap.set_ends {first last : Option A}
    (h : ∀ p, parent = some p → (heap.cells p).isSome) :
    (∃ middle, heap.setLast parent last = some middle ∧ middle.setFirst parent first =
        some (heap.relink parent first last fun _ cell => cell)) ∧
      ∃ middle, heap.setFirst parent first = some middle ∧ middle.setLast parent last =
        some (heap.relink parent first last fun _ cell => cell) := by
  refine ⟨⟨_, set_last_live h, ?_⟩, ⟨_, set_first_live h, ?_⟩⟩
  · rw [set_first_live (by simpa using h)]
    simp only [relink, Option.map_map, Option.some.injEq, LinkHeap.mk.injEq, and_true]
    funext b
    cases heap.cells b with
    | none => rfl
    | some cell =>
      simp only [Option.map_some, Function.comp]
      split <;> rfl
  · rw [set_last_live (by simpa using h)]
    simp only [relink, Option.map_map, Option.some.injEq, LinkHeap.mk.injEq, and_true]
    funext b
    cases heap.cells b with
    | none => rfl
    | some cell =>
      simp only [Option.map_some, Function.comp]
      split <;> rfl

/-- Links that change inside of two lists only are an edit. -/
theorem Lists.relink_edit (h : Lists heap parent list) {change : A → LinkCell A D → LinkCell A D}
    (hholds : Holds (heap.relink parent list'.firstAddr list'.lastAddr change).cells parent none none
      list')
    (hchange : ∀ a, a ∉ list.addrs → a ∉ list'.addrs → ∀ cell, change a cell = cell) :
    ListEdit heap (heap.relink parent list'.firstAddr list'.lastAddr change) parent list list' := by
  refine ⟨⟨hholds, ?_, ?_⟩, ?_, ?_, ?_⟩
  · cases parent with
    | none => rfl
    | some p =>
      obtain ⟨cell, hcell, -⟩ := h.owner_live rfl
      simp [LinkHeap.firstOf, LinkHeap.relink, hcell]
  · cases parent with
    | none => rfl
    | some p =>
      obtain ⟨cell, hcell, -⟩ := h.owner_live rfl
      simp [LinkHeap.lastOf, LinkHeap.relink, hcell]
  · intro a ha
    simp [LinkHeap.relink, ha]
  · intro hparent
    simp [LinkHeap.relink, hparent]
  · intro a ha hlist hlist'
    rw [LinkHeap.relink_cells ha]
    cases hcell : heap.cells a with
    | none => rfl
    | some cell => exact congrArg some (hchange a hlist hlist' cell)


omit [DecidableEq A] in
/-- The nodes on both sides of a place in a list, and what the owner of the list keeps. -/
theorem Lists.around {left right : LinkForest A D} (h : Lists heap parent (left.append right)) :
    (∀ a, left.lastAddr = some a → (heap.cells a).isSome) ∧
      (∀ a, right.firstAddr = some a → (heap.cells a).map LinkCell.prev = some left.lastAddr) ∧
      (∀ p, parent = some p → (heap.cells p).isSome) := by
  obtain ⟨hleft, hright⟩ := holds_append.mp h.holds
  refine ⟨?_, ?_, ?_⟩
  · intro a ha
    obtain ⟨cell, hcell⟩ := hleft.cell_some (LinkForest.last_addr_mem ha)
    simp [hcell]
  · intro a ha
    cases right with
    | nil => cases ha
    | node addr data inner rest =>
      cases ha
      rw [hright.1]
      simp
  · intro p hp
    obtain ⟨cell, hcell, -⟩ := h.owner_live hp
    simp [hcell]

/-- A node between two parts of a list is linked from both sides. -/
theorem Lists.link_relinks {left right : LinkForest A D} (h : Lists heap parent (left.append right))
    {node : A} (hnode : (heap.cells node).isSome) (hnodup : (left.append right).addrs.Nodup)
    (hnot : node ∉ (left.append right).addrs) (hne : parent ≠ some node)
    (hparent : ∀ p, parent = some p → p ∉ (left.append right).addrs) :
    heap.link parent right.firstAddr node =
      some (heap.relink parent (left.firstAddr.or (some node)) (right.lastAddr.or (some node))
        fun a old =>
          if a = node then
            { old with parent := parent, prev := left.lastAddr, next := right.firstAddr }
          else if left.lastAddr = some a then { old with next := some node }
          else if right.firstAddr = some a then { old with prev := some node } else old) := by
  obtain ⟨hprev, hnext, howner⟩ := h.around
  rw [LinkForest.addrs_append] at hnodup hnot hparent
  have hnextlive : ∀ a, right.firstAddr = some a → (heap.cells a).isSome := by
    intro a ha
    have hsome := hnext a ha
    cases hcell : heap.cells a with
    | none => rw [hcell] at hsome; cases hsome
    | some cell => rfl
  have hnextnode : right.firstAddr ≠ some node := fun heq =>
    hnot (List.mem_append_right _ (LinkForest.first_addr_mem heq))
  have hprevnode : left.lastAddr ≠ some node := fun heq =>
    hnot (List.mem_append_left _ (LinkForest.last_addr_mem heq))
  -- the previous node is read after the first store
  have hread : LinkHeap.prevAt { heap with
      cells := fun b => (heap.cells b).map fun cell =>
        if b = node then { cell with parent := parent } else cell } parent right.firstAddr =
      some left.lastAddr := by
    cases hright : right.firstAddr with
    | some before =>
      have hbn : before ≠ node := fun heq => hnextnode (hright.trans (congrArg some heq))
      simpa [LinkHeap.prevAt, hbn] using hnext before hright
    | none =>
      obtain rfl := LinkForest.first_addr_eq_none.mp hright
      have hlast := h.last
      rw [LinkForest.append_nil] at hlast
      cases parent with
      | none => exact hlast
      | some p =>
        have hpn : p ≠ node := fun heq => hne (congrArg some heq)
        simpa [LinkHeap.prevAt, LinkHeap.lastOf, hpn] using hlast
  simp only [LinkHeap.link, LinkHeap.modify_live hnode, Option.bind_eq_bind, Option.bind_some,
    hread]
  rw [LinkHeap.modify_live (by simpa using hnode), Option.bind_some,
    LinkHeap.point_next_live (by simpa using hprev) (by simpa using howner), Option.bind_some,
    LinkHeap.point_prev_live (by simpa using hnextlive) (by simpa using howner)]
  simp only [LinkHeap.relink, Option.some.injEq, LinkHeap.mk.injEq, Option.map_map]
  refine ⟨?_, ?_, ?_⟩
  · funext a
    cases hcell : heap.cells a with
    | none => rfl
    | some cell =>
      simp only [Option.map_some, Function.comp_apply, Option.some.injEq]
      by_cases hp : parent = some a
      · obtain ⟨old, hold, hfirst, hlast⟩ := h.owner_live hp
        have hsame : old = cell := Option.some.inj (hold.symm.trans hcell)
        subst hsame
        have han : a ≠ node := fun heq => hne (heq ▸ hp)
        have hal : left.lastAddr ≠ some a := fun heq =>
          hparent a hp (List.mem_append_left _ (LinkForest.last_addr_mem heq))
        have har : right.firstAddr ≠ some a := fun heq =>
          hparent a hp (List.mem_append_right _ (LinkForest.first_addr_mem heq))
        rw [LinkForest.first_addr_or left right, LinkForest.last_addr_or left right, ← hfirst,
          ← hlast]
        simp only [hp, han, hal, har, and_true, if_true, if_false]
        split_ifs <;> rfl
      · by_cases ha : a = node
        · subst ha
          simp [hne, hnextnode, hprevnode]
        · have hboth : left.lastAddr = some a → right.firstAddr ≠ some a := fun hl hr =>
            (List.nodup_append.mp hnodup).2.2 a (LinkForest.last_addr_mem hl) a
              (LinkForest.first_addr_mem hr) rfl
          by_cases hl : left.lastAddr = some a
          · simp [hp, ha, hl, hboth hl]
          · simp [hp, ha, hl]
  · rw [LinkForest.first_addr_or left right]
    cases parent with
    | none => simp [← Option.some.inj h.first]
    | some p => simp
  · rw [LinkForest.last_addr_or left right]
    cases parent with
    | none => simp [← Option.some.inj h.last]
    | some p => simp

omit [DecidableEq A] in
/-- The parts of a list around a node of it share no addresses. -/
theorem nodup_around {left inner right : LinkForest A D} {node : A} {data : D}
    (h : (left.append (.node node data inner right)).addrs.Nodup) :
    (left.append right).addrs.Nodup ∧ left.addrs.Nodup ∧ right.addrs.Nodup ∧
      node ∉ left.addrs ∧ node ∉ inner.addrs ∧ node ∉ right.addrs ∧
      (∀ a ∈ inner.addrs, a ∉ left.addrs ∧ a ∉ right.addrs) ∧
      (∀ a ∈ left.addrs, a ∉ right.addrs) := by
  rw [LinkForest.addrs_append, LinkForest.addrs_node] at h
  obtain ⟨hleft, hrest, hdisjoint⟩ := List.nodup_append.mp h
  obtain ⟨hnode, hrest⟩ := List.nodup_cons.mp hrest
  obtain ⟨-, hright, hinner⟩ := List.nodup_append.mp hrest
  have hboth : ∀ a ∈ left.addrs, a ∉ right.addrs := fun a ha hmem =>
    hdisjoint a ha a (by simp [hmem]) rfl
  refine ⟨?_, hleft, hright, ?_, ?_, ?_, ?_, hboth⟩
  · rw [LinkForest.addrs_append]
    exact List.nodup_append.mpr ⟨hleft, hright, fun a ha b hb heq => hboth a ha (heq ▸ hb)⟩
  · exact fun hmem => hdisjoint node hmem node List.mem_cons_self rfl
  · exact fun hmem => hnode (List.mem_append_left _ hmem)
  · exact fun hmem => hnode (List.mem_append_right _ hmem)
  · exact fun a ha => ⟨fun hmem => hdisjoint a hmem a (by simp [ha]) rfl,
      fun hmem => hinner a ha a hmem rfl⟩

/-- A node and its neighbours are relinked, and the rest of the list keeps its cells. -/
theorem relink_around (heap : LinkHeap A D) {left inner right : LinkForest A D} {node : A} {data : D}
    (hnodup : (left.append (.node node data inner right)).addrs.Nodup)
    (houtside : ∀ a ∈ left.addrs ++ (node :: (inner.addrs ++ right.addrs)), parent ≠ some a)
    (own : LinkCell A D → LinkCell A D) (first last prev next : Option A) :
    let cells := (heap.relink parent first last fun a old =>
      if a = node then own old
      else if left.lastAddr = some a then { old with next := next }
      else if right.firstAddr = some a then { old with prev := prev } else old).cells
    (∀ {parent p q}, Holds heap.cells parent p q left → Holds cells parent p next left) ∧
      cells node = (heap.cells node).map own ∧
      (∀ {parent p q}, Holds heap.cells parent p q inner → Holds cells parent p q inner) ∧
      ∀ {parent p q}, Holds heap.cells parent p q right → Holds cells parent prev q right := by
  intro cells
  have hcells : ∀ a, a ∈ left.addrs ++ (node :: (inner.addrs ++ right.addrs)) → cells a = _ :=
    fun a ha => LinkHeap.relink_cells (houtside a ha)
  obtain ⟨-, hleftnodup, hrightnodup, hnotleft, hnotinner, hnotright, hinners, hboth⟩ :=
    nodup_around hnodup
  refine ⟨fun hleft => ?_, ?_, fun hinner => ?_, fun hright => ?_⟩
  · refine hleft.relink_next hleftnodup ?_ ?_
    · intro last hlast
      have hmem := LinkForest.last_addr_mem hlast
      have hln : last ≠ node := fun heq => hnotleft (heq ▸ hmem)
      rw [hcells last (by simp [hmem])]
      simp [hln, hlast]
    · intro a ha hlast
      have han : a ≠ node := fun heq => hnotleft (heq ▸ ha)
      have hfirst : right.firstAddr ≠ some a := fun heq =>
        hboth a ha (LinkForest.first_addr_mem heq)
      rw [hcells a (by simp [ha])]
      simp [han, hlast, hfirst]
  · rw [hcells node (by simp)]
    simp
  · refine hinner.congr fun a ha => ?_
    have han : a ≠ node := fun heq => hnotinner (heq ▸ ha)
    have hlast : left.lastAddr ≠ some a := fun heq =>
      (hinners a ha).1 (LinkForest.last_addr_mem heq)
    have hfirst : right.firstAddr ≠ some a := fun heq =>
      (hinners a ha).2 (LinkForest.first_addr_mem heq)
    rw [hcells a (by simp [ha])]
    simp [han, hlast, hfirst]
  · refine hright.relink_prev hrightnodup ?_ ?_
    · intro first hfirst
      have hmem := LinkForest.first_addr_mem hfirst
      have hfn : first ≠ node := fun heq => hnotright (heq ▸ hmem)
      have hlast : left.lastAddr ≠ some first := fun heq =>
        hboth first (LinkForest.last_addr_mem heq) hmem
      rw [hcells first (by simp [hmem])]
      simp [hfn, hlast, hfirst]
    · intro a ha hfirst
      have han : a ≠ node := fun heq => hnotright (heq ▸ ha)
      have hlast : left.lastAddr ≠ some a := fun heq =>
        hboth a (LinkForest.last_addr_mem heq) ha
      rw [hcells a (by simp [ha])]
      simp [han, hlast, hfirst]

/-- A node that is in no list enters a list, ahead of `right`. -/
theorem Lists.link_at {left right : LinkForest A D} (h : Lists heap parent (left.append right))
    {node : A} {data : D} {inner : LinkForest A D}
    (hnode : Holds heap.cells none none none (.single node data inner))
    (hnodup : (left.append (.node node data inner right)).addrs.Nodup)
    (hparent : ∀ p, parent = some p → p ∉ (left.append (.node node data inner right)).addrs) :
    ∃ heap', heap.link parent right.firstAddr node = some heap' ∧
      ListEdit heap heap' parent (left.append right)
        (left.append (.node node data inner right)) := by
  obtain ⟨hlistnodup, -, -, hnotleft, -, hnotright, -, -⟩ := nodup_around hnodup
  have houtside : ∀ a ∈ left.addrs ++ (node :: (inner.addrs ++ right.addrs)),
      parent ≠ some a := by
    intro a ha heq
    exact hparent a heq (by simpa using ha)
  have hlink := @Lists.link_relinks _ _ _ _ _ _ _ h node (by simp [hnode.1]) hlistnodup
    (by simp [hnotleft, hnotright]) (houtside node (by simp))
    (by intro p hp hmem
        rw [LinkForest.addrs_append] at hmem
        refine houtside p ?_ hp
        rcases List.mem_append.mp hmem with hmem | hmem
        · simp [hmem]
        · simp [hmem])
  refine ⟨_, hlink, ?_⟩
  have hends : (left.append (.node node data inner right)).firstAddr =
      left.firstAddr.or (some node) ∧
      (left.append (.node node data inner right)).lastAddr = right.lastAddr.or (some node) := by
    simp
  rw [← hends.1, ← hends.2]
  obtain ⟨hcell, hinner, -⟩ := hnode
  obtain ⟨hleft, hright⟩ := holds_append.mp h.holds
  obtain ⟨hbefore, hself, hbelow, hbehind⟩ := relink_around heap hnodup houtside
    (fun old => { old with parent := parent, prev := left.lastAddr, next := right.firstAddr })
    (left.append (.node node data inner right)).firstAddr
    (left.append (.node node data inner right)).lastAddr (some node) (some node)
  refine h.relink_edit (holds_append.mpr ⟨hbefore hleft, ?_, hbelow hinner, hbehind hright⟩) ?_
  · rw [hself, hcell]
    simp
  · intro a hlist hlist' cell
    have han : a ≠ node := fun heq => hlist' (by simp [heq])
    have hlast : left.lastAddr ≠ some a := fun heq =>
      hlist (by simp [LinkForest.last_addr_mem heq])
    have hfirst : right.firstAddr ≠ some a := fun heq =>
      hlist (by simp [LinkForest.first_addr_mem heq])
    simp [han, hlast, hfirst]

/-- The neighbours of a node that leaves its list are linked to each other. -/
theorem Lists.unlink_relinks {left inner right : LinkForest A D} {node : A} {data : D}
    (h : Lists heap parent (left.append (.node node data inner right)))
    (hnodup : (left.append (.node node data inner right)).addrs.Nodup)
    (hparent : ∀ p, parent = some p → p ∉ (left.append (.node node data inner right)).addrs) :
    heap.unlink node =
      some (heap.relink parent (left.firstAddr.or right.firstAddr)
        (right.lastAddr.or left.lastAddr)
        fun a old =>
          if a = node then { old with parent := none, prev := none, next := none }
          else if left.lastAddr = some a then { old with next := right.firstAddr }
          else if right.firstAddr = some a then { old with prev := left.lastAddr } else old) := by
  obtain ⟨-, -, -, hnotleft, hnotinner, hnotright, hinners, hboth⟩ := nodup_around hnodup
  obtain ⟨hprev, -, howner⟩ := h.around
  obtain ⟨hleft, hnode, -, hright⟩ := holds_append.mp h.holds
  have hnextlive : ∀ a, right.firstAddr = some a → (heap.cells a).isSome := by
    intro a ha
    obtain ⟨cell, hcell⟩ := hright.cell_some (LinkForest.first_addr_mem ha)
    simp [hcell]
  have hne : parent ≠ some node := fun heq => hparent node heq (by simp)
  have hnextnode : right.firstAddr ≠ some node := fun heq =>
    hnotright (LinkForest.first_addr_mem heq)
  have hprevnode : left.lastAddr ≠ some node := fun heq =>
    hnotleft (LinkForest.last_addr_mem heq)
  simp only [LinkHeap.unlink, hnode, Option.bind_eq_bind, Option.bind_some, Option.or_none]
  rw [LinkHeap.point_next_live hprev howner, Option.bind_some,
    LinkHeap.point_prev_live (by simpa using hnextlive) (by simpa using howner), Option.bind_some,
    LinkHeap.modify_live (by simp [hnode])]
  simp only [LinkHeap.relink, Option.some.injEq, LinkHeap.mk.injEq, Option.map_map]
  have hfirsts : left.firstAddr.or right.firstAddr = if left.lastAddr = none then right.firstAddr
      else (left.append (.node node data inner right)).firstAddr :=
    LinkForest.first_addr_or _ _ _
  have hlasts : right.lastAddr.or left.lastAddr = if right.firstAddr = none then left.lastAddr
      else (left.append (.node node data inner right)).lastAddr := by
    cases right with
    | nil => simp
    | node addr item below rest => simp
  refine ⟨?_, ?_, ?_⟩
  · funext a
    cases hcell : heap.cells a with
    | none => rfl
    | some cell =>
      simp only [Option.map_some, Function.comp_apply, Option.some.injEq]
      by_cases hp : parent = some a
      · obtain ⟨old, hold, hfirst, hlast⟩ := h.owner_live hp
        have hsame : old = cell := Option.some.inj (hold.symm.trans hcell)
        subst hsame
        have han : a ≠ node := fun heq => hne (heq ▸ hp)
        have hal : left.lastAddr ≠ some a := fun heq =>
          hparent a hp (by simp [LinkForest.last_addr_mem heq])
        have har : right.firstAddr ≠ some a := fun heq =>
          hparent a hp (by simp [LinkForest.first_addr_mem heq])
        rw [hfirsts, hlasts, ← hfirst, ← hlast]
        simp only [hp, han, hal, har, and_true, if_true, if_false]
        split_ifs <;> rfl
      · by_cases ha : a = node
        · subst ha
          simp [hne, hnextnode, hprevnode]
        · have honly : left.lastAddr = some a → right.firstAddr ≠ some a := fun hl hr =>
            hboth a (LinkForest.last_addr_mem hl) (LinkForest.first_addr_mem hr)
          by_cases hl : left.lastAddr = some a
          · simp [hp, ha, hl, honly hl]
          · simp [hp, ha, hl]
  · rw [hfirsts]
    cases parent with
    | none => simp [← Option.some.inj h.first]
    | some p => simp
  · rw [hlasts]
    cases parent with
    | none => simp [← Option.some.inj h.last]
    | some p => simp

/-- A node leaves its list with what is inside of it. -/
theorem Lists.unlink_at {left inner right : LinkForest A D} {node : A} {data : D}
    (h : Lists heap parent (left.append (.node node data inner right)))
    (hnodup : (left.append (.node node data inner right)).addrs.Nodup)
    (hparent : ∀ p, parent = some p → p ∉ (left.append (.node node data inner right)).addrs) :
    ∃ heap', heap.unlink node = some heap' ∧
      ListEdit heap heap' parent (left.append (.node node data inner right)) (left.append right) ∧
      Holds heap'.cells none none none (.single node data inner) := by
  have hunlink := h.unlink_relinks hnodup hparent
  have houtside : ∀ a ∈ left.addrs ++ (node :: (inner.addrs ++ right.addrs)),
      parent ≠ some a := by
    intro a ha heq
    exact hparent a heq (by simpa using ha)
  obtain ⟨hleft, hcell, hinner, hright⟩ := holds_append.mp h.holds
  obtain ⟨hbefore, hself, hbelow, hbehind⟩ := relink_around heap hnodup houtside
    (fun old => { old with parent := none, prev := none, next := none })
    (left.append right).firstAddr (left.append right).lastAddr left.lastAddr right.firstAddr
  rw [← LinkForest.first_addr_append, ← LinkForest.last_addr_append] at hunlink
  refine ⟨_, hunlink, ?_, ?_, hbelow hinner, trivial⟩
  · refine h.relink_edit (holds_append.mpr ?_) fun a hlist hlist' cell => ?_
    · rw [Option.or_none, Option.or_none]
      exact ⟨hbefore hleft, hbehind hright⟩
    have han : a ≠ node := fun heq => hlist (by simp [heq])
    have hlast : left.lastAddr ≠ some a := fun heq =>
      hlist' (by simp [LinkForest.last_addr_mem heq])
    have hfirst : right.firstAddr ≠ some a := fun heq =>
      hlist' (by simp [LinkForest.first_addr_mem heq])
    simp [han, hlast, hfirst]
  · rw [hself, hcell]
    simp

omit [DecidableEq A] in
/-- An edit of one list inside of a forest. -/
theorem Lists.edit {context : LinkContext A D} {base : Option A}
    (h : Lists heap base (context.plug list)) (hnodup : (context.plug list).addrs.Nodup)
    (hedit : ListEdit heap heap' (context.owner base) list list')
    (hnew : ∀ a ∈ list'.addrs, a ∉ context.addrs)
    (hbase : ∀ b, base = some b → b ∉ context.addrs ∧ b ∉ list.addrs ∧ b ∉ list'.addrs) :
    Lists heap' base (context.plug list') := by
  obtain ⟨hcontext, -, hdisjoint⟩ :=
    List.nodup_append.mp ((context.addrs_plug list).nodup_iff.mp hnodup)
  have howner : ∀ a, context.owner none = some a → context.owner base = some a := by
    intro a ha
    cases context with
    | nil => cases ha
    | cons level outer => exact ha
  have hholds := LinkContext.holds_edit h.holds hcontext hedit.lists.holds
    (fun a ha => hedit.owner a (howner a ha)) (by
      intro a ha hnot
      refine hedit.frame a ?_ (fun hmem => hdisjoint a ha a hmem rfl) fun hmem => hnew a hmem ha
      cases context with
      | nil => cases ha
      | cons level outer => exact hnot)
  cases context with
  | nil => exact hedit.lists
  | cons level outer =>
    have hends : heap'.firstOf base = heap.firstOf base ∧ heap'.lastOf base = heap.lastOf base := by
      cases base with
      | none => exact ⟨congrArg some (hedit.root (by simp [LinkContext.owner])).1,
          congrArg some (hedit.root (by simp [LinkContext.owner])).2⟩
      | some b =>
        obtain ⟨hcontext, hlist, hlist'⟩ := hbase b rfl
        have hsame := hedit.frame b (by
          intro heq
          cases heq
          exact hcontext (by simp)) hlist hlist'
        simp [LinkHeap.firstOf, LinkHeap.lastOf, hsame]
    refine ⟨hholds, ?_, ?_⟩
    · rw [hends.1, h.first, LinkContext.first_addr_plug]
    · rw [hends.2, h.last, LinkContext.last_addr_plug]

omit [DecidableEq A] in
/-- A list inside of a forest is a list. -/
theorem Lists.inside {context : LinkContext A D} {base : Option A}
    (h : Lists heap base (context.plug list)) : Lists heap (context.owner base) list := by
  cases context with
  | nil => exact h
  | cons level outer =>
    have hcell := LinkContext.holds_owner h.holds
    refine ⟨LinkContext.holds_list h.holds, ?_, ?_⟩
    · simp [LinkHeap.firstOf, LinkContext.owner, hcell]
    · simp [LinkHeap.lastOf, LinkContext.owner, hcell]

omit [DecidableEq A] in
/-- After an edit of a list, an edit of a list inside of it that drops no node. -/
theorem ListEdit.inside {middle : LinkHeap A D} {old : LinkForest A D}
    {context : LinkContext A D} (h : ListEdit heap middle parent old (context.plug list))
    (h' : ListEdit middle heap' (context.owner parent) list list')
    (hnodup : (context.plug list).addrs.Nodup) (hkeep : ∀ a ∈ list.addrs, a ∈ list'.addrs)
    (hnew : ∀ a ∈ list'.addrs, a ∉ context.addrs)
    (hparent : ∀ p, parent = some p → p ∉ context.addrs ∧ p ∉ list'.addrs) :
    ListEdit heap heap' parent old (context.plug list') := by
  have hlists := h.lists.edit hnodup h' hnew fun p hp =>
    ⟨(hparent p hp).1, fun hmem => (hparent p hp).2 (hkeep p hmem), (hparent p hp).2⟩
  have howner : ∀ p, parent = some p → context ≠ [] → heap'.cells p = middle.cells p := by
    intro p hp hne
    obtain ⟨hcontext, hlist⟩ := hparent p hp
    refine h'.frame p ?_ (fun hmem => hlist (hkeep p hmem)) hlist
    cases context with
    | nil => exact absurd rfl hne
    | cons level outer =>
      intro heq
      cases heq
      exact hcontext (by simp)
  refine ⟨hlists, ?_, ?_, ?_⟩
  · intro p hp
    have hbefore := h.owner p hp
    cases context with
    | nil =>
      rw [h'.owner p hp, hbefore]
      cases heap.cells p <;> rfl
    | cons level outer =>
      rw [howner p hp (List.cons_ne_nil _ _), hbefore,
        LinkContext.first_addr_plug level outer list list',
        LinkContext.last_addr_plug level outer list list']
  · intro hne
    have hroot := h'.root (by
      cases context with
      | nil => exact hne
      | cons level outer => exact fun heq => by cases heq)
    exact ⟨hroot.1.trans (h.root hne).1, hroot.2.trans (h.root hne).2⟩
  · intro a ha hold hlist
    have hmem : a ∉ context.addrs ∧ a ∉ list'.addrs := by
      rw [(context.addrs_plug list').mem_iff, List.mem_append] at hlist
      exact ⟨fun hin => hlist (.inl hin), fun hin => hlist (.inr hin)⟩
    have hnot : a ∉ (context.plug list).addrs := by
      rw [(context.addrs_plug list).mem_iff, List.mem_append]
      rintro (hin | hin)
      · exact hmem.1 hin
      · exact hmem.2 (hkeep a hin)
    rw [h'.frame a ?_ (fun hin => hmem.2 (hkeep a hin)) hmem.2, h.frame a ha hold hnot]
    cases context with
    | nil => exact ha
    | cons level outer =>
      intro heq
      cases heq
      exact hmem.1 (by simp)

/-- A new node becomes the last one of a list. -/
theorem Lists.link_new (h : Lists heap parent list) (hnodup : list.addrs.Nodup)
    (hparent : ∀ p, parent = some p → p ∉ list.addrs) {node : A}
    (hdead : heap.cells node = none) (data : D) :
    ∃ heap', (heap.birth node { data := data }).link parent none node = some heap' ∧
      ListEdit heap heap' parent list (list.append (.single node data .nil)) := by
  have hnot : node ∉ list.addrs := by
    intro hmem
    obtain ⟨cell, hcell⟩ := h.holds.cell_some hmem
    rw [hdead] at hcell
    cases hcell
  have hne : parent ≠ some node := by
    intro heq
    obtain ⟨cell, hcell, -⟩ := h.owner_live heq
    rw [hdead] at hcell
    cases hcell
  have hother : ∀ a, a ≠ node →
      (heap.birth node { data := data }).cells a = heap.cells a := fun a ha => put_cell_other ha
  have howner : ∀ p, parent = some p →
      (heap.birth node { data := data }).cells p = heap.cells p := fun p hp =>
    hother p fun heq => hne (heq ▸ hp)
  have hlists : Lists (heap.birth node { data := data }) parent (list.append .nil) := by
    rw [LinkForest.append_nil]
    refine ⟨h.holds.congr fun a ha => hother a fun heq => hnot (heq ▸ ha), ?_, ?_⟩
    · cases parent with
      | none => exact h.first
      | some p => exact (congrArg (Option.map LinkCell.first) (howner p rfl)).trans h.first
    · cases parent with
      | none => exact h.last
      | some p => exact (congrArg (Option.map LinkCell.last) (howner p rfl)).trans h.last
  have haddrs : (list.append (.node node data .nil .nil)).addrs = list.addrs ++ [node] := by simp
  obtain ⟨heap', hlink, hedit⟩ := @Lists.link_at _ _ _ _ _ _ _ hlists node data .nil
    ⟨by simp [LinkHeap.birth], trivial, trivial⟩
    (by rw [haddrs]
        exact List.nodup_append.mpr ⟨hnodup, List.nodup_singleton _, fun a ha b hb heq =>
          hnot (by rw [List.mem_singleton.mp hb] at heq; exact heq ▸ ha)⟩)
    (by intro p hp hmem
        rw [haddrs, List.mem_append, List.mem_singleton] at hmem
        rcases hmem with hmem | rfl
        · exact hparent p hp hmem
        · exact hne hp)
  rw [LinkForest.append_nil] at hedit
  refine ⟨heap', hlink, hedit.lists, ?_, hedit.root, ?_⟩
  · intro p hp
    rw [hedit.owner p hp, howner p hp]
    rfl
  · intro a ha hlist hlist'
    rw [hedit.frame a ha hlist hlist']
    refine hother a fun heq => hlist' ?_
    show a ∈ (list.append (.node node data .nil .nil)).addrs
    rw [haddrs, heq]
    simp

/-- A store to the data of a node. -/
theorem Lists.modify_data {left inner right : LinkForest A D} {node : A} {data : D}
    (h : Lists heap parent (left.append (.node node data inner right)))
    (hnodup : (left.append (.node node data inner right)).addrs.Nodup)
    (hparent : ∀ p, parent = some p → p ∉ (left.append (.node node data inner right)).addrs)
    (f : D → D) :
    ∃ heap', (heap.modify node fun cell => { cell with data := f cell.data }) = some heap' ∧
      ListEdit heap heap' parent (left.append (.node node data inner right))
        (left.append (.node node (f data) inner right)) := by
  obtain ⟨-, -, -, hnotleft, hnotinner, hnotright, -, -⟩ := nodup_around hnodup
  obtain ⟨hleft, hcell, hinner, hright⟩ := holds_append.mp h.holds
  have hother : ∀ a, a ≠ node → ∀ value, putCell heap.cells node value a = heap.cells a :=
    fun a ha value => put_cell_other ha
  have hends : (left.append (.node node (f data) inner right)).firstAddr =
      (left.append (.node node data inner right)).firstAddr ∧
      (left.append (.node node (f data) inner right)).lastAddr =
        (left.append (.node node data inner right)).lastAddr := by
    simp
  have haddrs : (left.append (.node node (f data) inner right)).addrs =
      (left.append (.node node data inner right)).addrs := by
    simp
  have howner : ∀ p, parent = some p → p ≠ node := by
    rintro p hp rfl
    exact hparent p hp (by simp)
  have hmodify : (heap.modify node fun cell => { cell with data := f cell.data }) =
      some { heap with cells := putCell heap.cells node (some ⟨f data, parent,
        left.lastAddr.or none, right.firstAddr.or none, inner.firstAddr, inner.lastAddr⟩) } := by
    simp only [LinkHeap.modify, hcell, Option.map_some]
  refine ⟨_, hmodify, ⟨holds_append.mpr ⟨?_, ?_, ?_, ?_⟩, ?_, ?_⟩, ?_, fun _ => ⟨rfl, rfl⟩, ?_⟩
  · exact hleft.congr fun a ha => hother a (fun heq => hnotleft (heq ▸ ha)) _
  · exact put_cell_self _ _ _
  · exact hinner.congr fun a ha => hother a (fun heq => hnotinner (heq ▸ ha)) _
  · exact hright.congr fun a ha => hother a (fun heq => hnotright (heq ▸ ha)) _
  · rw [hends.1, ← h.first]
    cases parent with
    | none => rfl
    | some p => exact congrArg (Option.map LinkCell.first) (hother p (howner p rfl) _)
  · rw [hends.2, ← h.last]
    cases parent with
    | none => rfl
    | some p => exact congrArg (Option.map LinkCell.last) (hother p (howner p rfl) _)
  · intro p hp
    obtain ⟨cell, howned, hfirst, hlast⟩ := h.owner_live hp
    refine (hother p (howner p hp) _).trans ?_
    rw [howned, hends.1, hends.2, ← hfirst, ← hlast]
    rfl
  · intro a ha hlist _
    exact hother a (fun heq => hlist (by simp [heq])) _

end Lists

end OpenTlv
