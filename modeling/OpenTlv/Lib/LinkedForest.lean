import Mathlib.Tactic

/-!
# Forests of linked nodes

Nodes in a heap with links to their parent, to both neighbours and to their first and last child,
and one list of roots. `LinkForest` is the forest that such links spell out: `Holds` says that the
cells of a heap are linked as a forest prescribes. It speaks about the cells of the forest only, so
what an operation does elsewhere is framed away by `Holds.congr`. A list of siblings may be cut
anywhere (`holds_append`). A `LinkContext` is a forest with one list taken out, and an edit of one
list is an edit of the whole forest (`Lists.edit`).
-/

namespace OpenTlv

/-- A node with its links. -/
structure LinkCell (A D : Type) where
  data : D
  parent : Option A := none
  prev : Option A := none
  next : Option A := none
  first : Option A := none
  last : Option A := none

/-- The nodes by address, and the list of roots. -/
structure LinkHeap (A D : Type) where
  cells : A → Option (LinkCell A D)
  first : Option A := none
  last : Option A := none

/-- A forest: a node with what is inside of it, and what follows it. -/
inductive LinkForest (A D : Type) where
  | nil
  | node (addr : A) (data : D) (inner rest : LinkForest A D)

variable {A D : Type}

namespace LinkForest

/-- The first root. -/
def firstAddr : LinkForest A D → Option A
  | nil => none
  | node addr _ _ _ => some addr

/-- The last root. -/
def lastAddr : LinkForest A D → Option A
  | nil => none
  | node addr _ _ rest => rest.lastAddr.or (some addr)

/-- The addresses in preorder. -/
def addrs : LinkForest A D → List A
  | nil => []
  | node addr _ inner rest => addr :: (inner.addrs ++ rest.addrs)

/-- The nodes in preorder. -/
def items : LinkForest A D → List (A × D)
  | nil => []
  | node addr data inner rest => (addr, data) :: (inner.items ++ rest.items)

/-- The number of nodes. -/
def size : LinkForest A D → Nat
  | nil => 0
  | node _ _ inner rest => inner.size + rest.size + 1

/-- The number of levels. -/
def height : LinkForest A D → Nat
  | nil => 0
  | node _ _ inner rest => max (inner.height + 1) rest.height

/-- One forest behind another. -/
def append : LinkForest A D → LinkForest A D → LinkForest A D
  | nil, other => other
  | node addr data inner rest, other => node addr data inner (rest.append other)

/-- A node behind which nothing follows. -/
def single (addr : A) (data : D) (inner : LinkForest A D) : LinkForest A D :=
  node addr data inner nil

attribute [local simp] append

@[simp] theorem first_addr_nil : (nil : LinkForest A D).firstAddr = none :=
  rfl

@[simp] theorem first_addr_node (addr : A) (data : D) (inner rest : LinkForest A D) :
    (node addr data inner rest).firstAddr = some addr :=
  rfl

@[simp] theorem last_addr_nil : (nil : LinkForest A D).lastAddr = none :=
  rfl

@[simp] theorem last_addr_node (addr : A) (data : D) (inner rest : LinkForest A D) :
    (node addr data inner rest).lastAddr = rest.lastAddr.or (some addr) :=
  rfl

@[simp] theorem addrs_nil : (nil : LinkForest A D).addrs = [] :=
  rfl

@[simp] theorem addrs_node (addr : A) (data : D) (inner rest : LinkForest A D) :
    (node addr data inner rest).addrs = addr :: (inner.addrs ++ rest.addrs) :=
  rfl

@[simp] theorem first_addr_append (forest other : LinkForest A D) :
    (forest.append other).firstAddr = forest.firstAddr.or other.firstAddr := by
  cases forest <;> rfl

@[simp] theorem append_nil (forest : LinkForest A D) : forest.append nil = forest := by
  induction forest with
  | nil => rfl
  | node addr data inner rest _ ih => exact congrArg (node addr data inner) ih

theorem append_assoc (forest other third : LinkForest A D) :
    (forest.append other).append third = forest.append (other.append third) := by
  induction forest with
  | nil => rfl
  | node addr data inner rest _ ih => exact congrArg (node addr data inner) ih

@[simp] theorem last_addr_append (forest other : LinkForest A D) :
    (forest.append other).lastAddr = other.lastAddr.or forest.lastAddr := by
  induction forest with
  | nil => simp [lastAddr]
  | node addr data inner rest _ ih => simp [lastAddr, ih]

/-- Appending keeps the addresses in order. -/
@[simp] theorem addrs_append (forest other : LinkForest A D) :
    (forest.append other).addrs = forest.addrs ++ other.addrs := by
  induction forest with
  | nil => rfl
  | node addr data inner rest _ ih => simp [addrs, ih]

@[simp] theorem size_append (forest other : LinkForest A D) :
    (forest.append other).size = forest.size + other.size := by
  induction forest with
  | nil => simp [size]
  | node addr data inner rest _ ih =>
    show inner.size + (rest.append other).size + 1 = inner.size + rest.size + 1 + other.size
    omega

@[simp] theorem items_append (forest other : LinkForest A D) :
    (forest.append other).items = forest.items ++ other.items := by
  induction forest with
  | nil => rfl
  | node addr data inner rest _ ih => simp [items, ih]

/-- Appended forests are as high as the higher one. -/
@[simp] theorem height_append (forest other : LinkForest A D) :
    (forest.append other).height = max forest.height other.height := by
  induction forest with
  | nil => simp [height]
  | node addr data inner rest _ ih => simp [height, ih, max_assoc]

/-- The addresses are those of the items. -/
theorem items_addrs (forest : LinkForest A D) : forest.items.map Prod.fst = forest.addrs := by
  induction forest with
  | nil => rfl
  | node addr data inner rest ihinner ihrest => simp [items, addrs, ihinner, ihrest]

theorem addrs_length (forest : LinkForest A D) : forest.addrs.length = forest.size := by
  induction forest with
  | nil => rfl
  | node addr data inner rest ihinner ihrest => simp [addrs, size, ihinner, ihrest]

theorem first_addr_eq_none {forest : LinkForest A D} :
    forest.firstAddr = none ↔ forest = nil := by
  cases forest <;> simp

theorem last_addr_eq_none {forest : LinkForest A D} :
    forest.lastAddr = none ↔ forest = nil := by
  cases forest <;> simp

/-- Only an empty part leaves the first node to what follows. -/
theorem first_addr_or (left right : LinkForest A D) (value : Option A) :
    left.firstAddr.or value =
      if left.lastAddr = none then value else (left.append right).firstAddr := by
  cases left <;> simp

/-- The last address of an appended forest, with a default. -/
theorem last_addr_or (left right : LinkForest A D) (value : Option A) :
    right.lastAddr.or value =
      if right.firstAddr = none then value else (left.append right).lastAddr := by
  cases right with
  | nil => simp
  | node addr data inner rest => simp

/-- The first address is one of the forest. -/
theorem first_addr_mem {forest : LinkForest A D} {a : A} (h : forest.firstAddr = some a) :
    a ∈ forest.addrs := by
  cases forest with
  | nil => cases h
  | node addr data inner rest =>
    cases h
    exact List.mem_cons_self

/-- The last address is one of the forest. -/
theorem last_addr_mem {forest : LinkForest A D} {a : A} (h : forest.lastAddr = some a) :
    a ∈ forest.addrs := by
  induction forest with
  | nil => cases h
  | node addr data inner rest _ ih =>
    have hlast : rest.lastAddr.or (some addr) = some a := h
    cases hrest : rest.lastAddr with
    | none =>
      rw [hrest] at hlast
      cases hlast
      exact List.mem_cons_self
    | some last =>
      rw [hrest] at hlast
      cases hlast
      exact List.mem_cons_of_mem _ (List.mem_append_right _ (ih hrest))

end LinkForest

section Holds

/-- The cells of a list of siblings, between what precedes and what follows it. -/
def Holds (cells : A → Option (LinkCell A D)) (parent : Option A) :
    Option A → Option A → LinkForest A D → Prop
  | _, _, .nil => True
  | prev, next, .node addr data inner rest =>
    cells addr = some ⟨data, parent, prev, rest.firstAddr.or next, inner.firstAddr,
      inner.lastAddr⟩ ∧
    Holds cells (some addr) none none inner ∧ Holds cells parent (some addr) next rest

variable {cells cells' : A → Option (LinkCell A D)} {parent prev next : Option A}
  {forest other : LinkForest A D}

/-- Only the cells of the forest matter. -/
theorem Holds.congr (h : Holds cells parent prev next forest)
    (hsame : ∀ a ∈ forest.addrs, cells' a = cells a) : Holds cells' parent prev next forest := by
  induction forest generalizing parent prev next with
  | nil => trivial
  | node addr data inner rest ihinner ihrest =>
    obtain ⟨hcell, hinner, hrest⟩ := h
    refine ⟨(hsame addr List.mem_cons_self).trans hcell, ihinner hinner fun a ha => ?_,
      ihrest hrest fun a ha => ?_⟩
    · exact hsame a (List.mem_cons_of_mem _ (List.mem_append_left _ ha))
    · exact hsame a (List.mem_cons_of_mem _ (List.mem_append_right _ ha))

/-- A list of siblings may be cut anywhere. -/
theorem holds_append :
    Holds cells parent prev next (forest.append other) ↔
      Holds cells parent prev (other.firstAddr.or next) forest ∧
        Holds cells parent (forest.lastAddr.or prev) next other := by
  induction forest generalizing prev with
  | nil => exact ⟨fun h => ⟨trivial, h⟩, fun h => h.2⟩
  | node addr data inner rest _ ih =>
    show _ ∧ _ ∧ Holds cells parent (some addr) next (rest.append other) ↔ _
    rw [ih, LinkForest.first_addr_append, Option.or_assoc]
    have hlast : (LinkForest.node addr data inner rest).lastAddr.or prev =
        rest.lastAddr.or (some addr) := by
      show (rest.lastAddr.or (some addr)).or prev = _
      rw [Option.or_assoc]
      rfl
    rw [hlast]
    exact ⟨fun h => ⟨⟨h.1, h.2.1, h.2.2.1⟩, h.2.2.2⟩, fun h => ⟨h.1.1, h.1.2.1, h.1.2.2, h.2⟩⟩

/-- Every node of a held forest has a cell. -/
theorem Holds.cell_some (h : Holds cells parent prev next forest) {a : A}
    (ha : a ∈ forest.addrs) : ∃ cell, cells a = some cell := by
  induction forest generalizing parent prev next with
  | nil => cases ha
  | node addr data inner rest ihinner ihrest =>
    obtain ⟨hcell, hinner, hrest⟩ := h
    rcases List.mem_cons.mp ha with rfl | ha
    · exact ⟨_, hcell⟩
    · rcases List.mem_append.mp ha with ha | ha
      · exact ihinner hinner ha
      · exact ihrest hrest ha

/-- The cell of a node holds its data. -/
theorem Holds.cell_data (h : Holds cells parent prev next forest) {item : A × D}
    (hitem : item ∈ forest.items) : ∃ cell, cells item.1 = some cell ∧ cell.data = item.2 := by
  induction forest generalizing parent prev next with
  | nil => cases hitem
  | node addr data inner rest ihinner ihrest =>
    obtain ⟨hcell, hinner, hrest⟩ := h
    rw [LinkForest.items, List.mem_cons, List.mem_append] at hitem
    rcases hitem with rfl | hitem | hitem
    · exact ⟨_, hcell, rfl⟩
    · exact ihinner hinner hitem
    · exact ihrest hrest hitem

/-- What follows a list of siblings is linked from its last node. -/
theorem Holds.relink_next (h : Holds cells parent prev next forest) {other : Option A}
    (hnodup : forest.addrs.Nodup)
    (hlast : ∀ last, forest.lastAddr = some last →
      cells' last = (cells last).map fun cell => { cell with next := other })
    (hsame : ∀ a ∈ forest.addrs, forest.lastAddr ≠ some a → cells' a = cells a) :
    Holds cells' parent prev other forest := by
  induction forest generalizing prev with
  | nil => trivial
  | node addr data inner rest _ ih =>
    obtain ⟨hcell, hinner, hrest⟩ := h
    have hnodup := List.nodup_cons.mp hnodup
    have hdisjoint := List.nodup_append.mp hnodup.2
    have hkeep : ∀ a ∈ inner.addrs, cells' a = cells a := by
      intro a ha
      refine hsame a (List.mem_cons_of_mem _ (List.mem_append_left _ ha)) fun hsome => ?_
      have hmem : rest.lastAddr.or (some addr) = some a := hsome
      cases hrest : rest.lastAddr with
      | none =>
        rw [hrest] at hmem
        cases hmem
        exact hnodup.1 (List.mem_append_left _ ha)
      | some last =>
        rw [hrest] at hmem
        cases hmem
        exact hdisjoint.2.2 a ha a (LinkForest.last_addr_mem hrest) rfl
    cases hempty : rest.lastAddr with
    | none =>
      obtain rfl := LinkForest.last_addr_eq_none.mp hempty
      refine ⟨?_, hinner.congr hkeep, trivial⟩
      rw [hlast addr rfl, hcell]
      rfl
    | some last =>
      have hself : (LinkForest.node addr data inner rest).lastAddr = some last := by
        show rest.lastAddr.or (some addr) = _
        rw [hempty]
        rfl
      have hne : addr ≠ last := by
        rintro rfl
        exact hnodup.1 (List.mem_append_right _ (LinkForest.last_addr_mem hempty))
      have hfirst : rest.firstAddr.or next = rest.firstAddr.or other := by
        cases rest with
        | nil => cases hempty
        | node addr data inner rest => rfl
      refine ⟨?_, hinner.congr hkeep, ih hrest hdisjoint.2.1 ?_ ?_⟩
      · rw [hsame addr List.mem_cons_self
          (by rw [hself]; exact fun h => hne (Option.some.inj h).symm),
          hcell, hfirst]
      · intro last' hlast'
        exact hlast last' (by rw [hself, ← hempty]; exact hlast')
      · intro a ha hnot
        refine hsame a (List.mem_cons_of_mem _ (List.mem_append_right _ ha)) ?_
        rw [hself, ← hempty]
        exact hnot

/-- What precedes a list of siblings is linked from its first node. -/
theorem Holds.relink_prev (h : Holds cells parent prev next forest) {other : Option A}
    (hnodup : forest.addrs.Nodup)
    (hfirst : ∀ first, forest.firstAddr = some first →
      cells' first = (cells first).map fun cell => { cell with prev := other })
    (hsame : ∀ a ∈ forest.addrs, forest.firstAddr ≠ some a → cells' a = cells a) :
    Holds cells' parent other next forest := by
  cases forest with
  | nil => trivial
  | node addr data inner rest =>
    obtain ⟨hcell, hinner, hrest⟩ := h
    have hnodup := List.nodup_cons.mp hnodup
    have hkeep : ∀ a ∈ inner.addrs ++ rest.addrs, cells' a = cells a := by
      intro a ha
      refine hsame a (List.mem_cons_of_mem _ ha) fun hself => ?_
      cases hself
      exact hnodup.1 ha
    refine ⟨?_, hinner.congr fun a ha => hkeep a (List.mem_append_left _ ha),
      hrest.congr fun a ha => hkeep a (List.mem_append_right _ ha)⟩
    rw [hfirst addr rfl, hcell]
    rfl

end Holds

/-- One step into a forest: a node whose list is left open, and what stands around it. -/
structure LinkLevel (A D : Type) where
  addr : A
  data : D
  left : LinkForest A D
  right : LinkForest A D

/-- A forest with one list of siblings taken out, from the node that owns the list outwards. -/
abbrev LinkContext (A D : Type) := List (LinkLevel A D)

namespace LinkContext

/-- The list is put back. -/
def plug : LinkContext A D → LinkForest A D → LinkForest A D
  | [], list => list
  | level :: outer, list =>
    plug outer (level.left.append (.node level.addr level.data list level.right))

/-- Whose list is taken out, in a forest that `base` owns. -/
def owner (base : Option A) : LinkContext A D → Option A
  | [] => base
  | level :: _ => some level.addr

/-- The nodes that are left. -/
def items : LinkContext A D → List (A × D)
  | [] => []
  | level :: outer =>
    (level.addr, level.data) :: (level.left.items ++ (level.right.items ++ items outer))

/-- The addresses that are left. -/
def addrs (context : LinkContext A D) : List A :=
  context.items.map Prod.fst

/-- What is left has at most so many levels. -/
def Within (levels : Nat) : LinkContext A D → Prop
  | [] => True
  | level :: outer =>
    Within levels outer ∧ outer.length + level.left.height ≤ levels ∧
      outer.length + level.right.height ≤ levels ∧ outer.length + 1 ≤ levels

variable {context : LinkContext A D} {base : Option A} {list list' : LinkForest A D}

/-- Plugging into nested contexts, the inner one first. -/
theorem plug_append (inner outer : LinkContext A D) (list : LinkForest A D) :
    plug (inner ++ outer) list = plug outer (plug inner list) := by
  induction inner generalizing list with
  | nil => rfl
  | cons level inner ih => exact ih _

theorem items_append (inner outer : LinkContext A D) :
    items (inner ++ outer) = items inner ++ items outer := by
  induction inner with
  | nil => rfl
  | cons level inner ih => simp [items, ih]

/-- A plugged list adds its items to those of the context. -/
theorem items_plug (context : LinkContext A D) (list : LinkForest A D) :
    (context.plug list).items.Perm (context.items ++ list.items) := by
  induction context generalizing list with
  | nil => exact List.Perm.refl _
  | cons level outer ih =>
    refine (ih _).trans ?_
    simp only [LinkForest.items_append, LinkForest.items, items, ← Multiset.coe_eq_coe,
      ← Multiset.coe_add, ← Multiset.cons_coe, List.cons_append, List.append_assoc,
      Multiset.add_cons]
    congr 1
    abel

@[simp] theorem addrs_cons (level : LinkLevel A D) (outer : LinkContext A D) :
    addrs (level :: outer) =
      level.addr :: (level.left.addrs ++ (level.right.addrs ++ addrs outer)) := by
  simp [addrs, items, LinkForest.items_addrs]

/-- The nodes around a list are among the nodes that are left. -/
theorem level_mem {level : LinkLevel A D} (h : level ∈ context) : level.addr ∈ context.addrs := by
  induction context with
  | nil => cases h
  | cons first outer ih =>
    rw [addrs_cons]
    rcases List.mem_cons.mp h with rfl | h
    · exact List.mem_cons_self
    · exact List.mem_cons_of_mem _ (by simp [ih h])

/-- The owner of the list is among the nodes that are left. -/
theorem owner_mem {a : A} (h : context.owner none = some a) : a ∈ context.addrs := by
  cases context with
  | nil => cases h
  | cons level outer =>
    cases h
    simp

/-- A plugged list adds its addresses to those of the context. -/
theorem addrs_plug (context : LinkContext A D) (list : LinkForest A D) :
    (context.plug list).addrs.Perm (context.addrs ++ list.addrs) := by
  have h := (items_plug context list).map Prod.fst
  rwa [List.map_append, LinkForest.items_addrs, LinkForest.items_addrs] at h

/-- A node and what is inside of it, and the rest of the forest. -/
theorem items_plug_node (context : LinkContext A D) (left : LinkForest A D) (addr : A) (data : D)
    (inner right : LinkForest A D) :
    (context.plug (left.append (.node addr data inner right))).items.Perm
      ((addr, data) :: inner.items ++ (context.plug (left.append right)).items) := by
  refine (items_plug _ _).trans ?_
  refine List.Perm.trans ?_ ((items_plug context (left.append right)).symm.append_left _)
  simp only [LinkForest.items_append, LinkForest.items, ← Multiset.coe_eq_coe,
    ← Multiset.coe_add, ← Multiset.cons_coe, List.cons_append, Multiset.add_cons]
  congr 1
  abel

/-- A node adds its address and those of its subtree. -/
theorem addrs_plug_node (context : LinkContext A D) (left : LinkForest A D) (addr : A) (data : D)
    (inner right : LinkForest A D) :
    (context.plug (left.append (.node addr data inner right))).addrs.Perm
      (addr :: inner.addrs ++ (context.plug (left.append right)).addrs) := by
  have h := (items_plug_node context left addr data inner right).map Prod.fst
  rwa [List.map_append, List.map_cons, LinkForest.items_addrs, LinkForest.items_addrs,
    LinkForest.items_addrs] at h

/-- One more node in a list is one more node in the forest. -/
theorem items_plug_single (context : LinkContext A D) (list : LinkForest A D) (addr : A) (data : D) :
    (context.plug (list.append (.single addr data .nil))).items.Perm
      ((addr, data) :: (context.plug list).items) := by
  refine (items_plug _ _).trans (List.Perm.trans ?_ ((items_plug context list).symm.cons _))
  rw [LinkForest.items_append, ← List.append_assoc]
  exact List.perm_append_singleton _ _

/-- A new last node adds one address. -/
theorem addrs_plug_single (context : LinkContext A D) (list : LinkForest A D) (addr : A) (data : D) :
    (context.plug (list.append (.single addr data .nil))).addrs.Perm
      (addr :: (context.plug list).addrs) := by
  have h := (items_plug_single context list addr data).map Prod.fst
  rwa [List.map_cons, LinkForest.items_addrs, LinkForest.items_addrs] at h

/-- A plugged list adds its size to the context's items. -/
theorem size_plug (context : LinkContext A D) (list : LinkForest A D) :
    (context.plug list).size = context.items.length + list.size := by
  rw [← LinkForest.addrs_length, (addrs_plug context list).length_eq, List.length_append,
    LinkForest.addrs_length, addrs, List.length_map]

/-- The depth limit splits into context and list. -/
theorem height_plug {levels : Nat} :
    (context.plug list).height ≤ levels ↔
      context.Within levels ∧ context.length + list.height ≤ levels := by
  induction context generalizing list with
  | nil => simp [plug, Within]
  | cons level outer ih =>
    simp only [plug, ih, LinkForest.height_append, LinkForest.height, Within, List.length_cons]
    constructor
    · intro h
      exact ⟨⟨h.1, by omega, by omega, by omega⟩, by omega⟩
    · intro h
      exact ⟨h.1.1, by omega⟩

/-- The ends of a forest do not depend on a list inside of one of its nodes. -/
theorem first_addr_plug (level : LinkLevel A D) (outer : LinkContext A D)
    (list list' : LinkForest A D) :
    (plug (level :: outer) list').firstAddr = (plug (level :: outer) list).firstAddr := by
  induction outer generalizing level list list' with
  | nil => simp [plug]
  | cons above outer ih => exact ih _ _ _

theorem last_addr_plug (level : LinkLevel A D) (outer : LinkContext A D)
    (list list' : LinkForest A D) :
    (plug (level :: outer) list').lastAddr = (plug (level :: outer) list).lastAddr := by
  induction outer generalizing level list list' with
  | nil => simp [plug]
  | cons above outer ih => exact ih _ _ _

/-- A node stands in the list of its parent. -/
theorem exists_plug {forest : LinkForest A D} {a : A} (h : a ∈ forest.addrs) :
    ∃ (context : LinkContext A D) (left : LinkForest A D) (data : D)
      (inner right : LinkForest A D),
      forest = context.plug (left.append (.node a data inner right)) := by
  induction forest with
  | nil => cases h
  | node addr data inner rest ihinner ihrest =>
    rcases List.mem_cons.mp h with rfl | h
    · exact ⟨[], .nil, data, inner, rest, rfl⟩
    · rcases List.mem_append.mp h with h | h
      · obtain ⟨context, left, found, below, right, rfl⟩ := ihinner h
        refine ⟨context ++ [⟨addr, data, .nil, rest⟩], left, found, below, right, ?_⟩
        rw [plug_append]
        rfl
      · obtain ⟨context, left, found, below, right, hrest⟩ := ihrest h
        rcases List.eq_nil_or_concat context with rfl | ⟨inside, level, rfl⟩
        · refine ⟨[], .node addr data inner left, found, below, right, ?_⟩
          rw [hrest]
          rfl
        · -- the outermost level has one more node to its left
          refine ⟨inside ++ [{ level with left := .node addr data inner level.left }], left,
            found, below, right, ?_⟩
          rw [hrest, List.concat_eq_append, plug_append, plug_append]
          rfl

/-- A list that is put back is held there. -/
theorem holds_list {cells : A → Option (LinkCell A D)}
    (h : Holds cells base none none (context.plug list)) :
    Holds cells (context.owner base) none none list := by
  induction context generalizing list with
  | nil => exact h
  | cons level outer ih => exact (holds_append.mp (ih h)).2.2.1

/-- The cell of the node that owns the list. -/
theorem holds_owner {cells : A → Option (LinkCell A D)} {level : LinkLevel A D}
    {outer : LinkContext A D} (h : Holds cells base none none (plug (level :: outer) list)) :
    cells level.addr = some ⟨level.data, owner base outer, level.left.lastAddr,
      level.right.firstAddr, list.firstAddr, list.lastAddr⟩ := by
  have hlist : Holds cells (owner base outer) none none
      (level.left.append (.node level.addr level.data list level.right)) := holds_list h
  simpa using (holds_append.mp hlist).2.1

/-- Around a list whose ends stay where they are nothing changes. -/
theorem holds_replace {cells cells' : A → Option (LinkCell A D)}
    (h : Holds cells base none none (context.plug list))
    (hlist : Holds cells' (context.owner base) none none list')
    (hfirst : list'.firstAddr = list.firstAddr) (hlast : list'.lastAddr = list.lastAddr)
    (hsame : ∀ a ∈ context.addrs, cells' a = cells a) :
    Holds cells' base none none (context.plug list') := by
  induction context generalizing list list' with
  | nil => exact hlist
  | cons level outer ih =>
    have hall : Holds cells (owner base outer) none none
        (level.left.append (.node level.addr level.data list level.right)) := holds_list h
    obtain ⟨hleft, hcell, -, hright⟩ := holds_append.mp hall
    rw [addrs_cons] at hsame
    refine ih h ?_ ?_ ?_ ?_
    · refine holds_append.mpr ⟨?_, ?_, hlist, ?_⟩
      · exact hleft.congr fun a ha => hsame a (by simp [ha])
      · rw [hsame level.addr List.mem_cons_self, hcell, hfirst, hlast]
      · exact hright.congr fun a ha => hsame a (by simp [ha])
    · rw [LinkForest.first_addr_append, LinkForest.first_addr_append]
      rfl
    · rw [LinkForest.last_addr_append, LinkForest.last_addr_append]
      rfl
    · exact fun a ha => hsame a (by simp [ha])

/-- A list changes, and with it the cell of the node that owns it. -/
theorem holds_edit {cells cells' : A → Option (LinkCell A D)}
    (h : Holds cells base none none (context.plug list)) (hnodup : context.addrs.Nodup)
    (hlist : Holds cells' (context.owner base) none none list')
    (howner : ∀ a, context.owner none = some a → cells' a = (cells a).map fun cell =>
      { cell with first := list'.firstAddr, last := list'.lastAddr })
    (hsame : ∀ a ∈ context.addrs, context.owner none ≠ some a → cells' a = cells a) :
    Holds cells' base none none (context.plug list') := by
  cases context with
  | nil => exact hlist
  | cons level outer =>
    have hall : Holds cells (owner base outer) none none
        (level.left.append (.node level.addr level.data list level.right)) := holds_list h
    obtain ⟨hleft, hcell, -, hright⟩ := holds_append.mp hall
    rw [addrs_cons] at hsame hnodup
    have hnot := (List.nodup_cons.mp hnodup).1
    have hkeep : ∀ a ∈ level.left.addrs ++ (level.right.addrs ++ addrs outer),
        cells' a = cells a := by
      intro a ha
      refine hsame a (List.mem_cons_of_mem _ ha) fun hself => ?_
      cases hself
      exact hnot ha
    refine @holds_replace _ _ outer _ _ _ _ _ h ?_ ?_ ?_ ?_
    · refine holds_append.mpr ⟨?_, ?_, hlist, ?_⟩
      · exact hleft.congr fun a ha => hkeep a (by simp [ha])
      · rw [howner level.addr rfl, hcell]
        rfl
      · exact hright.congr fun a ha => hkeep a (by simp [ha])
    · rw [LinkForest.first_addr_append, LinkForest.first_addr_append]
      rfl
    · rw [LinkForest.last_addr_append, LinkForest.last_addr_append]
      rfl
    · exact fun a ha => hkeep a (by simp [ha])

/-- The node behind a list that was taken out, in preorder. -/
def following : LinkContext A D → Option A
  | [] => none
  | level :: outer => level.right.firstAddr.or (following outer)

end LinkContext

namespace LinkForest

/-- The data of each node changes. -/
def map (f : A → D → D) : LinkForest A D → LinkForest A D
  | nil => nil
  | node addr data inner rest => node addr (f addr data) (inner.map f) (rest.map f)

/-- Some nodes are taken out with all that is inside of them. -/
def prune (p : A → D → Bool) : LinkForest A D → LinkForest A D
  | nil => nil
  | node addr data inner rest =>
    if p addr data then rest.prune p else node addr data (inner.prune p) (rest.prune p)

/-- The nodes that pruning takes out. -/
def pruned (p : A → D → Bool) : LinkForest A D → List A
  | nil => []
  | node addr data inner rest =>
    (if p addr data then addr :: inner.addrs else inner.pruned p) ++ rest.pruned p

/-- The nodes that are met in preorder when nothing inside of a node that is taken out is. -/
def met (p : A → D → Bool) : LinkForest A D → List A
  | nil => []
  | node addr data inner rest =>
    addr :: ((if p addr data then [] else inner.met p) ++ rest.met p)

/-- The selected nodes that are not inside of another selected one. -/
def tops (p : A → Bool) : LinkForest A D → List A
  | nil => []
  | node addr _ inner rest => (if p addr then [addr] else inner.tops p) ++ rest.tops p

section Map

variable {f g : A → D → D} {p : A → D → Bool}

attribute [local simp] map

theorem map_append (forest other : LinkForest A D) :
    (forest.append other).map f = (forest.map f).append (other.map f) := by
  induction forest with
  | nil => rfl
  | node addr data inner rest _ ih => simp [append, ih]

theorem map_map (forest : LinkForest A D) :
    (forest.map f).map g = forest.map fun addr data => g addr (f addr data) := by
  induction forest with
  | nil => rfl
  | node addr data inner rest ihinner ihrest => simp [ihinner, ihrest]

/-- Only what happens to the nodes of the forest matters. -/
theorem map_congr {forest : LinkForest A D}
    (h : ∀ item ∈ forest.items, f item.1 item.2 = g item.1 item.2) : forest.map f = forest.map g := by
  induction forest with
  | nil => rfl
  | node addr data inner rest ihinner ihrest =>
    simp only [map, h (addr, data) (by simp [items]),
      ihinner fun item hitem => h item (by simp [items, hitem]),
      ihrest fun item hitem => h item (by simp [items, hitem])]

theorem map_id (forest : LinkForest A D) : (forest.map fun _ data => data) = forest := by
  induction forest with
  | nil => rfl
  | node addr data inner rest ihinner ihrest => simp [ihinner, ihrest]

@[simp] theorem map_addrs (forest : LinkForest A D) : (forest.map f).addrs = forest.addrs := by
  induction forest with
  | nil => rfl
  | node addr data inner rest ihinner ihrest => simp [ihinner, ihrest]

theorem map_items (forest : LinkForest A D) :
    (forest.map f).items = forest.items.map fun item => (item.1, f item.1 item.2) := by
  induction forest with
  | nil => rfl
  | node addr data inner rest ihinner ihrest => simp [items, ihinner, ihrest]

/-- A map that leaves the context alone maps the list. -/
theorem map_plug (context : LinkContext A D) (list : LinkForest A D)
    (h : ∀ item ∈ context.items, f item.1 item.2 = item.2) :
    (context.plug list).map f = context.plug (list.map f) := by
  induction context generalizing list with
  | nil => rfl
  | cons level outer ih =>
    have hself : ∀ forest : LinkForest A D, (∀ item ∈ forest.items, item ∈ items
        (level.left.append level.right)) → forest.map f = forest := by
      intro forest hall
      refine (map_congr fun item hitem => ?_).trans (map_id forest)
      refine h item ?_
      have hin := hall item hitem
      rw [items_append, List.mem_append] at hin
      simp only [LinkContext.items, List.mem_cons, List.mem_append]
      tauto
    have hleft := hself level.left fun item hitem => by simp [items_append, hitem]
    have hright := hself level.right fun item hitem => by simp [items_append, hitem]
    have hlevel := h (level.addr, level.data) (by simp [LinkContext.items])
    simp only [LinkContext.plug]
    rw [ih _ fun item hitem => h item (by simp [LinkContext.items, hitem]), map_append, hleft]
    simp only [map, hright]
    rw [hlevel]

/-- Pruning keeps only items that are not selected. -/
theorem prune_subset (forest : LinkForest A D) :
    ∀ item ∈ (forest.prune p).items, item ∈ forest.items ∧ p item.1 item.2 = false := by
  induction forest with
  | nil => exact fun item hitem => by cases hitem
  | node addr data inner rest ihinner ihrest =>
    intro item hitem
    rw [prune] at hitem
    split at hitem
    · have hin := ihrest item hitem
      simp [items, hin]
    next hp =>
      simp only [items, List.mem_cons, List.mem_append] at hitem ⊢
      rcases hitem with rfl | hitem | hitem
      · exact ⟨.inl rfl, by simpa using hp⟩
      · exact ⟨.inr (.inl (ihinner item hitem).1), (ihinner item hitem).2⟩
      · exact ⟨.inr (.inr (ihrest item hitem).1), (ihrest item hitem).2⟩

/-- Nothing is pruned when nothing is selected. -/
theorem prune_none {forest : LinkForest A D} (h : ∀ addr data, p addr data = false) :
    forest.prune p = forest := by
  induction forest with
  | nil => rfl
  | node addr data inner rest ihinner ihrest => simp [prune, h, ihinner, ihrest]

/-- The pruned items and the kept ones make up the forest. -/
theorem size_prune (forest : LinkForest A D) :
    (forest.prune p).size + (forest.pruned p).length = forest.size := by
  induction forest with
  | nil => rfl
  | node addr data inner rest ihinner ihrest =>
    rw [prune, pruned]
    split
    · simp only [List.length_append, List.length_cons, addrs_length, size]
      omega
    · simp only [List.length_append, size]
      omega

/-- What is met is met once, in preorder. -/
theorem met_sublist (forest : LinkForest A D) : (forest.met p).Sublist forest.addrs := by
  induction forest with
  | nil => exact List.Sublist.refl _
  | node addr data inner rest ihinner ihrest =>
    rw [met, addrs_node]
    refine List.Sublist.cons_cons addr (List.Sublist.append ?_ ihrest)
    split
    · exact List.nil_sublist _
    · exact ihinner

/-- Pruning by marks that were put on a forest. -/
theorem prune_map {q : A → D → Bool} (forest : LinkForest A D)
    (h : ∀ item ∈ forest.items, p item.1 (f item.1 item.2) = q item.1 item.2 ∧
      (q item.1 item.2 = false → f item.1 item.2 = item.2)) :
    (forest.map f).prune p = forest.prune q ∧ (forest.map f).met p = forest.met q := by
  induction forest with
  | nil => exact ⟨rfl, rfl⟩
  | node addr data inner rest ihinner ihrest =>
    obtain ⟨hmark, hkeep⟩ := h (addr, data) (by simp [items])
    obtain ⟨hinner, hinner'⟩ := ihinner fun item hitem => h item (by simp [items, hitem])
    obtain ⟨hrest, hrest'⟩ := ihrest fun item hitem => h item (by simp [items, hitem])
    simp only [map, prune, met, hmark, hinner, hinner', hrest, hrest', and_true]
    split
    · rfl
    next hq => rw [hkeep (by simpa using hq)]

end Map

end LinkForest

end OpenTlv
