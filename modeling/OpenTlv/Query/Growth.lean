import OpenTlv.Query.Represent

/-!
# How the retained nodes grow

Between two events the nodes of a retained execution are a forest that is still open: along the
open branches, innermost first, each depth has its completed siblings and the branch that is open
after them. `Spine` is that shape, `Grown` says that the areas of an execution hold it. A leaf, a
begin and an end each change the innermost part only.
-/

namespace OpenTlv.Query

/-- The open branches with the completed siblings before them, innermost first. -/
abbrev Spine := List (Forest Item × Item)

namespace Spine

/-- The index of the first node below the innermost open branch. -/
def start : Spine → Nat
  | [] => 0
  | (prior, _) :: outer => start outer + prior.size + 1

/-- The innermost open branch. -/
def parent : Spine → Option Nat
  | [] => none
  | (prior, _) :: outer => some (start outer + prior.size)

/-- The events that led to the innermost open branch. -/
def fed : Spine → List TreeEvent
  | [] => []
  | (prior, item) :: outer =>
    fed outer ++ events outer.length prior ++ [item.event .begin outer.length]

end Spine

/-- The area holds a listing from an index on. -/
def Stores (capacity : Nat) (nodes : Area RetainedNode) (start : Nat)
    (list : List (Listed Item)) : Prop :=
  ∀ k node, list[k]? = some node → nodes.cell (start + k) = retain capacity node

/-- The areas hold what lies around the innermost open branch. An open branch has no end yet. -/
def Stored (capacity : Nat) (nodes : Area RetainedNode) (openNodes indexes : Area Nat) :
    Spine → Prop
  | [] => True
  | (prior, item) :: outer =>
    Stores capacity nodes (Spine.start outer)
        (prior.listing outer.length (Spine.parent outer) 0 (Spine.start outer)) ∧
      nodes.cell (Spine.start outer + prior.size) =
        { event := item.event .begin outer.length
          parent := (Spine.parent outer).getD capacity
          ending := sizeMax
          sibling := prior.breadth } ∧
      openNodes.cell outer.length = Spine.start outer + prior.size ∧
      indexes.cell outer.length = prior.breadth + 1 ∧
      Stored capacity nodes openNodes indexes outer

/-- The areas hold an open forest. -/
structure Grown (capacity : Nat) (nodes : Area RetainedNode) (openNodes indexes : Area Nat)
    (elements : Nat) (spine : Spine) (current : Forest Item) : Prop where
  elements : elements = spine.start + current.size
  outer : Stored capacity nodes openNodes indexes spine
  inner : Stores capacity nodes spine.start
    (current.listing spine.length spine.parent 0 spine.start)
  index : spine.length < indexes.size → indexes.cell spine.length = current.breadth

variable {capacity : Nat} {nodes nodes' : Area RetainedNode}
  {openNodes openNodes' indexes indexes' : Area Nat} {elements : Nat} {spine : Spine}
  {current : Forest Item}

theorem Stores.congr {start : Nat} {list : List (Listed Item)}
    (h : Stores capacity nodes start list)
    (hnodes : ∀ i < start + list.length, nodes'.cell i = nodes.cell i) :
    Stores capacity nodes' start list := by
  intro k node hk
  have hlt : k < list.length := (List.getElem?_eq_some_iff.mp hk).1
  rw [hnodes _ (by omega)]
  exact h k node hk

/-- A listing next to another. -/
theorem stores_append {start : Nat} {first second : List (Listed Item)} :
    Stores capacity nodes start (first ++ second) ↔
      Stores capacity nodes start first ∧
        Stores capacity nodes (start + first.length) second := by
  constructor
  · intro h
    refine ⟨fun k node hk => ?_, fun k node hk => ?_⟩
    · have hlt : k < first.length := (List.getElem?_eq_some_iff.mp hk).1
      exact h k node (by rw [List.getElem?_append_left hlt]; exact hk)
    · have := h (first.length + k) node
        (by rw [List.getElem?_append_right (by omega), Nat.add_sub_cancel_left]; exact hk)
      rwa [← Nat.add_assoc] at this
  · rintro ⟨hfirst, hsecond⟩ k node hk
    rcases Nat.lt_or_ge k first.length with hlt | hge
    · rw [List.getElem?_append_left hlt] at hk
      exact hfirst k node hk
    · rw [List.getElem?_append_right hge] at hk
      have := hsecond _ node hk
      rwa [show start + first.length + (k - first.length) = start + k by omega] at this

theorem stores_cons {start : Nat} {node : Listed Item} {list : List (Listed Item)} :
    Stores capacity nodes start (node :: list) ↔
      nodes.cell start = retain capacity node ∧ Stores capacity nodes (start + 1) list := by
  rw [show node :: list = [node] ++ list from rfl, stores_append, List.length_singleton]
  refine and_congr_left fun _ => ⟨fun h => h 0 node rfl, fun h k other hk => ?_⟩
  cases k with
  | zero =>
    rw [List.getElem?_cons_zero, Option.some.injEq] at hk
    subst hk
    exact h
  | succ k => simp at hk

/-- The outer part lies before the innermost one. -/
theorem Stored.congr (h : Stored capacity nodes openNodes indexes spine)
    (hnodes : ∀ i < spine.start, nodes'.cell i = nodes.cell i)
    (hopen : ∀ i < spine.length, openNodes'.cell i = openNodes.cell i)
    (hindexes : ∀ i < spine.length, indexes'.cell i = indexes.cell i) :
    Stored capacity nodes' openNodes' indexes' spine := by
  induction spine with
  | nil => trivial
  | cons top outer ih =>
    obtain ⟨prior, item⟩ := top
    obtain ⟨hprior, hnode, hposition, hindex, houter⟩ := h
    simp only [Spine.start, List.length_cons] at hnodes hopen hindexes
    refine ⟨hprior.congr fun i hi => hnodes i ?_, ?_, ?_, ?_, ?_⟩
    · rw [Forest.listing_length] at hi
      omega
    · rw [hnodes _ (by omega), hnode]
    · rw [hopen _ (by omega), hposition]
    · rw [hindexes _ (by omega), hindex]
    · exact ih houter (fun i hi => hnodes i (by omega)) (fun i hi => hopen i (by omega))
        fun i hi => hindexes i (by omega)

namespace Grown

/-- The end of every open branch lies in the area. -/
theorem open_lt {prior : Forest Item} {item : Item} {outer : Spine}
    (h : Grown capacity nodes openNodes indexes elements ((prior, item) :: outer) current) :
    openNodes.cell outer.length < elements := by
  rw [h.elements, h.outer.2.2.1]
  simp only [Spine.start]
  omega

/-- A leaf after the completed siblings. -/
theorem leaf (h : Grown capacity nodes openNodes indexes elements spine current) (item : Item)
    {node : RetainedNode} {count : Nat}
    (hnode : node = { event := item.event .element spine.length
                      parent := spine.parent.getD capacity
                      ending := elements + 1
                      sibling := current.breadth })
    (hcount : count = current.breadth + 1) :
    Grown capacity (nodes.put elements node) openNodes (indexes.put spine.length count)
      (elements + 1) spine (current.append (.leaf item .nil)) := by
  have helements := h.elements
  refine ⟨by simp [Forest.size, helements]; omega, ?_, ?_, ?_⟩
  · exact h.outer.congr (fun i hi => Area.put_cell_of_ne _ _ (by omega)) (fun i hi => rfl)
      fun i hi => Area.put_cell_of_ne _ _ (by omega)
  · rw [Forest.listing_append, stores_append]
    refine ⟨h.inner.congr fun i hi => Area.put_cell_of_ne _ _ ?_, ?_⟩
    · rw [Forest.listing_length] at hi
      omega
    · rw [Forest.listing_length, Forest.listing, stores_cons, ← helements, Area.put_cell_self]
      refine ⟨?_, by intro k other hk; simp [Forest.listing] at hk⟩
      rw [hnode]
      simp [retain, nodeEvent]
  · intro _
    rw [Area.put_cell_self, hcount]
    simp [Forest.breadth]

/-- A branch opens after the completed siblings. -/
theorem opens (h : Grown capacity nodes openNodes indexes elements spine current) (item : Item)
    {node : RetainedNode} {count : Nat}
    (hnode : node = { event := item.event .begin spine.length
                      parent := spine.parent.getD capacity
                      ending := sizeMax
                      sibling := current.breadth })
    (hcount : count = current.breadth + 1) {indexes' : Area Nat}
    (hkept : ∀ i ≤ spine.length, indexes'.cell i = (indexes.put spine.length count).cell i)
    (hfresh : spine.length + 1 < indexes'.size → indexes'.cell (spine.length + 1) = 0) :
    Grown capacity (nodes.put elements node) (openNodes.put spine.length elements) indexes'
      (elements + 1) ((current, item) :: spine) .nil := by
  have helements := h.elements
  refine ⟨by simp [Spine.start, Forest.size, helements], ⟨?_, ?_, ?_, ?_, ?_⟩, ?_, ?_⟩
  · refine h.inner.congr fun i hi => Area.put_cell_of_ne _ _ ?_
    rw [Forest.listing_length] at hi
    omega
  · rw [← helements, Area.put_cell_self, hnode]
  · rw [← helements, Area.put_cell_self]
  · rw [hkept _ (Nat.le_refl _), Area.put_cell_self, hcount]
  · refine h.outer.congr (fun i hi => Area.put_cell_of_ne _ _ (by omega))
      (fun i hi => Area.put_cell_of_ne _ _ (by omega)) fun i hi => ?_
    rw [hkept i (by omega), Area.put_cell_of_ne _ _ (by omega)]
  · intro k node hk
    simp [Forest.listing] at hk
  · intro hlt
    exact hfresh hlt

/-- The innermost open branch closes. -/
theorem closes {prior : Forest Item} {item : Item} {outer : Spine}
    (h : Grown capacity nodes openNodes indexes elements ((prior, item) :: outer) current)
    (close : Item) {index : Nat} (hindex : index = openNodes.cell outer.length) :
    Grown capacity (nodes.put index { nodes.cell index with ending := elements }) openNodes
      indexes elements outer (prior.append (.branch item current close .nil)) := by
  have helements := h.elements
  obtain ⟨hprior, hnode, hposition, hcount, houter⟩ := h.outer
  have hinner := h.inner
  simp only [Spine.start, Spine.parent, List.length_cons] at helements hinner
  rw [hposition] at hindex
  refine ⟨by simp [Forest.size]; omega, ?_, ?_, ?_⟩
  · refine houter.congr (fun i hi => Area.put_cell_of_ne _ _ ?_) (fun _ _ => rfl) fun _ _ => rfl
    omega
  · rw [Forest.listing_append, stores_append]
    refine ⟨hprior.congr fun i hi => Area.put_cell_of_ne _ _ ?_, ?_⟩
    · rw [Forest.listing_length] at hi
      omega
    · rw [Forest.listing_length, Forest.listing, stores_cons]
      refine ⟨?_, ?_⟩
      · rw [← hindex, Area.put_cell_self, hindex, hnode]
        simp only [retain, nodeEvent, RetainedNode.mk.injEq, if_true, true_and]
        exact ⟨by omega, by omega⟩
      · rw [show (Forest.nil : Forest Item).listing outer.length outer.parent
          (0 + prior.breadth + 1) (outer.start + prior.size + 1 + current.size) = [] from rfl,
          List.append_nil]
        intro k node hk
        have := hinner k node hk
        rw [Area.put_cell_of_ne _ _ (by omega), this]
  · intro _
    rw [hcount]
    simp [Forest.breadth]

/-- A closed forest is the stored one. -/
theorem closed (h : Grown capacity nodes openNodes indexes elements [] current) :
    elements = current.size ∧
      ∀ i node, current.nodes[i]? = some node → nodes.cell i = retain capacity node := by
  refine ⟨by simpa [Spine.start] using h.elements, fun i node hi => ?_⟩
  have := h.inner i node hi
  simpa [Spine.start] using this

end Grown

end OpenTlv.Query
