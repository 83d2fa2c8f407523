import OpenTlv.Document.Evolution

/-!
# Erasure at the end of a callback

Inside of a query callback a node is only marked, and `document_query_callback` erases the marked
ones when the last callback ends. The loop walks the forest that it changes. In each turn it has
erased what is marked ahead of its place in preorder, and the rest is as it was: the invariant is a
context whose nodes were passed, a list of which some siblings were passed, and the rest of it.
-/

namespace OpenTlv

/-- A node waits to be erased. -/
def Marked (_ : Place) (data : NodeData) : Bool :=
  data.pendingErase

namespace Document

/-- The nodes at which the loop of `document_query_callback` looks. -/
def visited : Nat → Document → Option Place → List Place
  | _, _, none => []
  | 0, _, some _ => []
  | fuel + 1, document, some node =>
    node :: match document.eraseTurn node with
      | none => []
      | some (document, next) => visited fuel document next

section Turn

variable {document : Document} {context : LinkContext Place NodeData}
  {left inner right : LinkForest Place NodeData} {node : Place} {data : NodeData}

/-- Behind a node the loop goes on with the next one in preorder. -/
theorem Represents.climb
    (h : document.Represents (context.plug (left.append (.node node data inner right)))) :
    document.heap.climb none document.bound node =
      some (right.firstAddr.or context.following) := by
  have hbound := h.size_lt
  have hdeep := context_length_le context (left.append (.node node data inner right))
  exact LinkContext.climb_from h.lists.holds h.cell rfl (by omega)

/-- A marked node is erased. -/
theorem Represents.turn_marked
    (h : document.Represents (context.plug (left.append (.node node data inner right))))
    (hidle : document.queryCallbacks = 0) (hmark : data.pendingErase = true) :
    ∃ after, document.eraseTurn node = some (after, right.firstAddr.or context.following) ∧
      Edits document (context.plug (left.append (.node node data inner right))) after
        (context.plug (left.append right)) ∧ Swept document after := by
  obtain ⟨after, herase, hedits, hswept⟩ := h.erase_now_edits
  refine ⟨after, ?_, hedits, hswept⟩
  simp only [eraseTurn, h.cell, Option.bind_eq_bind, Option.bind_some, hmark, if_true, h.climb,
    erase, hidle, ne_eq, not_true_eq_false, if_false, herase]
  rfl

/-- A node that is not marked is entered or passed. -/
theorem Represents.turn_unmarked
    (h : document.Represents (context.plug (left.append (.node node data inner right))))
    (hmark : data.pendingErase = false) :
    document.eraseTurn node = some (document,
      inner.firstAddr.or (right.firstAddr.or context.following)) := by
  simp only [eraseTurn, h.cell, Option.bind_eq_bind, Option.bind_some, hmark, Bool.false_eq_true,
    if_false]
  cases inner.firstAddr with
  | some first => rfl
  | none =>
    simp only [h.climb, Option.bind_some]
    rfl

end Turn

/-- The loop erases the marked nodes of a list and comes to the place behind the list. -/
theorem erase_pending_list (list : LinkForest Place NodeData) :
    ∀ (context : LinkContext Place NodeData) (left : LinkForest Place NodeData)
      (document : Document), document.Represents (context.plug (left.append list)) →
      document.queryCallbacks = 0 →
      ∃ turns after, turns ≤ list.size ∧
        Edits document (context.plug (left.append list)) after
          (context.plug (left.append (list.prune Marked))) ∧
        Swept document after ∧
        ∀ fuel, erasePending (fuel + turns) document (list.firstAddr.or context.following) =
            erasePending fuel after context.following ∧
          visited (fuel + turns) document (list.firstAddr.or context.following) =
            list.met Marked ++ visited fuel after context.following := by
  induction list with
  | nil =>
    intro context left document h hidle
    exact ⟨0, document, Nat.le_refl _, h.edits_refl, Swept.refl document, fun fuel => ⟨rfl, rfl⟩⟩
  | node addr data inner rest ihinner ihrest =>
    intro context left document h hidle
    have hsize : (LinkForest.node addr data inner rest).size = inner.size + rest.size + 1 := rfl
    cases hmark : data.pendingErase with
    | true =>
      obtain ⟨erased, hturn, herased, hswept⟩ := h.turn_marked hidle hmark
      obtain ⟨turns, after, hturns, hafter, hswept', hrun⟩ := ihrest context left erased
        herased.represents (hswept.keeps.queryCallbacks.trans hidle)
      refine ⟨turns + 1, after, by omega, ?_, hswept.trans hswept', fun fuel => ?_⟩
      · rw [LinkForest.prune, Marked, hmark, if_pos rfl]
        exact herased.trans hafter
      · have hstep := hrun fuel
        simp only [LinkForest.met, Marked, hmark, if_true, List.nil_append, List.cons_append,
          LinkForest.first_addr_node, Option.some_or, ← Nat.add_assoc, erasePending, visited,
          hturn, Option.bind_eq_bind, Option.bind_some]
        exact ⟨hstep.1, congrArg (addr :: ·) hstep.2⟩
    | false =>
      have hturn := h.turn_unmarked hmark
      -- what is inside of the node comes first
      obtain ⟨turns, middle, hturns, hmiddle, hswept, hrun⟩ :=
        ihinner (⟨addr, data, left, rest⟩ :: context) .nil document h hidle
      have hassoc : ∀ later : LinkForest Place NodeData,
          (left.append (.single addr data (inner.prune Marked))).append later =
            left.append (.node addr data (inner.prune Marked) later) := fun later => by
        rw [LinkForest.append_assoc]
        rfl
      have hmiddle' : middle.Represents (context.plug
          ((left.append (.single addr data (inner.prune Marked))).append rest)) := by
        rw [hassoc]
        exact hmiddle.represents
      obtain ⟨more, after, hmore, hafter, hswept', hrun'⟩ := ihrest context
        (left.append (.single addr data (inner.prune Marked))) middle hmiddle'
        (hswept.keeps.queryCallbacks.trans hidle)
      refine ⟨more + turns + 1, after, by omega, ?_, hswept.trans hswept', fun fuel => ?_⟩
      · rw [LinkForest.prune, Marked, hmark, if_neg Bool.false_ne_true]
        rw [hassoc, hassoc] at hafter
        exact hmiddle.trans hafter
      · have hfirst := hrun (fuel + more)
        have hsecond := hrun' fuel
        have hfuel : fuel + (more + turns + 1) = fuel + more + turns + 1 := by omega
        simp only [LinkForest.met, Marked, hmark, Bool.false_eq_true, if_false, hfuel,
          LinkForest.first_addr_node, Option.some_or, erasePending, visited, hturn,
          Option.bind_eq_bind, Option.bind_some]
        refine ⟨hfirst.1.trans hsecond.1, ?_⟩
        rw [List.cons_append, List.append_assoc]
        exact congrArg (addr :: ·) (hfirst.2.trans (congrArg (_ ++ ·) hsecond.2))

/-- The loop erases the subtrees of the marked nodes. -/
theorem Represents.sweep {document : Document} {forest : LinkForest Place NodeData}
    (h : document.Represents forest) (hidle : document.queryCallbacks = 0) :
    ∃ after, erasePending document.bound document document.heap.first = some after ∧
      Edits document forest after (forest.prune Marked) ∧ Swept document after ∧
      visited document.bound document document.heap.first = forest.met Marked := by
  obtain ⟨turns, after, hturns, hedits, hswept, hrun⟩ :=
    erase_pending_list forest [] .nil document h hidle
  have hsize := h.size_lt
  obtain ⟨fuel, hfuel⟩ : ∃ fuel, document.bound = fuel + turns :=
    ⟨document.bound - turns, by omega⟩
  have hfirst : document.heap.first = forest.firstAddr.or none := by
    rw [Option.or_none]
    exact Option.some.inj h.lists.first
  have hstep := hrun fuel
  rw [hfuel, hfirst]
  refine ⟨after, hstep.1.trans ?_, hedits, hswept, hstep.2.trans ?_⟩
  · cases fuel <;> rfl
  · cases fuel <;> exact List.append_nil _

/-- The document at the end of the last callback, ahead of what waits for it. -/
def idled (document : Document) : Document :=
  { document with queryCallbacks := 0, queryPending := .nothing }

/-- A callback that ends inside of another one changes nothing. -/
theorem leave_inner {document : Document} {active : Nat}
    (hactive : document.queryCallbacks = active + 2) :
    document.leaveCallback = some (.nothing, some { document with queryCallbacks := active + 1 }) := by
  simp [leaveCallback, hactive]

/-- What waits is done when the last callback ends. -/
theorem leave_outer {document : Document} (hactive : document.queryCallbacks = 1) :
    document.leaveCallback = match document.queryPending with
      | .nothing => some (.nothing, some document.idled)
      | .free => document.idled.free.map fun freed => (.free, freed)
      | .erase => (erasePending document.bound document.idled document.heap.first).map fun erased =>
        (.erase, some erased) := by
  have hidled : { { document with queryCallbacks := document.queryCallbacks - 1 } with
      queryPending := .nothing } = document.idled := by
    simp [idled, hactive]
  unfold leaveCallback
  rw [if_neg (by omega)]
  simp only [hactive, Nat.sub_self, ne_eq, not_true_eq_false, if_false]
  cases document.queryPending with
  | nothing => rfl
  | free =>
    show (document.idled.free).bind _ = _
    cases document.idled.free <;> rfl
  | erase =>
    show (erasePending document.bound document.idled document.heap.first).bind _ = _
    cases erasePending document.bound document.idled document.heap.first <;> rfl

end Document

end OpenTlv
