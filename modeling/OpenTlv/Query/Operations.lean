import OpenTlv.Query.Preservation

/-!
# Feeding a retained execution

A retained execution grows its open forest by every event it takes: a published node is stored
behind the others, the end of a node closes the innermost open branch. A feed of a sound execution
leaves no area, whichever engine runs.
-/

namespace OpenTlv.Query

variable {e e' : Exec} {fed : List TreeEvent} {event : TreeEvent}

/-- What an event says about its node. -/
def TreeEvent.item (event : TreeEvent) : Item :=
  { element := event.element, source := event.source, offset := event.offset }

theorem item_event {kind : EventKind} {depth : Nat} (hskipped : event.skipped = false)
    (hkind : event.kind = kind) (hdepth : event.depth = depth) :
    event.item.event kind depth = event := by
  subst hkind hdepth
  obtain ⟨kind, element, source, depth, offset, skipped⟩ := event
  dsimp only at hskipped
  subst hskipped
  rfl

section Allowed

theorem allowed_end (h : e.eventAllowed event = true) (hkind : event.kind = .finish) :
    e.opened ≠ 0 ∧ event.depth = e.opened - 1 ∧ (e.retained = true → event.skipped = false) := by
  simp only [Exec.eventAllowed, hkind, Bool.and_eq_true, decide_eq_true_eq, Bool.not_eq_true']
    at h
  obtain ⟨⟨hopened, hdepth⟩, hskipped⟩ := h
  refine ⟨hopened, hdepth, fun hr => ?_⟩
  simpa [hr] using hskipped

theorem allowed_node (h : e.eventAllowed event = true) (hkind : event.kind ≠ .finish) :
    event.depth = e.opened ∧ event.skipped = false ∧
      (event.kind = .begin ∨ event.kind = .element) := by
  cases hcase : event.kind with
  | finish => exact absurd hcase hkind
  | unknown => simp [Exec.eventAllowed, hcase] at h
  | begin =>
    simp only [Exec.eventAllowed, hcase, Bool.and_eq_true, decide_eq_true_eq,
      Bool.not_eq_true'] at h
    exact ⟨h.1, h.2, .inl rfl⟩
  | element =>
    simp only [Exec.eventAllowed, hcase, Bool.and_eq_true, decide_eq_true_eq,
      Bool.not_eq_true'] at h
    exact ⟨h.1, h.2, .inr rfl⟩

end Allowed

section Retained

/-- The nodes with the end of an open branch. -/
def closedNodes (e : Exec) (depth : Nat) : Area RetainedNode :=
  e.nodes.put (e.openNodes.cell depth)
    { e.nodes.cell (e.openNodes.cell depth) with ending := e.elements }

/-- The end of a node is stored in the node. -/
theorem retained_end_meets (h : e.Sound fed) (hr : e.retained = true)
    (hallowed : e.eventAllowed event = true) (hkind : event.kind = .finish) :
    Meets (e.retainedFeed event) (Reports True) fun e' =>
      ∃ meter, e' = { e with meter := meter, nodes := closedNodes e event.depth } := by
  obtain ⟨hopened, hdepth, -⟩ := allowed_end hallowed hkind
  have hretaining := h.retaining hr
  obtain ⟨spine, current, hlength, hgrown, -⟩ := h.holding hr
  unfold Exec.retainedFeed
  split
  · exact query_limit_meets.mpr trivial
  rename_i hin
  split
  · exact bare_failure_meets
  rw [Program.fetch_of_lt h.sized.accepted.root_lt]
  refine (charge_meets e.meter 1 _).bind (fun _ h => h) fun meter _ => ?_
  dsimp only
  rw [if_pos hkind, if_neg (by omega)]
  -- the innermost open branch lies before the elements
  have hindex : e.openNodes.cell event.depth < e.nodes.size := by
    cases spine with
    | nil => exact absurd hlength hopened
    | cons top outer =>
      obtain ⟨prior, item⟩ := top
      have hlt := hgrown.open_lt
      rw [hdepth, hlength, List.length_cons, Nat.add_sub_cancel, hretaining.nodes]
      have := hretaining.room
      omega
  rw [Area.read_of_lt (by rw [hretaining.openNodes]; omega), checked_some]
  show Meets (checked (e.nodes.read (e.openNodes.cell event.depth)) >>= _) _ _
  rw [Area.read_of_lt hindex, checked_some]
  show Meets (checked (e.nodes.write (e.openNodes.cell event.depth) _) >>= _) _ _
  rw [Area.write_of_lt _ hindex, checked_some]
  exact ⟨meter, rfl⟩

/-- The stored form of a published node. -/
def Exec.stored (e : Exec) (event : TreeEvent) : RetainedNode :=
  { event := event
    parent := if event.depth = 0 then e.nodeCapacity else e.openNodes.cell (event.depth - 1)
    ending := if event.kind = .begin then sizeMax else e.elements + 1
    sibling := e.indexes.cell event.depth }

/-- The open branches with a published one. -/
def openedNodes (e : Exec) (event : TreeEvent) : Area Nat :=
  if event.kind = .begin then e.openNodes.put event.depth e.elements else e.openNodes

/-- A published node is stored behind the others. -/
theorem retained_node_meets (h : e.Sound fed) (hr : e.retained = true)
    (hallowed : e.eventAllowed event = true) (hkind : event.kind ≠ .finish) :
    Meets (e.retainedFeed event) (Reports True) fun e' =>
      event.depth < e.depthCapacity ∧
        ∃ meter, e' = { e with meter := meter, nodes := e.nodes.put e.elements (e.stored event),
                               openNodes := openedNodes e event } := by
  obtain ⟨hdepth, -, hnode⟩ := allowed_node hallowed hkind
  have hretaining := h.retaining hr
  unfold Exec.retainedFeed
  split
  · exact query_limit_meets.mpr trivial
  rename_i hin
  have hin : event.depth < e.depthCapacity := by omega
  split
  · exact bare_failure_meets
  rw [Program.fetch_of_lt h.sized.accepted.root_lt]
  refine (charge_meets e.meter 1 _).bind (fun _ h => h) fun meter _ => ?_
  dsimp only
  rw [if_neg hkind]
  split
  · exact bare_failure_meets
  split
  · exact query_limit_meets.mpr trivial
  rename_i hroom
  have hwrite : e.elements < e.nodes.size := by
    rw [hretaining.nodes]
    have := hretaining.room
    omega
  have hopen : event.depth < e.openNodes.size := by
    rw [hretaining.openNodes]
    exact hin
  rw [Area.read_of_lt (by rw [h.sized.indexes]; exact hin), checked_some]
  -- with any parent the node is stored the same way
  have hstore : ∀ parent, parent = (e.stored event).parent →
      Meets (do
        let nodes ← checked (e.nodes.write e.elements
          { event := event
            parent := parent
            ending := if event.kind = .begin then sizeMax else e.elements + 1
            sibling := e.indexes.cell event.depth })
        if event.kind = .begin then
          let openNodes ← checked (e.openNodes.write event.depth e.elements)
          return { e with meter := meter, nodes := nodes, openNodes := openNodes }
        else return { e with meter := meter, nodes := nodes } : Run Exec) (Reports True)
        fun e' => event.depth < e.depthCapacity ∧ ∃ meter, e' = { e with
          meter := meter, nodes := e.nodes.put e.elements (e.stored event),
          openNodes := openedNodes e event } := by
    intro parent hparent
    subst hparent
    rw [Area.write_of_lt _ hwrite, checked_some]
    show Meets (if event.kind = .begin then _ else _) _ _
    split
    · rename_i hbegin
      rw [Area.write_of_lt _ hopen, checked_some]
      exact ⟨hin, meter, by simp only [Exec.stored, openedNodes, hbegin, if_true]⟩
    · rename_i hbegin
      exact ⟨hin, meter, by simp only [Exec.stored, openedNodes, hbegin, if_false]⟩
  show Meets (if event.depth = 0 then _ else _) _ _
  split
  · rename_i hroot
    exact hstore e.nodeCapacity (if_pos hroot).symm
  · rename_i hdeep
    rw [Area.read_of_lt (by omega), checked_some]
    exact hstore (e.openNodes.cell (event.depth - 1)) (if_neg hdeep).symm

end Retained

section Holding

/-- The parent of a published node is the innermost open branch. -/
theorem stored_eq {spine : Spine} {current : Forest Item} (hlength : event.depth = spine.length)
    (hin : event.depth < e.indexes.size)
    (hgrown : Grown e.nodeCapacity e.nodes e.openNodes e.indexes e.elements spine current) :
    e.stored event =
      { event := event
        parent := spine.parent.getD e.nodeCapacity
        ending := if event.kind = .begin then sizeMax else e.elements + 1
        sibling := current.breadth } := by
  have hsibling := hgrown.index (by omega)
  have hparent : (if event.depth = 0 then e.nodeCapacity
      else e.openNodes.cell (event.depth - 1)) = spine.parent.getD e.nodeCapacity := by
    cases spine with
    | nil => simp [hlength, Spine.parent]
    | cons top outer =>
      obtain ⟨prior, item⟩ := top
      simp [hlength, Spine.parent, hgrown.outer.2.2.1]
  unfold Exec.stored
  rw [hparent, hlength, hsibling]

/-- The open forest after a published node. -/
theorem holding_node (hholding : e.Holding fed) (hallowed : e.eventAllowed event = true)
    (hkind : event.kind ≠ .finish) (hin : event.depth < e.indexes.size) {before : Exec}
    (hcounted : before.Counted event e')
    (hnodes : before.nodes = e.nodes.put e.elements (e.stored event))
    (hopenNodes : before.openNodes = openedNodes e event)
    (hcapacity : before.nodeCapacity = e.nodeCapacity) (hindexes : before.indexes = e.indexes)
    (helements : before.elements = e.elements) (hopened : before.opened = e.opened) :
    e'.Holding (fed ++ [event]) := by
  obtain ⟨hdepth, hskipped, hnode⟩ := allowed_node hallowed hkind
  obtain ⟨spine, current, hlength, hgrown, hfed⟩ := hholding
  have hspine : event.depth = spine.length := hdepth.trans hlength
  have hstored := stored_eq hspine hin hgrown
  have hevent : ∀ {kind}, event.kind = kind → event.item.event kind spine.length = event :=
    fun hkind => item_event hskipped hkind hspine
  have hcount := hgrown.index (by omega)
  rcases hnode with hbegin | helement
  · -- a branch opens below the spine
    refine ⟨(current, event.item) :: spine, .nil, ?_, ?_, ?_⟩
    · rw [hcounted.opened, hopened, if_pos hbegin, hlength, List.length_cons]
    · rw [hcounted.nodeCapacity, hcapacity, hcounted.nodes, hnodes, hcounted.openNodes,
        hopenNodes, openedNodes, if_pos hbegin, hcounted.elements, helements, hspine]
      refine hgrown.opens event.item ?_ rfl ?_ ?_
      · rw [hstored, if_pos hbegin, hevent hbegin]
      · intro i hi
        have hkept := hcounted.indexes i (by omega)
        rw [hindexes, hspine, hcount] at hkept
        exact hkept
      · intro hlt
        have hfresh := hcounted.fresh hbegin
        rw [hspine] at hfresh
        exact hfresh hlt
    · rw [hfed, Spine.fed, hevent hbegin, events, List.append_nil]
  · -- a leaf follows the completed siblings
    have hne : event.kind ≠ .begin := by simp [helement]
    refine ⟨spine, current.append (.leaf event.item .nil), ?_, ?_, ?_⟩
    · rw [hcounted.opened, hopened, if_neg hne, hlength, Nat.add_zero]
    · rw [hcounted.nodeCapacity, hcapacity, hcounted.nodes, hnodes, hcounted.openNodes,
        hopenNodes, openedNodes, if_neg hne, hcounted.elements, helements, hcounted.leaf hne,
        hindexes, hspine, hcount]
      refine hgrown.leaf event.item ?_ rfl
      rw [hstored, if_neg hne, hevent helement]
    · rw [hfed, events_append, events, hevent helement, events, List.append_assoc]

/-- The open forest after the end of a node. -/
theorem holding_end (hholding : e.Holding fed) (hr : e.retained = true)
    (hallowed : e.eventAllowed event = true) (hkind : event.kind = .finish)
    (hnodes : e'.nodes = closedNodes e event.depth) (hopenNodes : e'.openNodes = e.openNodes)
    (hcapacity : e'.nodeCapacity = e.nodeCapacity) (hindexes : e'.indexes = e.indexes)
    (helements : e'.elements = e.elements) (hopened : e'.opened = e.opened - 1) :
    e'.Holding (fed ++ [event]) := by
  obtain ⟨hne, hdepth, hskipped⟩ := allowed_end hallowed hkind
  obtain ⟨spine, current, hlength, hgrown, hfed⟩ := hholding
  cases spine with
  | nil => exact absurd hlength hne
  | cons top outer =>
    obtain ⟨prior, item⟩ := top
    rw [List.length_cons] at hlength
    have houter : event.depth = outer.length := by omega
    have hevent : event.item.event .finish outer.length = event :=
      item_event (hskipped hr) hkind houter
    refine ⟨outer, prior.append (.branch item current event.item .nil), by omega, ?_, ?_⟩
    · rw [hcapacity, hnodes, hopenNodes, hindexes, helements, closedNodes, houter]
      exact hgrown.closes event.item rfl
    · rw [hfed, events_append, events, hevent, events, Spine.fed, List.length_cons]
      simp only [List.append_assoc, List.cons_append, List.nil_append]

end Holding

section Feed

/-- The end of a node closes its depth. -/
theorem feed_end_meets (h : e.Framed) :
    Meets (e.feedEnd event) (Reports True) fun x =>
      x.1.Framed ∧ x.1.retained = e.retained ∧ x.1.nodeCapacity = e.nodeCapacity ∧
        x.1.nodes = e.nodes ∧ x.1.openNodes = e.openNodes ∧ x.1.indexes = e.indexes ∧
        x.1.elements = e.elements ∧ x.1.opened = e.opened - 1 := by
  unfold Exec.feedEnd
  have hleft := h.marked (e.pruned + event.skipped.toNat) e.pruneDepth false
    (e.contextActive && !(e.context.isSome && e.contextFound && event.depth = e.contextDepth))
    e.publishedMatch e.anyMatch
  refine (scope_end_meets hleft).bind (fun _ h => h) fun x hworked => ?_
  obtain ⟨e₁, matched⟩ := x
  have hframed := hworked.framed hleft
  obtain ⟨meter, values, table, states, delayed, selected, rfl, -, -, -⟩ := hworked
  exact ⟨hframed.atDepth (Nat.le_trans (Nat.sub_le _ _) h.opened), rfl, rfl, rfl, rfl, rfl, rfl,
    rfl⟩

/-- Every reference to a variable is bound. -/
theorem bindings_ready_meets {bindings : Area Value} (l : List Instruction)
    (h : ∀ n ∈ l, n.op = .variableRef → n.variableSlot < bindings.size) :
    Meets (bindingsReady bindings l) (Reports True) fun _ =>
      ∀ n ∈ l, n.op = .variableRef → (bindings.cell n.variableSlot).kind ≠ .node := by
  induction l with
  | nil =>
    intro n hn
    cases hn
  | cons n rest ih =>
    rw [List.forall_mem_cons] at h
    have hrest := ih h.2
    unfold bindingsReady
    split
    · rename_i hop
      rw [Area.read_of_lt (h.1 hop), checked_some]
      show Meets (if _ then _ else _) _ _
      split
      · exact query_error_meets.mpr trivial
      · rename_i hbound
        refine hrest.mono (fun _ h => h) fun _ hall => ?_
        rw [List.forall_mem_cons]
        exact ⟨fun _ => hbound, hall⟩
    · rename_i hop
      refine hrest.mono (fun _ h => h) fun _ hall => ?_
      rw [List.forall_mem_cons]
      exact ⟨fun hvariable => absurd hvariable hop, hall⟩

/-- The instructions of a plan by their indices. -/
theorem mem_instructions {p : Program} {n : Instruction} :
    n ∈ p.instructions ↔ ∃ i < p.count, p.get i = n := by
  rw [List.mem_iff_getElem]
  refine ⟨fun ⟨i, hi, hn⟩ => ⟨i, hi, ?_⟩, fun ⟨i, hi, hn⟩ => ⟨i, hi, ?_⟩⟩
  all_goals simpa [Program.get, List.getD_eq_getElem?_getD, List.getElem?_eq_getElem hi] using hn

theorem ready_meets (h : e.Framed) : Meets e.ready (Reports True) fun _ => e.Complete := by
  unfold Exec.ready
  split
  · refine (bindings_ready_meets e.program.instructions fun n hn hop => ?_).mono (fun _ h => h)
      fun _ hall i hi hop => ?_
    · obtain ⟨i, hi, rfl⟩ := mem_instructions.mp hn
      rw [h.sized.bindings]
      exact h.sized.accepted.slots.lt i hi hop
    · exact hall _ (mem_instructions.mpr ⟨i, hi, rfl⟩) hop
  · rename_i hsome
    exact h.complete hsome

/-- A feed grows the open forest by its event, or is reported. -/
theorem feed_meets (h : e.Sound fed) :
    Meets (e.feed event) (Reports True) fun x => x.1.Sound (fed ++ [event]) := by
  have hframed := h.framed
  unfold Exec.feed
  refine (ready_meets hframed).bind (fun _ h => h) fun _ hcomplete => ?_
  split
  · exact unlocated_meets
  split
  · exact unlocated_meets
  rename_i hnot
  have hallowed : e.eventAllowed event = true := by simpa using hnot
  have hpublished : ∀ {e₁ : Exec} {matched : Bool}, e₁.Sound (fed ++ [event]) →
      Exec.Sound { e₁ with publishedMatch := matched, anyMatch := e₁.anyMatch || matched }
        (fed ++ [event]) := by
    intro e₁ matched hs
    exact (hs.framed.marked e₁.pruned e₁.pruneDepth e₁.pruneAllowed e₁.contextActive matched
      (e₁.anyMatch || matched)).sound hs.holding
  unfold Exec.feedBackend
  by_cases hkind : event.kind = .finish
  · -- the end of a node
    have hend : ∀ {before : Exec}, before.Framed → before.retained = e.retained →
        before.opened = e.opened →
        (e.retained = true → before.nodes = closedNodes e event.depth ∧
          before.openNodes = e.openNodes ∧ before.nodeCapacity = e.nodeCapacity ∧
          before.indexes = e.indexes ∧ before.elements = e.elements) →
        Meets (before.feedEvent event) (Reports True) fun x => x.1.Sound (fed ++ [event]) := by
      intro before hbefore hretained hopened hsame
      unfold Exec.feedEvent
      rw [if_pos hkind]
      refine (feed_end_meets hbefore).mono (fun _ h => h) fun x hx => ?_
      obtain ⟨hx, hxretained, hxcapacity, hxnodes, hxopenNodes, hxindexes, hxelements,
        hxopened⟩ := hx
      refine hx.sound fun hr => ?_
      have hr : e.retained = true := hretained ▸ hxretained ▸ hr
      obtain ⟨hnodes, hopenNodes, hcapacity, hindexes, helements⟩ := hsame hr
      exact holding_end (h.holding hr) hr hallowed hkind (hxnodes.trans hnodes)
        (hxopenNodes.trans hopenNodes) (hxcapacity.trans hcapacity) (hxindexes.trans hindexes)
        (hxelements.trans helements) (by rw [hxopened, hopened])
    split
    · rename_i hr
      refine (retained_end_meets h hr hallowed hkind).bind (fun _ h => h) fun before hbefore => ?_
      obtain ⟨meter, rfl⟩ := hbefore
      have hstored := hframed.stored meter (closedNodes e event.depth) e.openNodes rfl rfl
      refine (hend hstored rfl rfl fun _ => ⟨rfl, rfl, rfl, rfl, rfl⟩).bind (fun _ h => h)
        fun x hx => ?_
      exact hpublished hx
    · rename_i hr
      refine (hend hframed rfl rfl fun hretained => absurd hretained hr).bind (fun _ h => h)
        fun x hx => ?_
      exact hpublished hx
  · -- a published node
    have hdepth := (allowed_node hallowed hkind).1
    split
    · rename_i hr
      refine (retained_node_meets h hr hallowed hkind).bind (fun _ h => h) fun before hbefore => ?_
      obtain ⟨hin, meter, rfl⟩ := hbefore
      have hopenNodes : (openedNodes e event).size = e.openNodes.size := by
        unfold openedNodes
        split <;> rfl
      unfold Exec.feedEvent
      rw [if_neg hkind]
      have hstored := hframed.stored meter (e.nodes.put e.elements (e.stored event))
        (openedNodes e event) rfl hopenNodes
      refine (feed_node_meets hstored hcomplete hdepth).bind (fun _ h => h) fun x hx => ?_
      refine hpublished (hx.1.sound fun _ => ?_)
      exact holding_node (h.holding hr) hallowed hkind (by rw [h.sized.indexes]; exact hin) hx.2
        rfl rfl rfl rfl rfl rfl
    · rename_i hr
      show Meets (e.feedEvent event >>= _) _ _
      unfold Exec.feedEvent
      rw [if_neg hkind]
      refine (feed_node_meets hframed hcomplete hdepth).bind (fun _ h => h)
        fun x hx => ?_
      refine hpublished (hx.1.sound fun hretained => ?_)
      rw [hx.2.retained] at hretained
      exact absurd hretained hr

end Feed

end OpenTlv.Query
