import OpenTlv.Query.Lifecycle

/-!
# Feeding keeps the invariant

What publishing a node and closing one do to an execution. `Exec.Framed` is the invariant without
the retained nodes; every part of a feed keeps it, whichever engine runs. An engine only reworks
the contents of its areas. The retained nodes grow by the event that was fed, so that `Exec.Sound`
holds after every feed.
-/

namespace OpenTlv.Query

/-- The invariant of an execution without its retained nodes. -/
structure Exec.Framed (e : Exec) : Prop where
  sized : e.Sized
  fitting : e.Fitting
  streaming : e.retained = false → e.Streaming
  retaining : e.retained = true → e.Retaining
  typed : e.Typed
  complete : e.elements ≠ 0 → e.Complete
  opened : e.opened ≤ e.depthCapacity
  context : e.contextFound = true → ∃ c, e.context = some c ∧ c < e.elements
  result : e.finished = true → e.retained = true →
    (e.frames.cell 0).out.size = e.nodeCapacity + 1
  cursor : e.finished = false → e.resultCursor = 0

/-- What an engine may change: the contents of its areas. -/
def Exec.Reworked (e e' : Exec) : Prop :=
  ∃ (meter : Meter) (values : Area Value) (table : Area Nat) (states : Area Mark)
    (delayed : TreeEvent) (selected : Bool),
    e' = { e with meter := meter, values := values, table := table, states := states,
                  delayed := delayed, delayedSelected := selected } ∧
      values.size = e.values.size ∧ table.size = e.table.size ∧ states.size = e.states.size

variable {e e' : Exec} {fed : List TreeEvent} {event : TreeEvent}

theorem Exec.Sound.framed (h : e.Sound fed) : e.Framed :=
  { h with }

theorem Exec.Framed.sound (h : e.Framed) (hholding : e.retained = true → e.Holding fed) :
    e.Sound fed :=
  { h with holding := hholding }

theorem Exec.Reworked.refl (e : Exec) : e.Reworked e :=
  ⟨e.meter, e.values, e.table, e.states, e.delayed, e.delayedSelected, rfl, rfl, rfl, rfl⟩

theorem Exec.Reworked.trans {e'' : Exec} (h : e.Reworked e') (h' : e'.Reworked e'') :
    e.Reworked e'' := by
  obtain ⟨meter, values, table, states, delayed, selected, rfl, hvalues, htable, hstates⟩ := h
  obtain ⟨meter', values', table', states', delayed', selected', rfl, hvalues', htable',
    hstates'⟩ := h'
  exact ⟨meter', values', table', states', delayed', selected', rfl, hvalues'.trans hvalues,
    htable'.trans htable, hstates'.trans hstates⟩

/-- Reworked areas have the extents they had. -/
theorem Exec.Reworked.framed (h : e.Reworked e') (hframed : e.Framed) : e'.Framed := by
  obtain ⟨meter, values, table, states, delayed, selected, rfl, hvalues, htable, hstates⟩ := h
  have hsized := hframed.sized
  exact
    { hframed with
      sized := { hsized with
        values := hvalues.trans hsized.values, table := htable.trans hsized.table }
      fitting := { hframed.fitting with }
      streaming := fun hr => { hframed.streaming hr with
        states := hstates.trans (hframed.streaming hr).states }
      retaining := fun hr => { hframed.retaining hr with } }

/-- Flags that only report the progress do not matter. -/
theorem Exec.Framed.marked (h : e.Framed) (pruned pruneDepth : Nat)
    (pruneAllowed contextActive publishedMatch anyMatch : Bool) :
    Exec.Framed { e with
      pruned := pruned, pruneDepth := pruneDepth, pruneAllowed := pruneAllowed,
      contextActive := contextActive, publishedMatch := publishedMatch, anyMatch := anyMatch } :=
  { h with
    sized := { h.sized with }
    fitting := { h.fitting with }
    streaming := fun hr => { h.streaming hr with }
    retaining := fun hr => { h.retaining hr with } }

/-- Another depth inside the capacity. -/
theorem Exec.Framed.atDepth (h : e.Framed) {opened : Nat} (hopened : opened ≤ e.depthCapacity) :
    Exec.Framed { e with opened := opened } :=
  { h with
    sized := { h.sized with }
    fitting := { h.fitting with }
    streaming := fun hr => { h.streaming hr with }
    retaining := fun hr => { h.retaining hr with }
    opened := hopened }

/-- New sibling indexes and marks of the same extents. -/
theorem Exec.Framed.indexed (h : e.Framed) {indexes : Area Nat} {states : Area Mark}
    (hindexes : indexes.size = e.indexes.size) (hstates : states.size = e.states.size) :
    Exec.Framed { e with indexes := indexes, states := states } :=
  { h with
    sized := { h.sized with indexes := hindexes.trans h.sized.indexes }
    fitting := { h.fitting with }
    streaming := fun hr =>
      { h.streaming hr with states := hstates.trans (h.streaming hr).states }
    retaining := fun hr => { h.retaining hr with } }

/-- New nodes and open branches of the same extents. -/
theorem Exec.Framed.stored (h : e.Framed) (meter : Meter) (nodes : Area RetainedNode)
    (openNodes : Area Nat) (hnodes : nodes.size = e.nodes.size)
    (hopenNodes : openNodes.size = e.openNodes.size) :
    Exec.Framed { e with meter := meter, nodes := nodes, openNodes := openNodes } :=
  { h with
    sized := { h.sized with }
    fitting := { h.fitting with }
    streaming := fun hr => { h.streaming hr with }
    retaining := fun hr => { h.retaining hr with
      openNodes := hopenNodes.trans (h.retaining hr).openNodes
      nodes := hnodes.trans (h.retaining hr).nodes } }

/-- One more element with room for it. -/
theorem Exec.Framed.counted (h : e.Framed) (hcomplete : e.Complete)
    (hroom : e.retained = true → e.elements < e.nodeCapacity) {found : Bool}
    (hfound : found = true → e.contextFound = true ∨ e.context = some e.elements)
    (contextDepth : Nat) :
    Exec.Framed { e with
      elements := e.elements + 1, contextFound := found, contextDepth := contextDepth } := by
  refine
    { h with
      sized := { h.sized with }
      fitting := { h.fitting with }
      streaming := fun hr => { h.streaming hr with }
      retaining := fun hr => { h.retaining hr with room := hroom hr }
      complete := fun _ => hcomplete
      context := fun hyes => ?_ }
  show ∃ c, e.context = some c ∧ c < e.elements + 1
  cases hfound hyes with
  | inl hbefore =>
    obtain ⟨c, hc, hlt⟩ := h.context hbefore
    exact ⟨c, hc, by omega⟩
  | inr hnow => exact ⟨e.elements, hnow, by omega⟩

theorem bare_failure_meets {α : Type} {status : Status} {good : α → Prop} :
    Meets (bareFailure status : Run α) (Reports True) good :=
  query_error_meets.mpr trivial

theorem unlocated_meets {α : Type} {status : Status} {kind : ErrorKind} {expected : String}
    {good : α → Prop} : Meets (unlocated status kind expected : Run α) (Reports True) good :=
  query_error_meets.mpr trivial

section Engines

theorem Exec.Framed.cells (h : e.Framed) (hr : e.retained = false) :
    e.cells.Fits e.program e.depthCapacity e.patternCapacity :=
  ⟨h.sized.values, h.sized.table, (h.streaming hr).states⟩

theorem Exec.Framed.view (h : e.Framed) : e.view.Fits e.depthCapacity :=
  ⟨h.sized.accepted, h.sized.bindings, h.sized.indexes⟩

/-- What a streaming engine keeps, it reworks. -/
theorem with_cells_reworked (h : e.cells.Fits e.program e.depthCapacity e.patternCapacity)
    {c : Cells} (hkept : e.cells.Kept e.program e.depthCapacity e.patternCapacity c) :
    e.Reworked (e.withCells c) :=
  ⟨c.meter, c.values, c.table, c.states, e.delayed, e.delayedSelected, rfl,
    hkept.fits.values.trans h.values.symm, hkept.fits.table.trans h.table.symm,
    hkept.fits.states.trans h.states.symm⟩

theorem decide_scope_meets (hp : e.program.Accepted) (hlevel : e.program.level = .s1)
    (hfits : e.cells.Fits e.program e.depthCapacity e.patternCapacity) :
    Meets e.decideScope (Reports True) fun x => e.Reworked x.1 := by
  unfold Exec.decideScope
  refine (s1_decide_meets hp hlevel hfits e.delayedSelected).bind (fun _ h => h) fun x hkept => ?_
  obtain ⟨c, matched⟩ := x
  exact ⟨c.meter, c.values, c.table, c.states, e.delayed, false, rfl,
    hkept.fits.values.trans hfits.values.symm, hkept.fits.table.trans hfits.table.symm,
    hkept.fits.states.trans hfits.states.symm⟩

/-- The scope engine stays in range at every event. -/
theorem s1_feed_meets (h : e.Framed) (hr : e.retained = false) (hlevel : e.program.level = .s1) :
    Meets (e.s1Feed event) (Reports True) fun x => e.Reworked x.1 := by
  have hp := h.sized.accepted
  have hfits := h.cells hr
  unfold Exec.s1Feed
  split
  · exact bare_failure_meets
  split
  · split
    · exact decide_scope_meets hp hlevel hfits
    · exact .refl e
  · split
    · refine (scope_start_meets hp hlevel hfits).bind (fun _ h => h) fun x hkept => ?_
      obtain ⟨c, selected⟩ := x
      have hstarted : e.Reworked
          { e.withCells c with delayedSelected := selected, delayed := event } :=
        ⟨c.meter, c.values, c.table, c.states, event, selected, rfl,
          hkept.fits.values.trans hfits.values.symm, hkept.fits.table.trans hfits.table.symm,
          hkept.fits.states.trans hfits.states.symm⟩
      show Meets (if event.kind = .element then _ else _) _ _
      split
      · have hdecided := @decide_scope_meets
          { e.withCells c with delayedSelected := selected, delayed := event } hp hlevel hkept.fits
        exact hdecided.mono (fun _ h => h) fun x hx => hstarted.trans hx
      · exact hstarted
    · split
      · refine (scope_collect_meets hp hlevel hfits).bind (fun _ h => h) fun c hkept => ?_
        exact with_cells_reworked hfits hkept
      · exact .refl e

/-- The engine of a published node stays in range. -/
theorem engine_feed_meets (h : e.Framed) (hdepth : event.depth < e.depthCapacity) :
    Meets (e.engineFeed event) (Reports True) fun x => e.Reworked x.1 := by
  unfold Exec.engineFeed
  split
  · exact .refl e
  · rename_i hr
    have hr : e.retained = false := by simpa using hr
    split
    · rename_i hlevel
      exact s1_feed_meets h hr hlevel
    · have hfits := h.cells hr
      refine (evaluate_meets h.view hfits rfl hdepth).bind (fun _ h => h) fun x hkept => ?_
      exact with_cells_reworked hfits hkept

theorem discard_values_meets (h : e.Framed) :
    Meets e.discardValues (Reports True) fun e' => e.Reworked e' := by
  obtain ⟨values, hclear, hsize, -⟩ := clear_values_eq h.sized.values
  unfold Exec.discardValues
  split
  · rw [hclear]
    exact ⟨e.meter, values, e.table, e.states, e.delayed, e.delayedSelected, rfl,
      hsize.trans h.sized.values.symm, rfl, rfl⟩
  · exact .refl e

theorem scope_end_meets (h : e.Framed) :
    Meets (e.scopeEnd event) (Reports True) fun x => e.Reworked x.1 := by
  unfold Exec.scopeEnd
  split
  · rename_i hscope
    exact s1_feed_meets h hscope.1 hscope.2
  · exact .refl e

end Engines

section Depths

/-- The marks of a row lie in the state area. -/
theorem prune_decision_meets (h : e.Framed) {depth : Nat} (hdepth : depth < e.depthCapacity) :
    Meets (e.pruneDecision depth) (Reports True) fun _ => True := by
  unfold Exec.pruneDecision
  split
  · unfold canPrune
    split
    · trivial
    · rename_i hpruning
      have hr : e.retained = false := by
        by_contra hretained
        have hretaining := h.retaining (by simpa using hretained)
        exact hpruning (.inl hretaining.pruning)
      have hread : ∀ i ∈ List.range e.program.count,
          Meets (checked (e.states.read (depth * e.program.count + i))) (Reports True)
            fun _ => True := by
        intro i hi
        have hrow := row_lt hdepth (List.mem_range.mp hi)
        rw [Area.read_of_lt (by rw [(h.streaming hr).states]; exact hrow)]
        trivial
      refine (Meets.mapM _ hread).bind (fun _ h => h) fun marks _ => ?_
      trivial
  · trivial

/-- The sibling index of a new depth starts at zero. -/
def freshDepth (e : Exec) : Area Nat :=
  if e.opened < e.depthCapacity then e.indexes.put e.opened 0 else e.indexes

/-- A depth is entered within the areas of indexes and states. -/
theorem enter_depth_meets (h : e.Framed) :
    Meets e.enterDepth (Reports True) fun e' =>
      ∃ states : Area Mark, states.size = e.states.size ∧
        e' = { e with indexes := freshDepth e, states := states } := by
  unfold Exec.enterDepth
  split
  · rename_i hopened
    rw [show freshDepth e = e.indexes.put e.opened 0 from if_pos hopened]
    rw [Area.write_of_lt _ (by rw [h.sized.indexes]; exact hopened)]
    show Meets (if e.retained = true then _ else _) _ _
    split
    · exact ⟨e.states, rfl, rfl⟩
    · rename_i hr
      have hstates := (h.streaming (by simpa using hr)).states
      have hrow : e.opened * e.program.count + e.program.count ≤ e.states.size := by
        have hnext : (e.opened + 1) * e.program.count ≤ e.depthCapacity * e.program.count :=
          Nat.mul_le_mul_right _ hopened
        rw [Nat.add_mul, Nat.one_mul] at hnext
        rw [hstates]
        exact hnext
      rw [if_pos hrow]
      refine ⟨_, ?_, rfl⟩
      rfl
  · rename_i hfull
    rw [show freshDepth e = e.indexes from if_neg hfull]
    exact ⟨e.states, rfl, rfl⟩

end Depths

section Nodes

/-- What publishing a node does to the progress of an execution. -/
structure Exec.Counted (e : Exec) (event : TreeEvent) (e' : Exec) : Prop where
  retained : e'.retained = e.retained
  nodeCapacity : e'.nodeCapacity = e.nodeCapacity
  nodes : e'.nodes = e.nodes
  openNodes : e'.openNodes = e.openNodes
  elements : e'.elements = e.elements + 1
  opened : e'.opened = e.opened + if event.kind = .begin then 1 else 0
  indexes : ∀ i ≤ event.depth,
    e'.indexes.cell i = (e.indexes.put event.depth (e.indexes.cell event.depth + 1)).cell i
  leaf : event.kind ≠ .begin →
    e'.indexes = e.indexes.put event.depth (e.indexes.cell event.depth + 1)
  fresh : event.kind = .begin → event.depth + 1 < e'.indexes.size →
    e'.indexes.cell (event.depth + 1) = 0

/-- The start context is followed. -/
theorem track_context_eq :
    ∃ found active depth,
      e.trackContext event =
        { e with contextFound := found, contextDepth := depth, contextActive := active } ∧
      (found = true → e.contextFound = true ∨ e.context = some (e.elements - 1)) := by
  unfold Exec.trackContext
  split
  · rename_i hcontext
    exact ⟨true, _, _, rfl, fun _ => .inr hcontext⟩
  · exact ⟨e.contextFound, e.contextActive, e.contextDepth, rfl, .inl⟩

/-- The depth below a node is entered when its event opens one. -/
theorem enter_meets (h : e.Framed) (hdepth : event.depth < e.depthCapacity)
    (hopened : event.depth = e.opened) :
    Meets (e.enter event) (Reports True) fun e' =>
      e'.Framed ∧ e'.retained = e.retained ∧ e'.nodeCapacity = e.nodeCapacity ∧
        e'.nodes = e.nodes ∧ e'.openNodes = e.openNodes ∧ e'.elements = e.elements ∧
        e'.opened = e.opened + (if event.kind = .begin then 1 else 0) ∧
        (∀ i ≤ event.depth, e'.indexes.cell i = e.indexes.cell i) ∧
        (event.kind ≠ .begin → e'.indexes = e.indexes) ∧
        (event.kind = .begin → event.depth + 1 < e'.indexes.size →
          e'.indexes.cell (event.depth + 1) = 0) := by
  unfold Exec.enter
  split
  · rename_i hbegin
    refine (prune_decision_meets h hdepth).bind (fun _ h => h) fun allowed _ => ?_
    have hentered : Exec.Framed
        { e with pruneAllowed := allowed, pruneDepth := event.depth, opened := e.opened + 1 } :=
      (h.marked e.pruned event.depth allowed e.contextActive e.publishedMatch
        e.anyMatch).atDepth (by show e.opened + 1 ≤ e.depthCapacity; omega)
    refine (enter_depth_meets hentered).mono (fun _ h => h) fun e' he' => ?_
    obtain ⟨states, hstates, rfl⟩ := he'
    have hsize : (freshDepth { e with
        pruneAllowed := allowed, pruneDepth := event.depth, opened := e.opened + 1 }).size =
        e.indexes.size := by
      unfold freshDepth
      split <;> rfl
    refine ⟨hentered.indexed hsize hstates, rfl, rfl, rfl, rfl, rfl, rfl, fun i hi => ?_,
      fun hne => absurd hbegin hne, fun _ hlt => ?_⟩
    · unfold freshDepth
      split
      · exact Area.put_cell_of_ne _ _ (by show i ≠ e.opened + 1; omega)
      · rfl
    · have hin : e.opened + 1 < e.depthCapacity := by
        have := h.sized.indexes
        dsimp only at hlt
        omega
      unfold freshDepth
      rw [if_pos hin, hopened]
      exact Area.put_cell_self _ _ _
  · rename_i hbegin
    exact ⟨h, rfl, rfl, rfl, rfl, rfl, rfl, fun _ _ => rfl, fun _ => rfl,
      fun hb => absurd hb hbegin⟩

/-- A published node is counted, whichever engine runs. -/
theorem feed_node_meets (h : e.Framed) (hcomplete : e.Complete)
    (hopened : event.depth = e.opened) :
    Meets (e.feedNode event) (Reports True) fun x => x.1.Framed ∧ e.Counted event x.1 := by
  unfold Exec.feedNode
  split
  · exact query_limit_meets.mpr trivial
  split
  · exact query_limit_meets.mpr trivial
  rename_i hdepth hmax
  have hdepth : event.depth < e.depthCapacity := by omega
  obtain ⟨found, active, depth, htrack, hfound⟩ :=
    @track_context_eq { e with pruneAllowed := false, elements := e.elements + 1 } event
  dsimp only at htrack hfound ⊢
  rw [htrack]
  have hcounted : Exec.Framed
      { e with pruneAllowed := false, elements := e.elements + 1, contextFound := found,
               contextDepth := depth, contextActive := active } := by
    refine (h.marked e.pruned e.pruneDepth false active e.publishedMatch e.anyMatch).counted
      hcomplete (fun hr => ?_) hfound depth
    have hretaining := h.retaining hr
    have := hretaining.room
    have := hretaining.elements
    show e.elements < e.nodeCapacity
    omega
  refine (engine_feed_meets hcounted hdepth).bind (fun _ h => h) fun x hengine => ?_
  obtain ⟨e₂, matched⟩ := x
  have hengined := hengine.framed hcounted
  refine (discard_values_meets hengined).bind (fun _ h => h) fun e₃ hdiscarded => ?_
  have hdiscard := hdiscarded.framed hengined
  obtain ⟨meter, values, table, states, delayed, selected, rfl, -, -, -⟩ :=
    hengine.trans hdiscarded
  dsimp only at hdiscard ⊢
  have hin : event.depth < e.indexes.size := by
    rw [h.sized.indexes]
    exact hdepth
  rw [Area.read_of_lt hin, checked_some]
  show Meets (checked (e.indexes.write event.depth (e.indexes.cell event.depth + 1)) >>= _) _ _
  rw [Area.write_of_lt _ hin, checked_some]
  have hindexed : Exec.Framed
      { e with pruneAllowed := false, elements := e.elements + 1, contextFound := found,
               contextDepth := depth, contextActive := active, meter := meter, values := values,
               table := table, states := states, delayed := delayed, delayedSelected := selected,
               indexes := e.indexes.put event.depth (e.indexes.cell event.depth + 1) } :=
    hdiscard.indexed rfl rfl
  refine (enter_meets hindexed hdepth hopened).bind (fun _ h => h) fun e₅ hentered => ?_
  obtain ⟨hframed, hretained, hcapacity, hnodes, hopenNodes, helements, hnowOpened, hkept, hleaf,
    hfresh⟩ := hentered
  exact ⟨hframed, hretained, hcapacity, hnodes, hopenNodes, helements, hnowOpened, hkept, hleaf,
    hfresh⟩

end Nodes

end OpenTlv.Query
