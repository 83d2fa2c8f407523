import OpenTlv.Writer.Measure
import OpenTlv.Writer.TreeEncoding

/-!
# Nodes in preorder stand for a balanced stream of events

A source of nodes is completed by ends of elements, one node of look-ahead at a time. The nodes of
a forest are completed to the events of the forest, and other sequences of nodes to no stream at
all: the source fails at the first node that lies too deep.
-/

namespace OpenTlv

variable {σ α : Type}

/-- A source supplies some items and then fails, or ends. -/
inductive Yields (next : σ → Except Status α × σ) : σ → List α → Status → Prop where
  | last {source source' : σ} {status : Status} :
      next source = (.error status, source') → Yields next source [] status
  | item {source source' : σ} {item : α} {rest : List α} {status : Status} :
      next source = (.ok item, source') → Yields next source' rest status →
      Yields next source (item :: rest) status

/-- The loop over events that are there as a list. -/
def measureList (encoder : Encoder) (status : Status) : List WriteEvent → Measuring →
    Except Status Unit × Measuring
  | [], s =>
    if endableStatus status = .atEnd then (.ok (), s) else (.error (endableStatus status), s)
  | event :: rest, s =>
    match (measureEvent encoder event).exec s with
    | (.error status, s) => (.error status, s)
    | (.ok (), s) => measureList encoder status rest s

/-- The loop ends with its source, whatever the source is. -/
theorem measure_loop_eq {encoder : Encoder} {next : σ → Except Status WriteEvent × σ} {source : σ}
    {events : List WriteEvent} {status : Status} (h : Yields next source events status)
    {fuel : Nat} (hfuel : events.length < fuel) (s : Measuring) :
    measureLoop encoder next fuel source s = some (measureList encoder status events s) := by
  induction h generalizing fuel s with
  | last hlast =>
    obtain ⟨fuel, rfl⟩ : ∃ less, fuel = less + 1 := ⟨fuel - 1, by omega⟩
    unfold measureLoop measureList
    rw [hlast]
    dsimp only
    split <;> rfl
  | @item source source' event rest status hitem _ ih =>
    obtain ⟨fuel, rfl⟩ : ∃ less, fuel = less + 1 := ⟨fuel - 1, by omega⟩
    unfold measureLoop measureList
    rw [hitem]
    dsimp only
    rw [List.length_cons] at hfuel
    cases hran : (measureEvent encoder event).exec s with
    | mk result after =>
      cases result with
      | error status => rfl
      | ok done => exact ih (by omega) _

/-- An end is known by its depth. -/
structure SameEvent (event other : WriteEvent) : Prop where
  kind : event.kind = other.kind
  depth : event.depth = other.depth
  skipped : event.skipped = other.skipped
  payload : event.kind ≠ .ending →
    event.element = other.element ∧ event.tagPresent = other.tagPresent

theorem SameEvent.refl (event : WriteEvent) : SameEvent event event :=
  ⟨rfl, rfl, rfl, fun _ => ⟨rfl, rfl⟩⟩

theorem SameEvent.measure {event other : WriteEvent} (h : SameEvent event other)
    (encoder : Encoder) : measureEvent encoder event = measureEvent encoder other := by
  obtain ⟨kind, element, present, depth, skipped⟩ := event
  obtain ⟨kind', element', present', depth', skipped'⟩ := other
  obtain ⟨hkind, hdepth, hskipped, hpayload⟩ := h
  dsimp only at hkind hdepth hskipped hpayload
  subst hkind hdepth hskipped
  by_cases hending : kind = .ending
  · subst hending
    rfl
  · obtain ⟨rfl, rfl⟩ := hpayload hending
    rfl

/-- Two streams that differ in the payloads of their ends are measured alike. -/
theorem measure_list_congr {encoder : Encoder} {status : Status} {events others : List WriteEvent}
    (h : List.Forall₂ SameEvent events others) (s : Measuring) :
    measureList encoder status events s = measureList encoder status others s := by
  induction h generalizing s with
  | nil => rfl
  | cons hsame _ ih =>
    unfold measureList
    rw [hsame.measure]
    split
    · rfl
    · exact ih _

theorem measure_list_failed {encoder : Encoder} {status : Status}
    (hstatus : endableStatus status ≠ .atEnd) (events : List WriteEvent) (s : Measuring) :
    ∃ failure after, measureList encoder status events s = (.error failure, after) := by
  induction events generalizing s with
  | nil => exact ⟨endableStatus status, s, if_neg hstatus⟩
  | cons event rest ih =>
    unfold measureList
    split
    next failure after hran => exact ⟨failure, after, rfl⟩
    next after hran => exact ih after

/-! ## Completed streams -/

/-- The ends of `count` open elements, the outermost of which lies at a depth. -/
def closings (depth : Nat) : Nat → List WriteEvent
  | 0 => []
  | count + 1 => closingEvent (depth + count) :: closings depth count

/-- What a source of nodes is completed to while some elements are open, and how it ends. -/
def completed : Nat → List PreorderItem → List WriteEvent × Status
  | opened, [] => (closings 0 opened, .atEnd)
  | opened, item :: rest =>
    if item.depth > opened then ([], .callback)
    else
      let after := completed (if item.constructed then item.depth + 1 else item.depth) rest
      (closings item.depth (opened - item.depth) ++ item.event :: after.1, after.2)

variable {next : σ → Except Status PreorderItem × σ}

/-- At the end of the nodes the open elements are closed. -/
theorem preorder_done_yields (source : PreorderSource σ) (hdone : source.done = true) :
    Yields (preorderEvent next) source (closings 0 source.opened) .atEnd := by
  obtain ⟨context, pending, opened, available, done⟩ := source
  dsimp only at hdone ⊢
  subst hdone
  have hfetch : ∀ opened, preorderFetch next ⟨context, pending, opened, available, true⟩ =
      (.ok (), ⟨context, pending, opened, available, true⟩) := fun opened =>
    if_neg (by simp)
  induction opened with
  | zero =>
    have hstep : preorderEvent next ⟨context, pending, 0, available, true⟩ =
        (.error .atEnd, ⟨context, pending, 0, available, true⟩) := by
      unfold preorderEvent
      rw [hfetch]
      rfl
    exact .last hstep
  | succ opened ih =>
    refine .item ?_ ih
    unfold preorderEvent
    rw [hfetch]
    dsimp only
    rw [if_pos ⟨Nat.succ_ne_zero opened, .inl rfl⟩, Nat.zero_add, Nat.add_sub_cancel]

/-- Before a node that was taken in advance, the elements that it is not inside are closed. -/
theorem preorder_pending_yields {context : σ} {pending : WriteEvent} {count : Nat}
    {events : List WriteEvent} {status : Status}
    (hrest : Yields (preorderEvent next) ⟨context, pending,
      if pending.kind = .begin then pending.depth + 1 else pending.depth, false, false⟩
      events status) :
    Yields (preorderEvent next) ⟨context, pending, pending.depth + count, true, false⟩
      (closings pending.depth count ++ pending :: events) status := by
  have hfetch : ∀ opened, preorderFetch next ⟨context, pending, opened, true, false⟩ =
      (.ok (), ⟨context, pending, opened, true, false⟩) := fun opened =>
    if_neg (by simp)
  induction count with
  | zero =>
    refine .item ?_ hrest
    unfold preorderEvent
    rw [hfetch]
    dsimp only
    rw [if_neg (by simp), if_neg Bool.false_ne_true]
    rfl
  | succ count ih =>
    refine .item ?_ ih
    unfold preorderEvent
    rw [hfetch]
    dsimp only
    rw [if_pos ⟨by omega, .inr (by omega)⟩]
    rfl

theorem Yields.congr {next : σ → Except Status α × σ} {source other : σ} {items : List α}
    {status : Status} (h : Yields next source items status) (hsame : next other = next source) :
    Yields next other items status := by
  cases h with
  | last hlast => exact .last (hsame.trans hlast)
  | item hitem hrest => exact .item (hsame.trans hitem) hrest

/-- A pull that had to fetch goes on as if it had not. -/
theorem preorder_event_fetched {source fetched : PreorderSource σ}
    (hfetch : preorderFetch next source = (.ok (), fetched))
    (hready : fetched.available = true ∨ fetched.done = true) :
    preorderEvent next source = preorderEvent next fetched := by
  have hagain : preorderFetch next fetched = (.ok (), fetched) := if_neg (by
    rcases hready with h | h <;> simp [h])
  unfold preorderEvent
  rw [hfetch, hagain]

/-- The adapter completes what its source supplies. -/
theorem preorder_yields {context : σ} {items : List PreorderItem}
    (h : Yields next context items .atEnd) (pending : WriteEvent) (opened : Nat) :
    Yields (preorderEvent next) ⟨context, pending, opened, false, false⟩
      (completed opened items).1 (completed opened items).2 := by
  generalize hstatus : Status.atEnd = status at h
  induction h generalizing pending opened with
  | @last context context' status hlast =>
    subst hstatus
    have hfetch : preorderFetch next ⟨context, pending, opened, false, false⟩ =
        (.ok (), ⟨context', pending, opened, false, true⟩) := by
      unfold preorderFetch
      rw [if_pos ⟨rfl, rfl⟩, hlast]
      rfl
    exact (preorder_done_yields ⟨context', pending, opened, false, true⟩ rfl).congr
      (preorder_event_fetched hfetch (.inr rfl))
  | @item context context' item rest status hitem _ ih =>
    unfold completed
    by_cases hdeep : item.depth > opened
    · rw [if_pos hdeep]
      have hstep : preorderEvent next ⟨context, pending, opened, false, false⟩ =
          (.error .callback, ⟨context', { item.event with kind := pending.kind }, opened,
            false, false⟩) := by
        unfold preorderEvent preorderFetch
        rw [if_pos ⟨rfl, rfl⟩, hitem]
        dsimp only
        rw [if_pos hdeep]
      exact .last hstep
    · rw [if_neg hdeep]
      have hfetch : preorderFetch next ⟨context, pending, opened, false, false⟩ =
          (.ok (), ⟨context', item.event, opened, true, false⟩) := by
        unfold preorderFetch
        rw [if_pos ⟨rfl, rfl⟩, hitem]
        dsimp only
        rw [if_neg hdeep]
      have hrest := ih item.event (if item.constructed then item.depth + 1 else item.depth)
        hstatus
      have hopened : (if item.event.kind = .begin then item.event.depth + 1
          else item.event.depth) =
          if item.constructed = true then item.depth + 1 else item.depth := by
        unfold PreorderItem.event
        cases item.constructed <;> rfl
      rw [← hopened] at hrest
      have hyields := @preorder_pending_yields σ next _ _ (opened - item.depth) _ _ hrest
      have hcount : item.event.depth + (opened - item.depth) = opened := by
        show item.depth + (opened - item.depth) = opened
        omega
      rw [hcount, hopened] at hyields
      exact hyields.congr (preorder_event_fetched hfetch (.inl rfl))

/-! ## Forests -/

/-- A node as it is presented: its element, and whether the pointer to the tag is there. -/
structure PresentedNode where
  element : Element
  tagPresent : Bool := true

/-- The nodes of a forest in preorder, with their depths. -/
def Forest.preorder (depth : Nat) : Forest PresentedNode → List PreorderItem
  | .nil => []
  | .leaf node rest => ⟨node.element, node.tagPresent, depth, false⟩ :: rest.preorder depth
  | .branch node kids _ rest =>
    ⟨node.element, node.tagPresent, depth, true⟩ ::
      (kids.preorder (depth + 1) ++ rest.preorder depth)

/-- The balanced stream of events of a forest. An end carries what closes its branch. -/
def Forest.events (depth : Nat) : Forest PresentedNode → List WriteEvent
  | .nil => []
  | .leaf node rest =>
    { kind := .element, element := node.element, tagPresent := node.tagPresent
      depth := depth } :: rest.events depth
  | .branch node kids close rest =>
    { kind := .begin, element := node.element, tagPresent := node.tagPresent
      depth := depth } ::
      (kids.events (depth + 1) ++
        { kind := .ending, element := close.element, tagPresent := close.tagPresent
          depth := depth } :: rest.events depth)

/-- The next node of a sequence lies no deeper than a depth. -/
def Shallow (depth : Nat) : List PreorderItem → Prop
  | [] => True
  | item :: _ => item.depth ≤ depth

/-- Behind the children of an element, it is closed. -/
theorem completed_close {depth : Nat} {items : List PreorderItem} (h : Shallow depth items) :
    completed (depth + 1) items =
      (closingEvent depth :: (completed depth items).1, (completed depth items).2) := by
  cases items with
  | nil =>
    show (closings 0 (depth + 1), Status.atEnd) = _
    unfold closings
    rw [Nat.zero_add]
    rfl
  | cons item rest =>
    have hle : item.depth ≤ depth := h
    rw [completed, completed, if_neg (by omega : ¬ item.depth > depth + 1),
      if_neg (by omega : ¬ item.depth > depth),
      show depth + 1 - item.depth = (depth - item.depth) + 1 by omega, closings,
      show item.depth + (depth - item.depth) = depth by omega]
    rfl

theorem shallow_preorder {depth : Nat} {items : List PreorderItem} (h : Shallow depth items)
    (forest : Forest PresentedNode) : Shallow depth (forest.preorder depth ++ items) := by
  cases forest with
  | nil => exact h
  | leaf node rest => exact le_refl depth
  | branch node kids close rest => exact le_refl depth

/-- The nodes of a forest are completed to its events. -/
theorem completed_forest (forest : Forest PresentedNode) {depth : Nat} {items : List PreorderItem}
    (h : Shallow depth items) :
    ∃ events, List.Forall₂ SameEvent events (forest.events depth) ∧
      completed depth (forest.preorder depth ++ items) =
        (events ++ (completed depth items).1, (completed depth items).2) := by
  induction forest generalizing depth items with
  | nil => exact ⟨[], .nil, rfl⟩
  | leaf node rest ih =>
    obtain ⟨events, hsame, hrest⟩ := ih h
    refine ⟨_ :: events, .cons (.refl _) hsame, ?_⟩
    unfold Forest.preorder
    rw [List.cons_append, completed, if_neg (Nat.lt_irrefl depth), if_neg Bool.false_ne_true]
    dsimp only
    rw [hrest, Nat.sub_self]
    rfl
  | branch node kids close rest ihKids ihRest =>
    obtain ⟨siblings, hsiblings, hrest⟩ := ihRest h
    have hshallow := shallow_preorder h rest
    obtain ⟨inside, hinside, hkids⟩ :=
      @ihKids (depth + 1) (rest.preorder depth ++ items) (by
        revert hshallow
        cases rest.preorder depth ++ items with
        | nil => exact fun _ => trivial
        | cons item others => exact fun hle => Nat.le_succ_of_le hle)
    rw [completed_close hshallow, hrest] at hkids
    refine ⟨_ :: (inside ++ closingEvent depth :: siblings),
      .cons (.refl _) (List.rel_append hinside (.cons ⟨rfl, rfl, rfl, fun h => absurd rfl h⟩
        hsiblings)), ?_⟩
    unfold Forest.preorder
    rw [List.cons_append, List.append_assoc, completed, if_neg (Nat.lt_irrefl depth), if_pos rfl]
    dsimp only
    rw [hkids, Nat.sub_self, List.cons_append, List.append_assoc]
    rfl

/-- The nodes of one forest for each open element, the innermost first. -/
def levels (forests : Nat → Forest PresentedNode) : Nat → List PreorderItem
  | 0 => (forests 0).preorder 0
  | opened + 1 => (forests (opened + 1)).preorder (opened + 1) ++ levels forests opened

/-- The nodes behind those of the innermost open element. -/
def outerLevels (forests : Nat → Forest PresentedNode) : Nat → List PreorderItem
  | 0 => []
  | opened + 1 => levels forests opened

theorem levels_eq (forests : Nat → Forest PresentedNode) (opened : Nat) :
    levels forests opened = (forests opened).preorder opened ++ outerLevels forests opened := by
  cases opened with
  | zero => exact (List.append_nil _).symm
  | succ opened => rfl

theorem levels_congr {forests others : Nat → Forest PresentedNode} {opened : Nat}
    (h : ∀ depth ≤ opened, forests depth = others depth) :
    levels forests opened = levels others opened := by
  induction opened with
  | zero =>
    unfold levels
    rw [h 0 (le_refl 0)]
  | succ opened ih =>
    unfold levels
    rw [h _ (le_refl _), ih fun depth hle => h depth (by omega)]

/-- Another forest at a depth, and none further inside. -/
def replaceLevel (forests : Nat → Forest PresentedNode) (depth : Nat)
    (forest : Forest PresentedNode) (other : Nat) : Forest PresentedNode :=
  if other = depth then forest else if other < depth then forests other else .nil

theorem levels_replace (forests : Nat → Forest PresentedNode) {depth opened : Nat}
    (hle : depth ≤ opened) (forest : Forest PresentedNode) :
    levels (replaceLevel forests depth forest) opened =
      forest.preorder depth ++ outerLevels forests depth := by
  induction opened with
  | zero =>
    obtain rfl : depth = 0 := by omega
    exact (List.append_nil _).symm
  | succ opened ih =>
    by_cases hsame : depth = opened + 1
    · rw [hsame, levels_eq]
      have hhere : replaceLevel forests (opened + 1) forest (opened + 1) = forest := if_pos rfl
      rw [hhere]
      refine congrArg _ (levels_congr fun other hother => ?_)
      unfold replaceLevel
      rw [if_neg (by omega), if_pos (by omega)]
    · have hempty : replaceLevel forests depth forest (opened + 1) = .nil := by
        unfold replaceLevel
        rw [if_neg (by omega), if_neg (by omega)]
      rw [levels, hempty, ih (by omega)]
      rfl

/-- Nodes that the source accepts are those of a forest for each open element. -/
theorem completed_levels {items : List PreorderItem} {opened : Nat}
    (h : (completed opened items).2 = .atEnd) : ∃ forests, items = levels forests opened := by
  induction items generalizing opened with
  | nil =>
    refine ⟨replaceLevel (fun _ => .nil) 0 .nil, ?_⟩
    rw [levels_replace _ (Nat.zero_le opened)]
    rfl
  | cons item rest ih =>
    obtain ⟨element, present, depth, constructed⟩ := item
    unfold completed at h
    dsimp only at h
    split at h
    · cases h
    next hdeep =>
      cases constructed with
      | false =>
        obtain ⟨forests, rfl⟩ := ih h
        refine ⟨replaceLevel forests depth (.leaf ⟨element, present⟩ (forests depth)), ?_⟩
        rw [levels_replace _ (by omega), levels_eq]
        rfl
      | true =>
        obtain ⟨forests, rfl⟩ := ih h
        refine ⟨replaceLevel forests depth
          (.branch ⟨element, present⟩ (forests (depth + 1)) ⟨element, present⟩
            (forests depth)), ?_⟩
        rw [levels_replace _ (by omega), if_pos rfl, levels, levels_eq forests depth]
        show _ = (_ :: (_ ++ _)) ++ _
        rw [List.cons_append, List.append_assoc]

/-- A sequence of nodes is completed to its end exactly when it lists a forest. -/
theorem completed_iff {items : List PreorderItem} :
    (completed 0 items).2 = .atEnd ↔ ∃ forest : Forest PresentedNode,
      forest.preorder 0 = items := by
  constructor
  · intro h
    obtain ⟨forests, rfl⟩ := completed_levels h
    exact ⟨forests 0, rfl⟩
  · intro h
    obtain ⟨forest, rfl⟩ := h
    obtain ⟨events, -, hcompleted⟩ := @completed_forest forest 0 [] trivial
    rw [List.append_nil] at hcompleted
    rw [hcompleted]
    rfl

theorem completed_status (opened : Nat) (items : List PreorderItem) :
    (completed opened items).2 = .atEnd ∨ (completed opened items).2 = .callback := by
  induction items generalizing opened with
  | nil => exact .inl rfl
  | cons item rest ih =>
    unfold completed
    split
    · exact .inr rfl
    · exact ih _

theorem closings_length (depth count : Nat) : (closings depth count).length = count := by
  induction count with
  | zero => rfl
  | succ count ih =>
    unfold closings
    rw [List.length_cons, ih]

/-- There are at most two events for a node, besides the ends of what was open. -/
theorem completed_length (opened : Nat) (items : List PreorderItem) :
    (completed opened items).1.length ≤ 2 * items.length + opened := by
  induction items generalizing opened with
  | nil =>
    show (closings 0 opened).length ≤ _
    rw [closings_length]
    omega
  | cons item rest ih =>
    unfold completed
    split
    · exact Nat.zero_le _
    next hdeep =>
      have hrest := ih (if item.constructed then item.depth + 1 else item.depth)
      have hopened : (if item.constructed then item.depth + 1 else item.depth) ≤
          item.depth + 1 := by split <;> omega
      simp only [List.length_append, List.length_cons, closings_length]
      omega

/-! ## Measuring nodes -/

variable {τ : Type} {encoder : Encoder}

/-- A measurement over any source is one over the list of its events. -/
theorem measure_events_eq {next : τ → Except Status WriteEvent × τ} {source : τ}
    {events : List WriteEvent} {status : Status} (h : Yields next source events status)
    {fuel : Nat} (hfuel : events.length < fuel) (workspace : WriterWorkspace)
    (maxDepth maxElements : Nat) :
    treeWriterMeasureEvents encoder next fuel source workspace maxDepth maxElements =
      match treeWriterInit encoder workspace.data
          ⟨workspace.frameCapacity, maxDepth, maxElements⟩ workspace.scratch with
      | .error failure =>
        some (.error failure, { workspace with requiredData := 0, requiredScratch := 0 })
      | .ok writer => some (measureFinish (measureList encoder status events ⟨writer, 0, 0⟩)) := by
  unfold treeWriterMeasureEvents
  cases treeWriterInit encoder workspace.data
    ⟨workspace.frameCapacity, maxDepth, maxElements⟩ workspace.scratch with
  | error failure => rfl
  | ok writer =>
    dsimp only
    rw [measure_loop_eq h hfuel]
    rfl

/-- The nodes of a forest are measured as its balanced events are, with the same result, size and
workspace, and a sequence of nodes that lists no forest is rejected. -/
theorem tree_writer_measure_exact {next : σ → Except Status PreorderItem × σ} {context : σ}
    {items : List PreorderItem} (h : Yields next context items .atEnd)
    (workspace : WriterWorkspace) (maxDepth maxElements : Nat) {fuel : Nat}
    (hfuel : 2 * items.length < fuel) :
    (∀ forest : Forest PresentedNode, forest.preorder 0 = items →
      ∀ {τ : Type} (nextEvent : τ → Except Status WriteEvent × τ) (source : τ),
        Yields nextEvent source (forest.events 0) .atEnd →
        treeWriterMeasure encoder next fuel context workspace maxDepth maxElements =
            treeWriterMeasureEvents encoder nextEvent fuel source workspace maxDepth
              maxElements ∧
          (treeWriterMeasure encoder next fuel context workspace maxDepth
            maxElements).isSome = true) ∧
    ((¬ ∃ forest : Forest PresentedNode, forest.preorder 0 = items) →
      ∃ status after, treeWriterMeasure encoder next fuel context workspace maxDepth maxElements =
        some (.error status, after)) := by
  have hlength := completed_length 0 items
  have hmeasure := @measure_events_eq _ encoder _ _ _ _
    (preorder_yields h (closingEvent 0) 0) fuel (by omega) workspace maxDepth maxElements
  constructor
  · intro forest hforest τ nextEvent source hsource
    subst hforest
    obtain ⟨events, hsame, hcompleted⟩ := @completed_forest forest 0 [] trivial
    rw [List.append_nil] at hcompleted
    have hevents : completed 0 (forest.preorder 0) = (events, .atEnd) := by
      rw [hcompleted]
      exact Prod.ext (List.append_nil _) rfl
    have hcount := hsame.length_eq
    rw [hevents] at hmeasure hlength
    dsimp only at hmeasure hlength
    unfold treeWriterMeasure
    rw [hmeasure, measure_events_eq hsource (by omega)]
    cases treeWriterInit encoder workspace.data
      ⟨workspace.frameCapacity, maxDepth, maxElements⟩ workspace.scratch with
    | error failure => exact ⟨rfl, rfl⟩
    | ok writer =>
      dsimp only
      rw [measure_list_congr hsame]
      exact ⟨rfl, rfl⟩
  · intro hnone
    have hcallback : (completed 0 items).2 = .callback :=
      (completed_status 0 items).resolve_left fun hend => hnone (completed_iff.mp hend)
    unfold treeWriterMeasure
    rw [hmeasure, hcallback]
    cases treeWriterInit encoder workspace.data
      ⟨workspace.frameCapacity, maxDepth, maxElements⟩ workspace.scratch with
    | error failure => exact ⟨failure, _, rfl⟩
    | ok writer =>
      obtain ⟨failure, after, hfailed⟩ := @measure_list_failed encoder .callback
        (show endableStatus .callback ≠ .atEnd by decide) (completed 0 items).1 ⟨writer, 0, 0⟩
      dsimp only
      rw [hfailed]
      exact ⟨failure, after.workspace, rfl⟩

/-- A source over a list. -/
def listNext : List α → Except Status α × List α
  | [] => (.error .atEnd, [])
  | item :: rest => (.ok item, rest)

theorem list_next_yields (items : List α) : Yields listNext items items .atEnd := by
  induction items with
  | nil => exact .last rfl
  | cons item rest ih => exact .item rfl ih

theorem sequence_tag_fits : ([0x30] : Bytes).length ≤ sizeMax := by decide

theorem integer_tag_fits : ([0x02] : Bytes).length ≤ sizeMax := by decide

theorem integer_value_fits : ([0x05] : Bytes).length ≤ sizeMax := by decide

/-- A SEQUENCE of one INTEGER and an empty SEQUENCE. -/
def sequenceForest : Forest PresentedNode :=
  .branch ⟨⟨[0x30], [], sequence_tag_fits, Nat.zero_le _⟩, true⟩
    (.leaf ⟨⟨[0x02], [0x05], integer_tag_fits, integer_value_fits⟩, true⟩
      (.branch ⟨⟨[0x30], [], sequence_tag_fits, Nat.zero_le _⟩, true⟩ .nil
        ⟨⟨[], [], Nat.zero_le _, Nat.zero_le _⟩, false⟩ .nil))
    ⟨⟨[], [], Nat.zero_le _, Nat.zero_le _⟩, false⟩ .nil

/-- Its three nodes are measured as its five events are. -/
theorem tree_writer_measure_exact_sequence :
    (treeWriterMeasure derEncoder listNext 7 (sequenceForest.preorder 0)
        ⟨2, List.replicate 8 0, List.replicate 8 0, 0, 0⟩ 2 8).map (·.1) = some (.ok 7) ∧
      treeWriterMeasure derEncoder listNext 7 (sequenceForest.preorder 0)
          ⟨2, List.replicate 8 0, List.replicate 8 0, 0, 0⟩ 2 8 =
        treeWriterMeasureEvents derEncoder listNext 7 (sequenceForest.events 0)
          ⟨2, List.replicate 8 0, List.replicate 8 0, 0, 0⟩ 2 8 :=
  ⟨by decide +kernel,
    ((tree_writer_measure_exact (list_next_yields (sequenceForest.preorder 0))
      ⟨2, List.replicate 8 0, List.replicate 8 0, 0, 0⟩ 2 8 (by decide)).1 sequenceForest rfl
        listNext (sequenceForest.events 0) (list_next_yields _)).1⟩

end OpenTlv
