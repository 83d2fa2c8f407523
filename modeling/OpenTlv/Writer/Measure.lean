import OpenTlv.Lib.Forest
import OpenTlv.Writer.Tree

/-!
# Measuring a tree before it is written

`tlv_tree_writer_measure_events` stages a stream of structural events in a workspace of the caller.
Before an element is stored or closed it checks its own storage; only this check sets a required
capacity. `tlv_tree_writer_measure` takes nodes without ends and completes them to such a stream,
with one node of look-ahead.
-/

namespace OpenTlv

/-- `tlv_tree_writer_workspace_t`. The capacities of both buffers are their lengths. -/
structure WriterWorkspace where
  frameCapacity : Nat := 0
  data : Bytes := []
  scratch : Bytes := []
  requiredData : Nat := 0
  requiredScratch : Nat := 0
  deriving Repr, DecidableEq

/-- A measurement under way: the writer on the workspace, and what the workspace lacks. -/
structure Measuring where
  writer : TreeWriter
  requiredData : Nat := 0
  requiredScratch : Nat := 0
  deriving Repr, DecidableEq

/-- `tlv_callback_result` with `allow_end = 1`. -/
def endableStatus : Status → Status
  | .needMoreData => .callback
  | status => status

/-- `tlv_element_encoded_size`. -/
def elementEncodedSize (format : Format) (element : Element) : Except Status Nat :=
  match formatMeasure format element with
  | .error (status, _) => .error status
  | .ok sizes => sizeToNative sizes.total

/-- `tlv_tree_writer_size`. -/
def treeWriterSize (writer : TreeWriter) : Nat :=
  match writer.frames.getLast? with
  | some frame => frame.start
  | none => writer.output.pos

/-- An operation of the writer during a measurement. -/
def onWriter {α : Type} (op : InPlace Status TreeWriter α) : InPlace Status Measuring α := do
  let s ← get
  let ran := op.exec s.writer
  modify fun s => { s with writer := ran.2 }
  InPlace.lift ran.1

/-- `measure_storage`. -/
def measureStorage (encoder : Encoder) (element : Element) (start : Nat) (closing : Bool) :
    InPlace Status Measuring Unit := do
  let encoded ← InPlace.lift (elementEncodedSize encoder.format element)
  if encoded > sizeMax - start then throw .overflow
  let writer := (← get).writer
  if start + encoded > writer.output.buf.length then
    modify fun s => { s with requiredData := start + encoded }
  if closing = true ∧ writer.output.pos - start > writer.scratch.length then
    modify fun s => { s with requiredScratch := writer.output.pos - start }
  let s ← get
  if ¬ (s.requiredData = 0 ∧ s.requiredScratch = 0) then throw .bufferTooShort

/-- `measure_close`. The value is what was staged since the element began; no extent is beyond the
64-bit sizes. -/
def measureClose (encoder : Encoder) : InPlace Status Measuring Unit := do
  let writer := (← get).writer
  match writer.frames with
  | [] => throw .invalidState
  | frame :: _ =>
    let tag := frame.tag.octets writer.tags
    let value := (writer.output.buf.drop frame.start).take (writer.output.pos - frame.start)
    if h : tag.length ≤ sizeMax ∧ value.length ≤ sizeMax then
      measureStorage encoder ⟨tag, value, h.1, h.2⟩ frame.start true
      onWriter (treeWriterEnd encoder)
    else throw .overflow

/-- The body of the loop of `tree_writer_measure_events_observed`, without an observer. -/
def measureEvent (encoder : Encoder) (event : WriteEvent) : InPlace Status Measuring Unit := do
  let writer := (← get).writer
  let expected :=
    if event.kind = .ending then writer.frames.length ≠ 0 ∧ event.depth = writer.frames.length - 1
    else event.depth = writer.frames.length
  if event.skipped = true ∨ ¬ expected then throw .invalidValue
  match event.kind with
  | .ending => measureClose encoder
  | .begin => onWriter (treeWriterWriteEvent encoder event)
  | .element => do
      if writer.frames.length > writer.maxDepth ∨ writer.count ≥ writer.maxElements then
        throw .limit
      if event.element.tag.length ≠ 0 ∧ event.tagPresent = false then throw .nullArg
      if encoder.format.constructs event.element.tag then throw .invalidTag
      measureStorage encoder event.element writer.output.pos false
      onWriter (treeWriterWriteEvent encoder event)

section Sources

variable {σ : Type}

/-- The loop of `tree_writer_measure_events_observed` over a source of events; `none` when the
fuel runs out. -/
def measureLoop (encoder : Encoder) (next : σ → Except Status WriteEvent × σ) :
    Nat → σ → Measuring → Option (Except Status Unit × Measuring)
  | 0, _, _ => none
  | fuel + 1, source, s =>
    match next source with
    | (.error status, _) =>
      if endableStatus status = .atEnd then some (.ok (), s)
      else some (.error (endableStatus status), s)
    | (.ok event, source) =>
      match (measureEvent encoder event).exec s with
      | (.error status, s) => some (.error status, s)
      | (.ok (), s) => measureLoop encoder next fuel source s

/-- What a measurement leaves in the workspace. -/
def Measuring.workspace (s : Measuring) : WriterWorkspace where
  frameCapacity := s.writer.capacity
  data := s.writer.output.buf
  scratch := s.writer.scratch
  requiredData := s.requiredData
  requiredScratch := s.requiredScratch

/-- The end of `tree_writer_measure_events_observed`: its result, the size and the workspace. -/
def measureFinish : Except Status Unit × Measuring → Except Status Nat × WriterWorkspace
  | (.error status, s) => (.error status, s.workspace)
  | (.ok (), s) =>
    if s.writer.frames.length ≠ 0 then (.error .invalidValue, s.workspace)
    else (.ok (treeWriterSize s.writer), s.workspace)

/-- `tlv_tree_writer_measure_events`. -/
def treeWriterMeasureEvents (encoder : Encoder) (next : σ → Except Status WriteEvent × σ)
    (fuel : Nat) (source : σ) (workspace : WriterWorkspace) (maxDepth maxElements : Nat) :
    Option (Except Status Nat × WriterWorkspace) :=
  match treeWriterInit encoder workspace.data ⟨workspace.frameCapacity, maxDepth, maxElements⟩
      workspace.scratch with
  | .error status =>
    some (.error status, { workspace with requiredData := 0, requiredScratch := 0 })
  | .ok writer => (measureLoop encoder next fuel source ⟨writer, 0, 0⟩).map measureFinish

/-- What `tlv_tree_writer_next_fn` supplies: a node in preorder. -/
structure PreorderItem where
  element : Element
  tagPresent : Bool := true
  depth : Nat
  constructed : Bool

/-- The event that a node begins or is. -/
def PreorderItem.event (item : PreorderItem) : WriteEvent where
  kind := if item.constructed then .begin else .element
  element := item.element
  tagPresent := item.tagPresent
  depth := item.depth

/-- An event without a payload that closes an element. -/
def closingEvent (depth : Nat) : WriteEvent where
  kind := .ending
  element := ⟨[], [], Nat.zero_le _, Nat.zero_le _⟩
  tagPresent := false
  depth := depth

/-- `preorder_source_t`. The pending event is there or not. -/
structure PreorderSource (σ : Type) where
  context : σ
  pending : WriteEvent := closingEvent 0
  opened : Nat := 0
  available : Bool := false
  done : Bool := false

/-- The first part of `preorder_event`: a node is taken in advance. -/
def preorderFetch (next : σ → Except Status PreorderItem × σ) (source : PreorderSource σ) :
    Except Status Unit × PreorderSource σ :=
  if source.available = false ∧ source.done = false then
    match next source.context with
    | (.error status, context) =>
      if endableStatus status = .atEnd then
        (.ok (), { source with context := context, done := true })
      else (.error (endableStatus status), { source with context := context })
    | (.ok item, context) =>
      if item.depth > source.opened then
        (.error .callback,
          { source with
            context := context
            pending := { item.event with kind := source.pending.kind } })
      else
        (.ok (), { source with context := context, pending := item.event, available := true })
  else (.ok (), source)

/-- `preorder_event`. -/
def preorderEvent (next : σ → Except Status PreorderItem × σ) (source : PreorderSource σ) :
    Except Status WriteEvent × PreorderSource σ :=
  match preorderFetch next source with
  | (.error status, source) => (.error status, source)
  | (.ok (), source) =>
    if source.opened ≠ 0 ∧ (source.done = true ∨ source.opened > source.pending.depth) then
      (.ok (closingEvent (source.opened - 1)), { source with opened := source.opened - 1 })
    else if source.done then (.error .atEnd, source)
    else
      (.ok source.pending,
        { source with
          available := false
          opened := if source.pending.kind = .begin then source.opened + 1
            else source.opened })

/-- `tlv_tree_writer_measure`. -/
def treeWriterMeasure (encoder : Encoder) (next : σ → Except Status PreorderItem × σ) (fuel : Nat)
    (context : σ) (workspace : WriterWorkspace) (maxDepth maxElements : Nat) :
    Option (Except Status Nat × WriterWorkspace) :=
  treeWriterMeasureEvents encoder (preorderEvent next) fuel { context := context } workspace
    maxDepth maxElements

end Sources

end OpenTlv
