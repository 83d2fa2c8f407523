import OpenTlv.Lib.InPlace
import OpenTlv.Reader.Tree

/-!
# The tree writer

The cursor of `writer.c` and the bounded tree writer of `writer/tree.c`. Children are encoded
first; closing a parent copies its value to the scratch storage and encodes the parent over it.
An encoder that fails may leave anything in its destination, so the model of a writable format
says what it leaves. All operations store in place, and a failure keeps what was stored before it.
-/

namespace OpenTlv

/-- A format with the effect of its encoder on the destination. An encoder stores only inside the
destination, and what it leaves there when it fails is unspecified. -/
structure Encoder where
  format : Format
  leaves : Element → Bytes → Bytes
  leaves_length : ∀ element destination, (leaves element destination).length = destination.length
  stores_length : ∀ encode, format.encode = some encode →
    ∀ element destination stored used, encode element destination = .ok (stored, used) →
      stored.length = destination.length

/-- `tlv_format_encode` with the destination it leaves. -/
def Encoder.encode (encoder : Encoder) (element : Element) (destination : Bytes) :
    FormatResult Nat × Bytes :=
  match formatMeasure encoder.format element with
  | .error failure => (.error failure, destination)
  | .ok sizes =>
    match sizeToNative sizes.total with
    | .error status => (.error (status, {}), destination)
    | .ok total =>
      if destination.length < total then
        (.error (.bufferTooShort, { region := .value, hasOffset := true, hasRequired := true,
                                    required := sizes.total }), destination)
      else
        match encoder.format.encode with
        | none => (.error (.nullArg, {}), destination)
        | some encode =>
          match encode element destination with
          | .error (status, detail) =>
            (.error (callbackStatus status, detail), encoder.leaves element destination)
          | .ok (stored, used) =>
            if used ≠ total then (.error (.callback, {}), stored) else (.ok used, stored)

/-- `tlv_writer_t` without its format. The capacity is the length of the buffer. -/
structure Writer where
  buf : Bytes
  pos : Nat := 0
  deriving Repr, DecidableEq

/-- `tlv_writer_write_element_diag` with `writer_destination` and `writer_finish`. -/
def writerWriteElement (encoder : Encoder) (element : Element) : InPlace Status Writer Unit := do
  let writer ← get
  if writer.pos > writer.buf.length then throw .bufferTooShort
  let encoded := encoder.encode element (writer.buf.drop writer.pos)
  modify fun w => { w with buf := w.buf.take w.pos ++ encoded.2 }
  match encoded.1 with
  | .error (status, _) => throw status
  | .ok written => modify fun w => { w with pos := w.pos + written }

/-- `tlv_tag_t` as an argument: its octets, and whether the pointer to them is there. -/
structure TagView where
  bytes : Bytes
  present : Bool := true
  deriving Repr, DecidableEq

/-- The identifier of an open element: borrowed from the caller, or copied to the tag storage. -/
inductive HeldTag where
  | borrowed (tag : TagView)
  | stored (offset size : Nat)
  deriving Repr, DecidableEq

/-- `tlv_tree_writer_frame_t`. -/
structure WriterFrame where
  tag : HeldTag
  start : Nat
  deriving Repr, DecidableEq

/-- `tlv_tree_writer_t`. The frames in use are a stack, the innermost first. -/
structure TreeWriter where
  output : Writer
  frames : List WriterFrame := []
  capacity : Nat
  maxDepth : Nat
  maxElements : Nat
  count : Nat := 0
  scratch : Bytes
  tags : Option Bytes := none
  tagsUsed : Nat := 0
  deriving Repr, DecidableEq

/-- `tlv_tree_writer_init`. -/
def treeWriterInit (encoder : Encoder) (data : Bytes) (limits : TreeLimits) (scratch : Bytes) :
    Except Status TreeWriter :=
  if encoder.format.measure.isNone ∨ encoder.format.encode.isNone then .error .nullArg
  else
    .ok { output := { buf := data }
          capacity := limits.capacity
          maxDepth := limits.maxDepth
          maxElements := limits.maxElements
          scratch := scratch }

/-- `tlv_tree_writer_set_tag_storage`. -/
def treeWriterSetTagStorage (storage : Option Bytes) : InPlace Status TreeWriter Unit := do
  let writer ← get
  if writer.frames.length ≠ 0 then throw .invalidState
  modify fun w => { w with tags := storage }
  modify fun w => { w with tagsUsed := 0 }

/-- The octets of storage that an identifier takes; an empty one takes one. -/
def storedSize (size : Nat) : Nat :=
  if size ≠ 0 then size else 1

/-- The identifier is kept as it is, or copied to the tag storage. -/
def treeWriterHold (tag : TagView) : InPlace Status TreeWriter HeldTag := do
  let writer ← get
  match writer.tags with
  | none => return .borrowed tag
  | some storage =>
    if tag.present then
      if storedSize tag.bytes.length > storage.length - writer.tagsUsed then
        throw .bufferTooShort
      modify fun w => { w with tags := some (Octets.store storage writer.tagsUsed tag.bytes) }
      modify fun w => { w with tagsUsed := w.tagsUsed + storedSize tag.bytes.length }
      return .stored writer.tagsUsed tag.bytes.length
    else return .borrowed tag

/-- `tlv_tree_writer_begin_diag`. -/
def treeWriterBegin (encoder : Encoder) (tag : TagView) : InPlace Status TreeWriter Unit := do
  let writer ← get
  if tag.bytes.length ≠ 0 ∧ tag.present = false then throw .nullArg
  if writer.frames.length > writer.maxDepth ∨ writer.count ≥ writer.maxElements then throw .limit
  if writer.frames.length ≥ writer.capacity then throw .bufferTooShort
  if encoder.format.constructs tag.bytes = false then throw .invalidTag
  let held ← treeWriterHold tag
  modify fun w => { w with frames := ⟨held, w.output.pos⟩ :: w.frames }
  modify fun w => { w with count := w.count + 1 }

/-- The output cursor is used as a writer of its own. -/
def onOutput {α : Type} (op : InPlace Status Writer α) : InPlace Status TreeWriter α := do
  let writer ← get
  let ran := op.exec writer.output
  modify fun w => { w with output := ran.2 }
  InPlace.lift ran.1

/-- `tlv_tree_writer_write_element_diag`. -/
def treeWriterWriteElement (encoder : Encoder) (element : Element) :
    InPlace Status TreeWriter Unit := do
  let writer ← get
  if writer.frames.length > writer.maxDepth ∨ writer.count ≥ writer.maxElements then throw .limit
  onOutput (writerWriteElement encoder element)
  modify fun w => { w with count := w.count + 1 }

/-- The octets of a held identifier. -/
def HeldTag.octets (tags : Option Bytes) : HeldTag → Bytes
  | .borrowed tag => tag.bytes
  | .stored offset size => ((tags.getD []).drop offset).take size

/-- The octets of storage to give back when an element is closed. -/
def HeldTag.releases : HeldTag → Nat
  | .borrowed tag => if tag.present then storedSize tag.bytes.length else 0
  | .stored _ size => storedSize size

/-- The element that is encoded for a parent. No extent is beyond the 64-bit sizes. -/
def treeWriterParent (encoder : Encoder) (tag value : Bytes) : InPlace Status Writer Unit :=
  if h : tag.length ≤ sizeMax ∧ value.length ≤ sizeMax then
    writerWriteElement encoder ⟨tag, value, h.1, h.2⟩
  else throw .overflow

/-- `tlv_tree_writer_end_diag`. -/
def treeWriterEnd (encoder : Encoder) : InPlace Status TreeWriter Unit := do
  let writer ← get
  match writer.frames with
  | [] => throw .invalidState
  | frame :: outer =>
    let length := writer.output.pos - frame.start
    if length > writer.scratch.length then throw .bufferTooShort
    let accumulated := (writer.output.buf.drop frame.start).take length
    modify fun w => { w with scratch := Octets.store w.scratch 0 accumulated }
    let value := (← get).scratch.take length
    -- The cursor is copied, the buffer behind it is not.
    let ran := (treeWriterParent encoder (frame.tag.octets writer.tags) value).exec
      { writer.output with pos := frame.start }
    modify fun w => { w with output := { w.output with buf := ran.2.buf } }
    match ran.1 with
    | .error status =>
      modify fun w =>
        { w with output := { w.output with buf := Octets.store w.output.buf frame.start value } }
      throw status
    | .ok () =>
      modify fun w => { w with output := ran.2 }
      modify fun w => { w with frames := outer }
      if writer.tags.isSome then
        modify fun w => { w with tagsUsed := w.tagsUsed - frame.tag.releases }

/-- `tlv_tree_event_t` as an argument of the writer. -/
structure WriteEvent where
  kind : TreeEventKind
  element : Element
  tagPresent : Bool := true
  depth : Nat
  skipped : Bool := false

/-- `tlv_tree_writer_write_event_diag`. -/
def treeWriterWriteEvent (encoder : Encoder) (event : WriteEvent) :
    InPlace Status TreeWriter Unit := do
  let writer ← get
  let expected :=
    if event.kind = .ending then writer.frames.length ≠ 0 ∧ event.depth = writer.frames.length - 1
    else event.depth = writer.frames.length
  if event.skipped = true ∨ ¬ expected then throw .invalidValue
  match event.kind with
  | .begin => treeWriterBegin encoder ⟨event.element.tag, event.tagPresent⟩
  | .ending => treeWriterEnd encoder
  | .element => do
      if event.element.tag.length ≠ 0 ∧ event.tagPresent = false then throw .nullArg
      if encoder.format.constructs event.element.tag then throw .invalidTag
      treeWriterWriteElement encoder event.element

end OpenTlv
