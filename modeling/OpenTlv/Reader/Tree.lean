import OpenTlv.Lib.InPlace
import OpenTlv.Reader.Reader

/-!
# The tree reader

The iterative preorder cursor of `reader/tree.c`. It publishes an element when its whole encoding
is in the window and enters the value of a constructed one on the next pull. Entered values are
kept as frames of absolute offsets, the innermost first, so that a window can move while frames
are open. A pull that fails changes nothing.
-/

namespace OpenTlv

/-- `tlv_tree_frame_t`. -/
structure TreeFrame where
  ending : Nat := 0
  resume : Nat := 0
  deriving Repr, DecidableEq

/-- `tlv_tree_event_kind_t`. -/
inductive TreeEventKind where
  | begin
  | element
  | ending
  deriving Repr, DecidableEq

/-- `tlv_tree_event_t`. The element and its source come from one decode; an end has none. -/
structure TreeEvent where
  kind : TreeEventKind
  decoded : Decoded := {}
  depth : Nat
  offset : Nat
  skipped : Bool := false
  deriving Repr, DecidableEq

/-- `tlv_tree_reader_t`. The frames in use are a stack, so `depth` is its length. -/
structure TreeReader where
  input : Reader
  frames : List TreeFrame := []
  capacity : Nat
  maxDepth : Nat
  maxElements : Nat
  count : Nat := 0
  pending : TreeFrame := {}
  descendPending : Bool := false
  endPending : Bool := false
  skipped : Bool := false
  deriving Repr, DecidableEq

/-- The limits that a tree reader is initialized with. -/
structure TreeLimits where
  capacity : Nat
  maxDepth : Nat
  maxElements : Nat
  deriving Repr, DecidableEq

/-- A cursor before its first pull. -/
def TreeReader.start (limits : TreeLimits) (input : Reader) : TreeReader :=
  { input := input
    capacity := limits.capacity
    maxDepth := limits.maxDepth
    maxElements := limits.maxElements }

/-- `tlv_tree_reader_init`. -/
def treeReaderInit (format : Format) (limits : TreeLimits) (data : Bytes) :
    Except Status TreeReader :=
  (readerInit format data).map (TreeReader.start limits)

/-- `tlv_tree_reader_init_incremental`. -/
def treeReaderInitIncremental (format : Format) (limits : TreeLimits) (data : Bytes) :
    Except Status TreeReader :=
  (readerInitIncremental format data).map (TreeReader.start limits)

/-- `tlv_tree_reader_set_input`. -/
def treeReaderSetInput (format : Format) (reader : TreeReader) (data : Bytes) (discard : Nat)
    (finalInput : Bool) : Except Status TreeReader :=
  (readerSetInput format reader.input data discard finalInput).map fun input =>
    { reader with input := input }

/-- The end of a frame is published, and reading goes on behind its element. -/
def TreeReader.leave (reader : TreeReader) (frame : TreeFrame) : TreeReader :=
  { reader with input := { reader.input with pos := frame.resume - reader.input.baseOffset } }

/-- `close_event`. -/
def closeEvent (reader : TreeReader) : Option (TreeEvent × TreeReader) :=
  if reader.endPending then
    some ({ kind := .ending, depth := reader.frames.length, offset := reader.pending.ending,
            skipped := reader.skipped },
      { reader with endPending := false, skipped := false }.leave reader.pending)
  else if reader.descendPending then none
  else
    match reader.frames with
    | [] => none
    | frame :: outer =>
      if reader.input.offset = frame.ending then
        some ({ kind := .ending, depth := outer.length, offset := frame.ending },
          { reader with frames := outer }.leave frame)
      else none

/-- The window that the next element is read from: the innermost value that is entered. -/
def TreeReader.enclosing (reader : TreeReader) : Except Status (List TreeFrame × Reader) :=
  let narrow (frame : TreeFrame) : Reader :=
    { reader.input with
      size := frame.ending - reader.input.baseOffset
      finalInput := true }
  if reader.descendPending then
    if reader.frames.length = reader.maxDepth then .error .limit
    else if reader.frames.length = reader.capacity then .error .bufferTooShort
    else .ok (reader.pending :: reader.frames, narrow reader.pending)
  else
    match reader.frames with
    | [] => .ok ([], reader.input)
    | frame :: outer => .ok (frame :: outer, narrow frame)

/-- An element that was read is published. The value of a constructed one is read next. -/
def TreeReader.publish (reader : TreeReader) (frames : List TreeFrame) (constructed : Bool)
    (offset : Nat) (decoded : Decoded) (after : Reader) : TreeEvent × TreeReader :=
  let start := offset + decoded.source.value.offset
  let next : TreeReader :=
    { reader with
      frames := frames
      input := { reader.input with pos := after.pos }
      count := reader.count + 1
      descendPending := constructed && decoded.value.bytes.length ≠ 0
      endPending := constructed && decoded.value.bytes.length = 0 }
  ({ kind := if constructed then .begin else .element, decoded := decoded,
     depth := frames.length, offset := offset },
    if constructed then
      { next with
        pending := ⟨start + decoded.source.value.size, after.offset⟩
        input := { reader.input with pos := start - after.baseOffset } }
    else next)

/-- Whether the format classifies the element as constructed. -/
def Format.constructs (format : Format) (tag : Bytes) : Bool :=
  format.isConstructed.any fun isConstructed => isConstructed tag

/-- `tlv_tree_reader_next_event`. -/
def treeReaderNextEvent (format : Format) (reader : TreeReader) :
    Except Status (TreeEvent × TreeReader) :=
  match closeEvent reader with
  | some closed => .ok closed
  | none =>
    match reader.enclosing with
    | .error status => .error status
    | .ok (frames, input) =>
      if input.pos < input.size ∧ reader.count = reader.maxElements then .error .limit
      else
        match readerNext format input with
        | .error status => .error status
        | .ok (decoded, after) =>
          .ok (reader.publish frames (format.constructs decoded.tag.bytes) input.offset
            decoded after)

/-- `tlv_tree_reader_next_event_diag` in the order of its assignments: the reader is stored to
piece by piece, and a failure keeps what was stored before it. -/
def nextEventInPlace (format : Format) : InPlace Status TreeReader TreeEvent := do
  let reader ← get
  match closeEvent reader with
  | some (event, closed) => do
      set closed
      return event
  | none =>
    let (frames, input) ← InPlace.lift reader.enclosing
    if input.pos < input.size ∧ reader.count = reader.maxElements then throw .limit
    let (decoded, after) ← InPlace.lift (readerNext format input)
    let constructed := format.constructs decoded.tag.bytes
    if reader.descendPending then modify fun r => { r with frames := r.pending :: r.frames }
    modify fun r => { r with input := { r.input with pos := after.pos } }
    modify fun r => { r with count := r.count + 1 }
    modify fun r => { r with descendPending := constructed && decoded.value.bytes.length ≠ 0 }
    modify fun r => { r with endPending := constructed && decoded.value.bytes.length = 0 }
    let start := input.offset + decoded.source.value.offset
    if constructed then
      modify fun r => { r with pending := ⟨start + decoded.source.value.size, after.offset⟩ }
      modify fun r => { r with input := { r.input with pos := start - after.baseOffset } }
    return { kind := if constructed then .begin else .element, decoded := decoded,
             depth := frames.length, offset := input.offset }

/-- `tlv_tree_reader_skip_subtree` after a pull of an event. -/
def treeReaderSkipSubtree (reader : TreeReader) : Except Status TreeReader :=
  if reader.descendPending then
    .ok ({ reader with descendPending := false, endPending := true, skipped := true }.leave
      reader.pending)
  else .error .invalidState

/-- A bound on the pulls until the reader fails. -/
def TreeReader.remaining (reader : TreeReader) : Nat :=
  2 * (reader.maxElements - reader.count) + reader.frames.length +
    (if reader.descendPending then 1 else 0) + (if reader.endPending then 1 else 0)

end OpenTlv
