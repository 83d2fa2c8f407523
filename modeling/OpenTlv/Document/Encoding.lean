import OpenTlv.Document.Editing
import OpenTlv.Writer.Staging

/-!
# Encoding a document

The first half of `document/writer.c`: the walk that presents a document to the tree writer, and
the loop that measures, grows the workspace and starts again. A loop ends with the recursive
encoding of the nodes, whatever the workspace held before.
-/

namespace OpenTlv

/-- `document_source_t`. -/
structure DocumentSource where
  next : Option Place
  depth : Nat := 0
  single : Bool
  closing : Bool := false
  deriving Repr, DecidableEq

/-- The element of a node. Its extents are of type `size_t`, so nothing is cut. -/
def NodeData.element (data : NodeData) : Element where
  tag := data.tag.take sizeMax
  value := data.value.take sizeMax
  tag_le := by
    rw [List.length_take]
    exact Nat.min_le_left _ _
  value_le := by
    rw [List.length_take]
    exact Nat.min_le_left _ _

/-- The end of `document_next`: the walk goes on behind a node. -/
def DocumentSource.leave (source : DocumentSource) (cell : LinkCell Place NodeData) :
    DocumentSource :=
  if source.depth = 0 ∧ source.single = true then { source with next := none, closing := false }
  else
    match cell.next with
    | some next => { source with next := some next, closing := false }
    | none =>
      if source.depth ≠ 0 then
        { source with next := cell.parent, depth := source.depth - 1, closing := true }
      else { source with next := none, closing := false }

/-- `document_next`. A document has no pointers to nowhere. -/
def documentNext (heap : LinkHeap Place NodeData) (source : DocumentSource) :
    Except Status WriteEvent × DocumentSource :=
  match source.next with
  | none => (.error .atEnd, source)
  | some node =>
    match heap.cells node with
    | none => (.error .invalidState, source)
    | some cell =>
      if source.closing then (.ok (closingEvent source.depth), source.leave cell)
      else if cell.data.constructed then
        (.ok { kind := .begin, element := cell.data.element, depth := source.depth },
          match cell.first with
          | some first => { source with next := some first, depth := source.depth + 1 }
          | none => { source with closing := true })
      else
        (.ok { kind := .element, element := cell.data.element, depth := source.depth },
          source.leave cell)

/-- The octets of `tlv_tree_writer_frame_t`. -/
def frameSize : Nat := 24

/-- The first loop of `prepare_encoding`; `none` when the fuel runs out. -/
def documentFrames (heap : LinkHeap Place NodeData) :
    Nat → DocumentSource → Nat → Option (Except Status Nat)
  | 0, _, _ => none
  | fuel + 1, source, capacity =>
    match documentNext heap source with
    | (.error _, _) => some (.ok capacity)
    | (.ok event, source) =>
      if event.kind = .begin then
        if event.depth ≥ sizeMax / frameSize then some (.error .outOfMemory)
        else
          documentFrames heap fuel source
            (if event.depth + 1 > capacity then event.depth + 1 else capacity)
      else documentFrames heap fuel source capacity

/-- `grow_workspace`. A new block holds what its memory held before. -/
def growWorkspace (memory : Nat → UInt8) (document : Document) (data : Bytes) (required : Nat) :
    Except Status Bytes × Document :=
  if required ≤ data.length then (.ok data, document)
  else
    let grown := if data.length ≤ sizeMax / 2 then data.length * 2 else required
    let grown := if grown < 256 then 256 else grown
    let grown := if grown < required then required else grown
    match document.allocateBuffer with
    | (false, document) => (.error .outOfMemory, document)
    | (true, document) => (.ok ((List.range grown).map memory), document)

/-- One turn of the second loop of `prepare_encoding`. -/
inductive PrepareTurn where
  | finished (result : Except Status Nat) (workspace : WriterWorkspace) (document : Document)
  | restart (workspace : WriterWorkspace) (document : Document)

section Prepare

variable (encoder : Encoder) (memory : Nat → UInt8) (first : Option Place) (single : Bool)

/-- A measurement from the first node on, and where it lacks storage, more of it. -/
def prepareTurn (document : Document) (workspace : WriterWorkspace) : Option PrepareTurn := do
  let (result, workspace) ← treeWriterMeasureEvents encoder (documentNext document.heap)
    document.bound { next := first, single := single } workspace sizeMax sizeMax
  if result ≠ .error .bufferTooShort ∨
      (workspace.requiredData = 0 ∧ workspace.requiredScratch = 0) then
    return .finished result workspace document
  match growWorkspace memory document workspace.data workspace.requiredData with
  | (.error status, document) => return .finished (.error status) workspace document
  | (.ok data, document) =>
    match growWorkspace memory document workspace.scratch workspace.requiredScratch with
    | (.error status, document) =>
      return .finished (.error status) { workspace with data := data } document
    | (.ok scratch, document) =>
      return .restart { workspace with data := data, scratch := scratch } document

/-- The second loop of `prepare_encoding`; `none` when the fuel runs out. -/
def prepareLoop : Nat → Document → WriterWorkspace →
    Option (Except Status Nat × WriterWorkspace × Document)
  | 0, _, _ => none
  | fuel + 1, document, workspace => do
      match ← prepareTurn encoder memory first single document workspace with
      | .finished result workspace document => return (result, workspace, document)
      | .restart workspace document => prepareLoop fuel document workspace

/-- `prepare_encoding`. -/
def prepareEncoding (fuel : Nat) (document : Document) (workspace : WriterWorkspace) :
    Option (Except Status Nat × WriterWorkspace × Document) :=
  if encoder.format.measure.isNone ∨ encoder.format.encode.isNone then
    some (.error .nullArg, workspace, document)
  else do
    match ← documentFrames document.heap document.bound { next := first, single := single }
        workspace.frameCapacity with
    | .error status => return (.error status, workspace, document)
    | .ok capacity =>
      let workspace := { workspace with frameCapacity := capacity }
      if capacity = 0 then prepareLoop encoder memory first single fuel document workspace
      else
        match document.allocateBuffer with
        | (false, document) => return (.error .outOfMemory, workspace, document)
        | (true, document) => prepareLoop encoder memory first single fuel document workspace

end Prepare

end OpenTlv
