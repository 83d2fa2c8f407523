import OpenTlv.Asn1.Der
import OpenTlv.Lib.LinkedWalk
import OpenTlv.Reader.Items

/-!
# Mutable documents

The owned trees of `document/document.c` and the consumer of tree events in `document/reader.c`.
Nodes live in a heap of linked cells; the allocator decides at each call whether memory is given and
at which address, and it may give an address again once its node was released. A call is undefined
(`none`) where it would follow a pointer to no node or loop without end; otherwise it has a result
and leaves a document, also where it fails.
-/

namespace OpenTlv

/-- Where a node is: in a block of the allocator, or on the stack of a call. -/
inductive Place where
  | holder
  | block (address : Nat)
  deriving Repr, DecidableEq

/-- `tlv_document_source_location_t`. -/
structure SourceLocation where
  offset : Nat := 0
  headerSize : Nat := 0
  hasOffset : Bool := false
  hasHeaderSize : Bool := false
  deriving Repr, DecidableEq

/-- `tlv_node_t` without its links. -/
structure NodeData where
  identity : Nat := 0
  tag : Bytes := []
  value : Bytes := []
  constructed : Bool := false
  pendingErase : Bool := false
  deriving Repr, DecidableEq

/-- `tlv_document_options_t` without the allocator. Both limits are of type `size_t`. -/
structure DocumentOptions where
  format : Format
  maxDepth : Nat
  maxElements : Nat
  retainSourceLocations : Bool := false
  maxDepth_le : maxDepth ≤ sizeMax
  maxElements_le : maxElements ≤ sizeMax

/-- `query_pending`: what waits for the end of a query callback. -/
inductive QueryPending where
  | nothing
  | erase
  | free
  deriving Repr, DecidableEq

/-- `tlv_document_t`. The location behind a node is kept by its address. `allocator` answers the
allocation calls in turn, and `refusals` counts what the calls were refused: memory and
identities. -/
structure Document where
  options : DocumentOptions
  allocator : Nat → Option Nat
  allocations : Nat := 0
  refusals : Nat := 0
  heap : LinkHeap Place NodeData := { cells := fun _ => none }
  locations : Place → SourceLocation := fun _ => {}
  count : Nat := 0
  revision : Nat := 0
  retireEpoch : Nat := 0
  queryCallbacks : Nat := 0
  queryPending : QueryPending := .nothing
  nextIdentity : Nat := 0

/-- What a call returns, and the document it leaves. -/
abbrev DocumentResult (α : Type) := Except Status α × Document

/-- A 64-bit counter one further. -/
def counterNext (counter : Nat) : Nat :=
  (counter + 1) % 2 ^ 64

namespace Document

/-- More steps than a loop over the nodes of a document takes. -/
def bound (document : Document) : Nat :=
  2 * document.options.maxElements + 2

/-- A refused request is counted. -/
def refuse (document : Document) : Document :=
  { document with refusals := document.refusals + 1 }

/-- `document_memory_allocate` for a node. A block that is in use is not given again. -/
def allocateNode (document : Document) : Option Place × Document :=
  let called := { document with allocations := document.allocations + 1 }
  match document.allocator document.allocations with
  | none => (none, called.refuse)
  | some address =>
    if (document.heap.cells (.block address)).isSome then (none, called.refuse)
    else (some (.block address), called)

/-- `document_memory_allocate` for octets or frames. -/
def allocateBuffer (document : Document) : Bool × Document :=
  let called := { document with allocations := document.allocations + 1 }
  match document.allocator document.allocations with
  | none => (false, called.refuse)
  | some _ => (true, called)

/-- `copy_bytes`, which needs no memory for no octets. -/
def copyBytes (document : Document) (data : Bytes) : Bool × Document :=
  if data = [] then (true, document) else document.allocateBuffer

/-- The locations with another value at one place. -/
def setLocation (document : Document) (place : Place) (location : SourceLocation) : Document :=
  { document with
    locations := fun other => if other = place then location else document.locations other }

/-- The loop of `invalidate_locations`. -/
def clearLocations : Nat → Document → Option Place → Option Document
  | _, document, none => some document
  | 0, _, some _ => none
  | fuel + 1, document, some node => do
      let cell ← document.heap.cells node
      clearLocations fuel (document.setLocation node {}) cell.parent

/-- `invalidate_locations`. -/
def invalidateLocations (document : Document) (node : Option Place) : Option Document :=
  if document.options.retainSourceLocations then
    clearLocations document.bound document node
  else some document

/-- `tlv_node_source_location`. -/
def sourceLocation (document : Document) (node : Place) : SourceLocation :=
  if document.options.retainSourceLocations then document.locations node else {}

/-- The loop of `discard_children`. -/
def discardSiblings : Nat → Document → Option Place → Option Document
  | _, document, none => some document
  | 0, _, some _ => none
  | fuel + 1, document, some child => do
      let cell ← document.heap.cells child
      let size ← document.heap.subtreeSize document.bound child
      let heap ← document.heap.freeSubtree document.bound child
      discardSiblings fuel { document with heap := heap, count := document.count - size } cell.next

/-- `discard_children`. -/
def discardChildren (document : Document) (parent : Option Place) : Option Document := do
  let child ← document.heap.firstOf parent
  let document ← discardSiblings document.bound document child
  let heap ← document.heap.setLast parent none
  let heap ← heap.setFirst parent none
  return { document with heap := heap }

/-- `free_children`. -/
def freeChildren (document : Document) (node : Place) : Option Document := do
  let child ← document.heap.firstOf (some node)
  let heap ← LinkHeap.freeSiblings document.bound document.bound document.heap child
  let heap ← heap.setLast (some node) none
  let heap ← heap.setFirst (some node) none
  return { document with heap := heap }

/-- `node_depth`. -/
def nodeDepth (document : Document) (node : Place) : Option Nat :=
  document.heap.depthFrom document.bound 0 node

/-- The octets of a node ahead of its tag. -/
def nodeSize (document : Document) : Nat :=
  88 + if document.options.retainSourceLocations then 24 else 0

/-- `document_create_node`. -/
def createNode (document : Document) (parent : Option Place) (tag value : Bytes)
    (constructed : Bool) (depth : Nat) : Option (DocumentResult Place) :=
  if depth > document.options.maxDepth ∨ document.count ≥ document.options.maxElements then
    some (.error .limit, document)
  else if tag.length > sizeMax - document.nodeSize then some (.error .outOfMemory, document.refuse)
  else if document.nextIdentity = 2 ^ 64 - 1 then some (.error .overflow, document.refuse)
  else
    match document.allocateNode with
    | (none, document) => some (.error .outOfMemory, document)
    | (some node, document) =>
      let document :=
        { document with nextIdentity := document.nextIdentity + 1 }.setLocation node {}
      match if constructed then (true, document) else document.copyBytes value with
      | (false, document) => some (.error .outOfMemory, document)
      | (true, document) => do
          let data : NodeData :=
            { identity := document.nextIdentity
              tag := tag
              value := if constructed then [] else value
              constructed := constructed }
          let heap ← (document.heap.birth node { data := data }).link parent none node
          return (.ok node, { document with heap := heap, count := document.count + 1 })

end Document

/-- `tlv_document_builder_t`. `container` is the node that the next element goes into. -/
structure DocumentBuilder where
  document : Document
  reader : TreeReader
  container : Option Place := none
  subtreeDone : Bool := false
  sourceDepth : Nat := 0
  targetDepth : Nat := 0
  subtree : Bool := false
  retainSourceLocations : Bool := false

/-- What a step of a builder returns, and the builder it leaves. -/
abbrev BuilderResult := Except Status Unit × DocumentBuilder

/-- Where an item was in the input. -/
def TreeItem.location (item : TreeItem) : SourceLocation :=
  let header := item.decoded.source.header
  let size := item.decoded.source.size
  if header.present ∧ header.offset ≤ size ∧ header.size ≤ size - header.offset then
    { offset := item.offset, hasOffset := true, headerSize := header.size, hasHeaderSize := true }
  else { offset := item.offset, hasOffset := true }

namespace DocumentBuilder

/-- `append_item`. -/
def appendItem (builder : DocumentBuilder) (item : TreeItem) : Option BuilderResult :=
  if item.depth < builder.sourceDepth then some (.error .invalidValue, builder)
  else if item.depth - builder.sourceDepth > sizeMax - builder.targetDepth then
    some (.error .overflow, builder)
  else do
    let (result, document) ← builder.document.createNode builder.container item.decoded.tag.bytes
      item.decoded.value.bytes item.constructed
      (builder.targetDepth + (item.depth - builder.sourceDepth))
    match result with
    | .error status => return (.error status, { builder with document := document })
    | .ok created =>
      let document :=
        if builder.retainSourceLocations then document.setLocation created item.location
        else document
      return (.ok (),
        { builder with
          document := document
          container := if item.constructed then some created else builder.container })

/-- Whether the loop of `consume_tree` is over. -/
def finished (builder : DocumentBuilder) : Bool :=
  if builder.subtree then builder.subtreeDone else builder.reader.atEnd

/-- The end of a group: the node that was filled is left. -/
def closeItem (builder : DocumentBuilder) (event : TreeEvent) : Option BuilderResult :=
  if event.skipped then some (.error .invalidValue, builder)
  else
    match builder.container with
    | none => some (.error .invalidValue, builder)
    | some container => do
        let cell ← builder.document.heap.cells container
        return (.ok (),
          { builder with
            container := cell.parent
            subtreeDone := builder.subtreeDone ||
              (builder.subtree && event.depth = builder.sourceDepth) })

/-- What `consume_tree` does with one event. -/
def consumeEvent (builder : DocumentBuilder) (event : TreeEvent) : Option BuilderResult :=
  match event.kind with
  | .ending => builder.closeItem event
  | .begin => builder.appendItem event.item
  | .element => builder.appendItem event.item

/-- The loop of `consume_tree`. -/
def consumeSome : Nat → DocumentBuilder → Option BuilderResult
  | 0, _ => none
  | fuel + 1, builder =>
    if builder.finished then some (.ok (), builder)
    else
      match treeReaderNextEvent builder.document.options.format builder.reader with
      | .error status => some (.error status, builder)
      | .ok (event, reader) =>
        match { builder with reader := reader }.consumeEvent event with
        | none => none
        | some (.error status, builder) => some (.error status, builder)
        | some (.ok (), builder) => consumeSome fuel builder

/-- `consume_tree`. No reader publishes more events than `remaining` says. -/
def consumeTree (builder : DocumentBuilder) : Option BuilderResult :=
  consumeSome (builder.reader.remaining + 1) builder

end DocumentBuilder

namespace Document

/-- The frames that `document_parse_list` reads with. -/
def parseCapacity (document : Document) (size depth : Nat) : Nat :=
  min (min (document.options.maxDepth - depth) size)
    (document.options.maxElements - document.count)

/-- `document_parse_list`. -/
def parseList (document : Document) (parent : Option Place) (data : Bytes) (depth : Nat) :
    Option (DocumentResult Unit) :=
  if data.length ≠ 0 ∧ depth > document.options.maxDepth then some (.error .limit, document)
  else
    let capacity := document.parseCapacity data.length depth
    if capacity > sizeMax / 16 then some (.error .outOfMemory, document.refuse)
    else
      match if capacity = 0 then (true, document) else document.allocateBuffer with
      | (false, document) => some (.error .outOfMemory, document)
      | (true, document) =>
        match treeReaderInit document.options.format
            ⟨capacity, capacity, document.options.maxElements - document.count⟩ data with
        | .error status => some (.error status, document)
        | .ok reader => do
            let (result, builder) ← DocumentBuilder.consumeTree
              { document := document
                reader := reader
                container := parent
                targetDepth := depth
                retainSourceLocations :=
                  parent.isNone && document.options.retainSourceLocations }
            return (result, builder.document)

/-- `build_node`. -/
def buildNode (document : Document) (parent : Option Place) (tag value : Bytes) (depth : Nat) :
    Option (DocumentResult Place) := do
  let constructed := document.options.format.constructs tag
  let (result, document) ← document.createNode parent tag value constructed depth
  match result with
  | .error status => return (.error status, document)
  | .ok node =>
    let (result, document) ←
      if constructed ∧ value ≠ [] then
        if depth = document.options.maxDepth then some (.error .limit, document)
        else document.parseList (some node) value (depth + 1)
      else some (.ok (), document)
    match result with
    | .ok () => return (.ok node, document)
    | .error status =>
      let heap ← document.heap.unlink node
      let size ← heap.subtreeSize document.bound node
      let heap ← heap.freeSubtree document.bound node
      return (.error status, { document with heap := heap, count := document.count - size })

/-- A holder on the stack comes into scope. -/
def enterHolder (document : Document) : Document :=
  { document with heap := document.heap.birth .holder { data := {} } }

/-- A holder goes out of scope. -/
def leaveHolder (document : Document) : Document :=
  { document with heap := document.heap.release .holder }

/-- `tlv_node_set_value` for a primitive node. -/
def setPrimitive (document : Document) (node : Place) (value : Bytes) :
    Option (DocumentResult Unit) :=
  match document.copyBytes value with
  | (false, document) => some (.error .outOfMemory, document)
  | (true, document) => do
      let heap ← document.heap.modify node fun cell =>
        { cell with data := { cell.data with value := value } }
      let document ← { document with heap := heap }.invalidateLocations (some node)
      return (.ok (), { document with revision := counterNext document.revision })

/-- The children that were built in the holder replace those of a node. -/
def adoptChildren (document : Document) (node : Place) : Option Document := do
  let document ← document.freeChildren node
  let first ← document.heap.firstOf (some .holder)
  let last ← document.heap.lastOf (some .holder)
  let heap ← document.heap.setFirst (some node) first
  let heap ← heap.setLast (some node) last
  let heap ← LinkHeap.reparent node document.bound heap first
  { document with heap := heap }.invalidateLocations (some node)

/-- How `tlv_node_set_value` ends for a constructed node that had `oldCount` nodes inside. -/
def settleChildren (node : Place) (oldCount : Nat) :
    DocumentResult Unit → Option (DocumentResult Unit)
  | (.error status, document) => do
      let document ← document.discardChildren (some .holder)
      return (.error status, { document with count := document.count + oldCount }.leaveHolder)
  | (.ok (), document) => do
      let document ← document.adoptChildren node
      return (.ok (), { document with
        retireEpoch :=
          if oldCount ≠ 0 then counterNext document.retireEpoch else document.retireEpoch
        revision := counterNext document.revision }.leaveHolder)

/-- `tlv_node_set_value` for a constructed node. The old children do not count while the new ones
are built. -/
def setConstructed (document : Document) (node : Place) (value : Bytes) :
    Option (DocumentResult Unit) := do
  let document := document.enterHolder
  let size ← document.heap.subtreeSize document.bound node
  let oldCount := size - 1
  let document := { document with count := document.count - oldCount }
  let depth ← document.nodeDepth node
  let result ← document.parseList (some .holder) value (depth + 1)
  settleChildren node oldCount result

/-- `tlv_node_set_value`. -/
def setValue (document : Document) (node : Place) (value : Bytes) : Option (DocumentResult Unit) :=
  if document.queryCallbacks ≠ 0 then some (.error .invalidState, document)
  else do
    let cell ← document.heap.cells node
    if cell.data.constructed then document.setConstructed node value
    else document.setPrimitive node value

/-- Whether a node may have children. -/
def accepts (document : Document) : Option Place → Option Bool
  | none => some true
  | some parent => (document.heap.cells parent).map fun cell => cell.data.constructed

/-- Whether a node is a child of `parent`. -/
def belongs (document : Document) (parent : Option Place) : Option Place → Option Bool
  | none => some true
  | some before => (document.heap.cells before).map fun cell => cell.parent = parent

/-- Whether `tlv_document_insert` takes the place in front of `before` below `parent`. -/
def insertable (document : Document) (parent before : Option Place) : Option Bool := do
  let accepts ← document.accepts parent
  if accepts then document.belongs parent before else return false

/-- The writer of the format rejects a tag that it cannot write. -/
def probeTag (format : Format) (tag : Bytes) (htag : tag.length ≤ sizeMax) : Except Status Unit :=
  if format.measure.isSome && format.encode.isSome then
    (encodedSize format ⟨tag, [], htag, Nat.zero_le _⟩).map fun _ => ()
  else .ok ()

/-- A node that was built in the holder is moved to its place. -/
def placeNode (document : Document) (parent before : Option Place) (node : Place) :
    Option Document := do
  let heap ← document.heap.unlink node
  let heap ← heap.link parent before node
  let document ← { document with heap := heap }.invalidateLocations parent
  return { document with revision := counterNext document.revision }.leaveHolder

/-- The depth of a child of `parent`. -/
def childDepth (document : Document) : Option Place → Option Nat
  | none => some 0
  | some parent => (document.nodeDepth parent).map (· + 1)

/-- `tlv_document_insert`. -/
def insert (document : Document) (parent before : Option Place) (element : Element) :
    Option (DocumentResult Place) :=
  if document.queryCallbacks ≠ 0 then some (.error .invalidState, document)
  else do
    if ← document.insertable parent before then
      match probeTag document.options.format element.tag element.tag_le with
      | .error status => return (.error status, document)
      | .ok () =>
        let depth ← document.childDepth parent
        let (result, document) ←
          document.enterHolder.buildNode (some .holder) element.tag element.value depth
        match result with
        | .error status => return (.error status, document.leaveHolder)
        | .ok created =>
          let document ← document.placeNode parent before created
          return (.ok created, document)
    else return (.error .invalidArg, document)

/-- `tlv_node_erase` outside of a query callback. -/
def eraseNow (document : Document) (node : Place) : Option Document := do
  let cell ← document.heap.cells node
  let document ← document.invalidateLocations cell.parent
  let heap ← document.heap.unlink node
  let size ← heap.subtreeSize document.bound node
  let heap ← heap.freeSubtree document.bound node
  return { document with
    heap := heap
    count := document.count - size
    retireEpoch := counterNext document.retireEpoch
    revision := counterNext document.revision }

/-- `tlv_node_erase`. -/
def erase (document : Document) (node : Place) : Option Document :=
  if document.queryCallbacks ≠ 0 then do
    let heap ← document.heap.modify node fun cell =>
      { cell with data := { cell.data with pendingErase := true } }
    return { document with
      heap := heap
      queryPending := if document.queryPending = .nothing then .erase else document.queryPending }
  else document.eraseNow node

/-- `tlv_document_free`: inside of a query callback the document is only marked. -/
def free (document : Document) : Option (Option Document) :=
  if document.queryCallbacks ≠ 0 then some (some { document with queryPending := .free })
  else do
    let _ ← document.discardChildren none
    return none

/-- One turn of the loop of `document_query_callback`: what is left, and the node of the next turn.
The way on is found before the node is erased. -/
def eraseTurn (document : Document) (node : Place) : Option (Document × Option Place) := do
  let cell ← document.heap.cells node
  match if cell.data.pendingErase then none else cell.first with
  | some first => return (document, some first)
  | none =>
    let next ← document.heap.climb none document.bound node
    let document ← if cell.data.pendingErase then document.erase node else some document
    return (document, next)

/-- The loop of `document_query_callback` over the nodes that were erased meanwhile. -/
def erasePending : Nat → Document → Option Place → Option Document
  | _, document, none => some document
  | 0, _, some _ => none
  | fuel + 1, document, some node => do
      let (document, next) ← document.eraseTurn node
      erasePending fuel document next

/-- `document_query_callback(document, 1)`. -/
def enterCallback (document : Document) : Document :=
  { document with queryCallbacks := document.queryCallbacks + 1 }

/-- `document_query_callback(document, 0)`, which asserts that a callback is active. What waits is
done when the last one ends. -/
def leaveCallback (document : Document) : Option (QueryPending × Option Document) :=
  if document.queryCallbacks = 0 then none
  else
    let document := { document with queryCallbacks := document.queryCallbacks - 1 }
    if document.queryCallbacks ≠ 0 then some (.nothing, some document)
    else
      let pending := document.queryPending
      let document := { document with queryPending := .nothing }
      match pending with
      | .nothing => some (.nothing, some document)
      | .free => do
          let document ← document.free
          return (.free, document)
      | .erase => do
          let document ← erasePending document.bound document document.heap.first
          return (.erase, some document)

/-- `tlv_document_create`. -/
def create (options : DocumentOptions) (allocator : Nat → Option Nat) : Except Status Document :=
  match allocator 0 with
  | none => .error .outOfMemory
  | some _ => .ok { options := options, allocator := allocator, allocations := 1 }

/-- `tlv_document_parse`. -/
def parse (options : DocumentOptions) (allocator : Nat → Option Nat) (data : Bytes) :
    Option (Except Status Document) :=
  match create options allocator with
  | .error status => some (.error status)
  | .ok created => do
      let (result, document) ← created.parseList none data 0
      match result with
      | .ok () => return .ok document
      | .error status =>
        let _ ← document.free
        return .error status

end Document

end OpenTlv
