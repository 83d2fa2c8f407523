import OpenTlv.Query.Retained
import OpenTlv.Query.Stream

/-!
# Executions

The execution object of `execute.c` and `evaluation.c` and its public operations: sizing,
initialization, bindings, the start context, feeding events, finishing and reading results. An
execution runs one of three engines: the retained one when it was initialized with an
environment, else the streaming engine of the program's level.

The workspace is a stretch of octets at an address, in which the address functions of the source
place the areas. An operation has no result when the modelled code would leave an area;
`Exec.call` and `Exec.run` make runs of operations.
-/

namespace OpenTlv.Query

/-- The sizes of the C types in a workspace. -/
structure Layout where
  exec : Nat
  value : Nat
  word : Nat
  node : Nat
  frame : Nat

/-- The empty retained node. -/
def zeroNode : RetainedNode :=
  { event := emptyEvent, parent := 0, ending := 0, sibling := 0 }

/-- An empty frame. -/
def zeroFrame : Frame :=
  { instruction := 0, context := 0, position := 0, last := 0, out := Area.fill 0 false,
    saved := Area.fill 0 false }

/-- `tlv_query_exec_t` with its workspace. -/
structure Exec where
  program : Program
  retained : Bool
  environment : Environment := {}
  document : Option (Nat → Bool → Except Status Nat) := none
  layout : Layout
  storage : Nat
  workspace : Nat
  depthCapacity : Nat
  nodeCapacity : Nat := 0
  maxElements : Nat
  patternCapacity : Nat
  meter : Meter
  values : Area Value := Area.fill 0 {}
  bindings : Area Value := Area.fill 0 {}
  indexes : Area Nat := Area.fill 0 0
  table : Area Nat := Area.fill 0 0
  states : Area Mark := Area.fill 0 {}
  openNodes : Area Nat := Area.fill 0 0
  nodes : Area RetainedNode := Area.fill 0 zeroNode
  frames : Area Frame := Area.fill 0 zeroFrame
  opened : Nat := 0
  elements : Nat := 0
  context : Option Nat := none
  contextFound : Bool := false
  contextActive : Bool := false
  contextDepth : Nat := 0
  pruning : Bool := false
  pruneAllowed : Bool := false
  pruneDepth : Nat := 0
  pruned : Nat := 0
  anyMatch : Bool := false
  publishedMatch : Bool := false
  delayed : TreeEvent := emptyEvent
  delayedSelected : Bool := false
  invalid : Bool := false
  finished : Bool := false
  result : QueryResult := {}
  resultCursor : Nat := 0

/-- `query_error_unlocated`. -/
def unlocated {α : Type} (status : Status) (kind : ErrorKind) (expected : String) : Run α :=
  queryError default status kind expected

/-- A bare status, to which `query_failure` adds the detail. -/
def bareFailure {α : Type} (status : Status) : Run α :=
  unlocated status .events "valid execution operation"

/-- `add_size`. -/
def addSize (size count width : Nat) : Except Status Nat :=
  if width ≠ 0 ∧ count > (sizeMax - size) / width then .error .overflow
  else .ok (size + count * width)

/-- `align16`. -/
def align16 (size : Nat) : Nat :=
  (size + 15) / 16 * 16

/-- `pattern_capacity`: the longest pattern of a streaming program. -/
def streamPattern (p : Program) : Nat :=
  (p.instructions.map fun n =>
    if n.op = .call ∧ n.function = .contains then
      n.left.elim 0 fun left =>
        let last := if (p.get left).op = .args then (p.get left).right.elim default p.get
          else p.get left
        if last.op = .bytes then last.dataSize else p.patternCapacity
    else 0).foldl max 0

/-- `tlv_query_exec_size`. -/
def execSize (layout : Layout) (p : Program) (depth : Nat) : Except Status Nat := do
  if programValid p = false then .error .invalidValue
  else if p.level.code > Level.s1.code then .error .unsupported
  else if depth = sizeMax then .error .overflow
  else
    let base ← addSize layout.exec (p.count + p.variableCount) layout.value
    let base ← addSize base (streamPattern p) layout.word
    addSize base (depth + 1) (layout.word + p.count)

/-- `tlv_query_eval_size`. -/
def evalSize (layout : Layout) (p : Program) (depth nodes : Nat) : Except Status Nat := do
  if programValid p = false then .error .invalidValue
  else if nodes = 0 then .error .invalidArg
  else if depth = sizeMax ∨ nodes = sizeMax then .error .overflow
  else
    let size ← addSize layout.exec (p.count + p.variableCount) layout.value
    let size ← addSize size (depth + 1) layout.word
    let size ← addSize size p.patternCapacity layout.word
    let states ← addSize 0 (depth + 1) (p.count + layout.word)
    if states > sizeMax - 15 then .error .overflow
    else
      let size ← addSize size 1 (align16 states)
      let size ← addSize size 1 15
      let size ← addSize size (nodes + 1) layout.node
      let size ← addSize size (p.count + 1) layout.frame
      let size ← addSize size (nodes + 1) (2 * (p.count + 1))
      let size ← addSize size 1 15
      addSize size p.count p.codecStride

/-- The hook table has unique valid entries. -/
def hooksValid : List Hook → Bool
  | [] => true
  | hook :: rest =>
    hook.id ≠ 0 && hook.function ≠ .unknown && hook.scratchAlignment ≠ 0 &&
      hook.scratchAlignment ≤ 16 &&
      hook.scratchAlignment &&& (hook.scratchAlignment - 1) = 0 &&
      rest.all (fun other => other.id ≠ hook.id && other.function ≠ hook.function) &&
      hooksValid rest

/-- Whether the environment serves one call. -/
def callCompatible (p : Program) (env : Environment) (n : Instruction) : Except Status Unit :=
  if n.function.isConversion = true ∧ n.hookId = 0 then .error .invalidArg
  else if n.hookId ≠ 0 ∧
      (match env.hooks.reverse.find? fun hook => hook.id = n.hookId with
      | none => true
      | some hook =>
        hook.decode.isNone || some hook.function ≠ n.function.conversion ||
          hook.scratchSize > n.scratchSize) = true then .error .unsupported
  else if n.function = .tagClass ∧
      env.tags.all (fun tags => tags.id ≠ p.tagId || tags.classOf.isNone) = true then
    .error .unsupported
  else if n.function = .number ∧
      env.tags.all (fun tags => tags.id ≠ p.tagId || tags.numberOf.isNone) = true then
    .error .unsupported
  else if n.function = .constructed ∧ env.format.isNone = true then .error .unsupported
  else .ok ()

/-- `compatible`. -/
def compatible (p : Program) (env : Environment) : Except Status Unit :=
  if hooksValid env.hooks = false then .error .invalidArg
  else (p.instructions.filter fun n => n.op = .call).forM (callCompatible p env)

/-- `execution_values` and `eval_values`. -/
def Exec.evalValues (e : Exec) : Nat :=
  e.storage + e.layout.exec

/-- `execution_bindings` and `eval_bindings`. -/
def Exec.evalBindings (e : Exec) : Nat :=
  e.evalValues + e.program.count * e.layout.value

/-- `execution_indexes` and `eval_indexes`. -/
def Exec.evalIndexes (e : Exec) : Nat :=
  e.evalBindings + e.program.variableCount * e.layout.value

/-- The prefix table of `query_function_eval`, behind the indexes. -/
def Exec.evalTable (e : Exec) : Nat :=
  e.evalIndexes + e.depthCapacity * e.layout.word

/-- `execution_states` and `eval_base`. -/
def Exec.evalBase (e : Exec) : Nat :=
  e.evalIndexes + (e.depthCapacity + e.patternCapacity) * e.layout.word

/-- `eval_nodes`. -/
def Exec.evalNodes (e : Exec) : Nat :=
  align16 (e.evalBase + align16 (e.depthCapacity * (e.program.count + e.layout.word)))

/-- `eval_frames`. -/
def Exec.evalFrames (e : Exec) : Nat :=
  e.evalNodes + (e.nodeCapacity + 1) * e.layout.node

/-- `eval_sets`. -/
def Exec.evalSets (e : Exec) : Nat :=
  e.evalFrames + (e.program.count + 1) * e.layout.frame

/-- `frame_set`. -/
def Exec.frameSet (e : Exec) (frame : Nat) (saved : Bool) : Nat :=
  e.evalSets + (2 * frame + saved.toNat) * (e.nodeCapacity + 1)

/-- `eval_codec_scratch`. -/
def Exec.evalCodecScratch (e : Exec) : Nat :=
  align16 (e.evalSets + 2 * (e.program.count + 1) * (e.nodeCapacity + 1))

/-- The cells of an area: it has none unless all of them lie in the workspace. -/
def Exec.extent (e : Exec) (start count width : Nat) : Nat :=
  if start + count * width ≤ e.storage + e.workspace then count else 0

/-- The areas of a zeroed workspace. A frame has its two node sets in another place, which lies
behind all frames. -/
def Exec.zeroed (e : Exec) : Exec :=
  let p := e.program
  let e :=
    { e with
      values := Area.fill (e.extent e.evalValues p.count e.layout.value) {}
      bindings := Area.fill (e.extent e.evalBindings p.variableCount e.layout.value) {}
      indexes := Area.fill (e.extent e.evalIndexes e.depthCapacity e.layout.word) 0
      table := Area.fill (e.extent e.evalTable e.patternCapacity e.layout.word) 0 }
  if e.retained then
    { e with
      openNodes := Area.fill (e.extent e.evalBase e.depthCapacity e.layout.word) 0
      nodes := Area.fill (e.extent e.evalNodes (e.nodeCapacity + 1) e.layout.node) zeroNode
      frames := Area.fill (e.extent e.evalFrames (p.count + 1)
        (e.layout.frame + 2 * (e.nodeCapacity + 1))) zeroFrame }
  else { e with states := Area.fill (e.extent e.evalBase (e.depthCapacity * p.count) 1) {} }

/-- `tlv_query_exec_init`. The execution needs the alignment of `uint64_t`. -/
def execInit (layout : Layout) (p : Program) (storage capacity depth maxElements work : Nat) :
    Except Status Exec := do
  let bytes ← execSize layout p depth
  if storage % 8 ≠ 0 ∨ maxElements = 0 ∨ work = 0 then .error .invalidArg
  else if capacity < bytes then .error .bufferTooShort
  else
    return Exec.zeroed
      { program := p
        retained := false
        layout := layout
        storage := storage
        workspace := bytes
        depthCapacity := depth + 1
        maxElements := maxElements
        patternCapacity := streamPattern p
        meter := ⟨work, work⟩ }

/-- The fields that `tlv_query_eval_init` sets. -/
def evalSetup (layout : Layout) (p : Program) (env : Environment)
    (storage bytes depth nodes work : Nat) : Exec :=
  { program := p
    retained := true
    environment := env
    layout := layout
    storage := storage
    workspace := bytes
    depthCapacity := depth + 1
    nodeCapacity := nodes
    maxElements := nodes
    patternCapacity := p.patternCapacity
    meter := ⟨work, work⟩ }

/-- `tlv_query_eval_init`. -/
def evalInit (layout : Layout) (p : Program) (env : Environment)
    (storage capacity depth nodes work : Nat) : Except Status Exec := do
  let bytes ← evalSize layout p depth nodes
  if storage % 16 ≠ 0 ∨ work = 0 then .error .invalidArg
  else if capacity < bytes then .error .bufferTooShort
  else
    compatible p env
    let e := (evalSetup layout p env storage bytes depth nodes work).zeroed
    return { e with nodes := e.nodes.put nodes { zeroNode with parent := nodes, ending := nodes } }

/-- `tlv_query_exec_reset`. -/
def Exec.reset (e : Exec) : Except Status Exec :=
  if e.retained then
    evalInit e.layout e.program e.environment e.storage e.workspace (e.depthCapacity - 1)
      e.nodeCapacity e.meter.limit
  else
    execInit e.layout e.program e.storage e.workspace (e.depthCapacity - 1) e.maxElements
      e.meter.limit

/-- Nothing was fed to the execution and it has not failed or finished. -/
def Exec.isFresh (e : Exec) : Bool :=
  e.elements = 0 && e.opened = 0 && !e.invalid && !e.finished

/-- A value offered to `tlv_query_exec_bind`. -/
inductive Binding where
  | integer (value : Int)
  | bytes (data : Bytes)
  | string (data : Bytes)
  | unsupported
  deriving Repr, DecidableEq

/-- The category of a binding. -/
def Binding.kind : Binding → Kind
  | .integer _ => .number
  | .bytes _ => .bytes
  | .string _ => .string
  | .unsupported => .node

/-- The stored value of a binding. -/
def Binding.value : Binding → Value
  | .integer value => signedValue value
  | .bytes data => { kind := .bytes, data := data }
  | .string data => { kind := .string, data := data }
  | .unsupported => {}

/-- A span length is representable as a signed integer. -/
def spanCheck (data : Bytes) : Run Unit :=
  if data.length > int64Max then
    unlocated .overflow .binding "span length representable as int64"
  else .ok ()

/-- The checks on the data of a binding. -/
def Binding.check : Binding → Run Unit
  | .integer _ | .unsupported => .ok ()
  | .bytes data => spanCheck data
  | .string data => do
      spanCheck data
      if utf8Validate data then .ok ()
      else unlocated .invalidValue .binding "valid UTF-8 string binding"

/-- The variable instructions with a name. -/
def Program.named (p : Program) (name : Bytes) : List Instruction :=
  p.instructions.filter fun n => n.op = .variableRef && p.data n == name

/-- The first loop of `tlv_query_exec_bind`. -/
def bindChecks (bindings : Area Value) (kind : Kind) : List Instruction → Run Unit
  | [] => .ok ()
  | n :: rest => do
      let value ← checked (bindings.read n.variableSlot)
      if n.type ≠ kind ∨ value.kind ≠ .node then
        queryError n .invalidValue .binding "unbound variable of declared type"
      else bindChecks bindings kind rest

/-- The second loop of `tlv_query_exec_bind`. -/
def bindStores (value : Value) : List Instruction → Area Value → Run (Area Value)
  | [], bindings => .ok bindings
  | n :: rest, bindings => do
      let bindings ← checked (bindings.write n.variableSlot value)
      bindStores value rest bindings

/-- `tlv_query_exec_bind` on an execution that has not failed. -/
def Exec.bind (e : Exec) (name : Bytes) (binding : Binding) : Run Exec := do
  if e.isFresh = false then
    unlocated .invalidState .state "fresh execution before binding"
  else if binding = .unsupported then
    unlocated .invalidValue .binding "integer, bytes or string binding"
  else
    bindChecks e.bindings binding.kind (e.program.named name)
    if (e.program.named name).isEmpty then
      unlocated .invalidValue .binding "variable referenced by program"
    else
      binding.check
      let bindings ← bindStores binding.value (e.program.named name) e.bindings
      return { e with bindings := bindings }

/-- `tlv_query_exec_context`. -/
def Exec.setContext (e : Exec) (ordinal : Nat) : Run Exec :=
  if e.retained = false ∧ e.program.level = .s1 then bareFailure .unsupported
  else if e.isFresh = false then bareFailure .invalidState
  else if ordinal ≥ e.maxElements then bareFailure .invalidArg
  else .ok { e with context := some ordinal }

/-- `tlv_query_exec_pruning`. -/
def Exec.setPruning (e : Exec) (enabled : Bool) : Run Exec :=
  if e.isFresh = false then bareFailure .invalidState
  else if e.retained then bareFailure .invalidArg
  else .ok { e with pruning := enabled }

/-- `tlv_document_query_evaluate` attaches the Document to a fresh execution. -/
def Exec.attachDocument (e : Exec) (metadata : Nat → Bool → Except Status Nat) : Run Exec :=
  if e.isFresh = false then bareFailure .invalidState
  else if e.retained = false then bareFailure .invalidArg
  else .ok { e with document := some metadata }

/-- `bindings_ready`. -/
def bindingsReady (bindings : Area Value) : List Instruction → Run Unit
  | [] => .ok ()
  | n :: rest => do
      if n.op = .variableRef then
        let value ← checked (bindings.read n.variableSlot)
        if value.kind = .node then queryError n .invalidValue .binding "bound variable"
        else bindingsReady bindings rest
      else bindingsReady bindings rest

/-- `query_retained_feed`. -/
def Exec.retainedFeed (e : Exec) (event : TreeEvent) : Run Exec := do
  if event.depth ≥ e.depthCapacity then queryLimit default "depth" (e.depthCapacity - 1)
  else if event.skipped then bareFailure .invalidValue
  else
    let root ← e.program.fetch e.program.root
    let meter ← charge e.meter 1 root
    let e := { e with meter := meter }
    if event.kind = .finish then
      if e.opened = 0 ∨ event.depth ≠ e.opened - 1 then bareFailure .invalidValue
      else
        let index ← checked (e.openNodes.read event.depth)
        let node ← checked (e.nodes.read index)
        let nodes ← checked (e.nodes.write index { node with ending := e.elements })
        return { e with nodes := nodes }
    else if event.depth ≠ e.opened ∨ event.kind = .unknown then bareFailure .invalidValue
    else if e.elements = e.nodeCapacity then queryLimit default "candidates" e.nodeCapacity
    else
      let sibling ← checked (e.indexes.read event.depth)
      let parent ←
        if event.depth = 0 then .ok e.nodeCapacity
        else checked (e.openNodes.read (event.depth - 1))
      let nodes ← checked (e.nodes.write e.elements
        { event := event
          parent := parent
          ending := if event.kind = .begin then sizeMax else e.elements + 1
          sibling := sibling })
      if event.kind = .begin then
        let openNodes ← checked (e.openNodes.write event.depth e.elements)
        return { e with nodes := nodes, openNodes := openNodes }
      else return { e with nodes := nodes }

/-- What the streaming engines read. -/
def Exec.view (e : Exec) : View :=
  { program := e.program
    bindings := e.bindings
    indexes := e.indexes
    patternCapacity := e.patternCapacity
    context := e.context
    contextActive := e.contextActive
    contextDepth := e.contextDepth
    ordinal := e.elements - 1 }

/-- What the streaming engines change. -/
def Exec.cells (e : Exec) : Cells :=
  ⟨e.meter, e.values, e.table, e.states⟩

/-- Take over what a streaming engine changed. -/
def Exec.withCells (e : Exec) (c : Cells) : Exec :=
  { e with meter := c.meter, values := c.values, table := c.table, states := c.states }

/-- Decide a scope. -/
def Exec.decideScope (e : Exec) : Run (Exec × Bool) := do
  let (c, matched) ← s1Decide e.program e.cells e.delayedSelected
  return ({ e.withCells c with delayedSelected := false }, matched)

/-- `s1_feed`. -/
def Exec.s1Feed (e : Exec) (event : TreeEvent) : Run (Exec × Bool) := do
  if e.context.isSome then bareFailure .unsupported
  else if event.kind = .finish then
    if event.depth = 0 then e.decideScope else return (e, false)
  else if event.depth = 0 then
    let (c, selected) ← scopeStart e.program event e.cells
    let e := { e.withCells c with delayedSelected := selected, delayed := event }
    if event.kind = .element then e.decideScope else return (e, false)
  else if e.delayedSelected then
    let c ← scopeCollect e.program event e.cells
    return (e.withCells c, false)
  else return (e, false)

/-- `can_prune`. -/
def canPrune (e : Exec) (depth : Nat) : Run Bool := do
  if e.pruning = false ∨ e.context.isSome then return false
  else
    let marks ← (List.range e.program.count).mapM fun i =>
      checked (e.states.read (depth * e.program.count + i))
    return (e.program.instructions.zip marks).all fun (n, mark) =>
      !(n.op = .desc || (n.op = .test && n.axis = .desc)) && !(n.type = .node && mark.holds)

/-- The event contract that both backends share. -/
def Exec.eventAllowed (e : Exec) (event : TreeEvent) : Bool :=
  match event.kind with
  | .finish =>
    e.opened ≠ 0 && event.depth = e.opened - 1 &&
      !(event.skipped && (e.retained || !e.pruneAllowed || e.pruneDepth ≠ event.depth))
  | .begin | .element => event.depth = e.opened && !event.skipped
  | .unknown => false

/-- The scope engine sees the end of a node. -/
def Exec.scopeEnd (e : Exec) (event : TreeEvent) : Run (Exec × Bool) :=
  if e.retained = false ∧ e.program.level = .s1 then e.s1Feed event else .ok (e, false)

/-- The part of `tlv_query_exec_feed` for the end of a node. -/
def Exec.feedEnd (e : Exec) (event : TreeEvent) : Run (Exec × Bool) := do
  let e :=
    { e with
      pruned := e.pruned + event.skipped.toNat
      pruneAllowed := false
      contextActive := e.contextActive &&
        !(e.context.isSome && e.contextFound && event.depth = e.contextDepth) }
  let (e, matched) ← e.scopeEnd event
  return ({ e with opened := e.opened - 1 }, matched)

/-- Follow the start context when its node is published. -/
def Exec.trackContext (e : Exec) (event : TreeEvent) : Exec :=
  if e.context = some (e.elements - 1) then
    { e with contextFound := true, contextDepth := event.depth,
             contextActive := event.kind = .begin }
  else e

/-- The engine of a streaming execution on a published node. -/
def Exec.engineFeed (e : Exec) (event : TreeEvent) : Run (Exec × Bool) := do
  if e.retained then return (e, false)
  else if e.program.level = .s1 then e.s1Feed event
  else
    let (c, matched) ← evaluate e.view event e.cells
    return (e.withCells c, matched)

/-- Clear the row and the sibling index of a new depth. -/
def Exec.enterDepth (e : Exec) : Run Exec := do
  if e.opened < e.depthCapacity then
    let indexes ← checked (e.indexes.write e.opened 0)
    if e.retained then return { e with indexes := indexes }
    else
      let row := e.opened * e.program.count
      if row + e.program.count ≤ e.states.size then
        return { e with
          indexes := indexes
          states := ⟨e.states.size, fun i =>
            if row ≤ i ∧ i < row + e.program.count then {} else e.states.cell i⟩ }
      else .error .fault
  else return e

/-- Whether the subtree of a node may be skipped. -/
def Exec.pruneDecision (e : Exec) (depth : Nat) : Run Bool :=
  if e.program.level = .s0 then canPrune e depth else .ok false

/-- The first event of a subtree opens a depth. -/
def Exec.enter (e : Exec) (event : TreeEvent) : Run Exec := do
  if event.kind = .begin then
    let allowed ← e.pruneDecision event.depth
    { e with pruneAllowed := allowed, pruneDepth := event.depth,
             opened := e.opened + 1 }.enterDepth
  else return e

/-- Only marks and indexes survive an event, besides the counts of a scope. -/
def Exec.discardValues (e : Exec) : Run Exec := do
  if e.program.level ≠ .s1 ∨ e.retained = true then
    let values ← clearValues e.program e.values
    return { e with values := values }
  else return e

/-- The part of `tlv_query_exec_feed` for a published node. -/
def Exec.feedNode (e : Exec) (event : TreeEvent) : Run (Exec × Bool) := do
  if event.depth ≥ e.depthCapacity then queryLimit default "depth" (e.depthCapacity - 1)
  else if e.elements = e.maxElements then queryLimit default "elements" e.maxElements
  else
    let e := { e with pruneAllowed := false, elements := e.elements + 1 }
    let (e, matched) ← (e.trackContext event).engineFeed event
    let e ← e.discardValues
    let index ← checked (e.indexes.read event.depth)
    let indexes ← checked (e.indexes.write event.depth (index + 1))
    let e ← { e with indexes := indexes }.enter event
    return (e, matched)

/-- A node or the end of one. -/
def Exec.feedEvent (e : Exec) (event : TreeEvent) : Run (Exec × Bool) :=
  if event.kind = .finish then e.feedEnd event else e.feedNode event

/-- The retained engine takes over a node before the common part. -/
def Exec.feedBackend (e : Exec) (event : TreeEvent) : Run Exec :=
  if e.retained then e.retainedFeed event else .ok e

/-- The bindings are complete before the first event. -/
def Exec.ready (e : Exec) : Run Unit :=
  if e.elements = 0 then bindingsReady e.bindings e.program.instructions else .ok ()

/-- `tlv_query_exec_feed` on an execution that has not failed or finished. -/
def Exec.feed (e : Exec) (event : TreeEvent) : Run (Exec × Bool) := do
  e.ready
  if e.program.level = .d ∧ e.document.isNone = true then
    unlocated .unsupported .capability "Document execution required"
  else if e.eventAllowed event = false then
    unlocated .invalidValue .events "balanced complete canonical events without pruning"
  else
    let e ← e.feedBackend event
    let (e, matched) ← e.feedEvent event
    return ({ e with publishedMatch := matched, anyMatch := e.anyMatch || matched }, matched)

/-- What `query_retained_finish` reads. -/
def Exec.session (e : Exec) : Session :=
  { program := e.program
    environment := e.environment
    document := e.document
    nodes := e.nodes
    elements := e.elements
    nodeCapacity := e.nodeCapacity
    bindings := e.bindings
    patternCapacity := e.patternCapacity
    scratchRows := e.extent e.evalCodecScratch e.program.count e.program.codecStride }

/-- What `query_retained_finish` changes. -/
def Exec.vm (e : Exec) : Vm :=
  ⟨e.meter, e.values, e.table, e.frames⟩

/-- The result of a completed root frame. -/
def Frame.result (f : Frame) : QueryResult :=
  { kind := some f.value.kind
    boolean := f.value.truth
    integer := if f.value.kind = .number then signedInteger f.value else 0
    data := f.value.data }

/-- `query_retained_finish`. -/
def Exec.retainedFinish (e : Exec) : Run Exec := do
  let vm ← pushFrame e.session e.vm 0 e.program.root (e.context.getD e.nodeCapacity) 1 1
  let vm ← retainedLoop e.session vm
  let root ← checked (vm.frames.read 0)
  return { e with meter := vm.meter, values := vm.values, table := vm.table, frames := vm.frames,
                  result := root.result }

/-- The retained engine evaluates at the end. -/
def Exec.finishBackend (e : Exec) : Run Exec :=
  if e.retained then e.retainedFinish else .ok e

/-- `tlv_query_exec_finish` on an execution that has not failed. -/
def Exec.finish (e : Exec) : Run Exec := do
  if e.program.level = .d ∧ e.document.isNone = true then
    unlocated .unsupported .capability "Document execution required"
  else
    e.ready
    if e.opened ≠ 0 then unlocated .invalidValue .events "balanced final EOF"
    else if e.context.isSome = true ∧ e.contextFound = false then
      unlocated .invalidArg .events "context present in input"
    else if e.finished then return e
    else
      let e ← e.finishBackend
      return { e with finished := true }

/-- The search of `result_next` for the next selected node. -/
def nextSelected (out : Area Bool) : Nat → Nat → Run (Option Nat)
  | 0, _ => .ok none
  | left + 1, i => do
      let flag ← checked (out.read i)
      if flag then return some i else nextSelected out left (i + 1)

/-- `tlv_query_result_next_ordinal`; no event stands for the end. -/
def Exec.resultNext (e : Exec) : Run (Exec × Option (TreeEvent × Nat)) := do
  if e.finished = false then bareFailure .invalidState
  else if e.retained = false ∨ e.result.kind ≠ some .node then bareFailure .invalidArg
  else
    let root ← checked (e.frames.read 0)
    match ← nextSelected root.out (e.elements - e.resultCursor) e.resultCursor with
    | none => return ({ e with resultCursor := max e.resultCursor e.elements }, none)
    | some i =>
      let node ← checked (e.nodes.read i)
      return ({ e with resultCursor := i + 1 }, some (node.event, i))

/-- `tlv_query_exec_result`. -/
def Exec.getResult (e : Exec) : Run QueryResult :=
  if e.finished = false then bareFailure .invalidState
  else if e.retained = false then bareFailure .invalidArg
  else .ok e.result

/-- `tlv_query_exec_selected`. -/
def Exec.selected (e : Exec) : Run TreeEvent :=
  if e.retained = true ∨ e.program.level ≠ .s1 then bareFailure .invalidArg
  else if e.publishedMatch = false then bareFailure .invalidState
  else .ok e.delayed

/-- The operations of an execution. -/
inductive Call where
  | bind (name : Bytes) (binding : Binding)
  | context (ordinal : Nat)
  | pruning (enabled : Bool)
  | document (metadata : Nat → Bool → Except Status Nat)
  | feed (event : TreeEvent)
  | finish
  | result
  | resultNext
  | selected
  | reset

/-- What an operation returns. -/
inductive Reply where
  | done
  | failed (diagnostic : Diagnostic)
  | refused (status : Status)
  | matched (value : Bool)
  | result (value : QueryResult)
  | node (event : TreeEvent) (ordinal : Nat)
  | atEnd

/-- A failed operation that may go on leaves the execution as it was. -/
def lenient {α : Type} (e : Exec) (run : Run α) (answer : α → Exec × Reply) :
    Option (Exec × Reply) :=
  match run with
  | .ok value => some (answer value)
  | .error (.failed d) => some (e, .failed d)
  | .error .fault => none

/-- A failed feed or finish invalidates the execution. -/
def strict {α : Type} (e : Exec) (run : Run α) (answer : α → Exec × Reply) :
    Option (Exec × Reply) :=
  match run with
  | .ok value => some (answer value)
  | .error (.failed d) => some ({ e with invalid := true }, .failed d)
  | .error .fault => none

/-- One operation. There is no result exactly when an access leaves its area. -/
def Exec.call (e : Exec) (call : Call) : Option (Exec × Reply) :=
  match call with
  | .reset =>
    match e.reset with
    | .ok e' => some (e', .done)
    | .error status => some (e, .refused status)
  | .context ordinal => lenient e (e.setContext ordinal) fun e' => (e', .done)
  | .pruning enabled => lenient e (e.setPruning enabled) fun e' => (e', .done)
  | .document metadata => lenient e (e.attachDocument metadata) fun e' => (e', .done)
  | call =>
    if e.invalid then some (e, .refused .invalidState)
    else
      match call with
      | .bind name binding => lenient e (e.bind name binding) fun e' => (e', .done)
      | .feed event =>
        if e.finished then
          lenient e (unlocated .invalidState .state "execution not finished") fun e' => (e', .done)
        else strict e (e.feed event) fun x => (x.1, .matched x.2)
      | .finish => strict e e.finish fun e' => (e', .done)
      | .result => lenient e e.getResult fun value => (e, .result value)
      | .resultNext =>
        lenient e e.resultNext fun
          | (e', some (event, i)) => (e', .node event i)
          | (e', none) => (e', .atEnd)
      | .selected => lenient e e.selected fun event => (e, .node event 0)
      | _ => some (e, .done)

/-- A run of operations with their replies. -/
def Exec.run (e : Exec) : List Call → Option (Exec × List Reply)
  | [] => some (e, [])
  | call :: rest => do
      let (e, reply) ← e.call call
      let (e, replies) ← e.run rest
      return (e, reply :: replies)

end OpenTlv.Query
