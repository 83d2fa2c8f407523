import OpenTlv.Core.Utf8
import OpenTlv.Lib.Dispatch
import OpenTlv.Query.Value

/-!
# The retained machine

`query_retained_finish` of `evaluation.c`: an explicit stack of evaluation frames over a flat
preorder array of nodes. A frame evaluates one instruction in one context; its `stage` says
where it resumes. A completed child stays in the slot above its parent until the next push.

The frame and its two node sets are one record here, because frame `k` owns rows `2k` and
`2k+1` of the set area. The last index of a node set stands for the virtual root.
-/

namespace OpenTlv.Query

/-- `tlv_query_conversion_t`, with the values outside the enumeration. -/
inductive Conversion where
  | num
  | bcd
  | text
  | date
  | unknown
  deriving Repr, DecidableEq

/-- The conversion of a function. -/
def Fn.conversion : Fn → Option Conversion
  | .num => some .num
  | .bcd => some .bcd
  | .text => some .text
  | .date => some .date
  | _ => none

/-- `tlv_query_result_t`. The kind is absent outside the enumeration. -/
structure QueryResult where
  kind : Option Kind := some .node
  boolean : Bool := false
  integer : Int := 0
  data : Bytes := []
  deriving Repr, DecidableEq

/-- `tlv_query_hook_t`. The event is absent for literals and bindings. -/
structure Hook where
  id : Nat
  function : Conversion
  scratchSize : Nat
  scratchAlignment : Nat
  decode : Option (Option TreeEvent → Bytes → Except Status QueryResult)

/-- `tlv_query_tag_adapter_t`. -/
structure TagAdapter where
  id : Nat
  classOf : Option (Bytes → Except Status Int)
  numberOf : Option (Bytes → Except Status Int)

/-- `tlv_query_environment_t`. -/
structure Environment where
  format : Option Format := none
  tags : Option TagAdapter := none
  hooks : List Hook := []

/-- `retained_node_t`. The parent of a root node is the node capacity. -/
structure RetainedNode where
  event : TreeEvent
  parent : Nat
  ending : Nat
  sibling : Nat

/-- `eval_frame_t` with its two node sets. -/
structure Frame where
  instruction : Nat
  args : List Nat := []
  context : Nat
  position : Nat
  last : Nat
  stage : Nat := 0
  cursor : Nat := 0
  ordinal : Nat := 0
  length : Nat := 0
  value : Value := {}
  a : Value := {}
  b : Value := {}
  c : Value := {}
  selected : Option Nat := none
  out : Area Bool
  saved : Area Bool

/-- What `query_retained_finish` reads and does not change. -/
structure Session where
  program : Program
  environment : Environment
  document : Option (Nat → Bool → Except Status Nat)
  nodes : Area RetainedNode
  elements : Nat
  nodeCapacity : Nat
  bindings : Area Value
  patternCapacity : Nat
  scratchRows : Nat

/-- What `query_retained_finish` changes. -/
structure Vm where
  meter : Meter
  values : Area Value
  table : Area Nat
  frames : Area Frame

/-- `push_frame`: the frame as it is stored. -/
def freshFrame (s : Session) (instruction context position last : Nat) : Frame :=
  { instruction := instruction
    context := context
    position := position
    last := last
    out := Area.fill (s.nodeCapacity + 1) false
    saved := Area.fill (s.nodeCapacity + 1) false }

/-- `push_frame`. -/
def pushFrame (s : Session) (vm : Vm) (index instruction context position last : Nat) :
    Run Vm := do
  let frames ← checked (vm.frames.write index (freshFrame s instruction context position last))
  return { vm with frames := frames }

/-- Store the frame at `top` and start a child above it. -/
def suspend (s : Session) (vm : Vm) (top : Nat) (f : Frame)
    (instruction context position last : Nat) : Run (Vm × Option Nat) := do
  let frames ← checked (vm.frames.write top f)
  let vm ← pushFrame s { vm with frames := frames } (top + 1) instruction context position last
  return (vm, some (top + 1))

/-- A node set that a loop over all node indices and the virtual root visits. -/
def nodeSet (s : Session) (set : Area Bool) : Run (Area Bool) :=
  if set.size = s.nodeCapacity + 1 then .ok set else .error .fault

/-- The frame that goes on when the one at `top` is complete. -/
def frameBelow (top : Nat) : Option Nat :=
  if top = 0 then none else some (top - 1)

/-- The truth of a node sequence goes into the value of its frame. -/
def Frame.completed (f : Frame) : Frame :=
  if f.value.kind = .node then
    { f with value := { f.value with number := (f.out.count ≠ 0 : Bool).toNat } }
  else f

/-- The label `complete`: the frame below goes on, or the run is done. -/
def complete (s : Session) (vm : Vm) (top : Nat) (f : Frame) : Run (Vm × Option Nat) := do
  let out ← nodeSet s f.out
  let frames ← checked (vm.frames.write top { f with out := out }.completed)
  return ({ vm with frames := frames }, frameBelow top)

/-- Whether node `i` lies on the axis from `context`. -/
def axisCandidate (s : Session) (axis : Axis) (context : Nat) (here : RetainedNode) (i : Nat)
    (node : RetainedNode) : Bool :=
  match axis with
  | .self => i = context
  | .child => node.parent = context
  | .desc => context = s.nodeCapacity || (i ≥ context + 1 && i < here.ending)
  | .descSelf => context = s.nodeCapacity || (i ≥ context && i < here.ending)
  | .parent => context < s.elements && i = here.parent
  | .ancestor => context < s.elements && i < context && node.ending > context
  | .ancestorSelf => context < s.elements && i ≤ context && node.ending > context
  | .followSibling => context < s.elements && node.parent = here.parent && i > context
  | .precedeSibling => context < s.elements && node.parent = here.parent && i < context
  | .follow => context < s.elements && i ≥ here.ending
  | .precede => context < s.elements && i < context && node.ending ≤ context

/-- The node loop of `Q_TEST`. -/
def testLoop (s : Session) (n : Instruction) (context : Nat) (here : RetainedNode) :
    List Nat → Area Bool → Meter → Run (Area Bool × Meter)
  | [], out, meter => .ok (out, meter)
  | i :: rest, out, meter => do
      let node ← checked (s.nodes.read i)
      let meter ← charge meter (1 + node.event.element.tag.length) n
      let candidate := axisCandidate s n.axis context here i node
      let matched ← planTag s.program n node.event.element.tag
      let out ← checked (out.write i (candidate && matched))
      testLoop s n context here rest out meter

/-- `Q_TEST`. -/
def testFrame (s : Session) (vm : Vm) (f : Frame) (n : Instruction) : Run (Frame × Vm) := do
  let here ← checked (s.nodes.read f.context)
  let (out, meter) ← testLoop s n f.context here (List.range s.elements) f.out vm.meter
  let out ←
    if n.axis = .parent ∧ f.context < s.elements ∧ here.parent = s.nodeCapacity ∧
        n.context = true then
      checked (out.write s.nodeCapacity true)
    else .ok out
  return ({ f with out := out }, { vm with meter := meter })

/-- The Source metadata of a retained node. -/
def sourceValue (s : Session) (n : Instruction) (context : Nat) (node : RetainedNode)
    (header : Bool) : Run Nat :=
  let result :=
    match s.document with
    | some metadata => metadata context header
    | none => sourceMetadata node.event header
  match result with
  | .ok value => .ok value
  | .error status =>
    queryError n status (if status = .invalidArg then .events else .source) "Source metadata"

/-- The property that a metadata instruction names. -/
def propertyValue (s : Session) (n : Instruction) (context : Nat) (node : RetainedNode) :
    Run Nat :=
  match Metadata.ofCode n.selector with
  | .len => .ok node.event.element.value.length
  | .depth => .ok node.event.depth
  | .index => .ok node.sibling
  | .offset => sourceValue s n context node false
  | .hlen => sourceValue s n context node true

/-- `Q_META` on a concrete node. -/
def metadataValue (s : Session) (n : Instruction) (context : Nat) : Run Nat := do
  if context = s.nodeCapacity then
    queryError n .invalidValue .cardinality "candidate metadata"
  else
    let node ← checked (s.nodes.read context)
    let value ← propertyValue s n context node
    if value > int64Max then queryError n .overflow .capability "int64 metadata" else .ok value

/-- The node whose event a function reads: the selected one or the context. -/
def callEvent (s : Session) (f : Frame) : Run (Option TreeEvent) :=
  let context := f.selected.getD f.context
  if context < s.elements then
    match s.nodes.read context with
    | some node => .ok (some node.event)
    | none => .error .fault
  else .ok none

/-- The check `one candidate node` of `scalar_call`. -/
def candidateEvent (n : Instruction) : Option TreeEvent → Run TreeEvent
  | some event => .ok event
  | none => queryError n .invalidValue .cardinality "one candidate node"

/-- `class` and `number` through the tag adapter. -/
def tagNumber (n : Instruction) (decompose : Bytes → Except Status Int) (tag : Bytes) :
    Run Value :=
  match callbackResult (decompose tag) with
  | .ok number => .ok (signedValue number)
  | .error status => queryError n status .capability "valid tag decomposition"

/-- What a codec hook returned. -/
def convertResult (meter : Meter) (n : Instruction) :
    Except Status QueryResult → Run (Value × Meter)
  | .error status => queryError n status .codec "strict complete-Value decoding"
  | .ok result =>
    if result.kind ≠ some n.type then
      queryError n .callback .codec "declared codec result type"
    else if result.kind = some .number then return (signedValue result.integer, meter)
    else do
      let meter ← charge meter result.data.length n
      if utf8Validate result.data = false then
        queryError n .callback .codec "UTF-8 decoded string"
      else return ({ kind := .string, data := result.data }, meter)

/-- A conversion through its codec hook, which works in the scratch row of the instruction. -/
def convertValue (s : Session) (instruction : Nat) (meter : Meter) (n : Instruction)
    (event : Option TreeEvent) (data : Bytes) : Run (Value × Meter) := do
  let hook ← checked (s.environment.hooks.reverse.find? fun hook => hook.id = n.hookId)
  let decode ← checked hook.decode
  if instruction < s.scratchRows ∧ hook.scratchSize ≤ s.program.codecStride then
    convertResult meter n (callbackResult (decode event data))
  else .error .fault

/-- The child loop of `tag-mask` and `tag-range`. -/
def selectLoop (s : Session) (values : Area Value) (step : Instruction) (context : Nat) :
    List Nat → Area Bool → Area Nat → Meter → Run (Area Bool × Area Nat × Meter)
  | [], out, table, meter => .ok (out, table, meter)
  | i :: rest, out, table, meter => do
      let node ← checked (s.nodes.read i)
      if node.parent ≠ context then selectLoop s values step context rest out table meter
      else
        let (selected, table, meter) ←
          functionEval s.program s.patternCapacity node.event step values table meter
        let out ← checked (out.write i selected.truth)
        selectLoop s values step context rest out table meter

/-- Store the evaluated arguments in the value slots of their instructions. -/
def storeArguments (values : Area Value) : List Nat → List Value → Run (Area Value)
  | i :: rest, value :: more => do
      let values ← checked (values.write i value)
      storeArguments values rest more
  | _, _ => .ok values

/-- The event of a literal or binding. -/
def emptyEvent : TreeEvent :=
  { kind := .begin, element := ⟨[], [], by simp, by simp⟩, depth := 0 }

/-- `scalar_call`. -/
def scalarCall (s : Session) (vm : Vm) (f : Frame) (n : Instruction) : Run (Frame × Vm) := do
  let event ← callEvent s f
  match n.function with
  | .position => return ({ f with value := signedValue f.position }, vm)
  | .last => return ({ f with value := signedValue f.last }, vm)
  | .count | .exists | .empty => return ({ f with value := f.a }, vm)
  | .value =>
    let event ← candidateEvent n event
    return ({ f with value := { f.value with kind := .bytes, data := event.element.value } }, vm)
  | .tag =>
    let event ← candidateEvent n event
    return ({ f with value := { f.value with kind := .bytes, data := event.element.tag } }, vm)
  | .constructed =>
    let event ← candidateEvent n event
    let format ← checked s.environment.format
    let constructed := format.isConstructed.any (· event.element.tag)
    return ({ f with value := { f.value with kind := .bool, number := constructed.toNat } }, vm)
  | .tagClass =>
    let event ← candidateEvent n event
    let tags ← checked s.environment.tags
    let decompose ← checked tags.classOf
    let value ← tagNumber n decompose event.element.tag
    return ({ f with value := value }, vm)
  | .number =>
    let event ← candidateEvent n event
    let tags ← checked s.environment.tags
    let decompose ← checked tags.numberOf
    let value ← tagNumber n decompose event.element.tag
    return ({ f with value := value }, vm)
  | .num | .bcd | .text | .date =>
    let (value, meter) ← convertValue s f.instruction vm.meter n event f.a.data
    return ({ f with value := value }, { vm with meter := meter })
  | .mask | .range =>
    let values ← storeArguments vm.values f.args [f.a, f.b]
    let (out, table, meter) ← selectLoop s values { n with anchor := 0 } f.context
      (List.range s.elements) f.out vm.table vm.meter
    return ({ f with out := out, value := { f.value with kind := .node } },
      { vm with values := values, table := table, meter := meter })
  | function =>
    let event ←
      if function = .len ∧ f.args.length = 0 then
        (candidateEvent n event).map some
      else .ok event
    let values ← storeArguments vm.values f.args [f.a, f.b, f.c]
    let (value, table, meter) ← functionEval s.program s.patternCapacity
      (event.getD emptyEvent) n values vm.table vm.meter
    return ({ f with value := value },
      { vm with values := values, table := table, meter := meter })

/-- The first dispatch of a frame. -/
def startFrame (s : Session) (vm : Vm) (top : Nat) (f : Frame) (n : Instruction) :
    Run (Vm × Option Nat) := do
  let f := { f with value := { f.value with kind := n.type } }
  match n.op with
  | .test =>
    let (f, vm) ← testFrame s vm f n
    complete s vm top f
  | .root | .self =>
    let context :=
      if n.op = .self ∨ n.anchor ≠ 0 ∨ n.context = true then f.context else s.nodeCapacity
    let out ← checked (f.out.write context true)
    complete s vm top { f with out := out }
  | .bytes | .string =>
    let data ← s.program.slice n.dataOffset n.dataSize
    complete s vm top { f with value := { f.value with data := data } }
  | .bool => complete s vm top { f with value := { f.value with number := n.folded } }
  | .variableRef =>
    let value ← checked (s.bindings.read n.variableSlot)
    complete s vm top { f with value := value }
  | .literal =>
    complete s vm top
      { f with value := { f.value with negative := n.negative, number := n.immediate } }
  | .metadata =>
    let value ← metadataValue s n f.context
    complete s vm top { f with value := { f.value with number := value } }
  | .call =>
    let arguments ← s.program.argumentWalk 2 n.left []
    match arguments with
    | none => .error .fault
    | some [] =>
      let (f, vm) ← scalarCall s vm { f with args := [] } n
      complete s vm top f
    | some (first :: rest) =>
      suspend s vm top { f with args := first :: rest, stage := 10 } first f.context
        f.position f.last
  | _ =>
    let left ← checked n.left
    suspend s vm top { f with stage := 1 } left f.context f.position f.last

/-- The value of a completed argument, with the node it selects. -/
def argumentResult (s : Session) (n : Instruction) (child : Frame) :
    Run (Value × Option Nat) := do
  if child.value.kind ≠ .node then return (child.value, none)
  else
    let set ← nodeSet s child.out
    let count := set.count
    match n.function with
    | .count => return (signedValue count, none)
    | .exists => return ({ kind := .bool, number := (count ≠ 0 : Bool).toNat }, none)
    | .empty => return ({ kind := .bool, number := (count = 0 : Bool).toNat }, none)
    | .not => return ({ child.value with kind := .bool, number := (count ≠ 0 : Bool).toNat }, none)
    | function =>
      if count ≠ 1 then queryError n .invalidValue .cardinality "exactly one node"
      else
        let selected ← checked ((List.range (s.nodeCapacity + 1)).find? fun i => set.cell i)
        if selected = s.nodeCapacity then
          queryError n .invalidValue .cardinality "one concrete node"
        else if function.isConversion then
          let node ← checked (s.nodes.read selected)
          return ({ child.value with kind := .bytes, data := node.event.element.value },
            some selected)
        else return (child.value, some selected)

/-- Keep an evaluated argument in its slot of the frame. -/
def Frame.setArgument (f : Frame) (k : Nat) (v : Value) : Frame :=
  match k with
  | 0 => { f with a := v }
  | 1 => { f with b := v }
  | _ => { f with c := v }

/-- Start the argument after `k` or apply the function. -/
def nextArgument (s : Session) (vm : Vm) (top : Nat) (f : Frame) (n : Instruction) (k : Nat) :
    Run (Vm × Option Nat) := do
  if k + 1 < f.args.length then
    let next ← checked f.args[k + 1]?
    suspend s vm top { f with stage := f.stage + 1 } next f.context f.position f.last
  else
    let (f, vm) ← scalarCall s vm f n
    let out ←
      if f.value.kind = .node ∧ f.value.truth = true ∧ f.context < s.elements then
        checked (f.out.write f.context true)
      else .ok f.out
    complete s vm top { f with out := out }

/-- Stages from 10 on: an argument of a call is complete. -/
def argumentFrame (s : Session) (vm : Vm) (top : Nat) (f : Frame) (n : Instruction)
    (child : Frame) : Run (Vm × Option Nat) := do
  let k := f.stage - 10
  let (v, selected) ← argumentResult s n child
  let f := { f with selected := selected.or f.selected }
  nextArgument s vm top (f.setArgument k v) n k

/-- Mark the nodes of a stretch, one unit of work each. -/
def markLoop (n : Instruction) : List Nat → Area Bool → Meter → Run (Area Bool × Meter)
  | [], saved, meter => .ok (saved, meter)
  | j :: rest, saved, meter => do
      let meter ← charge meter 1 n
      let saved ← checked (saved.write j true)
      markLoop n rest saved meter

/-- The descendant expansion of `Q_DESC` from concrete nodes. -/
def expandLoop (s : Session) (n : Instruction) :
    List Nat → Area Bool → Meter → Run (Area Bool × Meter)
  | [], saved, meter => .ok (saved, meter)
  | i :: rest, saved, meter => do
      let marked ← checked (saved.read i)
      if marked then
        let node ← checked (s.nodes.read i)
        let (saved, meter) ← markLoop n (List.range' (i + 1) (node.ending - (i + 1))) saved meter
        expandLoop s n rest saved meter
      else expandLoop s n rest saved meter

/-- Mark every concrete node. -/
def markAll (s : Session) (saved : Area Bool) : Area Bool :=
  ⟨saved.size, fun i => i < s.elements || saved.cell i⟩

/-- The contexts of the right operand: `Q_DESC` adds the descendants. -/
def expandSet (s : Session) (n : Instruction) (saved : Area Bool) (meter : Meter) :
    Run (Area Bool × Meter) :=
  if n.op = .desc then
    if saved.cell s.nodeCapacity then .ok (markAll s saved, meter)
    else expandLoop s n (List.range s.elements) saved meter
  else .ok (saved, meter)

/-- The selector below a chain of ungrouped predicates. -/
def axisSelector (p : Program) : Nat → Nat → Run Instruction
  | 0, _ => .error .fault
  | fuel + 1, i => do
      let n ← p.fetch i
      if n.op = .filter ∧ n.grouped = false then
        let left ← checked n.left
        axisSelector p fuel left
      else return n

/-- Stage 3: start the right operand in the next member of the saved set. -/
def scanFrame (s : Session) (vm : Vm) (top : Nat) (f : Frame) (n : Instruction) :
    Run (Vm × Option Nat) := do
  let left ← checked n.left
  let selector ← axisSelector s.program s.program.count left
  let reverse :=
    n.op = .filter ∧ selector.grouped = false ∧ selector.op = .test ∧
      selector.axis.isReverse = true
  let index (k : Nat) : Nat := if reverse then s.nodeCapacity - k else k
  let saved ← nodeSet s f.saved
  match (List.range' f.cursor (s.nodeCapacity + 1 - f.cursor)).find? fun k =>
      saved.cell (index k) with
  | none => complete s vm top f
  | some cursor =>
    let right ← checked n.right
    let f :=
      { f with cursor := cursor, selected := some (index cursor), ordinal := f.ordinal + 1,
               stage := 4 }
    suspend s vm top f right (index cursor) (if n.op = .filter then f.ordinal else 1)
      (if n.op = .filter then f.length else 1)

/-- Stage 1: the left operand is complete. -/
def leftFrame (s : Session) (vm : Vm) (top : Nat) (f : Frame) (n : Instruction)
    (child : Frame) : Run (Vm × Option Nat) := do
  let set ← nodeSet s child.out
  let f := { f with a := child.value, saved := set }
  if n.op = .child ∨ n.op = .desc ∨ n.op = .filter then
    let (saved, meter) ← expandSet s n f.saved vm.meter
    scanFrame s { vm with meter := meter } top
      { f with saved := saved, cursor := 0, length := saved.count } n
  else
    let right ← checked n.right
    suspend s vm top { f with stage := 2 } right f.context f.position f.last

/-- The comparison of stage 2. -/
def retainedCompare (meter : Meter) (n : Instruction) (a b : Value) : Run (Ordering × Meter) :=
  match a.kind with
  | .number => .ok (Ord.compare (signedInteger a) (signedInteger b), meter)
  | .bool => .ok (Ord.compare a.number b.number, meter)
  | _ => do
      let meter ← charge meter (min a.data.length b.data.length) n
      return (bytesCompare a.data b.data, meter)

/-- Stage 2: the right operand is complete. -/
def rightFrame (s : Session) (vm : Vm) (top : Nat) (f : Frame) (n : Instruction) (child : Frame) :
    Run (Vm × Option Nat) := do
  let f := { f with b := child.value }
  let saved ← nodeSet s f.saved
  let set ← nodeSet s child.out
  match n.op with
  | .union => complete s vm top { f with out := saved.combine (· || ·) set }
  | .intersect => complete s vm top { f with out := saved.combine (· && ·) set }
  | .except => complete s vm top { f with out := saved.combine (fun x y => x && !y) set }
  | .and =>
    complete s vm top
      { f with value := { f.value with number := (f.a.truth && f.b.truth).toNat } }
  | .or =>
    complete s vm top
      { f with value := { f.value with number := (f.a.truth || f.b.truth).toNat } }
  | op =>
    let (order, meter) ← retainedCompare vm.meter n f.a f.b
    complete s { vm with meter := meter } top
      { f with value := { f.value with number := (op.holds order).toNat } }

/-- Stage 4: the right operand is complete for one member. -/
def memberFrame (s : Session) (vm : Vm) (top : Nat) (f : Frame) (n : Instruction)
    (child : Frame) : Run (Vm × Option Nat) := do
  let out ←
    if n.op = .filter then
      let yes :=
        if child.value.kind = .number then
          !child.value.negative && child.value.number = f.ordinal
        else child.value.truth
      if yes then
        let selected ← checked f.selected
        checked (f.out.write selected true)
      else .ok f.out
    else
      let set ← nodeSet s child.out
      let out ← nodeSet s f.out
      .ok (out.combine (· || ·) set)
  scanFrame s vm top { f with out := out, cursor := f.cursor + 1 } n

/-- The work of one dispatch: the frame and its node sets. -/
def stepCost (s : Session) : Nat :=
  1 + 5 * (s.nodeCapacity + 1)

/-- Resume a frame at its stage. -/
def dispatchFrame (s : Session) (vm : Vm) (top : Nat) (f : Frame) (n : Instruction) :
    Run (Vm × Option Nat) := do
  if f.stage = 0 then startFrame s vm top f n
  else
    let child ← checked (vm.frames.read (top + 1))
    if f.stage ≥ 10 then argumentFrame s vm top f n child
    else if f.stage = 1 then leftFrame s vm top f n child
    else if f.stage = 2 then rightFrame s vm top f n child
    else if f.stage = 4 then memberFrame s vm top f n child
    else if f.stage = 3 then scanFrame s vm top f n
    else queryError n .invalidArg .events "valid execution operation"

/-- One dispatch of the loop of `query_retained_finish`. -/
def retainedStep (s : Session) (vm : Vm) (top : Nat) : Run (Vm × Option Nat) := do
  let f ← checked (vm.frames.read top)
  let n ← s.program.fetch f.instruction
  let meter ← charge vm.meter (stepCost s) n
  dispatchFrame s { vm with meter := meter } top f n

/-- A dispatch of the loop unless the root frame is complete. -/
def retainedDispatch (s : Session) (x : Vm × Option Nat) : Run (Vm × Option Nat) :=
  match x.2 with
  | none => .ok x
  | some top => retainedStep s x.1 top

/-- The dispatch loop. Every dispatch consumes work, so the work left bounds the number of
dispatches. -/
def retainedLoop (s : Session) (vm : Vm) : Run Vm := do
  let (vm, _) ← drive .fault (·.2.isNone) (retainedDispatch s) (vm.meter.left + 1) (vm, some 0)
  return vm

end OpenTlv.Query
