import OpenTlv.Query.Value

/-!
# The streaming engines

`evaluate`, `s1_feed` and `s1_decide` of `execute.c`. The immediate engine runs every
instruction once for every published node and keeps one row of marks for each open depth. The
scope engine selects root nodes, counts the evidence of its predicate below them and decides at
the end of the scope.
-/

namespace OpenTlv.Query

/-- The bits of a state byte: the instruction holds for the node; it holds for the node or an
ancestor; its tag test holds for the node or an ancestor; its tag test holds for the node or an
earlier sibling. -/
structure Mark where
  holds : Bool := false
  reaches : Bool := false
  above : Bool := false
  before : Bool := false
  deriving Repr, DecidableEq, Inhabited

/-- What the streaming engines read of an execution. -/
structure View where
  program : Program
  bindings : Area Value
  indexes : Area Nat
  patternCapacity : Nat
  context : Option Nat
  contextActive : Bool
  contextDepth : Nat
  ordinal : Nat

/-- What the streaming engines change of an execution. -/
structure Cells where
  meter : Meter
  values : Area Value
  table : Area Nat
  states : Area Mark

/-- The value of an operand; an absent one is zero. -/
def operand (values : Area Value) : Option Nat → Run Value
  | none => .ok {}
  | some i => checked (values.read i)

/-- `memset` of the value slots. -/
def clearValues (p : Program) (values : Area Value) : Run (Area Value) :=
  if p.count ≤ values.size then
    .ok ⟨values.size, fun i => if i < p.count then {} else values.cell i⟩
  else .error .fault

/-- Clear the row of a depth except the sibling history. -/
def clearRow (p : Program) (states : Area Mark) (depth : Nat) : Run (Area Mark) :=
  let row := depth * p.count
  if row + p.count ≤ states.size then
    .ok ⟨states.size, fun i =>
      if row ≤ i ∧ i < row + p.count then { before := (states.cell i).before }
      else states.cell i⟩
  else .error .fault

/-- The mark of an instruction in the row of the parent; a root node has none. -/
def parentMark (p : Program) (states : Area Mark) (depth i : Nat) : Run Mark :=
  if depth = 0 then .ok {} else checked (states.read ((depth - 1) * p.count + i))

/-- `root_prefix`. -/
def rootPrefix (v : View) (root : Instruction) (depth : Nat) (kind : PathKind) : Bool :=
  if root.anchor = 0 ∨ v.context.isNone then kind = .desc || depth = 0
  else v.contextActive && (if kind = .desc then depth > v.contextDepth
    else depth = v.contextDepth + 1)

/-- Whether the predicate context of an instruction holds. -/
def predicateActive (n : Instruction) (values : Area Value) : Run Bool := do
  match n.predicateGuard with
  | none => return true
  | some g => return (← checked (values.read g)).truth

/-- Whether the path before an instruction holds. -/
def pathActive (v : View) (n : Instruction) (event : TreeEvent) (c : Cells) : Run Bool := do
  match n.pathGuard with
  | none => return true
  | some g =>
    if n.pathKind = .self then return (← checked (c.values.read g)).truth
    else
      let root ← v.program.fetch g
      if root.op = .root then return rootPrefix v root event.depth n.pathKind
      else
        let mark ← parentMark v.program c.states event.depth g
        return if n.pathKind = .desc then mark.reaches else mark.holds

/-- The decision of a tag test from its raw comparison. -/
def testHolds (v : View) (n : Instruction) (event : TreeEvent) (raw : Bool) (parent : Mark)
    (history : Bool) : Bool :=
  match n.axis with
  | .precedeSibling => history
  | .ancestor => parent.above
  | .desc =>
    raw && (n.anchor = 0 || v.context.isNone ||
      (v.contextActive && event.depth > v.contextDepth))
  | axis =>
    if axis = .self ∧ n.anchor ≠ 0 then raw && v.context = some v.ordinal
    else
      raw && (n.anchor = 0 ||
        (if v.context.isSome then v.contextActive && event.depth = v.contextDepth + 1
          else event.depth = 0))

/-- The metadata of the event. -/
def eventMetadata (v : View) (n : Instruction) (event : TreeEvent) : Run Nat := do
  match Metadata.ofCode n.selector with
  | .len => return event.element.value.length
  | .depth => return event.depth
  | .index => checked (v.indexes.read event.depth)
  | selected =>
    match sourceMetadata event (selected = .hlen) with
    | .ok value => return value
    | .error status =>
      queryError n status (if status = .invalidArg then .events else .source)
        "Source metadata"

/-- `Q_TEST`: a shared test takes the value and the mark of the first one. -/
def testValue (v : View) (n : Instruction) (event : TreeEvent) (c : Cells) (i : Nat)
    (active : Bool) : Run (Value × Mark × Meter) := do
  match n.reuse with
  | some j =>
    let value ← checked (c.values.read j)
    let mark ← checked (c.states.read (event.depth * v.program.count + j))
    return (value, mark, c.meter)
  | none =>
    let meter ← charge c.meter event.element.tag.length n
    let raw ← planTag v.program n event.element.tag
    let old ← checked (c.states.read (event.depth * v.program.count + i))
    let parent ← parentMark v.program c.states event.depth i
    let mark : Mark := { above := raw || parent.above, before := old.before || raw }
    let holds := testHolds v n event raw parent old.before
    return ({ number := (holds && active).toNat }, mark, meter)

/-- The value of an instruction other than a tag test. -/
def instructionValue (v : View) (n : Instruction) (event : TreeEvent) (c : Cells) (a b : Value) :
    Run (Value × Area Nat × Meter) := do
  let same (value : Value) : Run (Value × Area Nat × Meter) := .ok (value, c.table, c.meter)
  match n.op with
  | .test => same {}
  | .root =>
    same { number := (decide (n.anchor ≠ 0) && v.context = some v.ordinal).toNat }
  | .self => same { number := 1 }
  | .child | .desc => same { number := b.truth.toNat }
  | .filter | .intersect => same { number := (a.truth && b.truth).toNat }
  | .union => same { number := (a.truth || b.truth).toNat }
  | .except => same { number := (a.truth && !b.truth).toNat }
  | .and => same { kind := .bool, number := (a.truth && b.truth).toNat }
  | .or => same { kind := .bool, number := (a.truth || b.truth).toNat }
  | .metadata =>
    let value ← eventMetadata v n event
    if value > int64Max then
      queryError n .overflow .capability "metadata representable as int64"
    else same { kind := .number, number := value }
  | .literal => same { kind := .number, number := n.immediate, negative := n.negative }
  | .bytes => same { kind := .bytes, data := ← v.program.slice n.dataOffset n.dataSize }
  | .string => same { kind := .string, data := ← v.program.slice n.dataOffset n.dataSize }
  | .bool => same { kind := .bool, number := n.folded }
  | .variableRef => same (← checked (v.bindings.read n.variableSlot))
  | .args => same b
  | .call => functionEval v.program v.patternCapacity event n c.values c.table c.meter
  | op =>
    let (order, meter) ← compareValues c.meter a b n
    return ({ kind := .bool, number := (op.holds order).toNat }, c.table, meter)

/-- The label `store_value`. -/
def storeValue (v : View) (event : TreeEvent) (c : Cells) (i : Nat) (value : Value)
    (mark : Mark) : Run Cells := do
  let values ← checked (c.values.write i value)
  let parent ← parentMark v.program c.states event.depth i
  let mark :=
    { mark with
      holds := mark.holds || value.truth
      reaches := mark.reaches || value.truth || parent.reaches }
  let states ← checked (c.states.write (event.depth * v.program.count + i) mark)
  return { c with values := values, states := states }

/-- One instruction of `evaluate`. -/
def evaluateStep (v : View) (event : TreeEvent) (c : Cells) (i : Nat) : Run Cells := do
  let n ← v.program.fetch i
  let a ← operand c.values n.left
  let b ← operand c.values n.right
  let meter ← charge c.meter 1 n
  let c := { c with meter := meter }
  let inPredicate ← predicateActive n c.values
  let inPath ← pathActive v n event c
  let active := inPredicate && inPath
  if n.op = .test then
    let (value, mark, meter) ← testValue v n event c i active
    storeValue v event { c with meter := meter } i value mark
  else
    let old ← checked (c.states.read (event.depth * v.program.count + i))
    if active then
      let (value, table, meter) ← instructionValue v n event c a b
      storeValue v event { c with table := table, meter := meter } i value old
    else storeValue v event c i {} old

/-- `evaluate`: whether the program matches the node of an event. -/
def evaluate (v : View) (event : TreeEvent) (c : Cells) : Run (Cells × Bool) := do
  let values ← clearValues v.program c.values
  let states ← clearRow v.program c.states event.depth
  let c ← (List.range v.program.count).foldlM (evaluateStep v event)
    { c with values := values, states := states }
  let root ← checked (c.values.read v.program.root)
  return (c, root.truth)

/-- The value of one instruction of the predicate at the end of its scope. -/
def decideValue (n : Instruction) (a b : Value) (meter : Meter) : Run (Value × Meter) := do
  match n.op with
  | .literal =>
    return ({ kind := n.type, negative := n.negative, number := n.immediate }, meter)
  | .bool => return ({ kind := n.type, number := n.folded }, meter)
  | .call =>
    let number :=
      if n.function = .count then a.number
      else if n.function = .exists then a.truth.toNat
      else (!a.truth).toNat
    return ({ kind := n.type, number := number }, meter)
  | .and => return ({ kind := n.type, number := (a.truth && b.truth).toNat }, meter)
  | .or => return ({ kind := n.type, number := (a.truth || b.truth).toNat }, meter)
  | op =>
    let counted (v : Value) : Value :=
      if v.kind = .node then { v with number := v.truth.toNat } else v
    let (order, meter) ← compareValues meter (counted a) (counted b) n
    return ({ kind := n.type, number := (op.holds order).toNat }, meter)

/-- One instruction of `s1_decide`. Tag tests keep the count collected in the scope. -/
def decideStep (p : Program) (c : Cells) (i : Nat) : Run Cells := do
  let n ← p.fetch i
  let a ← operand c.values n.left
  let b ← operand c.values n.right
  let meter ← charge c.meter 1 n
  if n.op = .test then return { c with meter := meter }
  else
    let (value, meter) ← decideValue n a b meter
    let values ← checked (c.values.write i value)
    return { c with values := values, meter := meter }

/-- The instructions of a predicate. -/
def predicateRange (p : Program) (predicate : Nat) : Run (List Nat) := do
  let n ← p.fetch predicate
  return List.range' n.low (predicate + 1 - n.low)

/-- The filter of a scope program with its selector and its predicate. -/
def scopeParts (p : Program) : Run (Instruction × Nat) := do
  let filter ← checked (s1Filter p.get p.count p.root)
  let n ← p.fetch filter
  let left ← checked n.left
  let selector ← p.fetch left
  let predicate ← checked n.right
  return (selector, predicate)

/-- `s1_decide`: the truth of the predicate for the selected scope. -/
def s1Decide (p : Program) (c : Cells) (selected : Bool) : Run (Cells × Bool) := do
  let (_, predicate) ← scopeParts p
  let range ← predicateRange p predicate
  let c ← range.foldlM (decideStep p) c
  let value ← checked (c.values.read predicate)
  return (c, selected && value.truth)

/-- The evidence of one instruction of the predicate in a node of the scope. -/
def collectStep (p : Program) (event : TreeEvent) (c : Cells) (i : Nat) : Run Cells := do
  let n ← p.fetch i
  if n.op ≠ .test ∨ (n.axis = .child ∧ event.depth ≠ 1) then return c
  else
    let meter ← charge c.meter 1 n
    let meter ← charge meter event.element.tag.length n
    let value ← checked (c.values.read i)
    let matched ← planTag p n event.element.tag
    if matched then
      if value.number = int64Max then queryLimit n "counter" int64Max
      else
        let values ← checked (c.values.write i
          { value with kind := .node, number := value.number + 1 })
        return { c with meter := meter, values := values }
    else
      let values ← checked (c.values.write i { value with kind := .node })
      return { c with meter := meter, values := values }

/-- The first event of a scope: clear the counts and test the selector. -/
def scopeStart (p : Program) (event : TreeEvent) (c : Cells) : Run (Cells × Bool) := do
  let (selector, _) ← scopeParts p
  let values ← clearValues p c.values
  let meter ← charge c.meter 1 selector
  let meter ← charge meter event.element.tag.length selector
  let selected ← planTag p selector event.element.tag
  return ({ c with meter := meter, values := values }, selected)

/-- An event below the root of a selected scope. -/
def scopeCollect (p : Program) (event : TreeEvent) (c : Cells) : Run Cells := do
  let (_, predicate) ← scopeParts p
  let range ← predicateRange p predicate
  range.foldlM (collectStep p event) c

end OpenTlv.Query
