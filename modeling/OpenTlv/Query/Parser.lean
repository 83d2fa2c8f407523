import OpenTlv.Query.Lexer

/-!
# The parser of the query compiler

`parse` of `compiler.c`: the tokens are read from the front with a stack of pending operators and a
stack of the instructions whose values are still to be used. An operator is reduced to an
instruction when one that binds no tighter follows it, when its bracket closes, or at the end.
Both stacks and the instructions lie in areas of the compile scratch.
-/

namespace OpenTlv.Query

/-- `query_operator_t`: a pending operator or an open bracket. `base` is the number of values below
a bracket, and `function` the token of the function that is called. -/
structure Operator where
  kind : TokenKind
  token : Nat
  base : Nat := 0
  function : Option Nat := none
  deriving Repr, DecidableEq

/-- `precedence`. -/
def precedence : TokenKind → Nat
  | .comma => 1
  | .union => 2
  | .intersect | .except => 6
  | .or => 3
  | .and => 4
  | .eq | .ne | .lt | .le | .gt | .ge => 5
  | .slash | .desc => 7
  | _ => 0

/-- `operation`. -/
def operation : TokenKind → Op
  | .comma => .args
  | .union => .union
  | .intersect => .intersect
  | .except => .except
  | .or => .or
  | .and => .and
  | .eq => .eq
  | .ne => .ne
  | .lt => .lt
  | .le => .le
  | .gt => .gt
  | .ge => .ge
  | .desc => .desc
  | _ => .child

/-- A step separator. -/
def TokenKind.isStep (kind : TokenKind) : Bool :=
  kind = .slash || kind = .desc

/-- `query_axis_name`. -/
def axisName : Axis → Bytes
  | .child => asciiText "child"
  | .self => asciiText "self"
  | .desc => asciiText "descendant"
  | .ancestor => asciiText "ancestor"
  | .descSelf => asciiText "descendant-or-self"
  | .parent => asciiText "parent"
  | .ancestorSelf => asciiText "ancestor-or-self"
  | .followSibling => asciiText "following-sibling"
  | .precedeSibling => asciiText "preceding-sibling"
  | .follow => asciiText "following"
  | .precede => asciiText "preceding"

/-- The variables of `parse`. -/
structure Parsing where
  nodes : Stack Instruction
  ops : Stack Operator
  values : Stack Nat
  nesting : Nat := 0
  predicates : Nat := 0
  expected : Bool := true
  afterPath : Bool := false

/-- The first instruction below an operand, at most `low`. -/
def lowest (nodes : Stack Instruction) (operand : Option Nat) (low : Nat) : Run Nat :=
  match operand with
  | none => .ok low
  | some i => do
      let node ← checked (nodes.read i)
      return min node.low low

/-- `add_node`: the instructions with a new one, and its place. -/
def addNode (nodes : Stack Instruction) (op : Op) (left right : Option Nat) (token : Token) :
    Run (Stack Instruction × Nat) := do
  let low ← lowest nodes left nodes.size
  let low ← lowest nodes right low
  let added ← checked (nodes.push
    { op := op, left := left, right := right, start := token.start, stop := token.stop,
      low := low })
  return (added, nodes.size)

/-- A pending value is taken. -/
def popValue (values : Stack Nat) : Run (Nat × Stack Nat) :=
  checked values.pop

/-- A new instruction on top of the values that its operands left. -/
def Parsing.addValue (s : Parsing) (op : Op) (left right : Option Nat) (token : Token) :
    Run Parsing := do
  let (nodes, node) ← addNode s.nodes op left right token
  let values ← checked (s.values.push node)
  return { s with nodes := nodes, values := values }

/-- `reduce`: the operator joins the last two values, or it lacks one. -/
def Parsing.reduce (tokens : Stack Token) (op : Operator) (s : Parsing) : Run (Option Parsing) :=
  if s.values.size < 2 then .ok none
  else do
    let (right, values) ← popValue s.values
    let (left, values) ← popValue values
    let token ← checked (tokens.read op.token)
    let s ← { s with values := values }.addValue (operation op.kind) (some left) (some right) token
    return some s

/-- The pending operators that bind at least as tightly as `least` are reduced, the last one
first. -/
def Parsing.reduceWhile (tokens : Stack Token) (least : Nat) : Nat → Parsing → Run (Option Parsing)
  | 0, s => .ok (some s)
  | pending + 1, s =>
    match s.ops.pop with
    | none => .ok (some s)
    | some (op, ops) =>
      if precedence op.kind < least then .ok (some s)
      else do
        match ← { s with ops := ops }.reduce tokens op with
        | none => return none
        | some s => s.reduceWhile tokens least pending

/-- The syntax error at a token. -/
def Parsing.syntaxError {α : Type} (s : Parsing) (t : Token) : Run α :=
  .error (syntaxAt t.start t.stop
    (if s.expected then "expression or step" else "operator or closing delimiter"))

/-- A bracket is opened. -/
def Parsing.openBracket (s : Parsing) (maxNesting : Nat) (t : Token) (op : Operator) :
    Run Parsing :=
  if s.nesting = maxNesting then .error (limitedAt "nesting" maxNesting t.start t.stop)
  else do
    let ops ← checked (s.ops.push op)
    return { s with ops := ops, nesting := s.nesting + 1 }

/-- A change of the instruction that the last value stands for. -/
def Parsing.changeLast (s : Parsing) (change : Instruction → Instruction) : Run Parsing := do
  let node ← checked s.values.top
  let nodes ← checked (s.nodes.update node change)
  return { s with nodes := nodes }

/-- The argument of a call: the value above its base, if there is one. -/
def callArgument (values : Stack Nat) (base : Nat) : Run (Option Nat × Stack Nat) :=
  if values.size = base then .ok (none, values)
  else do
    let (value, values) ← popValue values
    return (some value, values)

/-- Whether the token in front of `i` is a step separator. -/
def followsStep (tokens : Stack Token) (i : Nat) : Run Bool :=
  if i = 0 then .ok false
  else do
    let before ← checked (tokens.read (i - 1))
    return before.kind.isStep

/-- The arguments of a call are complete: what is left above its base is its argument. -/
def Parsing.closeCall (tokens : Stack Token) (s : Parsing) (t : Token) (base function : Nat) :
    Run Parsing :=
  if s.values.size ≠ base ∧ (s.expected = true ∨ s.values.size ≠ base + 1) then s.syntaxError t
  else do
    let (argument, values) ← callArgument s.values base
    let token ← checked (tokens.read function)
    let s ← { s with values := values }.addValue .call argument none token
    let step ← followsStep tokens function
    s.changeLast fun node => { node with anchor := (s.predicates = 0 && !step).toNat }

/-- A predicate is complete: it filters the value below it. -/
def Parsing.closePredicate (tokens : Stack Token) (s : Parsing) (t : Token) (op : Operator) :
    Run Parsing :=
  if s.expected = true ∨ s.values.size ≠ op.base + 1 ∨ op.base = 0 then s.syntaxError t
  else do
    let (right, values) ← popValue s.values
    let (left, values) ← popValue values
    let token ← checked (tokens.read op.token)
    let s ← { s with values := values }.addValue .filter (some left) (some right) token
    return { s with predicates := s.predicates - 1 }

/-- A group is complete: its value is marked. -/
def Parsing.closeGroup (s : Parsing) (t : Token) (base : Nat) : Run Parsing :=
  if s.expected = true ∨ s.values.size ≠ base + 1 then s.syntaxError t
  else s.changeLast fun node => { node with grouped := true }

/-- What an opening bracket asks to be done when it closes. -/
def Parsing.close (tokens : Stack Token) (s : Parsing) (t : Token) (op : Operator) : Run Parsing :=
  match op.function with
  | some function => s.closeCall tokens t op.base function
  | none =>
    if op.kind = .predicateOpening then s.closePredicate tokens t op
    else s.closeGroup t op.base

/-- A closing bracket. -/
def Parsing.closeBracket (tokens : Stack Token) (s : Parsing) (t : Token) : Run Parsing := do
  match ← s.reduceWhile tokens 1 s.ops.size with
  | none => s.syntaxError t
  | some s =>
    match s.ops.pop with
    | none => s.syntaxError t
    | some (op, ops) =>
      if (t.kind = .closing ∧ op.kind ≠ .opening) ∨
          (t.kind = .predicateClosing ∧ op.kind ≠ .predicateOpening) then s.syntaxError t
      else do
        let s ← { s with ops := ops, nesting := s.nesting - 1 }.close tokens t op
        return { s with expected := false, afterPath := false }

/-- The left operand of an operator: what is there, or the root in front of a step separator. -/
def Parsing.leftOperand (s : Parsing) (t : Token) : Run Parsing :=
  if s.expected then s.addValue .root none none t else .ok s

/-- An operator between two operands, or a step separator that starts at the root. -/
def Parsing.operator (tokens : Stack Token) (s : Parsing) (t : Token) (i : Nat) : Run Parsing :=
  if s.expected = true ∧ t.kind.isStep = false then s.syntaxError t
  else do
    let s ← s.leftOperand t
    match ← s.reduceWhile tokens (precedence t.kind) s.ops.size with
    | none => s.syntaxError t
    | some s => do
        let ops ← checked (s.ops.push { kind := t.kind, token := i })
        return { s with ops := ops, expected := true, afterPath := t.kind.isStep }

/-- The operation of a token that is an operand by itself. -/
def operandOp : TokenKind → Option Op
  | .dot => some .self
  | .ddot => some .test
  | .metadata => some .metadata
  | .variableRef => some .variableRef
  | .bytes => some .bytes
  | .string => some .string
  | .word => some .test
  | _ => none

/-- A single operand on an axis. -/
def Parsing.operand (maxStates : Nat) (s : Parsing) (t : Token) (axis : Axis) : Run Parsing :=
  match operandOp t.kind with
  | none => s.syntaxError t
  | some op => do
      let free := s.predicates = 0 && !s.afterPath
      let scalar : Bool := s.predicates ≠ 0
      let op := if op = .self && free then .root else op
      let axis := if t.kind = .ddot then .parent else axis
      let s ← s.addValue op none none t
      let s ← s.changeLast fun node =>
        { node with axis := axis, anchor := free.toNat, scalar := scalar }
      if s.nodes.size > maxStates then .error (limitedAt "states" maxStates t.start t.stop)
      else return { s with expected := false, afterPath := false }

/-- The kind of the token at `i`, if there is one. -/
def kindAt (tokens : Stack Token) (i : Nat) : Option TokenKind :=
  (tokens.read i).map Token.kind

/-- A step with the name of its axis: the token of its tag, and the axis. -/
def Parsing.axisStep (text : Bytes) (tokens : Stack Token) (s : Parsing) (t : Token) (i : Nat) :
    Run (Token × Axis) :=
  match Axis.all.find? fun axis => axisName axis = spelled text t.start t.stop with
  | none => .error (syntaxAt t.start t.stop "known axis")
  | some axis =>
    match tokens.read (i + 2) with
    | some tag => if tag.kind = .word then .ok (tag, axis) else s.syntaxError t
    | none => s.syntaxError t

/-- What `parse` reads of the compile options. -/
structure ParseLimits where
  maxNesting : Nat
  maxStates : Nat

/-- The body of the loop of `parse`: the next token to read, and the variables after it. -/
def Parsing.token (text : Bytes) (tokens : Stack Token) (limits : ParseLimits) (i : Nat) (t : Token)
    (s : Parsing) : Run (Nat × Parsing) :=
  if t.kind = .opening ∨ t.kind = .predicateOpening then
    if (t.kind = .predicateOpening ∧ s.expected = true) ∨
        (t.kind = .opening ∧ s.expected = false) then s.syntaxError t
    else do
      let s ← s.openBracket limits.maxNesting t
        { kind := t.kind, token := i, base := s.values.size }
      let inner := if t.kind = .predicateOpening then s.predicates + 1 else s.predicates
      return (i + 1, { s with predicates := inner, expected := true, afterPath := false })
  else if t.kind = .closing ∨ t.kind = .predicateClosing then do
    return (i + 1, ← s.closeBracket tokens t)
  else if precedence t.kind ≠ 0 then do return (i + 1, ← s.operator tokens t i)
  else if s.expected = false then s.syntaxError t
  else if t.kind = .word ∧ kindAt tokens (i + 1) = some .opening then do
    let s ← s.openBracket limits.maxNesting t
      { kind := .opening, token := i + 1, base := s.values.size, function := some i }
    return (i + 2, { s with afterPath := false })
  else if t.kind = .word ∧ kindAt tokens (i + 1) = some .axis then do
    let (tag, axis) ← s.axisStep text tokens t i
    return (i + 3, ← s.operand limits.maxStates tag axis)
  else do return (i + 1, ← s.operand limits.maxStates t .child)

/-- The loop of `parse` from token `i` on. -/
def Parsing.tokens (text : Bytes) (tokens : Stack Token) (limits : ParseLimits) :
    Nat → Nat → Parsing → Run Parsing
  | 0, i, s => if tokens.size ≤ i then .ok s else .error .fault
  | fuel + 1, i, s =>
    match tokens.read i with
    | none => .ok s
    | some t => do
        let (next, s) ← s.token text tokens limits i t
        s.tokens text tokens limits fuel next

/-- The place behind the last token. -/
def textEnd (tokens : Stack Token) : Nat :=
  (tokens.top.map Token.stop).getD 0

/-- What `parse` does behind the last token: the instructions and the root. -/
def Parsing.finish (tokens : Stack Token) (maxStates : Nat) (s : Parsing) :
    Run (Stack Instruction × Nat) :=
  let place := textEnd tokens
  if s.nesting ≠ 0 then .error (syntaxAt place place "closing delimiter")
  else if s.expected then .error (syntaxAt place place "expression")
  else do
    match ← s.reduceWhile tokens 0 s.ops.size with
    | none => .error (syntaxAt 0 0 "complete expression operands")
    | some s =>
      if s.values.size ≠ 1 then .error (syntaxAt 0 0 "one expression result")
      else if s.nodes.size > maxStates then .error (limitedAt "states" maxStates 0 0)
      else do
        let root ← checked s.values.top
        return (s.nodes, root)

/-- `parse`: the instructions and the root. The three areas come from the compile scratch. -/
def parse (text : Bytes) (tokens : Stack Token) (limits : ParseLimits) (nodes : Stack Instruction)
    (ops : Stack Operator) (values : Stack Nat) : Run (Stack Instruction × Nat) := do
  let s ← Parsing.tokens text tokens limits tokens.size 0
    { nodes := nodes, ops := ops, values := values }
  s.finish tokens limits.maxStates

end OpenTlv.Query
