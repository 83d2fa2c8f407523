import OpenTlv.Core.Status

/-!
# Execution plans

The instruction set of `query/plan.h` and the two validators of an external image:
`query_program_valid` of `program_internal.h` and `plan_types` of `plan.c`. A plan is a list of
instructions in which every link points backward, a text that only diagnostics read and a
payload of constants.

The image stores every field as a 32-bit word. `Program` is what an image decodes to: the
enumerations and flags are checked while decoding, which is the first condition of
`query_program_valid`, and a link is present or absent.
-/

namespace OpenTlv.Query

/-- `tlv_query_plan_opcode_t`. -/
inductive Op where
  | test
  | root
  | self
  | metadata
  | literal
  | bytes
  | string
  | variableRef
  | child
  | desc
  | filter
  | union
  | intersect
  | except
  | eq
  | ne
  | lt
  | le
  | gt
  | ge
  | and
  | or
  | call
  | args
  | bool
  deriving Repr, DecidableEq, Inhabited

/-- The opcodes in the order of the enumeration. -/
def Op.all : List Op :=
  [.test, .root, .self, .metadata, .literal, .bytes, .string, .variableRef, .child, .desc,
    .filter, .union, .intersect, .except, .eq, .ne, .lt, .le, .gt, .ge, .and, .or, .call, .args,
    .bool]

/-- `tlv_query_plan_axis_t`. -/
inductive Axis where
  | child
  | self
  | desc
  | ancestor
  | descSelf
  | parent
  | ancestorSelf
  | followSibling
  | precedeSibling
  | follow
  | precede
  deriving Repr, DecidableEq, Inhabited

/-- The axes in the order of the enumeration. -/
def Axis.all : List Axis :=
  [.child, .self, .desc, .ancestor, .descSelf, .parent, .ancestorSelf, .followSibling,
    .precedeSibling, .follow, .precede]

/-- `tlv_query_plan_function_t`. -/
inductive Fn where
  | value
  | len
  | not
  | starts
  | ends
  | contains
  | substr
  | mask
  | range
  | count
  | exists
  | empty
  | position
  | last
  | num
  | bcd
  | text
  | date
  | tag
  | tagClass
  | constructed
  | number
  | name
  | unknown
  deriving Repr, DecidableEq, Inhabited

/-- The functions in the order of the enumeration. -/
def Fn.all : List Fn :=
  [.value, .len, .not, .starts, .ends, .contains, .substr, .mask, .range, .count, .exists,
    .empty, .position, .last, .num, .bcd, .text, .date, .tag, .tagClass, .constructed, .number,
    .name]

/-- `tlv_query_plan_metadata_t`. -/
inductive Metadata where
  | len
  | depth
  | index
  | offset
  | hlen
  deriving Repr, DecidableEq, Inhabited

/-- `enum query_value_kind`. -/
inductive Kind where
  | node
  | bool
  | number
  | bytes
  | string
  deriving Repr, DecidableEq, Inhabited

/-- `tlv_query_level_t`. -/
inductive Level where
  | s0
  | s1
  | s2
  | d
  deriving Repr, DecidableEq, Inhabited

/-- The operation of a path guard. Other words occur only without a guard. -/
inductive PathKind where
  | child
  | desc
  | self
  | other (word : Nat)
  deriving Repr, DecidableEq, Inhabited

/-- The code of an opcode. -/
def Op.code (op : Op) : Nat :=
  Op.all.idxOf op

/-- The code of an axis. -/
def Axis.code (axis : Axis) : Nat :=
  Axis.all.idxOf axis

/-- The function selected by a word; words past the enumeration are unknown. -/
def Fn.ofCode (word : Nat) : Fn :=
  Fn.all[word]?.getD .unknown

/-- The code of a function. -/
def Fn.code (fn : Fn) : Nat :=
  Fn.all.idxOf fn

/-- The metadata selected by a word. The engines treat every other word as the offset. -/
def Metadata.ofCode : Nat → Metadata
  | 0 => .len
  | 1 => .depth
  | 2 => .index
  | 4 => .hlen
  | _ => .offset

/-- The code of a value category. -/
def Kind.code : Kind → Nat
  | .node => 0
  | .bool => 1
  | .number => 2
  | .bytes => 3
  | .string => 4

/-- The code of a level. -/
def Level.code : Level → Nat
  | .s0 => 0
  | .s1 => 1
  | .s2 => 2
  | .d => 3

/-- `Q_CHILD` to `Q_OR`: the instructions with two operands, besides `Q_ARGS`. -/
def Op.isOperator : Op → Bool
  | .child | .desc | .filter | .union | .intersect | .except | .eq | .ne | .lt | .le | .gt | .ge
  | .and | .or => true
  | _ => false

/-- `Q_UNION` to `Q_EXCEPT`. -/
def Op.isSetOperation : Op → Bool
  | .union | .intersect | .except => true
  | _ => false

/-- `Q_EQ` to `Q_GE`. -/
def Op.isComparison : Op → Bool
  | .eq | .ne | .lt | .le | .gt | .ge => true
  | _ => false

/-- `F_NUM` to `F_DATE`: the conversions through a codec hook. -/
def Fn.isConversion : Fn → Bool
  | .num | .bcd | .text | .date => true
  | _ => false

/-- `query_reverse_axis`. -/
def Axis.isReverse : Axis → Bool
  | .ancestor | .ancestorSelf | .precedeSibling | .precede => true
  | _ => false

/-- `tlv_query_instruction_t`. -/
structure Instruction where
  op : Op
  left : Option Nat := none
  right : Option Nat := none
  start : Nat := 0
  stop : Nat := 0
  axis : Axis := .child
  anchor : Nat := 0
  scalar : Bool := false
  type : Kind := .node
  low : Nat := 0
  predicateGuard : Option Nat := none
  pathGuard : Option Nat := none
  pathKind : PathKind := .other 0
  grouped : Bool := false
  nested : Bool := false
  variableSlot : Nat := 0
  dataOffset : Nat := 0
  dataSize : Nat := 0
  resolved : Nat := 0
  hookId : Nat := 0
  scratchSize : Nat := 0
  reuse : Option Nat := none
  folded : Nat := 0
  selector : Nat := 0
  immediate : Nat := 0
  negative : Bool := false
  context : Bool := false
  maskOffset : Nat := 0
  deriving Repr, DecidableEq, Inhabited

/-- The function of a call. -/
def Instruction.function (n : Instruction) : Fn :=
  Fn.ofCode n.selector

/-- `tlv_query_plan_t` without the words that only describe its image. -/
structure Program where
  instructions : List Instruction
  root : Nat
  text : Bytes
  level : Level
  variableCount : Nat
  payload : Bytes
  patternCapacity : Nat
  codecStride : Nat
  tagId : Nat
  deriving Repr, DecidableEq

namespace Program

/-- The number of instructions. -/
def count (p : Program) : Nat :=
  p.instructions.length

/-- An instruction that the validators address; they check its link before. -/
def get (p : Program) (i : Nat) : Instruction :=
  p.instructions.getD i default

/-- A stretch of the payload. -/
def bytesAt (p : Program) (offset size : Nat) : Bytes :=
  (p.payload.drop offset).take size

/-- The constant, tag or name of an instruction. -/
def data (p : Program) (n : Instruction) : Bytes :=
  p.bytesAt n.dataOffset n.dataSize

/-- The tag mask of an instruction. -/
def mask (p : Program) (n : Instruction) : Bytes :=
  p.bytesAt n.maskOffset n.dataSize

end Program

/-- The argument chain of a call: the arguments in source order, or none beyond three. The
source walks the `Q_ARGS` spine and then reverses. -/
def argumentChain (get : Nat → Instruction) : Nat → Option Nat → List Nat → Option (List Nat)
  | _, none, found => some found
  | budget, some cursor, found =>
    if (get cursor).op = .args then
      match budget, (get cursor).right with
      | budget + 1, some argument =>
        argumentChain get budget (get cursor).left (argument :: found)
      | _, _ => none
    else some (cursor :: found)

/-- `call_args` and `args_of`: the arguments of a call, at most three. -/
def callArguments (get : Nat → Instruction) (n : Instruction) : Option (List Nat) :=
  argumentChain get 2 n.left []

/-- The type of a call, as both `query_program_valid` and `analyze` compute it. -/
def Fn.type : Fn → Kind
  | .value | .tag | .substr => .bytes
  | .text => .string
  | .mask | .range => .node
  | .len | .count | .position | .last | .num | .bcd | .date | .tagClass | .number => .number
  | _ => .bool

/-- The arities `query_program_valid` admits. -/
def Fn.admits : Fn → Nat → Bool
  | .position, arity | .last, arity => arity == 0
  | .value, arity | .len, arity | .tag, arity | .tagClass, arity | .constructed, arity
  | .number, arity => arity ≤ 1
  | .not, arity | .count, arity | .exists, arity | .empty, arity | .num, arity | .bcd, arity
  | .text, arity | .date, arity => arity == 1
  | .starts, arity | .ends, arity | .contains, arity | .mask, arity | .range, arity => arity == 2
  | .substr, arity => arity == 2 || arity == 3
  | .name, _ | .unknown, _ => false

/-- A link of instruction `i` points backward. -/
def backward (i : Nat) : Option Nat → Bool
  | none => true
  | some j => j < i

/-- The operands an opcode requires. -/
def operandsValid (n : Instruction) : Bool :=
  if n.op.isOperator || n.op = .args then n.left.isSome && n.right.isSome
  else if n.op = .call then n.right.isNone
  else n.left.isNone && n.right.isNone

/-- The checks of a `Q_CALL`. -/
def callValid (p : Program) (n : Instruction) : Bool :=
  match callArguments p.get n with
  | none => false
  | some arguments =>
    n.function.admits arguments.length && n.type = n.function.type &&
      (!n.function.isConversion || n.hookId ≠ 0)

/-- The value categories an opcode fixes. -/
def opType : Op → Option Kind
  | .test | .root | .self | .child | .desc | .filter | .union | .intersect | .except =>
    some .node
  | .metadata | .literal => some .number
  | .bytes => some .bytes
  | .string => some .string
  | .bool | .eq | .ne | .lt | .le | .gt | .ge | .and | .or => some .bool
  | .variableRef | .call | .args => none

/-- `INT64_MAX`. -/
def int64Max : Nat := 2 ^ 63 - 1

/-- The checks `query_program_valid` makes on instruction `i`, besides the variable slots. -/
def instructionValid (p : Program) (i : Nat) : Bool :=
  let n := p.get i
  n.anchor ≤ 2 && n.start ≤ n.stop && (p.text.length = 0 || n.stop ≤ p.text.length) &&
    n.low ≤ i && backward i n.left && backward i n.right && backward i n.predicateGuard &&
    backward i n.pathGuard &&
    (n.pathGuard.isNone || n.pathKind = .child || n.pathKind = .desc || n.pathKind = .self) &&
    operandsValid n && (n.op ≠ .call || callValid p n) &&
    (opType n.op).all (fun type => n.type = type) && (n.op ≠ .bool || n.folded ≤ 1) &&
    n.resolved ≤ 2 &&
    (n.scratchSize = 0 || (n.hookId ≠ 0 && n.scratchSize ≤ p.codecStride)) &&
    p.codecStride % 16 = 0 && (n.op ≠ .metadata || n.selector ≤ 4) &&
    (n.op ≠ .literal ||
      (n.immediate ≤ int64Max + n.negative.toNat && !(n.immediate = 0 && n.negative))) &&
    (n.resolved ≠ 2 || n.maskOffset + n.dataSize ≤ p.payload.length) &&
    n.dataOffset + n.dataSize ≤ p.payload.length && backward i n.reuse

/-- The first variable instruction before `i` with the given slot. -/
def firstVariable (p : Program) (i slot : Nat) : Option Instruction :=
  (p.instructions.take i).find? fun n => n.op = .variableRef && n.variableSlot = slot

/-- The variable checks of `query_program_valid`, with the number of slots seen before `i`. -/
def variableStep (p : Program) (seen i : Nat) : Option Nat :=
  let n := p.get i
  if n.op ≠ .variableRef then some seen
  else if (n.type ≠ .number && n.type ≠ .bytes && n.type ≠ .string) ||
      n.variableSlot > seen || n.dataSize = 0 then none
  else if n.variableSlot = seen then some (seen + 1)
  else
    match firstVariable p i n.variableSlot with
    | none => none
    | some first =>
      if first.type = n.type && first.dataSize = n.dataSize && p.data first = p.data n then
        some seen
      else none

/-- The number of variable slots, or none when a slot is inconsistent. -/
def variableSlots (p : Program) : Option Nat :=
  (List.range p.count).foldlM (variableStep p) 0

/-- `query_program_valid` on a decoded image. -/
def programValid (p : Program) : Bool :=
  p.count ≠ 0 && p.root < p.count && (List.range p.count).all (instructionValid p) &&
    variableSlots p = some p.variableCount

/-- The instructions that a scope-decided predicate may consist of. -/
def s1Admits (get : Nat → Instruction) (n : Instruction) : Bool :=
  match n.op with
  | .test => n.axis = .child || n.axis = .desc
  | .literal => n.anchor ≠ 2
  | .call =>
    match n.function with
    | .not => true
    | .count | .exists | .empty => n.left.any fun left => (get left).op = .test
    | _ => false
  | .bool | .eq | .ne | .lt | .le | .gt | .ge | .and | .or => true
  | _ => false

/-- The instruction `query_s1_filter` inspects: the root, or what follows a leading `/`. -/
def s1Candidate (get : Nat → Instruction) (root : Nat) : Nat :=
  match (get root).op, (get root).left, (get root).right with
  | .child, some left, some right =>
    if (get left).op = .root ∧ (get left).anchor = 0 then right else root
  | _, _, _ => root

/-- `query_s1_filter`: the filter instruction of the scope-decided subset. -/
def s1Filter (get : Nat → Instruction) (count root : Nat) : Option Nat :=
  let filter := s1Candidate get root
  match (get filter).op, (get filter).left, (get filter).right with
  | .filter, some left, some predicate =>
    let selector := get left
    if selector.op ≠ .test ∨ selector.axis ≠ .child ∨ selector.scalar then none
    else if (List.range count).all fun i =>
        !((get predicate).low ≤ i && i ≤ predicate) || s1Admits get (get i) then
      some filter
    else none
  | _, _, _ => none

/-- Lexicographic order of byte strings, a proper front part first. -/
def bytesCompare : Bytes → Bytes → Ordering
  | [], [] => .eq
  | [], _ :: _ => .lt
  | _ :: _, [] => .gt
  | x :: xs, y :: ys => if x < y then .lt else if y < x then .gt else bytesCompare xs ys

/-- The argument types `plan_types` requires of a call. -/
def callTyped (p : Program) (n : Instruction) (arguments : List Nat) : Bool :=
  let type (k : Nat) : Kind := (arguments[k]?).elim .node fun i => (p.get i).type
  match n.function with
  | .value | .tag | .constructed => arguments.isEmpty || type 0 = .node
  | .tagClass | .number => (arguments.isEmpty || type 0 = .node) && p.tagId ≠ 0
  | .len => arguments.isEmpty || type 0 = .bytes || type 0 = .string
  | .not => type 0 = .bool || type 0 = .node
  | .count | .exists | .empty | .position | .last => arguments.isEmpty || type 0 = .node
  | .num | .bcd | .text | .date => type 0 = .node || type 0 = .bytes
  | .substr =>
    type 0 = .bytes && type 1 = .number && (arguments.length ≠ 3 || type 2 = .number)
  | .starts | .ends => type 0 = .bytes && type 1 = .bytes
  | .contains =>
    type 0 = .bytes && type 1 = .bytes &&
      (arguments[1]?).all fun i =>
        (p.get i).op ≠ .bytes || (p.get i).dataSize ≤ p.patternCapacity
  | .mask =>
    match arguments with
    | [x, y] =>
      type 0 = .bytes && type 1 = .bytes && (p.get x).op = .bytes && (p.get y).op = .bytes &&
        (p.get x).dataSize = (p.get y).dataSize
    | _ => false
  | .range =>
    match arguments with
    | [x, y] =>
      type 0 = .bytes && type 1 = .bytes && (p.get x).op = .bytes && (p.get y).op = .bytes &&
        bytesCompare (p.data (p.get x)) (p.data (p.get y)) ≠ .gt
    | _ => false
  | .name | .unknown => false

/-- A shared tag test is the same test. -/
def reuseMatches (p : Program) (n : Instruction) : Bool :=
  n.reuse.all fun j =>
    let other := p.get j
    other.op = .test && other.axis = n.axis && other.anchor = n.anchor &&
      other.scalar = n.scalar && other.predicateGuard = n.predicateGuard &&
      other.pathGuard = n.pathGuard && other.pathKind = n.pathKind &&
      other.resolved = n.resolved && other.dataSize = n.dataSize && p.data other = p.data n &&
      (n.resolved ≠ 2 || p.mask other = p.mask n)

/-- The checks `plan_types` makes on one instruction, besides the level. -/
def instructionTyped (p : Program) (n : Instruction) : Bool :=
  let a := n.left.elim Kind.node fun i => (p.get i).type
  let b := n.right.elim Kind.node fun i => (p.get i).type
  n.predicateGuard.all (fun i => (p.get i).type = .node) &&
    n.pathGuard.all (fun i => (p.get i).type = .node) &&
    (n.op = .call || n.op = .args || n.left.all fun i => (p.get i).op ≠ .args) &&
    n.right.all (fun i => (p.get i).op ≠ .args) &&
    match n.op with
    | .child | .desc | .union | .intersect | .except => a = .node && b = .node
    | .filter => a = .node && b.code ≤ Kind.number.code
    | .eq | .ne | .lt | .le | .gt | .ge => a = b && a ≠ .node
    | .and | .or => a.code ≤ Kind.bool.code && b.code ≤ Kind.bool.code
    | .args => n.type = .node
    | .test =>
      !((n.axis = .follow || n.axis = .precede) && p.level ≠ .d) &&
        (!n.context || (n.axis = .parent && n.resolved = 0)) && reuseMatches p n
    | .call => (callArguments p.get n).any (callTyped p n)
    | _ => true

/-- An instruction that `plan_types` admits at level S0. -/
def instructionImmediate (p : Program) (n : Instruction) : Bool :=
  match n.op with
  | .root => !n.nested
  | .literal => n.anchor ≠ 2
  | .test =>
    match n.axis with
    | .self => true
    | .child | .desc => !n.scalar
    | .ancestor | .precedeSibling => n.scalar
    | _ => false
  | .filter => n.left.all fun i => !(p.get i).axis.isReverse
  | .call =>
    match n.function with
    | .value => n.left.isNone
    | .tag | .tagClass | .constructed | .number => false
    | .count | .exists | .empty | .position | .last => false
    | .num | .bcd | .text | .date => false
    | .mask | .range => n.predicateGuard.isNone
    | _ => true
  | _ => true

/-- `plan_types`. -/
def planTypes (p : Program) : Bool :=
  (p.get p.root).op ≠ .args && p.instructions.all (instructionTyped p) &&
    (p.level ≠ .s0 ||
      ((p.get p.root).type = .node && p.instructions.all (instructionImmediate p))) &&
    (p.level ≠ .s1 || (s1Filter p.get p.count p.root).isSome)

end OpenTlv.Query
