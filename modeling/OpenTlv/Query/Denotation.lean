import OpenTlv.Lib.Forest
import OpenTlv.Query.Retained

/-!
# The meaning of query expressions

The denotation documented in `docs/concepts/query-language.md`, stated over the ordered tree
with its virtual root and independent of how a machine computes it. A context is a node,
named by its preorder ordinal, or the virtual root. An expression denotes a value in a context
together with a position in the current predicate sequence, or nothing when its evaluation
fails.

`Program.spell` is the expression that an instruction of a plan stands for.
-/

namespace OpenTlv.Query

/-- What an event says about a node, besides its place in the tree. -/
structure Item where
  element : Element
  source : Option Source := none
  offset : Nat := 0
  deriving DecidableEq

/-- The event that publishes an item. -/
def Item.event (item : Item) (kind : EventKind) (depth : Nat) : TreeEvent :=
  { kind := kind, element := item.element, source := item.source, depth := depth,
    offset := item.offset }

/-- The event of a listed node. -/
def nodeEvent (node : Listed Item) : TreeEvent :=
  node.item.event (if node.branch then .begin else .element) node.depth

/-- The balanced event stream of a forest. -/
def events (depth : Nat) : Forest Item → List TreeEvent
  | .nil => []
  | .leaf item rest => item.event .element depth :: events depth rest
  | .branch item kids close rest =>
    item.event .begin depth ::
      (events (depth + 1) kids ++ close.event .finish depth :: events depth rest)

theorem events_append (depth : Nat) (first second : Forest Item) :
    events depth (first.append second) = events depth first ++ events depth second := by
  induction first with
  | nil => rfl
  | leaf item rest ih => simp [Forest.append, events, ih]
  | branch item kids close rest _ ih => simp [Forest.append, events, ih]

/-- A context: a node by its preorder ordinal, or the virtual root. -/
abbrev Context := Option Nat

/-- What an expression is evaluated over. `rootFirst` is the place of the virtual root in
document order. -/
structure World where
  nodes : List (Listed Item)
  environment : Environment := {}
  document : Option (Nat → Bool → Except Status Nat) := none
  bindings : Nat → Value := fun _ => {}
  patternCapacity : Nat := 0
  rootFirst : Bool := true

/-- A tag test. -/
inductive TagTest where
  | any
  | exact (tag : Bytes)
  | masked (pattern mask : Bytes)
  deriving Repr, DecidableEq

/-- Whether a tag passes the test. -/
def TagTest.holds : TagTest → Bytes → Bool
  | .any, _ => true
  | .exact tag, other => other == tag
  | .masked pattern mask, other => other.length = pattern.length && maskTest other pattern mask

/-- What a call needs besides its arguments. -/
structure CallSpec where
  function : Fn
  hookId : Nat
  type : Kind
  deriving Repr, DecidableEq

/-- Query expressions. -/
inductive Expr where
  | test (axis : Axis) (tag : TagTest) (dots grouped : Bool)
  | root
  | self
  | metadata (selected : Metadata)
  | literal (value : Int)
  | bytes (data : Bytes)
  | string (data : Bytes)
  | variableRef (slot : Nat) (type : Kind)
  | bool (value : Bool)
  | child (left right : Expr)
  | desc (left right : Expr)
  | filter (left right : Expr) (grouped : Bool)
  | union (left right : Expr)
  | intersect (left right : Expr)
  | except (left right : Expr)
  | compare (op : Op) (left right : Expr)
  | and (left right : Expr)
  | or (left right : Expr)
  | call0 (call : CallSpec)
  | call1 (call : CallSpec) (a : Expr)
  | call2 (call : CallSpec) (a b : Expr)
  | call3 (call : CallSpec) (a b c : Expr)
  deriving Repr, DecidableEq

/-- The values of expressions. -/
inductive Denoted where
  | nodes (members : Context → Bool)
  | bool (value : Bool)
  | int (value : Int)
  | bytes (data : Bytes)
  | string (data : Bytes)

namespace World

variable (w : World)

/-- All contexts in document order. -/
def contexts : List Context :=
  let concrete := (List.range w.nodes.length).map some
  if w.rootFirst then none :: concrete else concrete ++ [none]

/-- The parent of a node. -/
def parentOf (i : Nat) : Context :=
  w.nodes[i]?.bind (·.parent)

/-- Whether node `i` lies below a context. -/
def below (c : Context) (i : Nat) : Bool :=
  match c with
  | none => true
  | some a => Forest.isAncestor w.nodes a i

/-- Whether node `i` lies on an axis from a context. -/
def onAxis (axis : Axis) (c : Context) (i : Nat) : Bool :=
  match axis with
  | .self => c = some i
  | .child => w.parentOf i = c
  | .desc => w.below c i
  | .descSelf => c = some i || w.below c i
  | .parent => c.any fun a => w.parentOf a = some i
  | .ancestor => c.any fun a => Forest.isAncestor w.nodes i a
  | .ancestorSelf => c.any fun a => i = a || Forest.isAncestor w.nodes i a
  | .followSibling => c.any fun a => w.parentOf i = w.parentOf a && i > a
  | .precedeSibling => c.any fun a => w.parentOf i = w.parentOf a && i < a
  | .follow => c.any fun a => i > a && !Forest.isAncestor w.nodes a i
  | .precede => c.any fun a => i < a && !Forest.isAncestor w.nodes i a

/-- The nodes an axis step selects. Only `..` reaches the virtual root. -/
def select (axis : Axis) (tag : TagTest) (dots : Bool) (c : Context) : Context → Bool
  | some i => w.nodes[i]?.any fun node =>
    w.onAxis axis c i && tag.holds node.item.element.tag
  | none => axis = .parent && dots && c.any fun a => w.parentOf a = none

/-- The members of a set. -/
def members (s : Context → Bool) : List Context :=
  w.contexts.filter s

/-- A set with everything below its members. -/
def reached (s : Context → Bool) (c : Context) : Bool :=
  s c || c.any fun i => w.contexts.any fun a => s a && w.below a i

/-- The truth of a value: a node sequence is true unless it is empty. -/
def truth : Denoted → Bool
  | .nodes s => (w.members s).length ≠ 0
  | .bool value => value
  | _ => false

/-- Whether a predicate value keeps the candidate at a position. -/
def keeps (value : Denoted) (position : Nat) : Bool :=
  match value with
  | .int k => k = position
  | other => w.truth other

/-- The one concrete node of a set. -/
def single (s : Context → Bool) : Option Nat :=
  match w.members s with
  | [some i] => some i
  | _ => none

/-- The event of a context. -/
def eventOf (c : Context) : Option TreeEvent :=
  c.bind fun i => w.nodes[i]?.map nodeEvent

/-- The Source metadata of a node. -/
def source (i : Nat) (node : Listed Item) (header : Bool) : Option Nat :=
  match w.document with
  | some metadata => (metadata i header).toOption
  | none => (sourceMetadata (nodeEvent node) header).toOption

/-- A property of a node. -/
def property (selected : Metadata) (i : Nat) (node : Listed Item) : Option Nat :=
  match selected with
  | .len => some node.item.element.value.length
  | .depth => some node.depth
  | .index => some node.sibling
  | .offset => w.source i node false
  | .hlen => w.source i node true

/-- `@` metadata of a context. -/
def metadata (selected : Metadata) (c : Context) : Option Nat := do
  let i ← c
  let node ← w.nodes[i]?
  let value ← w.property selected i node
  if value > int64Max then none else some value

/-- A conversion through the codec of the environment. -/
def convert (call : CallSpec) (event : Option TreeEvent) (data : Bytes) : Option Denoted := do
  let hook ← w.environment.hooks.reverse.find? fun hook => hook.id = call.hookId
  let decode ← hook.decode
  let result ← (callbackResult (decode event data)).toOption
  if result.kind ≠ some call.type then none
  else if result.kind = some .number then some (.int result.integer)
  else if utf8Validate result.data then some (.string result.data)
  else none

/-- A function of one concrete node. -/
def nodeFunction (function : Fn) (event : TreeEvent) : Option Denoted :=
  match function with
  | .value => some (.bytes event.element.value)
  | .tag => some (.bytes event.element.tag)
  | .constructed =>
    w.environment.format.map fun format =>
      .bool (format.isConstructed.any (· event.element.tag))
  | .tagClass => do
      let tags ← w.environment.tags
      let decompose ← tags.classOf
      let number ← (callbackResult (decompose event.element.tag)).toOption
      return .int number
  | .number => do
      let tags ← w.environment.tags
      let decompose ← tags.numberOf
      let number ← (callbackResult (decompose event.element.tag)).toOption
      return .int number
  | _ => none

/-- The children of a context whose tag passes a test. -/
def childrenWith (c : Context) (test : Bytes → Bool) : Denoted :=
  .nodes fun
    | some i => w.nodes[i]?.any fun node => node.parent = c && test node.item.element.tag
    | none => false

end World

/-- The length of a byte string as a signed integer. -/
def lengthOf (data : Bytes) : Option Denoted :=
  if data.length > int64Max then none else some (.int data.length)

/-- `substr` on bytes. -/
def substring (data : Bytes) (start : Int) (count : Option Int) : Option Denoted :=
  if start < 0 ∨ count.any (· < 0) then none
  else
    let rest := data.drop start.toNat
    some (.bytes (count.elim rest fun k => rest.take k.toNat))

/-- The meaning of a call from the values of its arguments. -/
def denoteCall (w : World) (call : CallSpec) (c : Context) (position last : Nat) :
    List Denoted → Option Denoted
  | [] =>
    match call.function with
    | .position => some (.int position)
    | .last => some (.int last)
    | .len => do lengthOf (← w.eventOf c).element.value
    | function => do w.nodeFunction function (← w.eventOf c)
  | [.nodes s] =>
    match call.function with
    | .count => some (.int (w.members s).length)
    | .exists => some (.bool ((w.members s).length ≠ 0))
    | .empty => some (.bool ((w.members s).length = 0))
    | .not => some (.bool ((w.members s).length = 0))
    | function => do
        let event ← w.eventOf (← w.single s)
        if function.isConversion then w.convert call (some event) event.element.value
        else w.nodeFunction function event
  | [.bool value] => if call.function = .not then some (.bool !value) else none
  | [.bytes data] =>
    if call.function = .len then lengthOf data
    else if call.function.isConversion then w.convert call (w.eventOf c) data
    else none
  | [.string data] => if call.function = .len then lengthOf data else none
  | [.bytes a, .bytes b] =>
    match call.function with
    | .starts => some (.bool (b.isPrefixOf a))
    | .ends => some (.bool (b.isSuffixOf a))
    | .contains => if b.length > w.patternCapacity then none else some (.bool (b <:+: a))
    | .mask => some (w.childrenWith c fun tag => tag.length = a.length && maskTest tag a b)
    | .range => some (w.childrenWith c fun tag =>
      bytesCompare tag a ≠ .lt && bytesCompare tag b ≠ .gt)
    | _ => none
  | [.bytes a, .int start] => if call.function = .substr then substring a start none else none
  | [.bytes a, .int start, .int count] =>
    if call.function = .substr then substring a start (some count) else none
  | _ => none

/-- The order of two scalars. Different categories do not compare. -/
def Denoted.order : Denoted → Denoted → Option Ordering
  | .int a, .int b => some (Ord.compare a b)
  | .bool a, .bool b => some (Ord.compare a.toNat b.toNat)
  | .bytes a, .bytes b => some (bytesCompare a b)
  | .string a, .string b => some (bytesCompare a b)
  | _, _ => none

/-- The meaning of a comparison. -/
def denoteCompare (op : Op) (a b : Denoted) : Option Denoted :=
  (a.order b).map fun order => .bool (op.holds order)

/-- A runtime value as a value of the language. -/
def Value.denoted (v : Value) : Denoted :=
  match v.kind with
  | .bool => .bool v.truth
  | .number => .int (signedInteger v)
  | .bytes => .bytes v.data
  | .string => .string v.data
  | .node => .nodes fun _ => false

/-- Whether positions count from the end: a reverse step under ungrouped predicates. -/
def Expr.reversed : Expr → Bool
  | .test axis _ _ grouped => !grouped && axis.isReverse
  | .filter left _ grouped => !grouped && left.reversed
  | _ => false

/-- The nodes of a value. -/
def Denoted.set : Denoted → Option (Context → Bool)
  | .nodes s => some s
  | _ => none

/-- A set operation by identity. -/
def combineSets (f : Bool → Bool → Bool) (a b : Denoted) : Option Denoted := do
  let s ← a.set
  let t ← b.set
  return .nodes fun c => f (s c) (t c)

/-- Whether a value selects a context. -/
def Denoted.selects (d : Denoted) (c : Context) : Bool :=
  d.set.any (· c)

/-- The union of what the right operand selects from each context. -/
def unionOver (contexts : List Context) (right : Context → Option Denoted) : Option Denoted := do
  let results ← contexts.mapM right
  return .nodes fun c => results.any (·.selects c)

/-- Whether a predicate keeps the candidate at an index of its sequence. -/
def judge (w : World) (predicate : Context → Nat → Option Denoted) (candidate : Context × Nat) :
    Option (Context × Bool) := do
  let value ← predicate candidate.1 (candidate.2 + 1)
  return (candidate.1, w.keeps value (candidate.2 + 1))

/-- The candidates a predicate keeps, with one-based positions along the sequence. -/
def keepFrom (w : World) (sequence : List Context)
    (predicate : Context → Nat → Option Denoted) : Option Denoted := do
  let results ← sequence.zipIdx.mapM (judge w predicate)
  return .nodes fun c => results.any fun result => result.2 && result.1 = c

/-- The meaning of an expression in a context, at a position of a predicate sequence. -/
def denote (w : World) : Expr → Context → Nat → Nat → Option Denoted
  | .test axis tag dots _, c, _, _ => some (.nodes (w.select axis tag dots c))
  | .root, _, _, _ => some (.nodes fun d => d = none)
  | .self, c, _, _ => some (.nodes fun d => d = c)
  | .metadata selected, c, _, _ => (w.metadata selected c).map fun (value : Nat) => .int value
  | .literal value, _, _, _ => some (.int value)
  | .bytes data, _, _, _ => some (.bytes data)
  | .string data, _, _, _ => some (.string data)
  | .variableRef slot _, _, _, _ => some (w.bindings slot).denoted
  | .bool value, _, _, _ => some (.bool value)
  | .child left right, c, position, last => do
      let s ← (← denote w left c position last).set
      unionOver (w.members s) fun d => denote w right d 1 1
  | .desc left right, c, position, last => do
      let s ← (← denote w left c position last).set
      unionOver (w.members (w.reached s)) fun d => denote w right d 1 1
  | .filter left right _, c, position, last => do
      let s ← (← denote w left c position last).set
      let sequence := if left.reversed then (w.members s).reverse else w.members s
      keepFrom w sequence fun d k => denote w right d k sequence.length
  | .union left right, c, position, last => do
      combineSets (· || ·) (← denote w left c position last) (← denote w right c position last)
  | .intersect left right, c, position, last => do
      combineSets (· && ·) (← denote w left c position last) (← denote w right c position last)
  | .except left right, c, position, last => do
      combineSets (fun x y => x && !y) (← denote w left c position last)
        (← denote w right c position last)
  | .compare op left right, c, position, last => do
      denoteCompare op (← denote w left c position last) (← denote w right c position last)
  | .and left right, c, position, last => do
      let a ← denote w left c position last
      let b ← denote w right c position last
      return .bool (w.truth a && w.truth b)
  | .or left right, c, position, last => do
      let a ← denote w left c position last
      let b ← denote w right c position last
      return .bool (w.truth a || w.truth b)
  | .call0 call, c, position, last => denoteCall w call c position last []
  | .call1 call a, c, position, last => do
      denoteCall w call c position last [← denote w a c position last]
  | .call2 call a b, c, position, last => do
      denoteCall w call c position last
        [← denote w a c position last, ← denote w b c position last]
  | .call3 call a b d, c, position, last => do
      denoteCall w call c position last
        [← denote w a c position last, ← denote w b c position last,
          ← denote w d c position last]

/-- The tag test of an instruction. -/
def Program.tagTest (p : Program) (n : Instruction) : TagTest :=
  match n.resolved with
  | 0 => .any
  | 2 => .masked (p.data n) (p.mask n)
  | _ => .exact (p.data n)

/-- The number of a literal instruction. -/
def Instruction.literalValue (n : Instruction) : Int :=
  if n.negative then -(n.immediate : Int) else n.immediate

/-- The expression of a call from its arguments. A plan has no call of more than three. -/
def Expr.ofCall (call : CallSpec) : List Expr → Expr
  | [] => .call0 call
  | [a] => .call1 call a
  | [a, b] => .call2 call a b
  | a :: b :: c :: _ => .call3 call a b c

/-- The expression of an instruction from the expressions of its operands; a list of arguments
is no expression of its own. -/
def Program.compose (p : Program) (operand : Nat → Expr) (i : Nat) : Expr :=
  let n := p.get i
  let left := n.left.elim .self operand
  let right := n.right.elim .self operand
  match n.op with
  | .test => .test n.axis (p.tagTest n) n.context n.grouped
  | .root => if n.anchor ≠ 0 ∨ n.context = true then .self else .root
  | .self => .self
  | .metadata => .metadata (Metadata.ofCode n.selector)
  | .literal => .literal n.literalValue
  | .bytes => .bytes (p.data n)
  | .string => .string (p.data n)
  | .variableRef => .variableRef n.variableSlot n.type
  | .bool => .bool (n.folded ≠ 0)
  | .child => .child left right
  | .desc => .desc left right
  | .filter => .filter left right n.grouped
  | .union => .union left right
  | .intersect => .intersect left right
  | .except => .except left right
  | .and => .and left right
  | .or => .or left right
  | .eq | .ne | .lt | .le | .gt | .ge => .compare n.op left right
  | .call =>
    Expr.ofCall ⟨n.function, n.hookId, n.type⟩
      (((callArguments p.get n).getD []).map operand)
  | .args => .self

/-- The expression an instruction stands for. Links point backward, so the index bounds the
recursion. -/
def Program.spell (p : Program) : Nat → Nat → Expr
  | 0, _ => .self
  | fuel + 1, i => p.compose (p.spell fuel) i

/-- The expression of instruction `i`. -/
def Program.expression (p : Program) (i : Nat) : Expr :=
  p.spell (i + 1) i

end OpenTlv.Query
