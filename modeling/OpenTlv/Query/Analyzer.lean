import OpenTlv.Lib.InPlace
import OpenTlv.Query.Parser
import OpenTlv.Query.Retained
import OpenTlv.Writer.Tree

/-!
# The analyzer of the query compiler

`analyze` of `compiler.c`: a first loop over the instructions of `parse` tells decimal words and
truth values from tags, and a second one types every instruction, copies its constants behind each
other into the payload, raises the level of the program and simplifies. All of it is done in place,
so a failure leaves what was done before it.
-/

namespace OpenTlv.Query

/-- `tlv_query_compile_options_t` without the extent and the version of the structure. The resolver
answers a namespace, if there is one, and a name. -/
structure CompileOptions where
  maxText : Nat := 65536
  maxTokens : Nat := 8192
  maxNesting : Nat := 128
  maxStates : Nat := 8192
  variableTypes : List (Bytes × Kind) := []
  resolve : Option (Option Bytes → Bytes → Except Status TagView) := none
  environment : Option Environment := none
  maxResolvedTag : Nat := 512
  maxPattern : Nat := 4096
  optimize : Bool := true

/-- The variables of `analyze`. -/
structure Analysis where
  nodes : Stack Instruction
  payload : Stack UInt8
  level : Level := .s0
  codecStride : Nat := 0
  optimized : Nat := 0

/-- The steps of `analyze`. -/
abbrev Analyzer := InPlace Stop Analysis

/-- An access that has no result outside its area. -/
def within {α : Type} (found : Option α) : Analyzer α :=
  InPlace.lift (checked found)

/-- Read an instruction. -/
def nodeAt (i : Nat) : Analyzer Instruction := do
  within ((← get).nodes.read i)

/-- Read an operand. -/
def linked (link : Option Nat) : Analyzer Instruction := do
  nodeAt (← within link)

/-- Change an instruction. -/
def change (i : Nat) (f : Instruction → Instruction) : Analyzer Unit := do
  let nodes ← within ((← get).nodes.update i f)
  modify fun s => { s with nodes := nodes }

/-- Set the level. -/
def setLevel (level : Level) : Analyzer Unit :=
  modify fun s => { s with level := level }

/-- Count a simplification. -/
def simplified : Analyzer Unit :=
  modify fun s => { s with optimized := s.optimized + 1 }

/-- What a `uint32_t` keeps of a number. -/
def word32 (n : Nat) : Nat :=
  n % 2 ^ 32

/-- The offset of the next payload octet. -/
def payloadOffset : Analyzer Nat := do
  return word32 (← get).payload.size

/-- Copy octets behind the payload. -/
def emit (bytes : Bytes) : Analyzer Unit := do
  let payload ← within ((← get).payload.append bytes)
  modify fun s => { s with payload := payload }

/-- The stretch of the text an instruction comes from. -/
def Instruction.spelling (n : Instruction) (text : Bytes) : Bytes :=
  spelled text n.start n.stop

/-- `query_function_name`. -/
def functionName : Fn → Bytes
  | .value => asciiText "value"
  | .len => asciiText "len"
  | .not => asciiText "not"
  | .starts => asciiText "starts-with"
  | .ends => asciiText "ends-with"
  | .contains => asciiText "contains"
  | .substr => asciiText "substr"
  | .mask => asciiText "tag-mask"
  | .range => asciiText "tag-range"
  | .count => asciiText "count"
  | .exists => asciiText "exists"
  | .empty => asciiText "empty"
  | .position => asciiText "position"
  | .last => asciiText "last"
  | .num => asciiText "num"
  | .bcd => asciiText "bcd"
  | .text => asciiText "text"
  | .date => asciiText "date"
  | .tag => asciiText "tag"
  | .tagClass => asciiText "class"
  | .constructed => asciiText "constructed"
  | .number => asciiText "number"
  | .name => asciiText "name"
  | .unknown => []

/-- `query_function_kind`. -/
def functionKind (text : Bytes) (n : Instruction) : Fn :=
  (Fn.all.find? fun f => functionName f = n.spelling text).getD .unknown

/-- Fail with a report about an instruction. -/
def failNode {α : Type} (n : Instruction) (status : Status) (kind : ErrorKind)
    (expected : String) : Analyzer α :=
  throw (failedAt status kind n.start n.stop expected)

/-- The `syntax` exit of the loop. -/
def failSyntax {α : Type} (n : Instruction) : Analyzer α :=
  failNode n .syntaxError .syntaxError "valid Query operand/arity"

/-- The `types` exit of the loop. -/
def failTypes {α : Type} (n : Instruction) : Analyzer α :=
  failNode n .invalidValue .type "compatible expression types"

/-- A test of the loop that leaves by an exit. -/
def require (holds : Bool) (fail : Analyzer Unit) : Analyzer Unit :=
  if holds then pure () else fail

/-- A step that is made only in some case. -/
def onlyIf (holds : Bool) (step : Analyzer Unit) : Analyzer Unit :=
  if holds then step else pure ()

/-- The text in front of `start` without the spaces at its end, last octet first. -/
def lookBehind (text : Bytes) (start : Nat) : Bytes :=
  (text.take start).reverse.dropWhile whitespace

/-- `decimal`: a word of digits that is not the tag of a named axis. -/
def decimal (text : Bytes) (n : Instruction) : Bool :=
  let digits :=
    if text[n.start]? = some (ascii '-') then spelled text (n.start + 1) n.stop
    else n.spelling text
  (lookBehind text n.start).take 2 ≠ [ascii ':', ascii ':'] && !digits.isEmpty && digits.all digit

/-- `resolve_name`: the tag of a name, with its namespace in front of a colon. -/
def resolveName (text : Bytes) (n : Instruction) (o : CompileOptions) : Except Stop Bytes :=
  match o.resolve with
  | none => .error (failedAt .unsupported .capability n.start n.stop "compile-time name resolver")
  | some resolve =>
    let word := n.spelling text
    let space := word.takeWhile fun c => c ≠ ascii ':'
    let answer :=
      if space.length < word.length then resolve (some space) (word.drop (space.length + 1))
      else resolve none word
    match callbackResult answer with
    | .error status =>
      .error (failedAt status .capability n.start n.stop "one unambiguous symbolic name")
    | .ok tag =>
      if tag.bytes.length = 0 ∨ tag.present = false then
        .error (failedAt .callback .callback n.start n.stop "nonempty resolver identifier")
      else if tag.bytes.length > o.maxResolvedTag then
        .error (limitedAt "resolved-tag" o.maxResolvedTag n.start n.stop)
      else .ok tag.bytes

/-- The loop of `call_args`: the arguments behind `cursor`, or none beyond three. -/
def callWalk : Nat → Option Nat → List Nat → Analyzer (Option (List Nat))
  | _, none, found => pure (some found)
  | budget, some cursor, found => do
      let n ← nodeAt cursor
      if n.op = .args then
        match budget with
        | 0 => pure none
        | budget + 1 => callWalk budget n.left ((← within n.right) :: found)
      else pure (some (cursor :: found))

/-- `call_args`: the arguments of a call in the order of the text. -/
def callArgs (n : Instruction) : Analyzer (Option (List Nat)) :=
  callWalk 2 n.left []

/-- A decimal word that stands for its number. -/
def markDecimal (text : Bytes) (i : Nat) (anchor : Option Nat) : Analyzer Unit := do
  let n ← nodeAt i
  onlyIf (n.op = .test && decimal text n)
    (change i fun n => { n with op := .literal, anchor := anchor.getD n.anchor })

/-- The decimal words among the operands of a comparison. -/
def markComparison (text : Bytes) (n : Instruction) : Analyzer Unit := do
  markDecimal text (← within n.left) none
  markDecimal text (← within n.right) none

/-- A decimal word as a predicate is a position. -/
def markPosition (text : Bytes) (n : Instruction) : Analyzer Unit := do
  markDecimal text (← within n.right) (some 2)

/-- The decimal words among the arguments behind the first one. -/
def markArguments (text : Bytes) (n : Instruction) : Analyzer Unit := do
  match ← callArgs n with
  | none => failNode n .syntaxError .syntaxError "at most three function arguments"
  | some arguments => arguments.tail.forM fun argument => markDecimal text argument none

/-- The words `true` and `false`. -/
def truthWord (word : Bytes) : Option Bool :=
  if word = asciiText "true" then some true
  else if word = asciiText "false" then some false
  else none

/-- A word that is a truth value. -/
def markTruth (text : Bytes) (i : Nat) (n : Instruction) : Analyzer Unit :=
  match truthWord (n.spelling text) with
  | none => pure ()
  | some value => change i fun n => { n with op := .bool, folded := value.toNat }

/-- The body of the first loop. -/
def markNode (text : Bytes) (i : Nat) : Analyzer Unit := do
  let n ← nodeAt i
  onlyIf n.op.isComparison (markComparison text n)
  onlyIf (n.op = .filter) (markPosition text n)
  onlyIf (n.op = .call && functionKind text n = .substr) (markArguments text n)
  onlyIf (n.op = .test) (markTruth text i n)

/-- The metadata names in the order of their selectors. -/
def metadataNames : List Bytes :=
  [asciiText "@len", asciiText "@depth", asciiText "@index", asciiText "@offset",
    asciiText "@hlen"]

/-- What the second loop clears or selects first. -/
def startNode (text : Bytes) (i : Nat) : Analyzer Unit := do
  let n ← nodeAt i
  let dotted :=
    (n.op = .root || n.op = .self || n.op = .test) && text[n.start]? = some (ascii '.')
  let selector :=
    if n.op = .call then (functionKind text n).code
    else if n.op = .metadata then
      (metadataNames.findIdx? fun name => name = n.spelling text).getD n.selector
    else n.selector
  change i fun n => { n with type := .node, context := dotted, selector := selector }

/-- A step to the parent that is spelled with two dots. -/
def parentDots (text : Bytes) (i : Nat) : Analyzer Unit := do
  let n ← nodeAt i
  let offset ← payloadOffset
  onlyIf (n.op = .test && n.axis = .parent && n.spelling text = asciiText "..")
    (change i fun n => { n with resolved := 0, dataOffset := offset, dataSize := 0 })

/-- A word of hexadecimal digits and wildcards. -/
def rawWord (word : Bytes) : Bool :=
  word.all fun c => (queryHex c).isSome || c = ascii '?' || c = ascii '*'

/-- The octets and the mask of a hexadecimal pattern. -/
def hexPattern : Bytes → Option (Bytes × Bytes)
  | [] => some ([], [])
  | [_] => none
  | high :: low :: rest => do
      let (bytes, mask) ← hexPattern rest
      if high = ascii '?' ∧ low = ascii '?' then return (0 :: bytes, 0 :: mask)
      else return (UInt8.ofNat ((← queryHex high) * 16 + (← queryHex low)) :: bytes, 255 :: mask)

/-- A tag is copied to the payload. -/
def emitTag (i : Nat) (tag : Bytes) : Analyzer Unit := do
  let offset ← payloadOffset
  change i fun n => { n with resolved := 1, dataOffset := offset, dataSize := word32 tag.length }
  emit tag

/-- A pattern and its mask are copied to the payload. -/
def emitPattern (i : Nat) (bytes mask : Bytes) : Analyzer Unit := do
  let offset ← payloadOffset
  change i fun n => { n with resolved := 2, dataOffset := offset, dataSize := word32 bytes.length }
  emit bytes
  let maskOffset ← payloadOffset
  change i fun n => { n with maskOffset := maskOffset }
  emit mask

/-- The tag of a word: a resolved name, any tag, or a pattern with its mask. -/
def emitTest (text : Bytes) (o : CompileOptions) (i : Nat) (n : Instruction) : Analyzer Unit :=
  let word := n.spelling text
  if rawWord word = false then do emitTag i (← InPlace.lift (resolveName text n o))
  else if word = asciiText "*" then pure ()
  else
    match hexPattern word with
    | none => failSyntax n
    | some (bytes, mask) => emitPattern i bytes mask

/-- The tag of a test that has none yet. -/
def testTag (text : Bytes) (o : CompileOptions) (i : Nat) : Analyzer Unit := do
  let n ← nodeAt i
  onlyIf (n.op = .test && n.resolved = 0 && !n.context) (emitTest text o i n)

/-- Whether a tag test needs the finished document. -/
def testNeedsDocument (n : Instruction) : Bool :=
  n.op = .test &&
    ((n.axis.code ≥ Axis.descSelf.code && !(n.axis = .precedeSibling && n.scalar)) ||
      (n.axis = .desc && n.scalar) || (n.axis = .ancestor && !n.scalar) ||
      (n.axis = .child && n.scalar))

/-- The level that the axis of a tag test needs. -/
def testLevel (i : Nat) : Analyzer Unit := do
  let n ← nodeAt i
  onlyIf (testNeedsDocument n) (setLevel .d)

/-- The name of a variable is copied, and its type looked up. -/
def emitVariable (text : Bytes) (o : CompileOptions) (i : Nat) (n : Instruction) :
    Analyzer Unit := do
  let name := spelled text (n.start + 1) n.stop
  let offset ← payloadOffset
  change i fun n => { n with dataOffset := offset, dataSize := n.stop - n.start - 1 }
  emit name
  match o.variableTypes.find? fun v => v.1 = name with
  | none => failNode n .invalidValue .binding "declared typed variable"
  | some v => change i fun n => { n with type := v.2 }

/-- A variable. -/
def bindVariable (text : Bytes) (o : CompileOptions) (i : Nat) : Analyzer Unit := do
  let n ← nodeAt i
  onlyIf (n.op = .variableRef) (emitVariable text o i n)

/-- The type of numbers and truth values. -/
def scalarType (text : Bytes) (i : Nat) : Analyzer Unit := do
  let n ← nodeAt i
  onlyIf (n.op = .metadata || n.op = .literal) (change i fun n => { n with type := .number })
  onlyIf (n.op = .bool) (change i fun n => { n with type := .bool })
  require (n.op ≠ .metadata || metadataNames.any fun name => name = n.spelling text)
    (failSyntax n)

/-- The digits of a decimal literal, or why they have no value up to `maximum`. -/
def decimalValue (maximum : Nat) : Bytes → Nat → Except (Status × ErrorKind × String) Nat
  | [], value => .ok value
  | c :: rest, value =>
    if digit c = false then .error (.syntaxError, .syntaxError, "decimal literal")
    else
      let d := c.toNat - (ascii '0').toNat
      if value > (maximum - d) / 10 then .error (.overflow, .type, "signed int64")
      else decimalValue maximum rest (value * 10 + d)

/-- The value of a decimal literal is stored. -/
def storeLiteral (text : Bytes) (i : Nat) (n : Instruction) : Analyzer Unit := do
  let negative : Bool := text[n.start]? = some (ascii '-')
  match decimalValue (int64Max + negative.toNat) (spelled text (n.start + negative.toNat) n.stop) 0
    with
  | .error (status, kind, expected) => failNode n status kind expected
  | .ok value =>
    change i fun n => { n with immediate := value, negative := value ≠ 0 && negative }
    onlyIf (n.anchor = 2) (setLevel .d)

/-- The value of a decimal literal. -/
def literalValue (text : Bytes) (i : Nat) : Analyzer Unit := do
  let n ← nodeAt i
  onlyIf (n.op = .literal) (storeLiteral text i n)

/-- The octets of a hexadecimal constant. -/
def hexOctets : Bytes → Bytes
  | high :: low :: rest =>
    UInt8.ofNat ((queryHex high).getD 0 * 16 + (queryHex low).getD 0) :: hexOctets rest
  | _ => []

/-- The octets of a string constant without its escapes. -/
def unescaped : Bytes → Bytes
  | [] => []
  | [c] => [c]
  | c :: d :: rest => if c = backslash then d :: unescaped rest else c :: unescaped (d :: rest)

/-- The octets that a constant stands for. -/
def constantOctets (text : Bytes) (n : Instruction) : Bytes :=
  if n.op = .bytes then hexOctets (spelled text (n.start + 2) (n.stop - 1))
  else unescaped (spelled text (n.start + 1) (n.stop - 1))

/-- A constant is copied to the payload. -/
def storeConstant (text : Bytes) (i : Nat) (n : Instruction) : Analyzer Unit := do
  let constant := constantOctets text n
  let type : Kind := if n.op = .bytes then .bytes else .string
  let offset ← payloadOffset
  emit constant
  change i fun n =>
    { n with type := type, dataOffset := offset, dataSize := word32 constant.length }

/-- A constant. -/
def emitConstant (text : Bytes) (i : Nat) : Analyzer Unit := do
  let n ← nodeAt i
  onlyIf (n.op = .bytes || n.op = .string) (storeConstant text i n)

/-- The type of comparisons and of their combinations. -/
def truthType (i : Nat) : Analyzer Unit := do
  let n ← nodeAt i
  onlyIf (n.op.isComparison || n.op = .and || n.op = .or)
    (change i fun n => { n with type := .bool })

/-- The payload of a constant. -/
def constantOf (n : Instruction) : Analyzer Bytes := do
  let s ← get
  within (if n.dataOffset + n.dataSize ≤ s.payload.size then
    some ((s.payload.items.drop n.dataOffset).take n.dataSize) else none)

/-- The tag that a resolver answers to a call of `name`. -/
def resolvedTag (o : CompileOptions) (n : Instruction) (answer : Except Status TagView) :
    Except Stop Bytes :=
  match callbackResult answer with
  | .error status => .error (failedAt status .capability n.start n.stop "one symbolic name")
  | .ok tag =>
    if tag.bytes.length = 0 ∨ tag.present = false then
      .error (failedAt .callback .callback n.start n.stop "nonempty resolver identifier")
    else if tag.bytes.length > o.maxResolvedTag then
      .error (limitedAt "resolved-tag" o.maxResolvedTag n.start n.stop)
    else .ok tag.bytes

/-- A call of `name` becomes a tag test. -/
def resolveCall (o : CompileOptions) (i : Nat) (n : Instruction) (arguments : List Nat) :
    Analyzer Unit :=
  match arguments with
  | [first, second] => do
      let space ← nodeAt first
      let symbol ← nodeAt second
      require (space.op = .string && symbol.op = .string) (failTypes n)
      match o.resolve with
      | none => failNode n .unsupported .capability "name resolver"
      | some resolve => do
          let answer := resolve (some (← constantOf space)) (← constantOf symbol)
          let tag ← InPlace.lift (resolvedTag o n answer)
          change i fun n => { n with op := .test, left := none, right := none }
          emitTag i tag
          onlyIf (n.scalar || n.predicateGuard.isSome || n.axis ≠ .child) (setLevel .d)
  | _ => failTypes n

/-- The arities that `analyze` admits. -/
def Fn.analyzes (f : Fn) (arity : Nat) : Bool :=
  match f with
  | .value | .len | .tag | .tagClass | .number | .constructed => arity ≤ 1
  | .not | .count | .exists | .empty | .num | .bcd | .text | .date => arity = 1
  | .position | .last => arity = 0
  | .starts | .ends | .contains | .mask | .range => arity = 2
  | .substr => arity = 2 || arity = 3
  | .name | .unknown => true

/-- The last hook of a conversion. -/
def conversionHook (o : CompileOptions) (f : Fn) : Option Hook :=
  o.environment.bind fun environment =>
    environment.hooks.reverse.find? fun hook => some hook.function = f.conversion

/-- The provider of a conversion. -/
def bindHook (o : CompileOptions) (i : Nat) (n : Instruction) (f : Fn) : Analyzer Unit :=
  match conversionHook o f with
  | none => failNode n .unsupported .capability "conversion provider"
  | some hook => do
      let size := word32 ((hook.scratchSize + 15) / 16 * 16)
      change i fun n => { n with hookId := hook.id, scratchSize := size }
      modify fun s => { s with codecStride := max s.codecStride size }
      setLevel .d

/-- The bounds of a range of tags are in order. -/
def checkRange (n a b : Instruction) : Analyzer Unit := do
  let first ← constantOf a
  let last ← constantOf b
  require (bytesCompare first last ≠ .gt) (failSyntax n)

/-- What the patterns of a search and of a tag test must be. -/
def patternCheck (o : CompileOptions) (n : Instruction) (f : Fn) (a b : Instruction) :
    Analyzer Unit := do
  require ((f ≠ .mask && f ≠ .range) || (a.op = .bytes && b.op = .bytes)) (failTypes n)
  require (!(f = .contains && b.op = .bytes && b.dataSize > o.maxPattern))
    (throw (limitedAt "pattern" o.maxPattern n.start n.stop))
  require (!(f = .mask && a.dataSize ≠ b.dataSize)) (failSyntax n)
  onlyIf (f = .range) (checkRange n a b)

/-- The types of the arguments, and what a call needs besides them. -/
def checkArguments (o : CompileOptions) (i : Nat) (n : Instruction) (f : Fn)
    (arguments : List Instruction) : Analyzer Unit :=
  let type (k : Nat) : Kind := (arguments[k]?.map Instruction.type).getD .node
  match f with
  | .value | .tag | .tagClass | .number | .constructed => do
      require (arguments.isEmpty || type 0 = .node) (failTypes n)
      onlyIf (!arguments.isEmpty) (setLevel .d)
  | .len => require (arguments.isEmpty || type 0 = .bytes || type 0 = .string) (failTypes n)
  | .not => require (type 0 = .bool || type 0 = .node) (failTypes n)
  | .count | .exists | .empty => do
      require (type 0 = .node) (failTypes n)
      setLevel .d
  | .position | .last => setLevel .d
  | .num | .bcd | .text | .date => do
      require (type 0 = .node || type 0 = .bytes) (failTypes n)
      bindHook o i n f
  | .substr =>
    require (type 0 = .bytes && type 1 = .number && (arguments.length ≠ 3 || type 2 = .number))
      (failTypes n)
  | .starts | .ends | .contains | .mask | .range => do
      require (type 0 = .bytes && type 1 = .bytes) (failTypes n)
      match arguments with
      | [a, b] => patternCheck o n f a b
      | _ => failSyntax n
  | .name | .unknown => pure ()

/-- Whether the environment provides the class or the number of tags. -/
def providesTags (o : CompileOptions) (f : Fn) : Bool :=
  (o.environment.bind Environment.tags).any fun tags =>
    tags.id ≠ 0 && (if f = .tagClass then tags.classOf.isSome else tags.numberOf.isSome)

/-- What the environment must provide for a function of the tag. -/
def checkProvider (o : CompileOptions) (n : Instruction) (f : Fn) : Analyzer Unit := do
  onlyIf (f = .tag) (setLevel .d)
  require (!(f = .tagClass || f = .number) || providesTags o f)
    (failNode n .unsupported .capability "semantic tag provider")
  onlyIf (f = .tagClass || f = .number) (setLevel .d)
  require (f ≠ .constructed || o.environment.all fun environment => environment.format.isSome)
    (failNode n .unsupported .capability "Format for constructed predicate")
  onlyIf (f = .constructed) (setLevel .d)

/-- A call of another function than `name`. -/
def checkCall (o : CompileOptions) (i : Nat) (n : Instruction) (f : Fn) (arguments : List Nat) :
    Analyzer Unit := do
  require (f ≠ .unknown) (failNode n .unsupported .capability "closed supported Query function")
  require (f.analyzes arguments.length) (failSyntax n)
  onlyIf ((f = .mask || f = .range) && n.predicateGuard.isSome) (setLevel .s2)
  change i fun n => { n with type := f.type }
  checkArguments o i n f (← arguments.mapM nodeAt)
  checkProvider o n f

/-- A call; whether it became a tag test. -/
def analyzeCall (text : Bytes) (o : CompileOptions) (i : Nat) : Analyzer Bool := do
  let n ← nodeAt i
  if n.op ≠ .call then return false
  else
    match ← callArgs n with
    | none => failSyntax n
    | some arguments =>
      if functionKind text n = .name then do
        resolveCall o i n arguments
        return true
      else do
        checkCall o i n (functionKind text n) arguments
        return false

/-- The types that an operator admits for its operands. -/
def operandsAdmitted (op : Op) (a b : Kind) : Bool :=
  match op with
  | .child | .desc | .union | .intersect | .except => a = .node && b = .node
  | .filter => a = .node && (b = .bool || b = .node || b = .number)
  | .and | .or => (a = .bool || a = .node) && (b = .bool || b = .node)
  | _ => a = b && a ≠ .node

/-- The operands of an operator. -/
def checkOperator (n : Instruction) : Analyzer Unit := do
  let a ← linked n.left
  let b ← linked n.right
  onlyIf (n.op = .filter && a.axis.isReverse) (setLevel .d)
  require (operandsAdmitted n.op a.type b.type) (failTypes n)

/-- The types of the operands. -/
def checkOperands (i : Nat) : Analyzer Unit := do
  let n ← nodeAt i
  onlyIf n.op.isOperator (checkOperator n)

/-- The number that the text of a literal spells, with its sign. -/
def literalNumber (text : Bytes) (n : Instruction) : Nat × Bool :=
  let negative : Bool := text[n.start]? = some (ascii '-')
  let digits := spelled text (n.start + negative.toNat) n.stop
  let value :=
    digits.foldl (fun value c => (value * 10 + (c.toNat - (ascii '0').toNat)) % 2 ^ 64) 0
  (value, value ≠ 0 && negative)

/-- The order of two literals. -/
def literalOrder (text : Bytes) (a b : Instruction) : Ordering :=
  let (x, xNegative) := literalNumber text a
  let (y, yNegative) := literalNumber text b
  if xNegative ≠ yNegative then if xNegative then .lt else .gt
  else if xNegative then compare y x
  else compare x y

/-- An instruction becomes a truth value. -/
def fold (i : Nat) (value : Bool) : Analyzer Unit := do
  change i fun n =>
    { n with op := .bool, folded := value.toNat, left := none, right := none }
  simplified

/-- The order of two constants, if both are known. -/
def constantOrder (text : Bytes) (a b : Instruction) : Analyzer (Option Ordering) :=
  if a.op = .literal ∧ b.op = .literal then pure (some (literalOrder text a b))
  else if (a.op = .bytes ∨ a.op = .string) ∧ a.op = b.op then do
    let first ← constantOf a
    let second ← constantOf b
    return some (bytesCompare first second)
  else pure none

/-- A comparison of two constants is decided. -/
def decideComparison (text : Bytes) (i : Nat) (n : Instruction) : Analyzer Unit := do
  let a ← linked n.left
  let b ← linked n.right
  match ← constantOrder text a b with
  | none => pure ()
  | some order => fold i (n.op.holds order)

/-- A comparison. -/
def foldComparison (text : Bytes) (i : Nat) : Analyzer Unit := do
  let n ← nodeAt i
  onlyIf n.op.isComparison (decideComparison text i n)

/-- A dot becomes a condition that holds. -/
def removeDot (i dot : Nat) : Analyzer Unit := do
  change dot fun dot => { dot with op := .bool, type := .bool, folded := 1 }
  change i fun n => { n with op := .filter }
  simplified

/-- A dot at the end of a path is removed. -/
def dropDot (i : Nat) : Analyzer Unit := do
  let n ← nodeAt i
  onlyIf (n.op = .child) do
    let dot ← within n.right
    let last ← nodeAt dot
    onlyIf (last.op = .self) (removeDot i dot)

/-- A combination of two truth values is decided. -/
def decideCombination (i : Nat) (n : Instruction) : Analyzer Unit := do
  let a ← linked n.left
  let b ← linked n.right
  onlyIf (a.op = .bool && b.op = .bool)
    (fold i (if n.op = .and then a.folded ≠ 0 && b.folded ≠ 0 else a.folded ≠ 0 || b.folded ≠ 0))

/-- A combination of truth values. -/
def foldCombination (i : Nat) : Analyzer Unit := do
  let n ← nodeAt i
  onlyIf (n.op = .and || n.op = .or) (decideCombination i n)

/-- Two tag tests that are spelled alike and stand at like places. -/
def sameTest (text : Bytes) (a n : Instruction) : Bool :=
  a.op = .test && a.axis = n.axis && a.anchor = n.anchor && a.scalar = n.scalar &&
    a.predicateGuard = n.predicateGuard && a.pathGuard = n.pathGuard && a.pathKind = n.pathKind &&
    a.spelling text = n.spelling text

/-- A tag test shares the result of an earlier one. -/
def reuseTest (i j : Nat) : Analyzer Unit := do
  change i fun n => { n with reuse := some j }
  simplified

/-- A tag test shares the result of the first one like it. -/
def shareTest (text : Bytes) (i : Nat) : Analyzer Unit := do
  let n ← nodeAt i
  let earlier := (← get).nodes.items.take i
  match earlier.findIdx? fun a => n.op = .test && sameTest text a n with
  | none => pure ()
  | some j => reuseTest i j

/-- The simplifications of an instruction. -/
def optimizeNode (text : Bytes) (i : Nat) : Analyzer Unit := do
  foldComparison text i
  dropDot i
  foldCombination i
  shareTest text i

/-- What follows for an instruction that did not become a tag test. -/
def completeNode (text : Bytes) (o : CompileOptions) (i : Nat) : Analyzer Unit := do
  checkOperands i
  onlyIf o.optimize (optimizeNode text i)

/-- The body of the second loop. -/
def analyzeNode (text : Bytes) (o : CompileOptions) (i : Nat) : Analyzer Unit := do
  startNode text i
  parentDots text i
  testTag text o i
  testLevel i
  bindVariable text o i
  scalarType text i
  literalValue text i
  emitConstant text i
  truthType i
  let resolved ← analyzeCall text o i
  onlyIf (!resolved) (completeNode text o i)

/-- A program with a tag test behind or before its context needs the document. -/
def needsDocument (nodes : List Instruction) : Bool :=
  nodes.any fun n => n.op = .test && (n.axis = .follow || n.axis = .precede)

/-- The level of a program whose instructions need at least `level`. -/
def finalLevel (nodes : List Instruction) (root : Nat) (level : Level) : Level :=
  let get := fun i => nodes.getD i default
  let raised :=
    if (get root).type ≠ .node || nodes.any fun n => n.op = .root && n.nested then .d else level
  let retained := if raised = .d then if needsDocument nodes then .d else .s2 else raised
  if retained = .s2 && (s1Filter get nodes.length root).isSome then .s1 else retained

/-- The level of the whole program. -/
def programLevel (root : Nat) : Analyzer Unit :=
  modify fun s => { s with level := finalLevel s.nodes.items root s.level }

/-- `analyze`. -/
def analyze (text : Bytes) (o : CompileOptions) (root : Nat) : Analyzer Unit := do
  let count := (← get).nodes.size
  (List.range count).forM (markNode text)
  (List.range count).forM (analyzeNode text o)
  programLevel root

end OpenTlv.Query
