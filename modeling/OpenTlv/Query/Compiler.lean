import OpenTlv.Query.Analyzer
import OpenTlv.Query.Exec

/-!
# The query compiler

`tlv_query_compile_scratch` and `tlv_query_compile` of `compiler.c`. The caller provides one block
of scratch memory, in which the areas of the lexer, the parser and the analyzer lie behind each other.
Between parser and analyzer every predicate and every path marks the instructions of its right
operand with its left one.
-/

namespace OpenTlv.Query

/-- `UINT32_MAX`. -/
def uint32Max : Nat := 2 ^ 32 - 1

/-- The declarations of variables: every name is an identifier that no earlier one has. -/
def variablesCheck : List Bytes → List (Bytes × Kind) → Run Unit
  | _, [] => .ok ()
  | earlier, (name, type) :: rest =>
    if !name.head?.any identifierStart || type = .node || type = .bool then
      unlocated .invalidArg .binding "named integer, bytes or string variable"
    else if !name.all identifierContinue then
      unlocated .invalidArg .binding "variable identifier"
    else if earlier.contains name then
      unlocated .invalidArg .binding "unique variable declaration"
    else variablesCheck (earlier ++ [name]) rest

/-- The declarations of codec hooks: each has a valid scratch extent, and no two share an
identifier or a function. -/
def hooksCheck : List Hook → List Hook → Bool
  | _, [] => true
  | earlier, hook :: rest =>
    hook.id ≠ 0 && hook.function ≠ .unknown && hook.scratchAlignment ≠ 0 &&
      hook.scratchAlignment ≤ 16 && hook.scratchAlignment &&& (hook.scratchAlignment - 1) = 0 &&
      hook.scratchSize ≤ uint32Max - 15 &&
      earlier.all (fun other => other.id ≠ hook.id && other.function ≠ hook.function) &&
      hooksCheck (earlier ++ [hook]) rest

/-- `options_check`. -/
def optionsCheck (o : CompileOptions) (size : Nat) : Run Unit := do
  if o.maxText = 0 ∨ o.maxTokens = 0 ∨ o.maxNesting = 0 ∨ o.maxStates = 0 then
    unlocated .invalidArg .storage "initialized language-version 1 options"
  if o.variableTypes.length > o.maxStates then
    unlocated .invalidArg .binding "bounded variable declarations"
  variablesCheck [] o.variableTypes
  if o.maxResolvedTag = 0 ∨ o.maxResolvedTag > uint32Max ∨ o.maxPattern > uint32Max then
    unlocated .invalidArg .storage "bounded capabilities"
  match o.environment with
  | none => pure ()
  | some environment =>
    if environment.hooks.length > o.maxStates ∨ hooksCheck [] environment.hooks = false then
      unlocated .invalidArg .capability "valid bounded unique codec hooks"
  if size > o.maxText then throw (limitedAt "text" o.maxText 0 size)
  if size ≥ uint32Max then
    unlocated .overflow .storage "representable Query text size"

/-- `sizeof (query_token_t)`. -/
def tokenSize : Nat := 12

/-- `sizeof (query_node_t)`. -/
def nodeSize : Nat := 116

/-- `sizeof (query_operator_t)`. -/
def operatorSize : Nat := 16

/-- `sizeof (uint32_t)`. -/
def valueSize : Nat := 4

/-- `sizeof (tlv_query_program_t)`. -/
def programHeaderSize : Nat := 52

/-- `scratch_unit`. -/
def scratchUnit : Nat :=
  tokenSize + 2 * nodeSize + operatorSize + valueSize

/-- `tlv_query_compile_scratch`: the scratch extent and its alignment. -/
def queryCompileScratch (text : Bytes) (o : CompileOptions) : Run (Nat × Nat) := do
  optionsCheck o text.length
  let (count, _) ← lex text o.maxTokens none
  if count ≥ uint32Max / 2 ∨ count > sizeMax / scratchUnit - 1 then
    unlocated .overflow .storage "representable compile scratch size"
  let base := (count + 1) * scratchUnit
  if text.length > sizeMax - base ∨
      count > (sizeMax - base - text.length) / o.maxResolvedTag then
    unlocated .overflow .storage "representable compiler storage size"
  return (base + text.length + count * o.maxResolvedTag, valueSize)

/-- The areas of the compile scratch: how many items each of them has room for. -/
structure ScratchAreas where
  tokens : Nat
  nodes : Nat
  ops : Nat
  values : Nat
  payload : Nat
  deriving Repr, DecidableEq

/-- The octets that the areas take together. -/
def ScratchAreas.extent (areas : ScratchAreas) : Nat :=
  areas.tokens * tokenSize + areas.nodes * nodeSize + areas.ops * operatorSize +
    areas.values * valueSize + areas.payload

/-- The layout of a compile scratch for `count` tokens. The payload gets what is left. -/
def scratchAreas (count scratchSize : Nat) : ScratchAreas :=
  { tokens := count + 1
    nodes := 2 * (count + 1)
    ops := count + 1
    values := count + 1
    payload := scratchSize - (count + 1) * scratchUnit }

/-- The instructions below an operand: from its lowest one to itself. -/
def operandRange (nodes : Stack Instruction) (operand : Option Nat) : Run (List Nat) := do
  let last ← checked operand
  let node ← checked (nodes.read last)
  return List.range' node.low (last + 1 - node.low)

/-- An instruction of the right operand of a predicate is evaluated in a context of the left one. -/
def guardPredicate (guard : Option Nat) (nodes : Stack Instruction) (j : Nat) :
    Run (Stack Instruction) :=
  checked (nodes.update j fun step => { step with predicateGuard := guard })

/-- The calls that select nodes. -/
def selectingCall (text : Bytes) (n : Instruction) : Bool :=
  n.op = .call &&
    (functionKind text n = .name || functionKind text n = .mask || functionKind text n = .range)

/-- A step of the right operand of a path starts where the left one ends. -/
def guardPath (text : Bytes) (n : Instruction) (nodes : Stack Instruction) (j : Nat) :
    Run (Stack Instruction) := do
  let step ← checked (nodes.read j)
  let absolute := step.op = .root && step.anchor = 0 && text[step.start]? = some (ascii '/')
  let nodes ← checked (nodes.update j fun step => { step with nested := step.nested || absolute })
  let nodeTest :=
    step.op = .test || step.op = .self || (step.op = .root && step.anchor ≠ 0) ||
      selectingCall text step
  if step.predicateGuard ≠ none ∨ step.pathGuard ≠ none ∨ nodeTest = false then return nodes
  else
    let op := if step.op = .root then .self else step.op
    let kind :=
      if n.op = .child ∧ (op = .self ∨ step.axis = .self) then .self
      else if n.op = .desc ∨ step.axis = .desc then .desc
      else .child
    checked (nodes.update j fun step =>
      { step with op := op, pathGuard := n.left, pathKind := kind, anchor := 0 })

/-- The guards that one instruction sets below its right operand. -/
def guardNode (text : Bytes) (nodes : Stack Instruction) (i : Nat) : Run (Stack Instruction) := do
  let n ← checked (nodes.read i)
  if n.op = .filter then
    (← operandRange nodes n.right).foldlM (guardPredicate n.left) nodes
  else if n.op = .child ∨ n.op = .desc then
    (← operandRange nodes n.right).foldlM (guardPath text n) nodes
  else return nodes

/-- The patterns that the searches of a call may have at run time. -/
def patternBound (o : CompileOptions) (nodes : Stack Instruction) (n : Instruction) : Run Nat :=
  match n.op, n.left with
  | .call, some left =>
    if n.function = .contains then do
      let last ← checked (nodes.read left)
      let pattern ←
        if last.op = .args then do checked (nodes.read (← checked last.right)) else pure last
      return if pattern.op = .bytes then pattern.dataSize else o.maxPattern
    else return 0
  | _, _ => .ok 0

/-- The tag provider that the calls of a program need. -/
def neededTags (o : CompileOptions) (nodes : List Instruction) : Nat :=
  if nodes.any fun n =>
      n.op = .call && (n.function = .tagClass || n.function = .number) then
    ((o.environment.bind Environment.tags).map TagAdapter.id).getD 0
  else 0

/-- The first use of a variable before `i` that is spelled alike. -/
def earlierUse (text : Bytes) (nodes : List Instruction) (i : Nat) (n : Instruction) :
    Option Instruction :=
  (nodes.take i).find? fun other =>
    other.op = .variableRef && other.spelling text = n.spelling text

/-- The slot of the variable that an instruction reads, and the slots in use. -/
def assignSlot (text : Bytes) (state : Stack Instruction × Nat) (i : Nat) :
    Run (Stack Instruction × Nat) := do
  let (nodes, slots) := state
  let n ← checked (nodes.read i)
  if n.op ≠ .variableRef then return (nodes, slots)
  else
    let slot := ((earlierUse text nodes.items i n).map Instruction.variableSlot).getD slots
    let nodes ← checked (nodes.update i fun n => { n with variableSlot := slot })
    return (nodes, if slot = slots then slots + 1 else slots)

/-- The main fields of `tlv_query_program_info_t`. -/
structure ProgramInfo where
  programSize : Nat
  scratchSize : Nat
  states : Nat
  level : Level
  resultKind : Kind
  variableSlots : Nat
  codecScratch : Nat
  patternBytes : Nat
  optimizedStates : Nat
  deriving Repr, DecidableEq

/-- What a compilation returns, and the information that it publishes. Without storage it returns no
program. -/
abbrev Compiled := Run (Option Program) × Option ProgramInfo

/-- What the compiler does before `analyze`: the instructions and the root. -/
def compileNodes (text : Bytes) (o : CompileOptions) (areas : ScratchAreas) :
    Run (Stack Instruction × Nat) := do
  let (_, tokens) ← lex text o.maxTokens (some (.empty areas.tokens))
  let (nodes, root) ← parse text (← checked tokens) ⟨o.maxNesting, o.maxStates⟩
    (.empty areas.nodes) (.empty areas.ops) (.empty areas.values)
  let nodes ← (List.range nodes.size).foldlM (guardNode text) nodes
  return (nodes, root)

/-- The size of a program image. -/
def imageSize (size used payloadSize : Nat) : Run Nat := do
  if size > sizeMax - programHeaderSize - 1 ∨
      used > (sizeMax - programHeaderSize - size - 1) / nodeSize then
    unlocated .overflow .storage "representable program size"
  let textOffset := programHeaderSize + used * nodeSize
  if payloadSize > sizeMax - textOffset - size - 1 then
    unlocated .overflow .storage "representable compiler storage size"
  let total := textOffset + size + 1 + payloadSize
  if total > uint32Max then
    unlocated .overflow .storage "representable program size"
  return total

/-- What the compiler does after `analyze`, whether or not it succeeded: the program, and the
information about it. -/
def describe (text : Bytes) (o : CompileOptions) (needed root : Nat) (a : Analysis) :
    Run (Program × ProgramInfo) := do
  let bounds ← a.nodes.items.mapM (patternBound o a.nodes)
  let total ← imageSize text.length a.nodes.size a.payload.size
  let (nodes, slots) ← (List.range a.nodes.size).foldlM (assignSlot text) (a.nodes, 0)
  let result ← checked (nodes.read root)
  let patternBytes := bounds.foldl max 0
  return (
    { instructions := nodes.items
      root := root
      text := text
      level := a.level
      variableCount := slots
      payload := a.payload.items
      patternCapacity := patternBytes
      codecStride := a.codecStride
      tagId := neededTags o nodes.items },
    { programSize := total
      scratchSize := needed
      states := nodes.size
      level := a.level
      resultKind := result.type
      variableSlots := slots
      codecScratch := a.codecStride
      patternBytes := patternBytes
      optimizedStates := a.optimized })

/-- The compilation in the areas of a scratch. -/
def compileWith (text : Bytes) (o : CompileOptions) (needed : Nat) (areas : ScratchAreas)
    (storage : Option Nat) : Compiled :=
  match compileNodes text o areas with
  | .error stop => (.error stop, none)
  | .ok (nodes, root) =>
    let (analyzed, a) :=
      (analyze text o root).exec { nodes := nodes, payload := .empty areas.payload }
    match describe text o needed root a with
    | .error stop => (.error stop, none)
    | .ok (program, info) =>
      match analyzed with
      | .error stop => (.error stop, some info)
      | .ok () =>
        match storage with
        | none => (.ok none, some info)
        | some capacity =>
          if capacity < info.programSize then
            (unlocated .bufferTooShort .storage "sufficient program capacity",
              some info)
          else (.ok (some program), some info)

/-- `tlv_query_compile` with a scratch of `scratchSize` octets and, where there is storage, its
capacity. -/
def queryCompile (text : Bytes) (o : CompileOptions) (scratchSize : Nat) (storage : Option Nat) :
    Compiled :=
  match optionsCheck o text.length with
  | .error stop => (.error stop, none)
  | .ok () =>
    match queryCompileScratch text o with
    | .error stop => (.error stop, none)
    | .ok (needed, _) =>
      if scratchSize < needed then
        (unlocated .bufferTooShort .storage "sufficient compile scratch capacity", none)
      else
        match lex text o.maxTokens none with
        | .error stop => (.error stop, none)
        | .ok (count, _) =>
          compileWith text o needed (scratchAreas count scratchSize) storage

end OpenTlv.Query
