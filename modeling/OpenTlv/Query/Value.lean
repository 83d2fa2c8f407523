import OpenTlv.Lib.Area
import OpenTlv.Lib.Border
import OpenTlv.Core.Format
import OpenTlv.Query.Plan

/-!
# Values and functions of the query machines

What the streaming and the retained machine share: events, runtime values, the work meter, the
comparison and the functions of `query_function_eval`. An access outside a workspace area, the
instruction list or the payload stops a run with `Stop.fault`, which is no result of the
library; every other failure carries the diagnostic that the library reports.
-/

namespace OpenTlv.Query

/-- `tlv_query_error_kind_t`. -/
inductive ErrorKind where
  | syntaxError
  | capability
  | limit
  | storage
  | events
  | source
  | reader
  | binding
  | cardinality
  | codec
  | imageVersion
  | state
  | callback
  | type
  | image
  deriving Repr, DecidableEq

/-- The failure detail of `tlv_query_diagnostic_t`. -/
structure Diagnostic where
  status : Status
  kind : ErrorKind
  start : Nat := 0
  stop : Nat := 0
  expected : String := ""
  limit : String := ""
  configured : Nat := 0
  deriving Repr, DecidableEq

/-- How a run ends without result. -/
inductive Stop where
  | fault
  | failed (diagnostic : Diagnostic)
  deriving Repr, DecidableEq

/-- A computation of the query machines. -/
abbrev Run := Except Stop

/-- An access that has no result outside its area. -/
def checked {α : Type} : Option α → Run α
  | some value => .ok value
  | none => .error .fault

@[simp] theorem checked_some {α : Type} (value : α) : checked (some value) = .ok value := rfl

/-- `query_error` located at an instruction. -/
def queryError {α : Type} (n : Instruction) (status : Status) (kind : ErrorKind)
    (expected : String) : Run α :=
  .error (.failed
    { status := status
      kind :=
        if status = .invalidState then .state
        else if status = .callback then .callback
        else kind
      start := n.start
      stop := n.stop
      expected := expected })

/-- `query_limit` located at an instruction. -/
def queryLimit {α : Type} (n : Instruction) (name : String) (configured : Nat) : Run α :=
  .error (.failed
    { status := .limit, kind := .limit, start := n.start, stop := n.stop, limit := name,
      configured := configured })

/-- The instruction at an index of the program. -/
def Program.fetch (p : Program) (i : Nat) : Run Instruction :=
  checked p.instructions[i]?

/-- A stretch of the payload, read within its extent. -/
def Program.slice (p : Program) (offset size : Nat) : Run Bytes :=
  if offset + size ≤ p.payload.length then .ok (p.bytesAt offset size) else .error .fault

/-- `tlv_tree_event_kind_t`. -/
inductive EventKind where
  | begin
  | element
  | finish
  | unknown
  deriving Repr, DecidableEq

/-- `tlv_tree_event_t`. The source is absent when its data pointer is. -/
structure TreeEvent where
  kind : EventKind
  element : Element
  source : Option Source := none
  depth : Nat
  offset : Nat := 0
  skipped : Bool := false
  deriving DecidableEq

/-- `query_source_metadata`: the header extent or the offset of a sourced event. -/
def sourceMetadata (event : TreeEvent) (header : Bool) : Except Status Nat :=
  match event.source with
  | none => .error .invalidValue
  | some source =>
    if header then
      if !source.header.present then .error .invalidValue
      else if source.header.offset > source.size ∨
          source.header.size > source.size - source.header.offset then .error .invalidArg
      else .ok source.header.size
    else .ok event.offset

/-- `query_value_t`. A number is a magnitude with a sign, a truth value is a nonzero number. -/
structure Value where
  kind : Kind := .node
  number : Nat := 0
  negative : Bool := false
  data : Bytes := []
  deriving Repr, DecidableEq, Inhabited

/-- `truth` and `value_truth`. -/
def Value.truth (v : Value) : Bool :=
  v.number ≠ 0

/-- `signed_value`. -/
def signedValue (x : Int) : Value :=
  { kind := .number, number := x.natAbs, negative := x < 0 }

/-- `signed_integer`. -/
def signedInteger (v : Value) : Int :=
  if v.negative then -(v.number : Int) else v.number

/-- The work budget of an execution: what is left of `max_work`. -/
structure Meter where
  left : Nat
  limit : Nat
  deriving Repr, DecidableEq

/-- `charge` and `eval_charge`. -/
def charge (meter : Meter) (amount : Nat) (n : Instruction) : Run Meter :=
  if amount > meter.left then queryLimit n "work" meter.limit
  else .ok { meter with left := meter.left - amount }

/-- The truth of a comparison from the order of its operands. -/
def Op.holds (op : Op) (order : Ordering) : Bool :=
  match op with
  | .eq => order = .eq
  | .ne => order ≠ .eq
  | .lt => order = .lt
  | .le => order ≠ .gt
  | .gt => order = .gt
  | _ => order ≠ .lt

/-- The order of two magnitudes with signs, as `compare` decides it. -/
def signedOrder (a b : Value) : Ordering :=
  if a.negative ≠ b.negative then (if a.negative then .lt else .gt)
  else if a.negative then Ord.compare b.number a.number
  else Ord.compare a.number b.number

/-- `compare` of `execute.c`. -/
def compareValues (meter : Meter) (a b : Value) (n : Instruction) : Run (Ordering × Meter) :=
  if (a.kind = .bytes ∧ b.kind = .bytes) ∨ (a.kind = .string ∧ b.kind = .string) then
    match charge meter (min a.data.length b.data.length) n with
    | .error stop => .error stop
    | .ok meter => .ok (bytesCompare a.data b.data, meter)
  else if a.kind = .bool ∧ b.kind = .bool then .ok (Ord.compare a.number b.number, meter)
  else if a.kind = .number ∧ b.kind = .number then .ok (signedOrder a b, meter)
  else queryError n .invalidArg .capability "compatible comparison types"

/-- The fallback loop of the byte search: `left` is the work left, `matched` the symbols of the
pattern matched so far. -/
def kmpAdvance (limit : Run (Nat × Nat)) (pattern : Bytes) (table : Area Nat) (octet : UInt8) :
    Nat → Nat → Run (Nat × Nat)
  | 0, _ => limit
  | left + 1, matched =>
    match pattern[matched]? with
    | none => .error .fault
    | some symbol =>
      if octet = symbol then .ok (matched + 1, left)
      else if matched = 0 then .ok (0, left)
      else
        match table.read (matched - 1) with
        | none => .error .fault
        | some fallback => kmpAdvance limit pattern table octet left fallback

/-- The prefix table from position `i` on. -/
def kmpTable (limit : Run (Nat × Nat)) (pattern : Bytes) :
    Bytes → Nat → Area Nat → Nat → Nat → Run (Area Nat × Nat)
  | [], _, table, _, left => .ok (table, left)
  | octet :: rest, i, table, matched, left =>
    match kmpAdvance limit pattern table octet left matched with
    | .error stop => .error stop
    | .ok (matched, left) =>
      match table.write i matched with
      | none => .error .fault
      | some table => kmpTable limit pattern rest (i + 1) table matched left

/-- The scan of the haystack, which ends at the first occurrence. -/
def kmpScan (limit : Run (Nat × Nat)) (pattern : Bytes) (table : Area Nat) :
    Bytes → Nat → Nat → Run (Bool × Nat)
  | [], _, left => .ok (false, left)
  | octet :: rest, matched, left =>
    match kmpAdvance limit pattern table octet left matched with
    | .error stop => .error stop
    | .ok (matched, left) =>
      if matched = pattern.length then .ok (true, left)
      else kmpScan limit pattern table rest matched left

/-- The search of `contains` for a pattern that is neither empty nor longer than the
haystack. -/
def kmpSearch (meter : Meter) (n : Instruction) (haystack pattern : Bytes) (table : Area Nat) :
    Run (Bool × Area Nat × Meter) := do
  let limit := queryLimit n "work" meter.limit
  let table ← checked (table.write 0 0)
  let (table, left) ← kmpTable limit pattern (pattern.drop 1) 1 table 0 meter.left
  let (found, left) ← kmpScan limit pattern table haystack 0 left
  return (found, table, { meter with left := left })

/-- The checked walk of `query_function_eval` and `args_of` along the argument spine; no list
stands for more than three arguments. -/
def Program.argumentWalk (p : Program) : Nat → Option Nat → List Nat → Run (Option (List Nat))
  | _, none, found => .ok (some found)
  | budget, some cursor, found => do
      let n ← p.fetch cursor
      if n.op = .args then
        match budget with
        | 0 => return none
        | budget + 1 =>
          let argument ← checked n.right
          p.argumentWalk budget n.left (argument :: found)
      else return some (cursor :: found)

/-- The values of evaluated arguments. -/
def readArguments (values : Area Value) (arguments : List Nat) : Run (List Value) :=
  arguments.mapM fun i => checked (values.read i)

/-- The label `arity` of `query_function_eval`. -/
def arityError {α : Type} (n : Instruction) : Run α :=
  queryError n .invalidValue .type "valid function argument types and arity"

/-- `tag-mask` on the tag of an event. -/
def maskTest (tag pattern mask : Bytes) : Bool :=
  ((tag.zip pattern).zip mask).all fun ((t, p), m) => t &&& m = p &&& m

/-- `len`. -/
def lenValue (n : Instruction) (length : Nat) : Run Value :=
  if length > int64Max then
    queryError n .overflow .capability "length representable as int64"
  else .ok { kind := .number, number := length }

/-- `substr`: the requested span is clamped to the available bytes. -/
def substrValue (n : Instruction) (a b : Value) (c : Option Value) : Run Value :=
  if b.negative || c.any (·.negative) then
    queryError n .invalidValue .capability "nonnegative substring start and length"
  else
    let rest := a.data.drop (min b.number a.data.length)
    .ok { a with data := rest.take (c.elim rest.length (min rest.length ·.number)) }

/-- `tag-mask` and `tag-range` on one event. -/
def tagFunction (meter : Meter) (event : TreeEvent) (n : Instruction) (a b : Value) :
    Run (Value × Meter) := do
  let root := n.anchor = 0 || event.depth = 0
  if n.function = .mask then
    if a.data.length ≠ b.data.length then arityError n
    else if a.data.length ≠ event.element.tag.length then return ({}, meter)
    else
      let meter ← charge meter a.data.length n
      return ({ number := (maskTest event.element.tag a.data b.data && root).toNat }, meter)
  else
    let tag : Value := { kind := .bytes, data := event.element.tag }
    let (low, meter) ← compareValues meter tag a n
    let (high, meter) ← compareValues meter tag b n
    return ({ number := ((low ≠ .lt && high ≠ .gt) && root).toNat }, meter)

/-- `starts-with` and `ends-with`. -/
def affixValue (meter : Meter) (n : Instruction) (a b : Bytes) : Run (Value × Meter) := do
  if b.length > a.length then return ({ kind := .bool }, meter)
  else
    let start := if n.function = .ends then a.length - b.length else 0
    let meter ← charge meter b.length n
    return ({ kind := .bool, number := ((a.drop start).take b.length == b).toNat }, meter)

/-- `contains`. -/
def containsValue (capacity : Nat) (meter : Meter) (n : Instruction) (a b : Bytes)
    (table : Area Nat) : Run (Value × Area Nat × Meter) := do
  if b.length > capacity then queryLimit n "pattern" capacity
  else if b.length > a.length then return ({ kind := .bool }, table, meter)
  else if b.length = 0 then return ({ kind := .bool, number := 1 }, table, meter)
  else
    let (found, table, meter) ← kmpSearch meter n a b table
    return ({ kind := .bool, number := found.toNat }, table, meter)

/-- The functions of `query_function_eval` on evaluated arguments. -/
def functionApply (capacity : Nat) (event : TreeEvent) (n : Instruction) (arguments : List Value)
    (table : Area Nat) (meter : Meter) : Run (Value × Area Nat × Meter) := do
  let a := arguments.getD 0 {}
  let b := arguments.getD 1 {}
  let c := arguments.getD 2 {}
  match n.function with
  | .value =>
    if arguments.length ≠ 0 then arityError n
    else return ({ kind := .bytes, data := event.element.value }, table, meter)
  | .len =>
    if arguments.length > 1 ∨
        (arguments.length ≠ 0 ∧ a.kind ≠ .bytes ∧ a.kind ≠ .string) then arityError n
    else
      let value ← lenValue n
        (if arguments.length ≠ 0 then a.data.length else event.element.value.length)
      return (value, table, meter)
  | .not =>
    if arguments.length ≠ 1 ∨ (a.kind ≠ .bool ∧ a.kind ≠ .node) then arityError n
    else return ({ kind := .bool, number := (!a.truth).toNat }, table, meter)
  | .substr =>
    if (arguments.length ≠ 2 ∧ arguments.length ≠ 3) ∨ a.kind ≠ .bytes ∨
        b.kind ≠ .number ∨ (arguments.length = 3 ∧ c.kind ≠ .number) then arityError n
    else
      let value ← substrValue n a b (if arguments.length = 3 then some c else none)
      return (value, table, meter)
  | function =>
    if arguments.length ≠ 2 ∨ a.kind ≠ .bytes ∨ b.kind ≠ .bytes then arityError n
    else if function = .mask ∨ function = .range then
      let (value, meter) ← tagFunction meter event n a b
      return (value, table, meter)
    else if function = .starts ∨ function = .ends then
      let (value, meter) ← affixValue meter n a.data b.data
      return (value, table, meter)
    else containsValue capacity meter n a.data b.data table

/-- `query_function_eval`: the arguments are read from the value slots of their
instructions. -/
def functionEval (p : Program) (capacity : Nat) (event : TreeEvent) (n : Instruction)
    (values : Area Value) (table : Area Nat) (meter : Meter) :
    Run (Value × Area Nat × Meter) := do
  match ← p.argumentWalk 2 n.left [] with
  | none => queryError n .invalidValue .type "function arity"
  | some arguments =>
    let arguments ← readArguments values arguments
    functionApply capacity event n arguments table meter

/-- `query_plan_tag`: wildcard, exact or masked comparison with the tag of a test. -/
def planTag (p : Program) (n : Instruction) (tag : Bytes) : Run Bool := do
  if n.resolved = 0 then return true
  else if tag.length ≠ n.dataSize then return false
  else
    let bytes ← p.slice n.dataOffset n.dataSize
    if n.resolved = 2 then
      let mask ← p.slice n.maskOffset n.dataSize
      return maskTest tag bytes mask
    else return tag == bytes

end OpenTlv.Query
