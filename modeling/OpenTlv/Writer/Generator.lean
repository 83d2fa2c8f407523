import OpenTlv.Lib.Guarded
import OpenTlv.Writer.Tree

/-!
# The case generator

`generator.c`: a deterministic search for a stream of elements that decode completely and re-encode
to the same octets. All levels share one budget of elements and one of attempts. The workspace is
cut into one slice of `max_case_size` octets for each depth; the slice of a depth holds the value of
its candidate, which is where the stream one level deeper is generated, and then the second encoding
of the candidate. An access outside of the output or of the workspace that the options call for is a
fault.
-/

namespace OpenTlv

/-- `tlv_generator_candidate_t`. The extent of the identifier is a 64-bit size. -/
structure GeneratorCandidate where
  tag : TagView
  minValueSize : Nat
  maxValueSize : Nat
  tag_le : tag.bytes.length ≤ sizeMax
  deriving DecidableEq

/-- `tlv_generator_options_t`. -/
structure GeneratorOptions where
  seed : UInt64 := 0
  caseIndex : UInt64 := 0
  maxElements : Nat
  maxDepth : Nat
  maxValueSize : Nat
  maxCaseSize : Nat
  candidates : List GeneratorCandidate
  deriving DecidableEq

/-- `generator_t` with the output and the workspace, but without the format and the options. -/
structure Generator where
  data : Bytes
  workspace : Bytes
  random : UInt64
  remaining : Nat
  attempts : Nat
  deriving Repr, DecidableEq

/-- The steps of the generator. -/
abbrev Generating := InPlace (Stop Status) Generator

namespace Generator

/-- `mix`. -/
def mix (z : UInt64) : UInt64 :=
  let z := (z ^^^ (z >>> 30)) * 0xbf58476d1ce4e5b9
  let z := (z ^^^ (z >>> 27)) * 0x94d049bb133111eb
  z ^^^ (z >>> 31)

/-- `next`. -/
def next : Generating UInt64 := do
  modify fun g => { g with random := g.random + 0x9e3779b97f4a7c15 }
  let g ← get
  return mix g.random

/-- The sizes at which the forms of lengths change. -/
def boundaries : List Nat := [0, 1, 127, 128, 255, 256]

/-- `value_size`. -/
def valueSize (lo hi : Nat) : Generating Nat := do
  let r ← next
  let n := boundaries.getD ((r >>> 2).toNat % 6) 0
  if r.toNat % 4 = 0 then return lo
  else if r.toNat % 4 = 1 then return hi
  else if r.toNat % 4 = 2 ∧ lo ≤ n ∧ n ≤ hi then return n
  else do
    let s ← next
    return lo + s.toNat % (hi - lo + 1)

/-- A candidate whose value sizes are in order and whose identifier is there. -/
def candidateValid (c : GeneratorCandidate) : Bool :=
  c.minValueSize ≤ c.maxValueSize && (c.tag.present || c.tag.bytes.isEmpty)

/-- `tlv_generator_workspace_size`. -/
def workspaceSize (o : GeneratorOptions) : Except Status Nat :=
  if o.maxElements = 0 ∨ o.maxCaseSize = 0 ∨ o.candidates.isEmpty then .error .invalidArg
  else if o.maxDepth > 64 then .error .unsupported
  else if o.maxCaseSize > sizeMax / (o.maxDepth + 1) ∨ o.maxCaseSize = sizeMax ∨
      o.maxElements > sizeMax / 64 then .error .overflow
  else if o.candidates.all candidateValid = false then .error .invalidArg
  else if o.candidates.any (fun c =>
      c.minValueSize ≤ o.maxValueSize && c.minValueSize ≤ o.maxCaseSize) = false then
    .error .invalidArg
  else .ok ((o.maxDepth + 1) * o.maxCaseSize)

/-- Read octets of an area: the output, or behind it the slice of the workspace for a depth. -/
def load (o : GeneratorOptions) (area offset count : Nat) : Generating Bytes := do
  let g ← get
  match area with
  | 0 => InPlace.lift (Guarded.slice g.data offset count)
  | depth + 1 => InPlace.lift (Guarded.slice g.workspace (depth * o.maxCaseSize + offset) count)

/-- Store octets in an area. -/
def store (o : GeneratorOptions) (area offset : Nat) (bytes : Bytes) : Generating Unit := do
  let g ← get
  match area with
  | 0 => do
      let data ← InPlace.lift (Guarded.put g.data offset bytes)
      set { g with data := data }
  | depth + 1 => do
      let workspace ← InPlace.lift
        (Guarded.put g.workspace (depth * o.maxCaseSize + offset) bytes)
      set { g with workspace := workspace }

/-- Fill the front of an area with random octets. -/
def fill (o : GeneratorOptions) (area length : Nat) : Generating Unit :=
  (List.range length).forM fun i => do
    let r ← next
    store o area i [r.toUInt8]

/-- `tlv_write_element` into the `capacity` octets of an area from `offset` on. -/
def encodeAt (encoder : Encoder) (o : GeneratorOptions) (area offset capacity : Nat)
    (tag value : Bytes) : Generating (Except Status Nat) := do
  let destination ← load o area offset capacity
  if h : tag.length ≤ sizeMax ∧ value.length ≤ sizeMax then do
    let encoded := encoder.encode ⟨tag, value, tag_extent h, value_extent h⟩ destination
    store o area offset encoded.2
    return encoded.1.mapError Prod.fst
  else throw .fault

/-- A failure of the format rejects the candidate, a violation by a callback ends the case. -/
def refused {α : Type} (status : Status) : Generating (Option α) :=
  if status = .callback then throw (.code .callback) else return none

/-- A tag that is decoded from an element is present, or it is the empty span without origin. -/
def tagPresent (tag : Span) : Bool :=
  !tag.bytes.isEmpty || tag.origin.isSome

/-- The decoded element is the one that was encoded, and nothing of the encoding is left. -/
def preserved (c : GeneratorCandidate) (value : Bytes) (n : Nat) (decoded : Decoded) : Bool :=
  decoded.source.size = n && decoded.tag.bytes = c.tag.bytes &&
    tagPresent decoded.tag = c.tag.present && decoded.value.bytes = value

/-- The second encoding of a candidate, over its value. -/
def reencode (encoder : Encoder) (o : GeneratorOptions) (depth pos n : Nat) (decoded : Decoded) :
    Generating (Option Nat) := do
  match ← encodeAt encoder o (depth + 1) 0 o.maxCaseSize decoded.tag.bytes decoded.value.bytes with
  | .error status => refused status
  | .ok check =>
    if check ≠ n then return none
    else do
      let again ← load o (depth + 1) 0 n
      let first ← load o depth pos n
      return if again = first then some n else none

/-- The encoding of a candidate is decoded again. -/
def verify (encoder : Encoder) (o : GeneratorOptions) (c : GeneratorCandidate)
    (depth pos length n : Nat) : Generating (Option Nat) := do
  let bytes ← load o depth pos n
  match formatDecode encoder.format bytes with
  | .error (status, _) => refused status
  | .ok decoded => do
      let value ← load o (depth + 1) 0 length
      if preserved c value n decoded then reencode encoder o depth pos n decoded
      else throw (.code .callback)

/-- A candidate whose value is in the slice of its depth is written and verified. -/
def write (encoder : Encoder) (o : GeneratorOptions) (c : GeneratorCandidate)
    (depth capacity pos length : Nat) : Generating (Option Nat) := do
  let value ← load o (depth + 1) 0 length
  match ← encodeAt encoder o depth pos (capacity - pos) c.tag.bytes value with
  | .error status => refused status
  | .ok n =>
    if n = 0 then throw (.code .callback)
    else verify encoder o c depth pos length n

/-- The value of a constructed candidate: a stream one level deeper, where there is room for one. -/
def children (o : GeneratorOptions) (nested : Nat → Generating Nat) (c : GeneratorCandidate)
    (depth hi : Nat) : Generating (Option Nat) := do
  let g ← get
  let length ← if depth < o.maxDepth ∧ g.remaining ≠ 0 ∧ hi ≠ 0 then nested hi else pure 0
  return if length < c.minValueSize then none else some length

/-- The value of a primitive candidate: random octets. -/
def randomValue (o : GeneratorOptions) (c : GeneratorCandidate) (depth hi : Nat) :
    Generating (Option Nat) := do
  let length ← valueSize c.minValueSize hi
  fill o (depth + 1) length
  return some length

/-- A value for a candidate. -/
def value (encoder : Encoder) (o : GeneratorOptions) (nested : Nat → Generating Nat)
    (c : GeneratorCandidate) (depth hi : Nat) : Generating (Option Nat) :=
  if encoder.format.constructs c.tag.bytes then children o nested c depth hi
  else randomValue o c depth hi

/-- A value for a candidate, and the element. -/
def element (encoder : Encoder) (o : GeneratorOptions) (nested : Nat → Generating Nat)
    (c : GeneratorCandidate) (depth capacity pos hi : Nat) : Generating (Option Nat) := do
  match ← value encoder o nested c depth hi with
  | none => return none
  | some length => write encoder o c depth capacity pos length

/-- One turn of the loop of `stream`: the extent of an accepted element, or nothing. A rejected
candidate gives the elements that it took back. -/
def attempt (encoder : Encoder) (o : GeneratorOptions) (nested : Nat → Generating Nat)
    (depth capacity pos : Nat) : Generating (Option Nat) := do
  modify fun g => { g with attempts := g.attempts - 1 }
  let r ← next
  match o.candidates[r.toNat % o.candidates.length]? with
  | none => throw .fault
  | some c => do
      let hi := min (min c.maxValueSize o.maxValueSize) (capacity - pos)
      if hi < c.minValueSize then return none
      else do
        let saved ← get
        modify fun g => { g with remaining := g.remaining - 1 }
        match ← element encoder o nested c depth capacity pos hi with
        | some n => return some n
        | none => do
            modify fun g => { g with remaining := saved.remaining }
            return none

/-- The number of elements that a stream is to have. -/
def target : Generating Nat := do
  let g ← get
  if g.remaining = 0 then throw .fault
  else do
    let r ← next
    return 1 + r.toNat % g.remaining

/-- The condition of the loop of `stream`. -/
def goesOn (g : Generator) (wanted accepted capacity pos : Nat) : Bool :=
  accepted < wanted && g.remaining ≠ 0 && g.attempts ≠ 0 && pos < capacity

/-- The loop of `stream`. No run needs more turns than there are attempts. -/
def streamLoop (encoder : Encoder) (o : GeneratorOptions) :
    Nat → Nat → Nat → Nat → Nat → Nat → Generating Nat
  | 0, _, capacity, wanted, accepted, pos => do
      let g ← get
      if g.goesOn wanted accepted capacity pos then throw .fault else return pos
  | turns + 1, depth, capacity, wanted, accepted, pos => do
      let g ← get
      if g.goesOn wanted accepted capacity pos then do
        let nested := fun hi => do
          let wanted ← target
          streamLoop encoder o turns (depth + 1) hi wanted 0 0
        match ← attempt encoder o nested depth capacity pos with
        | none => streamLoop encoder o turns depth capacity wanted accepted pos
        | some n => streamLoop encoder o turns depth capacity wanted (accepted + 1) (pos + n)
      else return pos

/-- `stream`. -/
def stream (encoder : Encoder) (o : GeneratorOptions) (turns depth capacity : Nat) :
    Generating Nat := do
  let wanted ← target
  streamLoop encoder o turns depth capacity wanted 0 0

/-- The generator of a case. It gets the blocks that the options call for and nothing behind. -/
def start (o : GeneratorOptions) (data workspace : Bytes) (required : Nat) : Generator where
  data := data.take o.maxCaseSize
  workspace := workspace.take required
  random := mix (mix (o.seed ^^^ 0xd1b54a32d192ed03) ^^^ o.caseIndex)
  remaining := o.maxElements
  attempts := o.maxElements * 64

/-- `tlv_generate`: the size of the case, and the output with it. -/
def generate (encoder : Encoder) (o : GeneratorOptions) (data workspace : Bytes) :
    Except (Stop Status) (Nat × Bytes) :=
  if encoder.format.decode.isNone ∨ encoder.format.measure.isNone ∨
      encoder.format.encode.isNone then .error (.code .unsupported)
  else
    match workspaceSize o with
    | .error status => .error (.code status)
    | .ok required =>
      if data.length < o.maxCaseSize ∨ workspace.length < required then
        .error (.code .bufferTooShort)
      else
        let g := start o data workspace required
        match (stream encoder o g.attempts 0 o.maxCaseSize).exec g with
        | (.error stop, _) => .error stop
        | (.ok n, g) => if n = 0 then .error (.code .limit) else .ok (n, g.data)

end Generator

end OpenTlv
