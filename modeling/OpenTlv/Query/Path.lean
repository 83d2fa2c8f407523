import OpenTlv.Query.Analyzer

/-!
# The path language

The parser, the formatter and the matcher of `query/query.c`. A parsed path is plain storage: the
octets of all tags, one behind the other, and the end of each tag. The storage of a caller need not
come from the parser, so every function checks it first.
-/

namespace OpenTlv.Query

/-- `TLV_QUERY_MAX_STEPS`. -/
def pathMaxSteps : Nat := 65

/-- `TLV_QUERY_MAX_BYTES`. -/
def pathMaxBytes : Nat := 512

/-- `query_v1_data_t`. The arrays keep their extents. -/
structure PathData where
  bytes : Bytes
  ends : List Nat
  count : Nat
  bytes_length : bytes.length = pathMaxBytes
  ends_length : ends.length = pathMaxSteps
  deriving DecidableEq

/-- A zeroed query. -/
def PathData.zero : PathData where
  bytes := List.replicate pathMaxBytes 0
  ends := List.replicate pathMaxSteps 0
  count := 0
  bytes_length := List.length_replicate
  ends_length := List.length_replicate

section Parse

/-- The failure of the parser, with the part of the text that it points to. -/
structure PathError where
  status : Status
  first : Nat
  last : Nat
  deriving Repr, DecidableEq

/-- What the parser has stored: the tags so far, and the octets that they take. -/
structure PathParse where
  data : PathData := PathData.zero
  used : Nat := 0

theorem store_extent {data : PathData} {used : Nat} {tag : Bytes}
    (h : used + tag.length ≤ pathMaxBytes) :
    (Octets.store data.bytes used tag).length = pathMaxBytes := by
  rw [Octets.store_length (by rw [data.bytes_length]; exact h), data.bytes_length]

theorem set_extent {data : PathData} {used : Nat} :
    (data.ends.set data.count used).length = pathMaxSteps := by
  rw [List.length_set, data.ends_length]

/-- A tag is stored behind the others. -/
def PathParse.push (parsed : PathParse) (tag : Bytes)
    (h : parsed.used + tag.length ≤ pathMaxBytes) : PathParse where
  data :=
    { bytes := Octets.store parsed.data.bytes parsed.used tag
      ends := parsed.data.ends.set parsed.data.count (parsed.used + tag.length)
      count := parsed.data.count + 1
      bytes_length := store_extent h
      ends_length := set_extent }
  used := parsed.used + tag.length

theorem hex_octets_half (digits : Bytes) : (hexOctets digits).length = digits.length / 2 := by
  induction digits using hexOctets.induct with
  | case1 high low rest ih =>
    rw [hexOctets, List.length_cons, ih, List.length_cons, List.length_cons]
    omega
  | case2 digits hpair =>
    cases digits with
    | nil => rfl
    | cons high rest =>
      cases rest with
      | nil => simp [hexOctets]
      | cons low rest => exact absurd rfl (hpair _ _ _)

/-- The octets that some digits spell fit where the parser says so. -/
theorem path_fits {digits : Bytes} {used : Nat} (hdigits : ¬ (digits.length = 0 ∨
      digits.length % 2 ≠ 0)) (hroom : ¬ digits.length / 2 > pathMaxBytes - used) :
    used + (hexOctets digits).length ≤ pathMaxBytes := by
  rw [hex_octets_half]
  omega

/-- What follows the digits of a tag in `tlv_query_parse_n`. -/
def PathParse.step (parsed : PathParse) (start : Nat) (digits : Bytes) :
    Except PathError PathParse :=
  if hdigits : digits.length = 0 ∨ digits.length % 2 ≠ 0 then
    .error ⟨.syntaxError, start, start + digits.length⟩
  else if parsed.data.count = pathMaxSteps then .error ⟨.limit, start, start + digits.length⟩
  else if hroom : digits.length / 2 > pathMaxBytes - parsed.used then
    .error ⟨.limit, start, start + digits.length⟩
  else .ok (parsed.push (hexOctets digits) (path_fits hdigits hroom))

/-- The loops of `tlv_query_parse_n`. `start` is where the tag starts whose digits were passed. -/
def parsePath (parsed : PathParse) (start : Nat) (digits : Bytes) :
    Bytes → Except PathError PathParse
  | [] => parsed.step start digits
  | c :: rest =>
    if c = ascii '/' then
      match parsed.step start digits with
      | .error failure => .error failure
      | .ok parsed => parsePath parsed (start + digits.length + 1) [] rest
    else if (queryHex c).isNone then
      .error ⟨.syntaxError, start + digits.length, start + digits.length + 1⟩
    else parsePath parsed start (digits ++ [c]) rest

/-- `tlv_query_parse_n`. -/
def queryParse (text : Bytes) : Except PathError PathData :=
  (parsePath {} 0 [] text).map (·.data)

/-- `tlv_query_parse`, on a text with a terminator. -/
def queryParseText (text : Bytes) : Except PathError PathData :=
  queryParse (text.takeWhile (· ≠ 0))

end Parse

section Access

variable (data : PathData)

/-- The loop of `valid_query`. -/
def validEnds : Nat → List Nat → Bool
  | _, [] => true
  | start, ending :: rest =>
    !(ending ≤ start || ending > pathMaxBytes) && validEnds ending rest

/-- `valid_query`. -/
def PathData.valid : Bool :=
  !(data.count = 0 || data.count > pathMaxSteps) && validEnds 0 (data.ends.take data.count)

/-- `tlv_query_count`. -/
def queryCount : Nat :=
  if data.valid then data.count else 0

/-- Where a tag starts. -/
def PathData.start (index : Nat) : Nat :=
  if index = 0 then 0 else data.ends.getD (index - 1) 0

/-- The octets of a tag. -/
def PathData.tag (index : Nat) : Bytes :=
  (data.bytes.drop (data.start index)).take (data.ends.getD index 0 - data.start index)

/-- `tlv_query_step`. -/
def queryStep (index : Nat) : Bytes :=
  if data.valid = false ∨ index ≥ data.count then [] else data.tag index

end Access

section Format

/-- A digit of the table `hex`. -/
def upperDigit (nibble : UInt8) : UInt8 :=
  if nibble < 10 then ascii '0' + nibble else ascii 'A' + (nibble - 10)

/-- The digits of a tag. -/
def tagText (tag : Bytes) : Bytes :=
  tag.flatMap fun octet : UInt8 => [upperDigit (octet >>> 4), upperDigit (octet &&& 15)]

/-- The loop of `tlv_query_format`: the tags from `index` on. -/
def stepsText (data : PathData) (index : Nat) : Nat → Bytes
  | 0 => []
  | steps + 1 =>
    (if index = 0 then [] else [ascii '/']) ++ tagText (data.tag index) ++
      stepsText data (index + 1) steps

/-- What `tlv_query_format` returns, the size that it requires and the output. -/
structure PathOutput where
  status : Except Status Unit
  required : Option Nat
  output : Option Bytes
  deriving DecidableEq

/-- `tlv_query_format`. -/
def queryFormat (data : PathData) (output : Option Bytes) : PathOutput :=
  if data.valid = false then ⟨.error .invalidArg, none, output⟩
  else
    let length := 2 * data.ends.getD (data.count - 1) 0 + data.count - 1
    match output with
    | none => ⟨.ok (), some (length + 1), none⟩
    | some room =>
      if room.length ≤ length then ⟨.error .bufferTooShort, some (length + 1), some room⟩
      else
        ⟨.ok (), some (length + 1),
          some (Octets.store room 0 (stepsText data 0 data.count ++ [0]))⟩

end Format

section Match

/-- `query_v1_matcher_t`: the query that it borrows, and how many of its steps are matched. -/
structure PathMatcher where
  query : Option PathData := none
  matched : Nat := 0
  deriving DecidableEq

/-- `tlv_query_matcher_init`. -/
def matcherInit (data : PathData) : Except Status PathMatcher :=
  if data.count = 0 ∨ data.count > pathMaxSteps then .error .invalidArg
  else if data.valid = false then .error .invalidTagSize
  else .ok ⟨some data, 0⟩

/-- `tlv_query_matcher_rebind`. -/
def matcherRebind (matcher : PathMatcher) (data : PathData) : Except Status PathMatcher :=
  match matcher.query with
  | none => .error .invalidState
  | some old =>
    if old.valid = false ∨ data.valid = false ∨ old.count ≠ data.count ∨
        old.ends.take old.count ≠ data.ends.take old.count ∨
        old.bytes.take (old.ends.getD (old.count - 1) 0) ≠
          data.bytes.take (old.ends.getD (old.count - 1) 0) then
      .error .invalidArg
    else .ok { matcher with query := some data }

/-- `tlv_query_matcher_visit`. -/
def matcherVisit (matcher : PathMatcher) (tag : Bytes) (depth : Nat) : Bool × PathMatcher :=
  match matcher.query with
  | none => (false, matcher)
  | some data =>
    if data.count = 0 ∨ data.count > pathMaxSteps ∨ matcher.matched > data.count ∨
        depth > matcher.matched then
      (false, matcher)
    else if depth < data.count then
      if data.start depth ≥ data.ends.getD depth 0 ∨ data.ends.getD depth 0 > pathMaxBytes then
        (false, matcher)
      else if tag = data.tag depth then
        (depth + 1 = data.count, { matcher with matched := depth + 1 })
      else (false, { matcher with matched := depth })
    else (false, { matcher with matched := depth })

end Match

end OpenTlv.Query
