import OpenTlv.Core.Utf8
import OpenTlv.Lib.Stack
import OpenTlv.Query.Value

/-!
# The lexer of the query compiler

`lex` of `compiler.c`: the text is split into tokens from the front, each by the rules of its first
octet. A first pass over a text only counts the tokens; a second one stores them into an area of
the compile scratch.
-/

namespace OpenTlv.Query

/-- `enum query_token_kind` without `T_END`, which no stored token has. -/
inductive TokenKind where
  | word
  | bytes
  | string
  | metadata
  | variableRef
  | slash
  | desc
  | opening
  | closing
  | predicateOpening
  | predicateClosing
  | comma
  | union
  | intersect
  | except
  | eq
  | ne
  | lt
  | le
  | gt
  | ge
  | and
  | or
  | dot
  | ddot
  | axis
  deriving Repr, DecidableEq

/-- `query_token_t`. -/
structure Token where
  kind : TokenKind
  start : Nat
  stop : Nat
  deriving Repr, DecidableEq

/-- The failure that `query_error` reports about a stretch of the text. -/
def failedAt (status : Status) (kind : ErrorKind) (start stop : Nat) (expected : String) : Stop :=
  .failed
    { status := status
      kind :=
        if status = .invalidState then .state
        else if status = .callback then .callback
        else kind
      start := start
      stop := stop
      expected := expected }

/-- The failure that `query_limit` reports about a stretch of the text. -/
def limitedAt (name : String) (configured start stop : Nat) : Stop :=
  .failed
    { status := .limit, kind := .limit, start := start, stop := stop, limit := name,
      configured := configured }

/-- A syntax error at a stretch of the text. -/
def syntaxAt (start stop : Nat) (expected : String) : Stop :=
  failedAt .syntaxError .syntaxError start stop expected

/-- The octet of an ASCII character. -/
def ascii (c : Char) : UInt8 :=
  UInt8.ofNat c.toNat

/-- The octets of an ASCII text. -/
def asciiText (text : String) : Bytes :=
  text.toList.map ascii

/-- The octet of a single quote. -/
def singleQuote : UInt8 := 0x27

/-- The octet of a double quote. -/
def doubleQuote : UInt8 := 0x22

/-- The octet of a backslash. -/
def backslash : UInt8 := 0x5C

/-- `whitespace`. -/
def whitespace (c : UInt8) : Bool :=
  c = 0x20 || c = 0x09 || c = 0x0D || c = 0x0A

/-- `identifier_start`. -/
def identifierStart (c : UInt8) : Bool :=
  (ascii 'a' ≤ c && c ≤ ascii 'z') || (ascii 'A' ≤ c && c ≤ ascii 'Z')

/-- A decimal digit. -/
def digit (c : UInt8) : Bool :=
  ascii '0' ≤ c && c ≤ ascii '9'

/-- `identifier_continue`. -/
def identifierContinue (c : UInt8) : Bool :=
  identifierStart c || digit c || c = ascii '_' || c = ascii '-'

/-- `word_char`. -/
def wordChar (c : UInt8) : Bool :=
  digit c || identifierStart c || c = ascii '_' || c = ascii '-' || c = ascii '?'

/-- `query_hex`. -/
def queryHex (c : UInt8) : Option Nat :=
  if digit c then some (c.toNat - (ascii '0').toNat)
  else if ascii 'a' ≤ c && c ≤ ascii 'f' then some (c.toNat - (ascii 'a').toNat + 10)
  else if ascii 'A' ≤ c && c ≤ ascii 'F' then some (c.toNat - (ascii 'A').toNat + 10)
  else none

/-- The octets of the text from `start` to `stop`. -/
def spelled (text : Bytes) (start stop : Nat) : Bytes :=
  (text.drop start).take (stop - start)

/-- Whether the octet at `pos` is there and is the given one. -/
def stands (text : Bytes) (pos : Nat) (c : UInt8) : Bool :=
  text[pos]? = some c

/-- The end of the octets from `pos` on that are all of one class. -/
def scanWhile (ofClass : UInt8 → Bool) (text : Bytes) (pos : Nat) : Nat :=
  pos + ((text.drop pos).takeWhile ofClass).length

/-- The place of the closing quote of a string, or the end of the text. -/
def scanString (quote : UInt8) : Bytes → Nat → Run Nat
  | [], pos => .ok pos
  | c :: rest, pos =>
    if c = quote then .ok pos
    else if c < 32 then
      .error (syntaxAt pos (pos + 1) "ASCII string or escaped UTF-8 bytes")
    else if c = backslash then
      match rest with
      | [] => .error (syntaxAt (pos + 1) (pos + 1) "escaped quote or backslash")
      | escaped :: more =>
        if escaped = backslash || escaped = singleQuote || escaped = doubleQuote then
          scanString quote more (pos + 2)
        else .error (syntaxAt (pos + 1) (pos + 1) "escaped quote or backslash")
    else scanString quote rest (pos + 1)

/-- The place of the closing quote of hexadecimal octets, or the end of the text. -/
def scanHex : Bytes → Nat → Run Nat
  | [], pos => .ok pos
  | c :: rest, pos =>
    if c = singleQuote then .ok pos
    else if (queryHex c).isNone then .error (syntaxAt pos (pos + 1) "hexadecimal byte")
    else scanHex rest (pos + 1)

/-- A token of one octet, or of two when a certain one follows. -/
def lexPair (text : Bytes) (pos : Nat) (second : UInt8) (short long : TokenKind) :
    TokenKind × Nat :=
  if stands text pos second then (long, pos + 1) else (short, pos)

/-- A token of two octets. -/
def lexBoth (text : Bytes) (start pos : Nat) (second : UInt8) (kind : TokenKind) :
    Run (TokenKind × Nat) :=
  if stands text pos second then .ok (kind, pos + 1)
  else .error (syntaxAt start pos "Query token")

/-- A metadata or variable name. -/
def lexName (text : Bytes) (start pos : Nat) (isVariable : Bool) : Run (TokenKind × Nat) :=
  if isVariable && !(text[pos]?.any identifierStart) then
    .error (syntaxAt start pos "variable identifier starting with a letter")
  else
    let stop := scanWhile (if isVariable then identifierContinue else wordChar) text pos
    if stop = start + 1 then .error (syntaxAt start stop "Query token")
    else .ok (if isVariable then .variableRef else .metadata, stop)

/-- A quoted string. -/
def lexString (text : Bytes) (quote : UInt8) (start pos : Nat) : Run (TokenKind × Nat) := do
  let pos ← scanString quote (text.drop pos) pos
  if pos = text.length then .error (syntaxAt start pos "closing quote")
  else if !utf8Validate (spelled text (start + 1) pos) then
    .error (syntaxAt start pos "valid UTF-8 string")
  else return (.string, pos + 1)

/-- Hexadecimal octets between quotes; `pos` is the place of the opening quote. -/
def lexBytes (text : Bytes) (start pos : Nat) : Run (TokenKind × Nat) := do
  let digits := pos + 1
  let pos ← scanHex (text.drop digits) digits
  if pos = text.length ∨ (pos - digits) % 2 ≠ 0 then
    .error (syntaxAt start pos "even hexadecimal bytes and closing quote")
  else return (.bytes, pos + 1)

/-- The end of a word. A single colon separates a namespace, two are an axis token. -/
def wordEnd (text : Bytes) (pos : Nat) : Nat :=
  let pos := scanWhile wordChar text pos
  if stands text pos (ascii ':') && !stands text (pos + 1) (ascii ':') then
    scanWhile wordChar text (pos + 1)
  else pos

/-- The kind of a word: an operator in letters, or a plain word. -/
def wordKind (word : Bytes) : TokenKind :=
  if word = asciiText "and" then .and
  else if word = asciiText "or" then .or
  else if word = asciiText "intersect" then .intersect
  else if word = asciiText "except" then .except
  else .word

/-- The octets that are a token by themselves. -/
def plainToken (c : UInt8) : Option TokenKind :=
  if c = ascii '(' then some .opening
  else if c = ascii ')' then some .closing
  else if c = ascii '[' then some .predicateOpening
  else if c = ascii ']' then some .predicateClosing
  else if c = ascii ',' then some .comma
  else if c = ascii '|' then some .union
  else if c = ascii '=' then some .eq
  else if c = ascii '*' then some .word
  else none

/-- The octets that may have a second one, with the tokens of one and of two. -/
def pairToken (c : UInt8) : Option (UInt8 × TokenKind × TokenKind) :=
  if c = ascii '/' then some (ascii '/', .slash, .desc)
  else if c = ascii '<' then some (ascii '=', .lt, .le)
  else if c = ascii '>' then some (ascii '=', .gt, .ge)
  else if c = ascii '.' then some (ascii '.', .dot, .ddot)
  else none

/-- The octets that must have a second one. -/
def bothToken (c : UInt8) : Option (UInt8 × TokenKind) :=
  if c = ascii '!' then some (ascii '=', .ne)
  else if c = ascii ':' then some (ascii ':', .axis)
  else none

/-- The kind and the end of the token that starts with `c` at `start`. -/
def lexToken (text : Bytes) (start : Nat) (c : UInt8) : Run (TokenKind × Nat) :=
  let pos := start + 1
  match plainToken c, pairToken c, bothToken c with
  | some kind, _, _ => .ok (kind, pos)
  | _, some (second, short, long), _ => .ok (lexPair text pos second short long)
  | _, _, some (second, kind) => lexBoth text start pos second kind
  | _, _, _ =>
    if c = ascii '@' || c = ascii '$' then lexName text start pos (c = ascii '$')
    else if c = singleQuote || c = doubleQuote then lexString text c start pos
    else if c = ascii 'x' && stands text pos singleQuote then lexBytes text start pos
    else if wordChar c then
      .ok (wordKind (spelled text start (wordEnd text pos)), wordEnd text pos)
    else .error (syntaxAt start pos "Query token")

/-- The loop of `lex` from `pos` on. Without an area the tokens are only counted. -/
def lexLoop (text : Bytes) (limit : Nat) :
    Nat → Nat → Nat → Option (Stack Token) → Run (Nat × Option (Stack Token))
  | 0, pos, used, tokens =>
    if text.length ≤ pos then .ok (used, tokens) else .error .fault
  | fuel + 1, pos, used, tokens =>
    match text[pos]? with
    | none => .ok (used, tokens)
    | some c =>
      if whitespace c then lexLoop text limit fuel (pos + 1) used tokens
      else do
        let (kind, stop) ← lexToken text pos c
        if used = limit then throw (limitedAt "tokens" limit pos stop)
        let tokens ←
          match tokens with
          | none => pure none
          | some area => do
              let area ← checked (area.push { kind := kind, start := pos, stop := stop })
              pure (some area)
        lexLoop text limit fuel stop (used + 1) tokens

/-- `lex`: the number of tokens, and the area they are stored in. -/
def lex (text : Bytes) (limit : Nat) (tokens : Option (Stack Token)) :
    Run (Nat × Option (Stack Token)) :=
  lexLoop text limit text.length 0 0 tokens

end OpenTlv.Query
