import OpenTlv.Query.Lexer
import OpenTlv.Query.Search

/-!
# What the lexer yields

Every token is a stretch of the text that is not empty, and the tokens lie behind each other, so
that together they are no longer than the text. A pass that stores them finds as many as one that
only counts them.
-/

namespace OpenTlv.Query

variable {text : Bytes} {start pos stop : Nat} {c : UInt8}

/-- A failure of the library, and no access outside of an area. -/
abbrev Reported : Stop → Prop :=
  Reports True

theorem reported_syntax (start stop : Nat) (expected : String) :
    Reported (syntaxAt start stop expected) :=
  ⟨⟨_, rfl⟩, trivial⟩

theorem reported_limit (name : String) (configured start stop : Nat) :
    Reported (limitedAt name configured start stop) :=
  ⟨⟨_, rfl⟩, trivial⟩

/-- The end of a stretch of a text from `pos` on. -/
def Reaches (text : Bytes) (pos stop : Nat) : Prop :=
  pos ≤ stop ∧ stop ≤ text.length

theorem scan_while_reaches (ofClass : UInt8 → Bool) (hpos : pos ≤ text.length) :
    Reaches text pos (scanWhile ofClass text pos) := by
  have hscan := (List.takeWhile_prefix ofClass (l := text.drop pos)).length_le
  rw [List.length_drop] at hscan
  unfold scanWhile
  exact ⟨by omega, by omega⟩

theorem stands_lt (h : stands text pos c = true) : pos < text.length := by
  unfold stands at h
  exact (List.getElem?_eq_some_iff.mp (of_decide_eq_true h)).1

theorem scan_string_reaches (quote : UInt8) (rest : Bytes) (pos : Nat) :
    Meets (scanString quote rest pos) Reported fun stop =>
      pos ≤ stop ∧ stop ≤ pos + rest.length := by
  induction rest, pos using scanString.induct quote with
  | case1 pos => exact ⟨Nat.le_refl _, Nat.le_refl _⟩
  | case2 pos rest =>
    unfold scanString
    rw [if_pos rfl]
    exact ⟨Nat.le_refl _, Nat.le_add_right _ _⟩
  | case3 pos c rest hquote hcontrol =>
    unfold scanString
    rw [if_neg hquote, if_pos hcontrol]
    exact reported_syntax _ _ _
  | case4 pos hquote hcontrol =>
    unfold scanString
    rw [if_neg hquote, if_neg hcontrol, if_pos rfl]
    exact reported_syntax _ _ _
  | case5 pos escaped more hescaped hquote hcontrol ih =>
    unfold scanString
    rw [if_neg hquote, if_neg hcontrol, if_pos rfl]
    dsimp only
    rw [if_pos hescaped]
    refine ih.mono (fun _ h => h) fun stop hstop => ?_
    simp only [List.length_cons]
    omega
  | case6 pos escaped more hescaped hquote hcontrol =>
    unfold scanString
    rw [if_neg hquote, if_neg hcontrol, if_pos rfl]
    dsimp only
    rw [if_neg hescaped]
    exact reported_syntax _ _ _
  | case7 pos c rest hquote hcontrol hescape ih =>
    unfold scanString
    rw [if_neg hquote, if_neg hcontrol, if_neg hescape]
    refine ih.mono (fun _ h => h) fun stop hstop => ?_
    rw [List.length_cons]
    omega

theorem scan_hex_reaches (rest : Bytes) (pos : Nat) :
    Meets (scanHex rest pos) Reported fun stop => pos ≤ stop ∧ stop ≤ pos + rest.length := by
  induction rest generalizing pos with
  | nil => exact ⟨Nat.le_refl _, Nat.le_refl _⟩
  | cons c rest ih =>
    unfold scanHex
    split
    · exact ⟨Nat.le_refl _, Nat.le_add_right _ _⟩
    · split
      · exact reported_syntax _ _ _
      · refine (ih (pos + 1)).mono (fun _ h => h) fun stop hstop => ?_
        rw [List.length_cons]
        omega

/-- What a rule of the lexer yields for the octet at `start`. -/
def Lexes (text : Bytes) (start : Nat) (run : Run (TokenKind × Nat)) : Prop :=
  Meets run Reported fun token => Reaches text (start + 1) token.2

theorem lex_pair_lexes (hstart : start < text.length) (second : UInt8) (short long : TokenKind) :
    Lexes text start (.ok (lexPair text (start + 1) second short long)) := by
  show Reaches text (start + 1) (lexPair text (start + 1) second short long).2
  unfold lexPair
  split
  next hstands => exact ⟨Nat.le_succ _, stands_lt hstands⟩
  next => exact ⟨Nat.le_refl _, hstart⟩

theorem lex_both_lexes (second : UInt8) (kind : TokenKind) :
    Lexes text start (lexBoth text start (start + 1) second kind) := by
  unfold lexBoth
  split
  next hstands => exact ⟨Nat.le_succ _, stands_lt hstands⟩
  next => exact reported_syntax _ _ _

theorem lex_name_lexes (hstart : start < text.length) (isVariable : Bool) :
    Lexes text start (lexName text start (start + 1) isVariable) := by
  have hscan : ∀ (ofClass : UInt8 → Bool) (kind : TokenKind), Lexes text start
      (if scanWhile ofClass text (start + 1) = start + 1 then
        .error (syntaxAt start (scanWhile ofClass text (start + 1)) "Query token")
      else .ok (kind, scanWhile ofClass text (start + 1))) := by
    intro ofClass kind
    split
    · exact reported_syntax _ _ _
    · exact scan_while_reaches _ hstart
  cases isVariable with
  | false => exact hscan wordChar .metadata
  | true =>
    unfold lexName
    split
    · exact reported_syntax _ _ _
    · exact hscan identifierContinue .variableRef

theorem lex_string_lexes (hstart : start < text.length) (quote : UInt8) :
    Lexes text start (lexString text quote start (start + 1)) := by
  refine (scan_string_reaches quote (text.drop (start + 1)) (start + 1)).bind (fun _ h => h)
    fun pos hpos => ?_
  rw [List.length_drop] at hpos
  split
  · exact reported_syntax _ _ _
  · split
    · exact reported_syntax _ _ _
    · exact ⟨by omega, by omega⟩

theorem lex_bytes_lexes (hopening : start + 1 < text.length) :
    Lexes text start (lexBytes text start (start + 1)) := by
  refine (scan_hex_reaches (text.drop (start + 1 + 1)) (start + 1 + 1)).bind (fun _ h => h)
    fun pos hpos => ?_
  rw [List.length_drop] at hpos
  split
  · exact reported_syntax _ _ _
  · exact ⟨by omega, by omega⟩

theorem word_end_reaches (hpos : pos ≤ text.length) : Reaches text pos (wordEnd text pos) := by
  have hword : Reaches text pos (scanWhile wordChar text pos) := scan_while_reaches wordChar hpos
  unfold wordEnd
  dsimp only
  split
  next hcolon =>
    rw [Bool.and_eq_true] at hcolon
    have hlt := stands_lt hcolon.1
    have hname : Reaches text (scanWhile wordChar text pos + 1)
        (scanWhile wordChar text (scanWhile wordChar text pos + 1)) :=
      scan_while_reaches wordChar hlt
    exact ⟨by have := hword.1; have := hname.1; omega, hname.2⟩
  next => exact hword

/-- A token is not empty and ends inside of the text. -/
theorem lex_token_lexes (hstart : start < text.length) :
    Lexes text start (lexToken text start c) := by
  have hsingle : Reaches text (start + 1) (start + 1) := ⟨Nat.le_refl _, hstart⟩
  unfold lexToken
  dsimp only
  split
  · exact hsingle
  · exact lex_pair_lexes hstart _ _ _
  · exact lex_both_lexes _ _
  · split
    · exact lex_name_lexes hstart _
    split
    · exact lex_string_lexes hstart _
    split
    next hbytes =>
      rw [Bool.and_eq_true] at hbytes
      exact lex_bytes_lexes (stands_lt hbytes.2)
    split
    · exact word_end_reaches hstart
    · exact reported_syntax _ _ _

/-- The octets of a token. -/
def Token.width (t : Token) : Nat :=
  t.stop - t.start

/-- The octets of tokens together. -/
def widths (tokens : List Token) : Nat :=
  (tokens.map Token.width).sum

/-- Tokens that lie behind each other in the text from `pos` on. -/
structure Laid (text : Bytes) (pos : Nat) (tokens : List Token) : Prop where
  inside : ∀ t ∈ tokens, t.start < t.stop ∧ t.stop ≤ text.length
  widths : widths tokens + pos ≤ text.length

theorem laid_nil (hpos : pos ≤ text.length) : Laid text pos [] :=
  ⟨fun _ h => absurd h List.not_mem_nil, (Nat.zero_add pos).trans_le hpos⟩

theorem Laid.cons {t : Token} {rest : List Token} (h : Laid text t.stop rest)
    (hstart : pos ≤ t.start) (hwidth : t.start < t.stop) : Laid text pos (t :: rest) := by
  have hrest := h.widths
  refine ⟨fun u hu => ?_, ?_⟩
  · rcases List.mem_cons.mp hu with rfl | hu
    · exact ⟨hwidth, by omega⟩
    · exact h.inside u hu
  · show (t.width :: rest.map Token.width).sum + pos ≤ text.length
    have hown : t.width = t.stop - t.start := rfl
    unfold Query.widths at hrest
    rw [List.sum_cons]
    omega

theorem Laid.before {tokens : List Token} (h : Laid text stop tokens) (hpos : pos ≤ stop) :
    Laid text pos tokens :=
  ⟨h.inside, by have := h.widths; omega⟩

/-- A pass that counts tokens tells what a pass from the same place stores. -/
theorem lex_loop_stores {limit fuel used : Nat} (hpos : pos ≤ text.length)
    (hfuel : text.length - pos ≤ fuel) :
    Meets (lexLoop text limit fuel pos used none) Reported fun counted =>
      ∃ tokens, Laid text pos tokens ∧ counted = (used + tokens.length, none) ∧
        ∀ area : Stack Token, area.size = used → counted.1 ≤ area.capacity →
          ∃ area', lexLoop text limit fuel pos used (some area) = .ok (counted.1, some area') ∧
            area'.items = area.items ++ tokens := by
  induction fuel generalizing pos used with
  | zero =>
    have hend : text.length ≤ pos := by omega
    unfold lexLoop
    rw [if_pos hend]
    exact ⟨[], laid_nil hpos, rfl, fun area _ _ =>
      ⟨area, if_pos hend, (List.append_nil _).symm⟩⟩
  | succ fuel ih =>
    unfold lexLoop
    cases hoctet : text[pos]? with
    | none =>
      exact ⟨[], laid_nil hpos, rfl, fun area _ _ =>
        ⟨area, rfl, (List.append_nil _).symm⟩⟩
    | some c =>
      have hlt : pos < text.length := (List.getElem?_eq_some_iff.mp hoctet).1
      dsimp only
      cases hspace : whitespace c with
      | true =>
        simp only [if_true]
        refine (@ih (pos + 1) used hlt (by omega)).mono (fun _ h => h)
          fun counted hcounted => ?_
        obtain ⟨tokens, hlaid, hcount, hstores⟩ := hcounted
        exact ⟨tokens, hlaid.before (Nat.le_succ _), hcount, hstores⟩
      | false =>
        simp only [Bool.false_eq_true, if_false]
        have htoken := lex_token_lexes (c := c) hlt
        cases hlexed : lexToken text pos c with
        | error stop =>
          rw [hlexed] at htoken
          exact htoken
        | ok token =>
          obtain ⟨kind, stop⟩ := token
          rw [hlexed] at htoken
          obtain ⟨hwidth, hinside⟩ : Reaches text (pos + 1) stop := htoken
          simp only [bind, Except.bind]
          by_cases hlimit : used = limit
          · rw [if_pos hlimit]
            exact reported_limit _ _ _ _
          · simp only [if_neg hlimit]
            refine (@ih stop (used + 1) hinside (by omega)).mono
              (fun _ h => h) fun counted hcounted => ?_
            obtain ⟨tokens, hlaid, rfl, hstores⟩ := hcounted
            refine ⟨⟨kind, pos, stop⟩ :: tokens, hlaid.cons (Nat.le_refl _) hwidth,
              by rw [List.length_cons, Nat.add_assoc, Nat.add_comm 1], ?_⟩
            intro area hsize hroom
            obtain ⟨area', hpush, hitems, hcapacity⟩ :=
              @Stack.push_of_lt _ area ⟨kind, pos, stop⟩ (by dsimp only at hroom; omega)
            have hnext : area'.size = used + 1 := by
              unfold Stack.size at hsize ⊢
              rw [hitems, List.length_append, hsize]
              rfl
            obtain ⟨last, hlast, hall⟩ :=
              hstores area' hnext (by rw [hcapacity]; exact hroom)
            refine ⟨last, ?_, by rw [hall, hitems, List.append_assoc]; rfl⟩
            rw [hpush]
            exact hlast

/-- A text that `lex` counts the tokens of is stored in every area with room for them. -/
theorem lex_stores {limit count : Nat} {none' : Option (Stack Token)}
    (h : lex text limit none = .ok (count, none')) :
    none' = none ∧ ∃ tokens, Laid text 0 tokens ∧ tokens.length = count ∧
      ∀ capacity, count ≤ capacity → ∃ area,
        lex text limit (some (.empty capacity)) = .ok (count, some area) ∧ area.items = tokens := by
  have hcounts := @lex_loop_stores text 0 limit text.length 0 (Nat.zero_le _) (Nat.sub_le _ _)
  unfold lex at h
  rw [h] at hcounts
  obtain ⟨tokens, hlaid, hcount, hstores⟩ := hcounts
  have hlength : tokens.length = count := by
    have := congrArg Prod.fst hcount
    dsimp only at this
    omega
  exact ⟨congrArg Prod.snd hcount, tokens, hlaid, hlength,
    fun capacity hroom => hstores (.empty capacity) rfl hroom⟩

end OpenTlv.Query
