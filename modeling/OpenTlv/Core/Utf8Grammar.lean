import Mathlib.Tactic
import OpenTlv.Core.Utf8

/-!
# What the UTF-8 validator accepts

The two loops of `tlv_utf8_stream_update` as they stand, and the texts that they accept: the
concatenations of the encodings of Unicode scalar values. A code point that a piece ends inside of
is kept in the state, so the cut into pieces does not matter.
-/

namespace OpenTlv

section Loops

/-- The inner loop of `tlv_utf8_stream_update`: it collects the octets of a code point. What is
left are the octets collected and those that are not read. -/
def utf8Collect (need : Nat) : Bytes → Bytes → Option (Bytes × Bytes)
  | pending, [] => some (pending, [])
  | pending, octet :: rest =>
    if pending.length < need then
      if octet &&& 0xC0 ≠ 0x80 then none else utf8Collect need (pending ++ [octet]) rest
    else some (pending, octet :: rest)

/-- The outer loop of `tlv_utf8_stream_update`, of at most some turns. -/
def utf8UpdateTurns : Nat → Utf8Stream → Bytes → Option Utf8Stream
  | 0, state, _ => some state
  | _ + 1, state, [] => some state
  | turns + 1, state, octet :: rest =>
    if state.need = 0 then
      if octet < 0x80 then utf8UpdateTurns turns state rest
      else if octet &&& 0xE0 = 0xC0 then utf8UpdateTurns turns ⟨[octet], 2⟩ rest
      else if octet &&& 0xF0 = 0xE0 then utf8UpdateTurns turns ⟨[octet], 3⟩ rest
      else if octet &&& 0xF8 = 0xF0 then utf8UpdateTurns turns ⟨[octet], 4⟩ rest
      else none
    else
      match utf8Collect state.need state.pending (octet :: rest) with
      | none => none
      | some (pending, rest) =>
        if pending.length = state.need then
          if utf8CodepointValid pending then utf8UpdateTurns turns {} rest else none
        else utf8UpdateTurns turns { state with pending := pending } rest

/-- `tlv_utf8_stream_update` with its loops. Every turn reads an octet. -/
def utf8UpdateLoops (state : Utf8Stream) (value : Bytes) : Option Utf8Stream :=
  utf8UpdateTurns value.length state value

/-- `tlv_utf8_stream_finish`. -/
def utf8StreamFinish (state : Utf8Stream) : Bool :=
  state.need = 0

/-- A state between code points, or inside of one. -/
def Utf8Stream.Open (state : Utf8Stream) : Prop :=
  state.need = 0 ∨ state.pending.length < state.need

/-- A step inside of a code point. -/
theorem utf8_step_inside {need : Nat} {pending : Bytes} (octet : UInt8)
    (h : pending.length < need) :
    utf8Step ⟨pending, need⟩ octet =
      if octet &&& 0xC0 ≠ 0x80 then none
      else if (pending ++ [octet]).length = need then
        if utf8CodepointValid (pending ++ [octet]) then some {} else none
      else some ⟨pending ++ [octet], need⟩ := by
  unfold utf8Step
  exact if_neg (show ¬ need = 0 by omega)

/-- A code point that is complete is not collected any further. -/
theorem utf8_collect_full {need : Nat} {pending : Bytes} (h : pending.length = need)
    (value : Bytes) : utf8Collect need pending value = some (pending, value) := by
  cases value with
  | nil => rfl
  | cons octet rest =>
    unfold utf8Collect
    rw [if_neg (by omega)]

/-- The steps inside of a code point collect its octets. -/
theorem utf8_collect_steps {need : Nat} (value : Bytes) {pending : Bytes}
    (h : pending.length < need) :
    value.foldlM utf8Step ⟨pending, need⟩ =
      match utf8Collect need pending value with
      | none => none
      | some (pending, rest) =>
        if pending.length = need then
          if utf8CodepointValid pending then rest.foldlM utf8Step {} else none
        else rest.foldlM utf8Step ⟨pending, need⟩ := by
  induction value generalizing pending with
  | nil =>
    unfold utf8Collect
    dsimp only
    rw [if_neg (by omega)]
  | cons octet rest ih =>
    have hlength : (pending ++ [octet]).length = pending.length + 1 := List.length_append
    rw [List.foldlM_cons, utf8_step_inside octet h]
    unfold utf8Collect
    rw [if_pos h]
    by_cases hmalformed : octet &&& 0xC0 ≠ 0x80
    · rw [if_pos hmalformed, if_pos hmalformed]
      rfl
    · rw [if_neg hmalformed, if_neg hmalformed]
      by_cases hfull : (pending ++ [octet]).length = need
      · rw [if_pos hfull, utf8_collect_full hfull rest]
        dsimp only
        rw [if_pos hfull]
        split
        · rfl
        · rfl
      · rw [if_neg hfull]
        exact ih (by omega)

/-- Collecting passes octets on in order, and stops where it must. -/
theorem utf8_collect_ok {need : Nat} {value pending collected behind : Bytes}
    (hfits : pending.length ≤ need)
    (h : utf8Collect need pending value = some (collected, behind)) :
    collected.length + behind.length = pending.length + value.length ∧
      collected.length ≤ need ∧ (behind = [] ∨ collected.length = need) := by
  induction value generalizing pending with
  | nil =>
    cases h
    exact ⟨rfl, hfits, .inl rfl⟩
  | cons octet rest ih =>
    unfold utf8Collect at h
    split at h
    next hmore =>
      split at h
      · cases h
      · have hlength : (pending ++ [octet]).length = pending.length + 1 := List.length_append
        obtain ⟨hread, hbounded, hstop⟩ := ih (by omega) h
        rw [List.length_cons]
        exact ⟨by omega, hbounded, hstop⟩
    next hfull =>
      cases h
      exact ⟨rfl, hfits, .inr (by omega)⟩

/-- Every turn of the outer loop is a run of steps. -/
theorem utf8_update_turns {turns : Nat} {value : Bytes} {state : Utf8Stream}
    (hopen : state.Open) (hturns : value.length ≤ turns) :
    utf8UpdateTurns turns state value = value.foldlM utf8Step state := by
  induction turns generalizing value state with
  | zero =>
    rw [List.eq_nil_of_length_eq_zero (Nat.le_zero.mp hturns)]
    rfl
  | succ turns ih =>
    cases value with
    | nil => rfl
    | cons octet rest =>
      rw [List.length_cons] at hturns
      by_cases hneed : state.need = 0
      · have hlead : ∀ need, 2 ≤ need → utf8UpdateTurns turns ⟨[octet], need⟩ rest =
            rest.foldlM utf8Step ⟨[octet], need⟩ :=
          fun need hleast => ih (.inr hleast) (by omega)
        unfold utf8UpdateTurns
        rw [List.foldlM_cons]
        unfold utf8Step
        rw [if_pos hneed, if_pos hneed, hlead 2 (by omega), hlead 3 (by omega),
          hlead 4 (by omega), ih (.inl hneed) (by omega)]
        by_cases hone : octet < 0x80
        · rw [if_pos hone, if_pos hone]
          rfl
        rw [if_neg hone, if_neg hone]
        by_cases htwo : octet &&& 0xE0 = 0xC0
        · rw [if_pos htwo, if_pos htwo]
          rfl
        rw [if_neg htwo, if_neg htwo]
        by_cases hthree : octet &&& 0xF0 = 0xE0
        · rw [if_pos hthree, if_pos hthree]
          rfl
        rw [if_neg hthree, if_neg hthree]
        by_cases hfour : octet &&& 0xF8 = 0xF0
        · rw [if_pos hfour, if_pos hfour]
          rfl
        rw [if_neg hfour, if_neg hfour]
        rfl
      · have hinside : state.pending.length < state.need := hopen.resolve_left hneed
        unfold utf8UpdateTurns
        rw [if_neg hneed, show state = ⟨state.pending, state.need⟩ from rfl,
          utf8_collect_steps (octet :: rest) hinside]
        cases hcollect : utf8Collect state.need state.pending (octet :: rest) with
        | none => rfl
        | some collected =>
          obtain ⟨pending, behind⟩ := collected
          obtain ⟨hread, hfits, hstop⟩ := utf8_collect_ok (Nat.le_of_lt hinside) hcollect
          rw [List.length_cons] at hread
          have hless : behind.length ≤ turns := by
            rcases hstop with rfl | hfull
            · exact Nat.zero_le _
            · omega
          dsimp only
          by_cases hfull : pending.length = state.need
          · rw [if_pos hfull, if_pos hfull, ih (.inl rfl) hless]
          · rw [if_neg hfull, if_neg hfull]
            exact ih (.inr (by dsimp only; omega)) hless

/-- An update is a run of steps. -/
theorem utf8_update_loops {state : Utf8Stream} (hopen : state.Open) (value : Bytes) :
    utf8UpdateLoops state value = utf8StreamUpdate state value :=
  utf8_update_turns hopen (Nat.le_refl _)

/-- A step keeps a state open. -/
theorem utf8_step_open {state next : Utf8Stream} {octet : UInt8} (hopen : state.Open)
    (h : utf8Step state octet = some next) : next.Open := by
  unfold utf8Step at h
  split at h
  next hneed =>
    split at h
    · cases h
      exact hopen
    · split at h
      · cases h
        exact .inr (by simp)
      · split at h
        · cases h
          exact .inr (by simp)
        · split at h
          · cases h
            exact .inr (by simp)
          · cases h
  next hneed =>
    have hinside := hopen.resolve_left hneed
    split at h
    · cases h
    · dsimp only at h
      split at h
      · split at h
        · cases h
          exact .inl rfl
        · cases h
      next hmore =>
        cases h
        rw [List.length_append, List.length_singleton] at hmore
        refine .inr ?_
        show (state.pending ++ [octet]).length < state.need
        rw [List.length_append, List.length_singleton]
        omega

/-- An update keeps the invariant of the stream. -/
theorem utf8_update_open {value : Bytes} {state next : Utf8Stream} (hopen : state.Open)
    (h : utf8StreamUpdate state value = some next) : next.Open := by
  unfold utf8StreamUpdate at h
  induction value generalizing state with
  | nil =>
    cases h
    exact hopen
  | cons octet rest ih =>
    rw [List.foldlM_cons] at h
    cases hstep : utf8Step state octet with
    | none =>
      rw [hstep] at h
      cases h
    | some middle =>
      rw [hstep] at h
      exact ih (utf8_step_open hopen hstep) h

/-- Updates by pieces are one update by all of them. -/
theorem utf8_update_pieces {state : Utf8Stream} (hopen : state.Open) (pieces : List Bytes) :
    pieces.foldlM utf8UpdateLoops state = utf8StreamUpdate state pieces.flatten := by
  induction pieces generalizing state with
  | nil => rfl
  | cons piece rest ih =>
    rw [List.foldlM_cons, utf8_update_loops hopen, List.flatten_cons]
    unfold utf8StreamUpdate
    rw [List.foldlM_append]
    cases hpiece : piece.foldlM utf8Step state with
    | none => rfl
    | some next => exact ih (utf8_update_open hopen hpiece)

end Loops

section Encoding

theorem shift_or {acc low : Nat} (h : low < 64) : (acc <<< 6) ||| low = acc * 64 + low := by
  rw [← Nat.shiftLeft_add_eq_or_of_lt (i := 6) h, Nat.shiftLeft_eq]

/-- What the masks of the validator say about an octet. -/
theorem octet_masks (octet : UInt8) :
    (octet < 0x80 ↔ octet.toNat < 128) ∧
      (octet &&& 0xE0 = 0xC0 ↔ octet.toNat / 32 = 6) ∧
      (octet &&& 0xF0 = 0xE0 ↔ octet.toNat / 16 = 14) ∧
      (octet &&& 0xF8 = 0xF0 ↔ octet.toNat / 8 = 30) ∧
      (octet &&& 0xC0 = 0x80 ↔ octet.toNat / 64 = 2) := by
  have hall : ∀ n : Fin 256,
      (UInt8.ofNat n < 0x80 ↔ n.val < 128) ∧
        (UInt8.ofNat n &&& 0xE0 = 0xC0 ↔ n.val / 32 = 6) ∧
        (UInt8.ofNat n &&& 0xF0 = 0xE0 ↔ n.val / 16 = 14) ∧
        (UInt8.ofNat n &&& 0xF8 = 0xF0 ↔ n.val / 8 = 30) ∧
        (UInt8.ofNat n &&& 0xC0 = 0x80 ↔ n.val / 64 = 2) := by
    decide +kernel
  have hoctet := hall ⟨octet.toNat, octet.toNat_lt⟩
  rwa [show UInt8.ofNat octet.toNat = octet from UInt8.ofNat_toNat] at hoctet

/-- What the masks of the validator leave of an octet. -/
theorem octet_payloads (octet : UInt8) :
    (octet &&& 0x1F).toNat = octet.toNat % 32 ∧ (octet &&& 0x0F).toNat = octet.toNat % 16 ∧
      (octet &&& 0x07).toNat = octet.toNat % 8 ∧ (octet &&& 0x3F).toNat = octet.toNat % 64 := by
  have hall : ∀ n : Fin 256,
      (UInt8.ofNat n &&& 0x1F).toNat = n.val % 32 ∧ (UInt8.ofNat n &&& 0x0F).toNat = n.val % 16 ∧
        (UInt8.ofNat n &&& 0x07).toNat = n.val % 8 ∧
        (UInt8.ofNat n &&& 0x3F).toNat = n.val % 64 := by
    decide +kernel
  have hoctet := hall ⟨octet.toNat, octet.toNat_lt⟩
  rwa [show UInt8.ofNat octet.toNat = octet from UInt8.ofNat_toNat] at hoctet

/-- A scalar value for every code point in the range that is no surrogate. -/
theorem char_of_codepoint {codepoint : Nat} (hmost : codepoint ≤ 0x10FFFF)
    (hsurrogate : ¬ (0xD800 ≤ codepoint ∧ codepoint ≤ 0xDFFF)) :
    ∃ c : Char, c.val.toNat = codepoint := by
  have hvalid : codepoint.isValidChar := by
    unfold Nat.isValidChar
    omega
  exact ⟨Char.ofNatAux codepoint hvalid, rfl⟩

theorem char_codepoint (c : Char) :
    c.val.toNat ≤ 0x10FFFF ∧ ¬ (0xD800 ≤ c.val.toNat ∧ c.val.toNat ≤ 0xDFFF) := by
  have hvalid : c.val.toNat.isValidChar := c.valid
  unfold Nat.isValidChar at hvalid
  omega

/-- A code point is accepted exactly when its octets are those of a scalar value, if these are the
octets of the code point in its least size. -/
theorem codepoint_accepted {codepoint least : Nat} {octets : Bytes}
    (h : ∀ c : Char, String.utf8EncodeChar c = octets ↔
      c.val.toNat = codepoint ∧ least ≤ codepoint) :
    (!(codepoint < least || codepoint > 0x10FFFF ||
      (codepoint ≥ 0xD800 && codepoint ≤ 0xDFFF))) = true ↔
        ∃ c : Char, String.utf8EncodeChar c = octets := by
  simp only [Bool.not_eq_true', Bool.or_eq_false_iff, Bool.and_eq_false_iff,
    decide_eq_false_iff_not]
  constructor
  · rintro ⟨⟨hleast, hmost⟩, hsurrogate⟩
    obtain ⟨c, hc⟩ := @char_of_codepoint codepoint (by omega) (by omega)
    exact ⟨c, (h c).mpr ⟨hc, by omega⟩⟩
  · rintro ⟨c, hc⟩
    obtain ⟨rfl, hleast⟩ := (h c).mp hc
    have hrange := char_codepoint c
    omega

/-- Two octets are the encoding of one scalar value at most. -/
theorem encode_two_iff {first second : UInt8} (hfirst : first.toNat / 32 = 6)
    (hsecond : second.toNat / 64 = 2) (c : Char) :
    String.utf8EncodeChar c = [first, second] ↔
      c.val.toNat = first.toNat % 32 * 64 + second.toNat % 64 ∧
        0x80 ≤ first.toNat % 32 * 64 + second.toNat % 64 := by
  unfold String.utf8EncodeChar
  dsimp only
  constructor
  · intro h
    split at h
    · cases h
    · split at h
      · simp only [List.cons.injEq] at h
        obtain ⟨rfl, rfl, -⟩ := h
        simp only [UInt8.toNat_ofNat'] at *
        omega
      · split at h
        · cases h
        · cases h
  · rintro ⟨hc, hleast⟩
    rw [if_neg (by omega), if_pos (by omega), hc]
    congr 1
    · apply UInt8.toNat_inj.mp
      rw [UInt8.toNat_ofNat']
      omega
    · congr 1
      apply UInt8.toNat_inj.mp
      rw [UInt8.toNat_ofNat']
      omega

/-- The collected octets are a code point of the least size exactly when they encode a scalar
value. -/
theorem codepoint_two {first second : UInt8} (hfirst : first.toNat / 32 = 6)
    (hsecond : second.toNat / 64 = 2) :
    utf8CodepointValid [first, second] = true ↔
      ∃ c : Char, String.utf8EncodeChar c = [first, second] := by
  rw [← codepoint_accepted (encode_two_iff hfirst hsecond)]
  have hlead := (octet_masks first).2.1.mpr hfirst
  unfold utf8CodepointValid
  simp only [if_pos hlead, List.foldl_cons, List.foldl_nil, (octet_payloads first).1,
    (octet_payloads second).2.2.2]
  rw [shift_or (by omega)]

/-- Three octets are the encoding of one scalar value at most. -/
theorem encode_three_iff {first second third : UInt8} (hfirst : first.toNat / 16 = 14)
    (hsecond : second.toNat / 64 = 2) (hthird : third.toNat / 64 = 2) (c : Char) :
    String.utf8EncodeChar c = [first, second, third] ↔
      c.val.toNat = (first.toNat % 16 * 64 + second.toNat % 64) * 64 + third.toNat % 64 ∧
        0x800 ≤ (first.toNat % 16 * 64 + second.toNat % 64) * 64 + third.toNat % 64 := by
  unfold String.utf8EncodeChar
  dsimp only
  constructor
  · intro h
    split at h
    · cases h
    · split at h
      · cases h
      · split at h
        · simp only [List.cons.injEq] at h
          obtain ⟨rfl, rfl, rfl, -⟩ := h
          simp only [UInt8.toNat_ofNat'] at *
          omega
        · cases h
  · rintro ⟨hc, hleast⟩
    rw [if_neg (by omega), if_neg (by omega), if_pos (by omega), hc]
    congr 1
    · apply UInt8.toNat_inj.mp
      rw [UInt8.toNat_ofNat']
      omega
    · congr 1
      · apply UInt8.toNat_inj.mp
        rw [UInt8.toNat_ofNat']
        omega
      · congr 1
        apply UInt8.toNat_inj.mp
        rw [UInt8.toNat_ofNat']
        omega

/-- Three octets are valid exactly when they encode a character. -/
theorem codepoint_three {first second third : UInt8} (hfirst : first.toNat / 16 = 14)
    (hsecond : second.toNat / 64 = 2) (hthird : third.toNat / 64 = 2) :
    utf8CodepointValid [first, second, third] = true ↔
      ∃ c : Char, String.utf8EncodeChar c = [first, second, third] := by
  rw [← codepoint_accepted (encode_three_iff hfirst hsecond hthird)]
  have hother : ¬ first &&& 0xE0 = 0xC0 := by
    rw [(octet_masks first).2.1]
    omega
  have hlead := (octet_masks first).2.2.1.mpr hfirst
  unfold utf8CodepointValid
  simp only [if_neg hother, if_pos hlead, List.foldl_cons, List.foldl_nil,
    (octet_payloads first).2.1, (octet_payloads second).2.2.2, (octet_payloads third).2.2.2]
  rw [shift_or (by omega), shift_or (by omega)]

/-- Four octets are the encoding of one scalar value at most. -/
theorem encode_four_iff {first second third fourth : UInt8} (hfirst : first.toNat / 8 = 30)
    (hsecond : second.toNat / 64 = 2) (hthird : third.toNat / 64 = 2)
    (hfourth : fourth.toNat / 64 = 2) (c : Char) :
    String.utf8EncodeChar c = [first, second, third, fourth] ↔
      c.val.toNat = ((first.toNat % 8 * 64 + second.toNat % 64) * 64 + third.toNat % 64) * 64 +
          fourth.toNat % 64 ∧
        0x10000 ≤ ((first.toNat % 8 * 64 + second.toNat % 64) * 64 + third.toNat % 64) * 64 +
          fourth.toNat % 64 := by
  have hrange := char_codepoint c
  unfold String.utf8EncodeChar
  dsimp only
  constructor
  · intro h
    split at h
    · cases h
    · split at h
      · cases h
      · split at h
        · cases h
        · simp only [List.cons.injEq] at h
          obtain ⟨rfl, rfl, rfl, rfl, -⟩ := h
          simp only [UInt8.toNat_ofNat'] at *
          omega
  · rintro ⟨hc, hleast⟩
    rw [if_neg (by omega), if_neg (by omega), if_neg (by omega), hc]
    congr 1
    · apply UInt8.toNat_inj.mp
      rw [UInt8.toNat_ofNat']
      omega
    · congr 1
      · apply UInt8.toNat_inj.mp
        rw [UInt8.toNat_ofNat']
        omega
      · congr 1
        · apply UInt8.toNat_inj.mp
          rw [UInt8.toNat_ofNat']
          omega
        · congr 1
          apply UInt8.toNat_inj.mp
          rw [UInt8.toNat_ofNat']
          omega

/-- Four octets are valid exactly when they encode a character. -/
theorem codepoint_four {first second third fourth : UInt8} (hfirst : first.toNat / 8 = 30)
    (hsecond : second.toNat / 64 = 2) (hthird : third.toNat / 64 = 2)
    (hfourth : fourth.toNat / 64 = 2) :
    utf8CodepointValid [first, second, third, fourth] = true ↔
      ∃ c : Char, String.utf8EncodeChar c = [first, second, third, fourth] := by
  rw [← codepoint_accepted (encode_four_iff hfirst hsecond hthird hfourth)]
  have hthree : ¬ first &&& 0xF0 = 0xE0 := by
    rw [(octet_masks first).2.2.1]
    omega
  have htwo : ¬ first &&& 0xE0 = 0xC0 := by
    rw [(octet_masks first).2.1]
    omega
  unfold utf8CodepointValid
  simp only [if_neg htwo, if_neg hthree, List.foldl_cons, List.foldl_nil,
    (octet_payloads first).2.2.1, (octet_payloads second).2.2.2, (octet_payloads third).2.2.2,
    (octet_payloads fourth).2.2.2]
  rw [shift_or (by omega), shift_or (by omega), shift_or (by omega)]

end Encoding

section Grammar

/-- Well-formed UTF-8: the octets are the encodings of some scalar values, one behind the other. -/
def Utf8Text (value : Bytes) : Prop :=
  ∃ text : List Char, value = text.flatMap String.utf8EncodeChar

/-- Octets that go on with a code point. -/
def Continues (octets : Bytes) : Prop :=
  ∀ octet ∈ octets, octet.toNat / 64 = 2

/-- A code point is completed by octets that go on with it. -/
theorem utf8_complete {need : Nat} (octets rest : Bytes) {pending : Bytes} (hne : octets ≠ [])
    (hlength : pending.length + octets.length = need) (hcontinues : Continues octets)
    (hvalid : utf8CodepointValid (pending ++ octets) = true) :
    (octets ++ rest).foldlM utf8Step ⟨pending, need⟩ = rest.foldlM utf8Step {} := by
  induction octets generalizing pending with
  | nil => exact absurd rfl hne
  | cons octet more ih =>
    rw [List.length_cons] at hlength
    have hoctet := (octet_masks octet).2.2.2.2.mpr (hcontinues octet List.mem_cons_self)
    rw [List.cons_append, List.foldlM_cons, utf8_step_inside octet (by omega),
      if_neg (not_not.mpr hoctet), List.length_append, List.length_singleton]
    by_cases hlast : more = []
    · subst hlast
      rw [if_pos (by simpa using hlength), if_pos hvalid]
      rfl
    · have hsome := List.length_pos_iff.mpr hlast
      rw [if_neg (by omega)]
      refine ih hlast ?_ (fun other hmem => hcontinues other (List.mem_cons_of_mem _ hmem)) ?_
      · rw [List.length_append, List.length_singleton]
        omega
      · rw [List.append_assoc]
        exact hvalid

/-- A text that ends between code points completes the one it starts inside of. -/
theorem utf8_completed {need : Nat} (value : Bytes) {pending : Bytes} {finish : Utf8Stream}
    (hinside : pending.length < need) (hfinish : finish.need = 0)
    (h : value.foldlM utf8Step ⟨pending, need⟩ = some finish) :
    ∃ octets rest, value = octets ++ rest ∧ pending.length + octets.length = need ∧
      Continues octets ∧ utf8CodepointValid (pending ++ octets) = true ∧
      rest.foldlM utf8Step {} = some finish := by
  induction value generalizing pending with
  | nil =>
    cases h
    exact absurd hfinish (show ¬ need = 0 by omega)
  | cons octet more ih =>
    have hlength : (pending ++ [octet]).length = pending.length + 1 := List.length_append
    rw [List.foldlM_cons, utf8_step_inside octet hinside] at h
    split at h
    · cases h
    next hmask =>
      have hoctet := (octet_masks octet).2.2.2.2.mp (not_not.mp hmask)
      split at h
      next hfull =>
        split at h
        next hvalid =>
          refine ⟨[octet], more, rfl, by rw [List.length_singleton]; omega, ?_, hvalid, h⟩
          intro other hmem
          rw [List.mem_singleton.mp hmem]
          exact hoctet
        · cases h
      next hmore =>
        obtain ⟨octets, rest, rfl, hsum, hcontinues, hvalid, hrest⟩ := ih (by omega) h
        refine ⟨octet :: octets, rest, rfl, by rw [List.length_cons]; omega, ?_, ?_, hrest⟩
        · intro other hmem
          cases hmem with
          | head => exact hoctet
          | tail _ hmem => exact hcontinues other hmem
        · rw [List.append_assoc] at hvalid
          exact hvalid

/-- An octet that starts a code point of some more octets. -/
def Leads (first : UInt8) (more : Nat) : Prop :=
  (more = 1 ∧ first.toNat / 32 = 6) ∨ (more = 2 ∧ first.toNat / 16 = 14) ∨
    (more = 3 ∧ first.toNat / 8 = 30)

/-- What is collected behind a lead is accepted exactly when it encodes a scalar value. -/
theorem codepoint_valid_iff {first : UInt8} {octets : Bytes} (hlead : Leads first octets.length)
    (hcontinues : Continues octets) :
    utf8CodepointValid (first :: octets) = true ↔
      ∃ c : Char, String.utf8EncodeChar c = first :: octets := by
  rcases hlead with ⟨hlength, hfirst⟩ | ⟨hlength, hfirst⟩ | ⟨hlength, hfirst⟩
  · obtain ⟨second, rfl⟩ := List.length_eq_one_iff.mp hlength
    exact codepoint_two hfirst (hcontinues second (by simp))
  · obtain ⟨second, third, rfl⟩ := List.length_eq_two.mp hlength
    exact codepoint_three hfirst (hcontinues second (by simp)) (hcontinues third (by simp))
  · obtain ⟨second, third, fourth, rfl⟩ := List.length_eq_three.mp hlength
    exact codepoint_four hfirst (hcontinues second (by simp)) (hcontinues third (by simp))
      (hcontinues fourth (by simp))

/-- An encoding is one octet, or a lead with what it announces. -/
theorem encode_leads (c : Char) :
    (∃ octet : UInt8, String.utf8EncodeChar c = [octet] ∧ octet.toNat < 128) ∨
      ∃ first octets, String.utf8EncodeChar c = first :: octets ∧ Leads first octets.length ∧
        Continues octets := by
  have hrange := char_codepoint c
  unfold String.utf8EncodeChar Leads Continues
  dsimp only
  split
  · refine .inl ⟨_, rfl, ?_⟩
    rw [UInt8.toNat_ofNat']
    omega
  · refine .inr ?_
    split
    · refine ⟨_, _, rfl, .inl ⟨rfl, ?_⟩, ?_⟩
      · rw [UInt8.toNat_ofNat']
        omega
      · simp only [List.forall_mem_cons, UInt8.toNat_ofNat']
        exact ⟨by omega, fun _ hmem => by cases hmem⟩
    · split
      · refine ⟨_, _, rfl, .inr (.inl ⟨rfl, ?_⟩), ?_⟩
        · rw [UInt8.toNat_ofNat']
          omega
        · simp only [List.forall_mem_cons, UInt8.toNat_ofNat']
          exact ⟨by omega, by omega, fun _ hmem => by cases hmem⟩
      · refine ⟨_, _, rfl, .inr (.inr ⟨rfl, ?_⟩), ?_⟩
        · rw [UInt8.toNat_ofNat']
          omega
        · simp only [List.forall_mem_cons, UInt8.toNat_ofNat']
          exact ⟨by omega, by omega, by omega, fun _ hmem => by cases hmem⟩

/-- An octet below 128 encodes itself. -/
theorem encode_one {octet : UInt8} (h : octet.toNat < 128) :
    ∃ c : Char, String.utf8EncodeChar c = [octet] := by
  obtain ⟨c, hc⟩ := @char_of_codepoint octet.toNat (by omega) (by omega)
  refine ⟨c, ?_⟩
  unfold String.utf8EncodeChar
  dsimp only
  rw [if_pos (by omega), hc]
  exact congrArg (· :: []) UInt8.ofNat_toNat

/-- The first step of a code point: a whole one, or a lead that announces more octets. -/
theorem utf8_step_start (octet : UInt8) (next : Utf8Stream) :
    utf8Step {} octet = some next ↔
      (octet.toNat < 128 ∧ next = {}) ∨ ∃ more, Leads octet more ∧ next = ⟨[octet], more + 1⟩ := by
  obtain ⟨hone, htwo, hthree, hfour, -⟩ := octet_masks octet
  unfold utf8Step Leads
  simp only [if_true, hone, htwo, hthree, hfour]
  constructor
  · intro h
    split at h
    next hsmall =>
      cases h
      exact .inl ⟨hsmall, rfl⟩
    · split at h
      next hlead =>
        cases h
        exact .inr ⟨1, .inl ⟨rfl, hlead⟩, rfl⟩
      · split at h
        next hlead =>
          cases h
          exact .inr ⟨2, .inr (.inl ⟨rfl, hlead⟩), rfl⟩
        · split at h
          next hlead =>
            cases h
            exact .inr ⟨3, .inr (.inr ⟨rfl, hlead⟩), rfl⟩
          · cases h
  · rintro (⟨hsmall, rfl⟩ | ⟨more, ⟨rfl, hlead⟩ | ⟨rfl, hlead⟩ | ⟨rfl, hlead⟩, rfl⟩)
    · rw [if_pos hsmall]
    · rw [if_neg (by omega), if_pos hlead]
    · rw [if_neg (by omega), if_neg (by omega), if_pos hlead]
    · rw [if_neg (by omega), if_neg (by omega), if_neg (by omega), if_pos hlead]

/-- The encoding of a scalar value is stepped over whole. -/
theorem utf8_steps_char (c : Char) (rest : Bytes) :
    (String.utf8EncodeChar c ++ rest).foldlM utf8Step {} = rest.foldlM utf8Step {} := by
  rcases encode_leads c with ⟨octet, hencode, hsmall⟩ | ⟨first, octets, hencode, hlead, hcontinues⟩
  · rw [hencode, List.singleton_append, List.foldlM_cons,
      (utf8_step_start octet _).mpr (.inl ⟨hsmall, rfl⟩)]
    rfl
  · have hvalid := (codepoint_valid_iff hlead hcontinues).mpr ⟨c, hencode⟩
    have hne : octets ≠ [] := by
      rintro rfl
      rcases hlead with ⟨hnone, -⟩ | ⟨hnone, -⟩ | ⟨hnone, -⟩ <;> cases hnone
    rw [hencode, List.cons_append, List.foldlM_cons,
      (utf8_step_start first _).mpr (.inr ⟨_, hlead, rfl⟩)]
    exact utf8_complete octets rest hne (Nat.add_comm _ _) hcontinues hvalid

/-- The steps end between code points exactly on well-formed texts. -/
theorem utf8_steps_iff (value : Bytes) :
    (∃ finish, value.foldlM utf8Step {} = some finish ∧ finish.need = 0) ↔ Utf8Text value := by
  constructor
  · rintro ⟨finish, h, hfinish⟩
    induction hlength : value.length using Nat.strong_induction_on generalizing value with
    | _ length ih =>
      cases value with
      | nil => exact ⟨[], rfl⟩
      | cons octet more =>
        rw [List.foldlM_cons] at h
        cases hstep : utf8Step {} octet with
        | none =>
          rw [hstep] at h
          cases h
        | some next =>
          rw [hstep] at h
          rw [List.length_cons] at hlength
          rcases (utf8_step_start octet next).mp hstep with ⟨hsmall, rfl⟩ | ⟨n, hlead, rfl⟩
          · obtain ⟨c, hc⟩ := encode_one hsmall
            obtain ⟨text, htext⟩ := ih more.length (by omega) more h rfl
            refine ⟨c :: text, ?_⟩
            rw [List.flatMap_cons, hc, ← htext, List.singleton_append]
          · have hpositive : 1 ≤ n := by
              rcases hlead with ⟨rfl, -⟩ | ⟨rfl, -⟩ | ⟨rfl, -⟩ <;> omega
            obtain ⟨octets, rest, rfl, hsum, hcontinues, hvalid, hrest⟩ :=
              utf8_completed more (show [octet].length < n + 1 by simp; omega) hfinish h
            rw [List.length_singleton] at hsum
            have hsame : octets.length = n := by omega
            rw [List.length_append] at hlength
            obtain ⟨c, hc⟩ :=
              (codepoint_valid_iff (by rw [hsame]; exact hlead) hcontinues).mp hvalid
            obtain ⟨text, htext⟩ := ih rest.length (by omega) rest hrest rfl
            refine ⟨c :: text, ?_⟩
            rw [List.flatMap_cons, hc, ← htext, List.cons_append]
  · rintro ⟨text, rfl⟩
    induction text with
    | nil => exact ⟨{}, rfl, rfl⟩
    | cons c text ih =>
      rw [List.flatMap_cons, utf8_steps_char]
      exact ih

/-- The streaming validator accepts a text, however it is cut into pieces, exactly when it is
well-formed, and so does the validator of whole texts. -/
theorem utf8_stream_exact (pieces : List Bytes) :
    ((∃ state, pieces.foldlM utf8UpdateLoops {} = some state ∧ utf8StreamFinish state = true) ↔
      Utf8Text pieces.flatten) ∧
    (utf8Validate pieces.flatten = true ↔ Utf8Text pieces.flatten) := by
  have hopen : Utf8Stream.Open {} := .inl rfl
  have hfinish : ∀ state : Utf8Stream, utf8StreamFinish state = true ↔ state.need = 0 :=
    fun state => decide_eq_true_iff
  refine ⟨?_, ?_⟩
  · rw [← utf8_steps_iff, utf8_update_pieces hopen]
    simp only [hfinish]
    rfl
  · rw [← utf8_steps_iff]
    unfold utf8Validate utf8StreamUpdate
    cases pieces.flatten.foldlM utf8Step {} with
    | none => simp
    | some state => simp

end Grammar

end OpenTlv
