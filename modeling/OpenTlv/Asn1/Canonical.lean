import OpenTlv.Asn1.CerMoves
import OpenTlv.Asn1.CerSegments
import OpenTlv.Field.Minimal

/-!
# Minimal fields have one form

The readers of DER and CER accept a count, and the identifier of an assigned universal number,
in one form only: the one that the writers store.
-/

namespace OpenTlv

section Length

theorem octet_of_fin (octet : UInt8) : ∃ n : Fin 256, octet = UInt8.ofNat n :=
  ⟨⟨octet.toNat, octet.toNat_lt⟩, by simp⟩

/-- The writer has one form for a count, whether or not the readers insist on it. -/
theorem ber_write_length_minimal (length : Nat) (capacity : Option Nat) :
    berWriteLength length capacity = variableLengthWrite (asn1Length 1) length capacity := rfl

/-- The form in which a count is accepted is the one that is written. -/
theorem minimal_length_canonical {data : Bytes} {length used : Nat}
    (h : asn1ReadMinimalLength data = ⟨.ok length, used⟩) (capacity : Option Nat)
    (hcapacity : ∀ room, capacity = some room → used ≤ room) :
    berWriteLength length capacity =
      .ok (if capacity.isSome then data.take used else [], used) := by
  have hcanonical : LengthCanonical (variableLengthRead (asn1Length 1))
      (variableLengthWrite (asn1Length 1)) := variable_length_canonical rfl rfl (by decide)
  obtain ⟨-, -, hwrite⟩ := hcanonical data length used h
  rw [ber_write_length_minimal]
  exact hwrite capacity hcapacity

end Length

section Identifier

/-- A tag that is written is read whole, and in minimal form. -/
theorem written_identifier_minimal {tag stored : Bytes} {width : Nat}
    (h : asn1WriteIdentifier tag none = .ok (stored, width)) :
    identifierMinimal (asn1Identifier ⟨[], 1, 1⟩) tag tag.length = true := by
  obtain ⟨hnonempty, rfl, -, hread⟩ := asn1_identifier_law _ _ _ h
  have hread := hread []
  rw [List.append_nil] at hread
  unfold asn1ReadIdentifier screenedTag at hread
  split at hread
  · cases hread
  · rename_i span consumed hraw
    split at hread
    · cases hread
      have hvalid : identifierValidate (asn1Identifier ⟨[], 1, 1⟩) = .ok () := rfl
      obtain ⟨first, rest, rfl⟩ := List.exists_cons_of_ne_nil hnonempty
      unfold variableIdentifierRead at hraw
      rw [hvalid] at hraw
      dsimp only at hraw
      split at hraw
      · cases hraw
      · split at hraw
        · cases hraw
        · split at hraw
          · cases hraw
          · rename_i hminimal
            obtain ⟨-, rfl⟩ := FieldRead.mk.inj hraw
            simpa using hminimal
    · cases hread

/-- Each further octet multiplies the number by at least 128. -/
theorem number_loop_le {octets : Bytes} {start number : Nat}
    (h : asn1NumberLoop octets start = .ok number) : start * 128 ^ octets.length ≤ number := by
  induction octets generalizing start with
  | nil =>
    cases h
    simp
  | cons octet rest ih =>
    unfold asn1NumberLoop at h
    obtain ⟨-, h⟩ := guard_ok.mp h
    have hstep : start * 128 ≤ (start <<< 7) ||| (octet &&& 0x7F).toNat := by
      rw [Nat.shiftLeft_eq]
      exact Nat.left_le_or
    calc start * 128 ^ (rest.length + 1)
        = start * 128 * 128 ^ rest.length := by rw [Nat.pow_succ]; ring
      _ ≤ ((start <<< 7) ||| (octet &&& 0x7F).toNat) * 128 ^ rest.length :=
          Nat.mul_le_mul_right _ hstep
      _ ≤ number := ih h

/-- A number in a second octet, as both readers see it. -/
theorem payload_octet (n : Fin 256) :
    BitField.unpack (UInt8.ofNat n) 0x7F = (UInt8.ofNat n &&& 0x7F).toNat := by
  revert n
  decide +kernel

/-- A long form is for numbers beyond the short one. -/
theorem long_identifier_number {first second : UInt8} {rest : Bytes} {number : Nat}
    (hminimal : identifierMinimal (asn1Identifier ⟨[], 1, 1⟩) (first :: second :: rest)
      (rest.length + 2) = true)
    (hnumber : asn1NumberLoop (second :: rest) 0 = .ok number) : 31 ≤ number := by
  have hpayload : BitField.unpack second 0x7F = (second &&& 0x7F).toNat := by
    obtain ⟨n, rfl⟩ := octet_of_fin second
    exact payload_octet n
  have hinline : BitField.maximum 0x1F = 31 := by decide +kernel
  have hescape : BitField.unpack 0x1F 0x1F = 31 := by decide +kernel
  have hloop : asn1NumberLoop rest (second &&& 0x7F).toNat = .ok number := by
    unfold asn1NumberLoop at hnumber
    rw [if_neg (by decide)] at hnumber
    simpa using hnumber
  have hfirst : (second &&& 0x7F).toNat * 128 ^ rest.length ≤ number := number_loop_le hloop
  unfold identifierMinimal at hminimal
  dsimp only [asn1Identifier, asn1TagNumberMask] at hminimal
  rw [hinline, hescape] at hminimal
  cases rest with
  | nil =>
    simp only [List.length_nil, Nat.zero_add, List.take_succ_cons, List.take_zero,
      List.drop_succ_cons, List.drop_zero, minimalLoop, Nat.zero_mul, hpayload] at hminimal
    simp at hminimal hfirst
    omega
  | cons third rest =>
    simp only [List.length_cons, List.take_succ_cons, List.drop_succ_cons, List.drop_zero,
      List.headD_cons] at hminimal
    have hnonzero : second &&& 0x7F ≠ 0 := by
      intro hzero
      simp [hzero] at hminimal
    have hpositive : 1 ≤ (second &&& 0x7F).toNat :=
      Nat.pos_of_ne_zero fun hzero => hnonzero (UInt8.toNat_inj.mp hzero)
    have hpow : 128 ≤ 128 ^ (third :: rest).length := by
      rw [List.length_cons, Nat.pow_succ]
      exact Nat.le_mul_of_pos_left _ (by positivity)
    have := Nat.mul_le_mul hpositive hpow
    omega

/-- The universal types that CER may segment have an identifier of one octet. -/
theorem segmentable_tag {tag : Bytes} {number : Nat} (h : cerUniversalNumber tag = some number)
    (hform : (cerTypeInfo number).form ≠ .primitiveOnly) :
    ∃ octet, tag = [octet] ∧ octet &&& 0xC0 = 0 ∧ (octet &&& 0x1F).toNat = number := by
  unfold cerUniversalNumber at h
  split at h
  · rename_i huniversal
    split at h
    · cases h
    · rename_i found hfound
      split at h
      · rename_i hassigned
        cases h
        unfold cerTagNumber asn1TagNumberChecked at hfound
        split at hfound
        · cases hfound
        · rename_i written hwrite
          obtain ⟨stored, width⟩ := written
          have hminimal := written_identifier_minimal hwrite
          obtain ⟨hnonempty, -⟩ := asn1_identifier_law _ _ _ hwrite
          match tag, hnonempty with
          | [octet], _ =>
            rw [if_neg (by simp)] at hfound
            cases hfound
            exact ⟨octet, rfl, by simpa [asn1IsUniversal] using huniversal, rfl⟩
          | first :: second :: rest, _ =>
            rw [if_pos (by simp)] at hfound
            have hlong := long_identifier_number hminimal hfound
            -- none of the assigned numbers from 31 on is a string
            exfalso
            interval_cases number <;> exact hform rfl
      · cases h
  · cases h

end Identifier

end OpenTlv
