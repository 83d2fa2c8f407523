import OpenTlv.Lib.Septets
import OpenTlv.Asn1.BerIndefinite
import OpenTlv.Asn1.Canonical
import OpenTlv.Asn1.DerRoundTrip
import OpenTlv.Asn1.DerSchemaDistinct

/-!
# Identifiers and tag numbers

An identifier that is made is read back with its class, its form and its number, and for DER the
identifiers that the reader accepts are exactly the ones that are made. The long form is the
shortest numeral of radix 128, which the reader's policy demands as well.
-/

namespace OpenTlv

/-- `tlv_ber_tag_make`. -/
def berTagMake (tagClass : Asn1Class) (constructed : Bool) (number : Nat) :
    Except Status Bytes :=
  asn1TagMakeChecked berWriteTag tagClass constructed number

/-- `tlv_ber_tag_number`. -/
def berTagNumber (tag : Bytes) : Except Status Nat :=
  asn1TagNumberChecked berWriteTag tag

/-- `tlv_asn1_tag_class`. -/
def asn1TagClass (tag : Bytes) : Asn1Class :=
  match (tag.headD 0 >>> 6).toNat with
  | 0 => .universal
  | 1 => .application
  | 2 => .contextSpecific
  | _ => .privateUse

/-- The fields of a lead octet that is made. -/
theorem lead_parts (tagClass : Asn1Class) (constructed : Bool) {low : UInt8}
    (hlow : low.toNat ≤ 31) (rest : Bytes) :
    asn1TagClass ((tagClass.bits ||| (if constructed then asn1ConstructedBit else 0) ||| low) ::
        rest) = tagClass ∧
      asn1IsConstructed ((tagClass.bits ||| (if constructed then asn1ConstructedBit else 0) |||
        low) :: rest) = constructed := by
  have hall : ∀ n : Fin 32, ∀ tagClass : Asn1Class, ∀ constructed : Bool,
      asn1TagClass [tagClass.bits ||| (if constructed then asn1ConstructedBit else 0) |||
          UInt8.ofNat n.val] = tagClass ∧
        asn1IsConstructed [tagClass.bits ||| (if constructed then asn1ConstructedBit else 0) |||
          UInt8.ofNat n.val] = constructed := by
    intro n tagClass constructed
    cases tagClass <;> cases constructed <;> revert n <;> decide +kernel
  have h := hall ⟨low.toNat, by omega⟩ tagClass constructed
  rwa [UInt8.ofNat_toNat] at h

/-- A lead octet is made of its fields. -/
theorem lead_of_parts (first : UInt8) (rest : Bytes) :
    (asn1TagClass (first :: rest)).bits |||
      (if asn1IsConstructed (first :: rest) then asn1ConstructedBit else 0) |||
        (first &&& asn1TagNumberMask) = first := by
  have hall : ∀ n : Fin 256, (asn1TagClass [UInt8.ofNat n]).bits |||
      (if asn1IsConstructed [UInt8.ofNat n] then asn1ConstructedBit else 0) |||
        (UInt8.ofNat n &&& asn1TagNumberMask) = UInt8.ofNat n := by
    decide +kernel
  obtain ⟨n, rfl⟩ := octet_of_fin first
  exact hall n

/-- Digits that the loop does not cut are the digits of the number. -/
theorem tag_digits_groups {fuel number : Nat} (h : (tagDigits fuel number).length < fuel) :
    tagDigits fuel number = Septets.groups number := by
  induction fuel generalizing number with
  | zero => omega
  | succ fuel ih =>
    rw [Septets.groups]
    unfold tagDigits at h ⊢
    congr 1
    split at h
    next hlast => rw [if_pos hlast, if_pos hlast]
    next hmore =>
      rw [if_neg hmore, if_neg hmore]
      exact ih (by simpa using h)

/-- There are no more digits than the number has. -/
theorem tag_digits_length_le (fuel number : Nat) :
    (tagDigits fuel number).length ≤ (Septets.groups number).length := by
  induction fuel generalizing number with
  | zero => exact Nat.zero_le _
  | succ fuel ih =>
    rw [Septets.groups]
    unfold tagDigits
    simp only [List.length_cons, Nat.add_le_add_iff_right]
    split
    · exact le_refl _
    · exact ih _

/-- The octets of the long form are the shortest numeral. -/
theorem long_tag_octets_eq (number : Nat) :
    longTagOctets (Septets.groups number) = Septets.octets number := by
  have hgroups := Septets.groups_lt number
  rw [Septets.octets_eq_groups]
  rw [Septets.groups] at hgroups ⊢
  show ((if number / 128 = 0 then [] else Septets.groups (number / 128)).reverse.map
    fun other => UInt8.ofNat other ||| 0x80) ++ [UInt8.ofNat (number % 128)] = _
  rw [List.tail_cons]
  congr 1
  refine List.map_congr_left fun group hgroup => ?_
  exact (Septets.flagged_group (hgroups group
    (List.mem_cons_of_mem _ (List.mem_reverse.mp hgroup)))).1

/-- The loop over the digits of a tag computes their value when it stays in the range of 64
bits. -/
theorem number_loop_eq {data : Bytes} {start : Nat}
    (h : (start + 1) * 128 ^ data.length ≤ 2 ^ 64) :
    asn1NumberLoop data start = .ok (Septets.value data start) := by
  induction data generalizing start with
  | nil => rfl
  | cons octet rest ih =>
    have hpower : 128 ≤ 128 ^ (octet :: rest).length :=
      Nat.le_self_pow (by simp) 128
    have hroom := (Nat.mul_le_mul_left (start + 1) hpower).trans h
    have hbound : ¬ start > sizeMax >>> 7 := by
      have hlimit : sizeMax >>> 7 = 2 ^ 57 - 1 := by decide
      rw [hlimit]
      omega
    have hstep : (start <<< 7) ||| (octet &&& 0x7F).toNat = start * 128 + octet.toNat % 128 := by
      have hlow : octet.toNat % 128 < 2 ^ 7 := Nat.mod_lt _ (by norm_num)
      rw [Septets.payload_eq, Nat.shiftLeft_eq, Nat.mul_comm start (2 ^ 7),
        ← Nat.two_pow_add_eq_or_of_lt hlow start]
    unfold asn1NumberLoop
    rw [if_neg hbound, hstep]
    refine ih ?_
    calc (start * 128 + octet.toNat % 128 + 1) * 128 ^ rest.length
        ≤ ((start + 1) * 128) * 128 ^ rest.length :=
          Nat.mul_le_mul_right _ (by omega)
      _ = (start + 1) * 128 ^ (octet :: rest).length := by
          rw [List.length_cons, Nat.pow_succ]
          ring
      _ ≤ 2 ^ 64 := h

/-- The number of an identifier whose writer accepts it. -/
theorem tag_number_eq {write : WriteTag} {tag : Bytes} {accepted : Bytes × Nat}
    (h : write tag none = .ok accepted) (hsize : tag.length ≤ 8) :
    asn1TagNumberChecked write tag = .ok (if tag.length > 1 then Septets.value (tag.drop 1) 0
      else (tag.headD 0 &&& asn1TagNumberMask).toNat) := by
  unfold asn1TagNumberChecked
  rw [h]
  dsimp only
  by_cases hlong : tag.length > 1
  · rw [if_pos hlong, if_pos hlong]
    refine number_loop_eq ?_
    rw [Nat.zero_add, Nat.one_mul, List.length_drop]
    calc 128 ^ (tag.length - 1) ≤ 128 ^ 7 := Nat.pow_le_pow_right (by norm_num) (by omega)
      _ ≤ 2 ^ 64 := by norm_num
  · rw [if_neg hlong, if_neg hlong]

/-- An identifier that is made is read back whole, with its fields. -/
structure ReadBack (read : ReadTag) (tagNumber : Bytes → Except Status Nat)
    (tagClass : Asn1Class) (constructed : Bool) (number : Nat) (tag : Bytes) : Prop where
  read : ∀ rest, read (tag ++ rest) = ⟨.ok ⟨tag, some 0⟩, tag.length⟩
  number : tagNumber tag = .ok number
  tagClass : asn1TagClass tag = tagClass
  constructed : asn1IsConstructed tag = constructed

/-- What is made for a writer that keeps the law of its reader is read back. -/
theorem tag_make_reads {read : ReadTag} {write : WriteTag} (hlaw : TagLaw read write)
    {tagClass : Asn1Class} {constructed : Bool} {number : Nat} {tag : Bytes}
    (h : asn1TagMakeChecked write tagClass constructed number = .ok tag) :
    ReadBack read (asn1TagNumberChecked write) tagClass constructed number tag := by
  obtain ⟨⟨⟨stored, width⟩, hwrite⟩, hforms⟩ := tag_make_cases h
  obtain ⟨-, rfl, -, hread⟩ := hlaw _ _ _ hwrite
  cases hforms with
  | inl hshort =>
    obtain ⟨hlow, rfl⟩ := hshort
    have hoctet : (UInt8.ofNat number).toNat = number := by
      rw [UInt8.toNat_ofNat']
      omega
    obtain ⟨hclass, hform⟩ := @lead_parts tagClass constructed (UInt8.ofNat number) (by omega) []
    obtain ⟨-, hmask⟩ := lead_fields tagClass constructed (UInt8.ofNat number) (by omega)
    refine ⟨hread, ?_, hclass, hform⟩
    rw [tag_number_eq hwrite (by simp), if_neg (by simp), List.headD_cons, hmask, hoctet]
  | inr hlong =>
    obtain ⟨hhigh, hsize, rfl⟩ := hlong
    have hdigits := @tag_digits_groups 10 number (by omega)
    have hmask : asn1TagNumberMask.toNat ≤ 31 := by decide
    rw [hdigits] at hsize hwrite hread ⊢
    rw [long_tag_octets_eq] at hwrite hread ⊢
    rw [← Septets.octets_length] at hsize
    have hpositive : 0 < (Septets.octets number).length := by
      rw [Septets.octets_length]
      exact List.length_pos_of_ne_nil (Septets.groups_ne_nil number)
    obtain ⟨hclass, hform⟩ := lead_parts tagClass constructed hmask (Septets.octets number)
    refine ⟨hread, ?_, hclass, hform⟩
    rw [tag_number_eq hwrite (by rw [List.length_cons]; omega),
      if_pos (by rw [List.length_cons]; omega)]
    show Except.ok (Septets.value (Septets.octets number) 0) = _
    rw [Septets.value_octets]

/-! ## Reading -/

/-- The octets behind the lead octet of an identifier: all but the last continue. -/
theorem continuation_shape {policy : IdentifierPolicy} {data : Bytes}
    {count last consumed : Nat}
    (h : identifierContinuation (asn1Identifier policy) data count = ⟨.ok last, consumed⟩) :
    ∃ front octet, data.take (last - count) = front ++ [octet] ∧ last = count + front.length + 1 ∧
      (∀ other ∈ front, 128 ≤ other.toNat) ∧ octet.toNat < 128 := by
  induction data generalizing count with
  | nil =>
    unfold identifierContinuation at h
    split at h <;> cases h
  | cons octet data ih =>
    unfold identifierContinuation at h
    dsimp only at h
    split at h
    · cases h
    · split at h
      · cases h
      · split at h
        next hlast =>
          cases h
          refine ⟨[], octet, ?_, rfl, fun _ hnone => absurd hnone List.not_mem_nil,
            (Septets.last_iff octet).mp hlast⟩
          rw [Nat.add_sub_cancel_left]
          rfl
        next hmore =>
          obtain ⟨front, final, htake, hlength, hflags, hfinal⟩ := ih h
          have hflag : 128 ≤ octet.toNat := by
            by_contra hless
            exact hmore ((Septets.last_iff octet).mpr (by omega))
          refine ⟨octet :: front, final, ?_, by rw [List.length_cons]; omega, ?_, hfinal⟩
          · rw [show last - count = (last - (count + 1)) + 1 by omega, List.take_succ_cons, htake]
            rfl
          · intro other hother
            rcases List.mem_cons.mp hother with rfl | hrest
            · exact hflag
            · exact hflags other hrest

/-- The two forms of an identifier that the reader of minimal forms accepts. -/
theorem minimal_identifier_cases {data : Bytes} {span : Span} {size : Nat}
    (h : variableIdentifierRead (asn1Identifier ⟨[], 1, 1⟩) data = ⟨.ok span, size⟩) :
    ∃ first rest, span.bytes = first :: rest ∧
      ((rest = [] ∧ (first &&& asn1TagNumberMask).toNat < 31) ∨
        (first &&& asn1TagNumberMask = asn1TagNumberMask ∧ rest.length ≤ 7 ∧
          31 ≤ Septets.value rest 0 ∧ Septets.octets (Septets.value rest 0) = rest)) := by
  have hvalid : identifierValidate (asn1Identifier ⟨[], 1, 1⟩) = .ok () := rfl
  unfold variableIdentifierRead at h
  rw [hvalid] at h
  dsimp only at h
  split at h
  · cases h
  · split at h
    · cases h
    next first data hprefix =>
      split at h
      · cases h
      next count consumed hextent =>
        split at h
        · cases h
        next hminimal =>
          cases h
          unfold identifierExtent at hextent
          split at hextent
          next hescape =>
            -- the long form: the octets behind the lead octet are the shortest numeral
            obtain ⟨hsame, hmax, -⟩ := identifier_continuation_bounds hextent (by decide)
            obtain ⟨front, last, htake, hlength, hflags, hlast⟩ := continuation_shape hextent
            have hbytes : (first :: data).take size = first :: (front ++ [last]) := by
              rw [show size = (size - 1) + 1 by omega, List.take_succ_cons, htake]
            have hsize : size = (front ++ [last]).length + 1 := by
              rw [List.length_append, List.length_singleton]
              omega
            have hminimal : identifierMinimal (asn1Identifier ⟨[], 1, 1⟩)
                (first :: (front ++ [last])) size = true := by
              have htrue : identifierMinimal (asn1Identifier ⟨[], 1, 1⟩) (first :: data) size =
                  true := by simpa using hminimal
              rw [← htrue, ← hbytes]
              simp [identifierMinimal, List.take_take]
            have hseven : (front ++ [last]).length ≤ 7 := by
              have : size ≤ 8 := hmax
              omega
            have hnumber : asn1NumberLoop (front ++ [last]) 0 =
                .ok (Septets.value (front ++ [last]) 0) := by
              refine number_loop_eq ?_
              rw [Nat.zero_add, Nat.one_mul]
              calc 128 ^ (front ++ [last]).length
                  ≤ 128 ^ 7 := Nat.pow_le_pow_right (by norm_num) hseven
                _ ≤ 2 ^ 64 := by norm_num
            refine ⟨first, front ++ [last], hbytes, .inr ⟨hescape, hseven, ?_, ?_⟩⟩
            · cases front with
              | nil =>
                rw [hsize] at hminimal
                exact long_identifier_number hminimal hnumber
              | cons second front =>
                rw [hsize] at hminimal
                exact long_identifier_number hminimal hnumber
            · refine Septets.octets_of_value hflags hlast fun second hsecond hzero => ?_
              obtain ⟨others, rfl⟩ : ∃ others, front = second :: others := by
                cases front with
                | nil => cases hsecond
                | cons other others =>
                  cases hsecond
                  exact ⟨others, rfl⟩
              -- a leading zero is refused before the value is looked at
              have hpayload : second &&& 0x7F = 0 :=
                UInt8.toNat_inj.mp ((Septets.payload_eq second).trans hzero)
              have hlong : size > 2 := by
                rw [hsize]
                simp
              have hfull : (first :: (second :: others ++ [last])).take size =
                  first :: (second :: others ++ [last]) :=
                List.take_of_length_le (by rw [hsize, List.length_cons])
              unfold identifierMinimal at hminimal
              dsimp only [asn1Identifier] at hminimal
              rw [if_neg (by omega), hfull] at hminimal
              simp [hlong, hpayload] at hminimal
          next hshort =>
            cases hextent
            refine ⟨first, [], rfl, .inl ⟨rfl, ?_⟩⟩
            have hmask : (first &&& asn1TagNumberMask).toNat ≤ 31 := Nat.and_le_right
            have hother : (first &&& asn1TagNumberMask).toNat ≠ 31 := fun h =>
              hshort (UInt8.toNat_inj.mp h)
            omega

/-- The writer accepts what the reader of DER identifiers accepts. -/
theorem der_identifier_written {data : Bytes} {span : Span} {size : Nat}
    (h : derReadTag data = ⟨.ok span, size⟩) :
    span.bytes = data.take size ∧ derWriteTag span.bytes none = .ok ([], span.bytes.length) ∧
      span.bytes.length ≤ 8 := by
  obtain ⟨hvariable, hallowed, hder⟩ := der_read_tag_eq_ok.mp h
  obtain ⟨hbytes, hwidth, hwrite⟩ := variable_identifier_canonical rfl data span size hvariable
  have hwhole : derReadTag span.bytes = ⟨.ok span, size⟩ := by
    rw [hbytes]
    exact der_read_tag_eq_ok.mpr ⟨variable_identifier_read_take hvariable, hallowed, hder⟩
  have hlength : span.bytes.length = size := by
    rw [hbytes, List.length_take]
    omega
  obtain ⟨first, rest, hshape, hforms⟩ := minimal_identifier_cases hvariable
  have hsize : 0 < span.bytes.length ∧ span.bytes.length ≤ 8 := by
    rw [hshape, List.length_cons]
    rcases hforms with ⟨rfl, -⟩ | ⟨-, hseven, -⟩
    · simp
    · omega
  refine ⟨hbytes, ?_, hsize.2⟩
  have hextent : ¬ (span.bytes.length = 0 ∨ span.bytes.length > asn1TagMaxSize) := by
    unfold asn1TagMaxSize
    omega
  show (if span.bytes.length = 0 ∨ span.bytes.length > asn1TagMaxSize then _ else _) = _
  rw [if_neg hextent, hwhole]
  show (if size ≠ span.bytes.length then _ else storeField span.bytes none) = _
  rw [if_neg (by omega)]
  rfl

/-- An identifier that the reader accepts is the one that is made from its fields. -/
theorem der_identifier_made {data : Bytes} {span : Span} {size : Nat}
    (h : derReadTag data = ⟨.ok span, size⟩) :
    ∃ number, derTagNumber span.bytes = .ok number ∧
      derTagMake (asn1TagClass span.bytes) (asn1IsConstructed span.bytes) number =
        .ok span.bytes := by
  obtain ⟨-, hwrite, hsize⟩ := der_identifier_written h
  obtain ⟨first, rest, hshape, hforms⟩ :=
    minimal_identifier_cases (der_read_tag_eq_ok.mp h).1
  have hnumber := tag_number_eq hwrite hsize
  refine ⟨_, hnumber, ?_⟩
  rw [hshape] at hwrite ⊢
  have hlead := lead_of_parts first rest
  unfold derTagMake asn1TagMakeChecked
  dsimp only
  cases hforms with
  | inl hshort =>
    obtain ⟨rfl, hlow⟩ := hshort
    have hshortNumber : (if ([first] : Bytes).length > 1 then
        Septets.value (([first] : Bytes).drop 1) 0
        else (([first] : Bytes).headD 0 &&& asn1TagNumberMask).toNat) =
          (first &&& asn1TagNumberMask).toNat := rfl
    rw [hshortNumber, if_pos hlow, UInt8.ofNat_toNat, hlead, hwrite]
  | inr hlong =>
    obtain ⟨hescape, hseven, hhigh, hoctets⟩ := hlong
    have hpositive : 0 < rest.length := by
      rw [← hoctets, Septets.octets_length]
      exact List.length_pos_of_ne_nil (Septets.groups_ne_nil _)
    have hlongNumber : (if (first :: rest).length > 1 then
        Septets.value ((first :: rest).drop 1) 0
        else ((first :: rest).headD 0 &&& asn1TagNumberMask).toNat) =
          Septets.value rest 0 := by
      rw [if_pos (by rw [List.length_cons]; omega)]
      rfl
    have hgroups : (Septets.groups (Septets.value rest 0)).length = rest.length := by
      rw [← Septets.octets_length, hoctets]
    have hdigits : tagDigits 10 (Septets.value rest 0) =
        Septets.groups (Septets.value rest 0) :=
      tag_digits_groups (by
        have := tag_digits_length_le 10 (Septets.value rest 0)
        omega)
    rw [hescape] at hlead
    rw [hlongNumber, if_neg (by omega), hdigits, hgroups, if_neg (by unfold asn1TagMaxSize; omega),
      long_tag_octets_eq, hoctets, hlead, hwrite]

/-- Identifiers and tag numbers correspond one to one: what is made for DER or BER is read back
with its fields, whatever follows it, and what the DER reader accepts is made from its fields. -/
theorem identifiers_correspond :
    (∀ tagClass constructed number tag, derTagMake tagClass constructed number = .ok tag →
      ReadBack derReadTag derTagNumber tagClass constructed number tag) ∧
    (∀ data span size, derReadTag data = ⟨.ok span, size⟩ →
      span.bytes = data.take size ∧ ∃ number, derTagNumber span.bytes = .ok number ∧
        derTagMake (asn1TagClass span.bytes) (asn1IsConstructed span.bytes) number =
          .ok (data.take size)) ∧
    ∀ tagClass constructed number tag, berTagMake tagClass constructed number = .ok tag →
      ReadBack berReadTag berTagNumber tagClass constructed number tag := by
  refine ⟨fun tagClass constructed number tag h => tag_make_reads der_identifier_law h,
    fun data span size h => ?_,
    fun tagClass constructed number tag h => tag_make_reads ber_identifier_law h⟩
  obtain ⟨hbytes, -⟩ := der_identifier_written h
  obtain ⟨number, hnumber, hmake⟩ := der_identifier_made h
  exact ⟨hbytes, number, hnumber, by rw [← hbytes]; exact hmake⟩

/-- The number 200 takes two octets behind the first one. -/
theorem identifiers_correspond_context :
    derTagMake .contextSpecific true 200 = .ok [0xBF, 0x81, 0x48] ∧
      derReadTag [0xBF, 0x81, 0x48, 0x02, 0x05, 0x00] =
        ⟨.ok ⟨[0xBF, 0x81, 0x48], some 0⟩, 3⟩ ∧
      derTagNumber [0xBF, 0x81, 0x48] = .ok 200 := by
  have hmade : derTagMake .contextSpecific true 200 = .ok [0xBF, 0x81, 0x48] := by decide +kernel
  have hback := identifiers_correspond.1 _ _ _ _ hmade
  exact ⟨hmade, hback.read [0x02, 0x05, 0x00], hback.number⟩

end OpenTlv
