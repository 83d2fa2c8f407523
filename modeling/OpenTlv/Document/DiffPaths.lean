import OpenTlv.Document.Diff
import OpenTlv.Document.Runs
import OpenTlv.Lib.Nibbles
import OpenTlv.Lib.Occurrences
import OpenTlv.Lib.PrefixCode

/-!
# The paths of a semantic diff

The steps from a root to a node, written as a path, can be read back, so the index of a document
gives every node a path of its own. The diff of two documents is then the difference of what they
have at the same steps.
-/

namespace OpenTlv

namespace Document

/-! ## Paths -/

/-- The characters of a step: a tag and the number of earlier siblings with it. -/
def segment (step : Bytes × Nat) : List Char :=
  '/' :: (Nibbles.unpack step.1).map (hexDigits.getD · '0') ++
    '[' :: Nat.toDigits 10 (step.2 + 1) ++ [']']

/-- The path of steps. -/
def pathOf (steps : List (Bytes × Nat)) : String :=
  String.ofList (steps.flatMap segment)

/-- The text of a tag is its nibbles in hexadecimal. -/
theorem hex_tag_eq (tag : Bytes) :
    (hexTag tag).toList = (Nibbles.unpack tag).map (hexDigits.getD · '0') := by
  unfold hexTag Nibbles.unpack
  rw [String.toList_ofList, List.map_flatMap]
  refine List.flatMap_congr fun octet _ => ?_
  have hhigh : (octet >>> 4).toNat = octet.toNat / 16 := by
    rw [UInt8.toNat_shiftRight]
    exact Nat.shiftRight_eq_div_pow _ _
  have hlow : (octet &&& 15).toNat = octet.toNat % 16 := by
    rw [UInt8.toNat_and]
    exact Nat.and_two_pow_sub_one_eq_mod _ 4
  rw [hhigh, hlow]
  rfl

/-- Different nibbles have different digits, none of which is a bracket. -/
theorem hex_digits_getD : ∀ a < 16, hexDigits.getD a '0' ≠ '[' ∧
    ∀ b < 16, hexDigits.getD a '0' = hexDigits.getD b '0' → a = b := by
  decide

/-- Digits can be read back. -/
theorem nibble_digits_inj {nibbles nibbles' : List Nat} (hlt : ∀ nibble ∈ nibbles, nibble < 16)
    (hlt' : ∀ nibble ∈ nibbles', nibble < 16)
    (h : nibbles.map (hexDigits.getD · '0') = nibbles'.map (hexDigits.getD · '0')) :
    nibbles = nibbles' := by
  induction nibbles generalizing nibbles' with
  | nil => exact (List.map_eq_nil_iff.mp h.symm).symm
  | cons a rest ih =>
    cases nibbles' with
    | nil => cases h
    | cons b rest' =>
      rw [List.map_cons, List.map_cons, List.cons.injEq] at h
      rw [(hex_digits_getD a (hlt a (List.mem_cons_self ..))).2 b
          (hlt' b (List.mem_cons_self ..)) h.1,
        ih (fun nibble hmem => hlt nibble (List.mem_cons_of_mem _ hmem))
          (fun nibble hmem => hlt' nibble (List.mem_cons_of_mem _ hmem)) h.2]

/-- Tags can be read back. -/
theorem tag_digits_inj {tag tag' : Bytes}
    (h : (Nibbles.unpack tag).map (hexDigits.getD · '0') =
      (Nibbles.unpack tag').map (hexDigits.getD · '0')) : tag = tag' := by
  rw [← Nibbles.pack_unpack tag, ← Nibbles.pack_unpack tag',
    nibble_digits_inj (Nibbles.unpack_lt tag) (Nibbles.unpack_lt tag') h]

theorem hex_tag_injective : Function.Injective hexTag := by
  intro tag tag' h
  refine tag_digits_inj ?_
  rw [← hex_tag_eq, ← hex_tag_eq, h]

/-- Numbers can be read back. -/
theorem to_digits_inj {n m : Nat} (h : Nat.toDigits 10 n = Nat.toDigits 10 m) : n = m := by
  rw [← @Nat.ofDigitChars_ten_toDigits n, h, Nat.ofDigitChars_ten_toDigits]

/-- The front of a text says which step it starts with. -/
theorem segment_append_inj {step step' : Bytes × Nat} {rest rest' : List Char}
    (h : segment step ++ rest = segment step' ++ rest') : step = step' ∧ rest = rest' := by
  obtain ⟨tag, k⟩ := step
  obtain ⟨tag', k'⟩ := step'
  have hbracket : ∀ tag : Bytes, '[' ∉ (Nibbles.unpack tag).map (hexDigits.getD · '0') := by
    intro tag hmem
    obtain ⟨nibble, hnibble, hdigit⟩ := List.mem_map.mp hmem
    exact (hex_digits_getD nibble (Nibbles.unpack_lt tag nibble hnibble)).1 hdigit
  have hclose : ∀ n : Nat, ']' ∉ Nat.toDigits 10 n := by
    intro n hmem
    have hdigit := Nat.isDigit_of_mem_toDigits (by decide) (by decide) hmem
    exact absurd hdigit (by decide)
  unfold segment at h
  simp only [List.cons_append, List.append_assoc, List.nil_append, List.cons.injEq, true_and] at h
  obtain ⟨htag, htail⟩ := append_separator_inj (hbracket tag) (hbracket tag') h
  obtain ⟨hcount, hrest⟩ := append_separator_inj (hclose (k + 1)) (hclose (k' + 1)) htail
  have hk := to_digits_inj hcount
  exact ⟨by rw [tag_digits_inj htag, show k = k' by omega], hrest⟩

/-- A path says which steps it is of. -/
theorem path_of_injective : Function.Injective pathOf := by
  intro steps steps' h
  have hchars : steps.flatMap segment = steps'.flatMap segment := by
    have := congrArg String.toList h
    rwa [pathOf, pathOf, String.toList_ofList, String.toList_ofList] at this
  clear h
  induction steps generalizing steps' with
  | nil =>
    cases steps' with
    | nil => rfl
    | cons step rest => cases hchars
  | cons step rest ih =>
    cases steps' with
    | nil => cases hchars
    | cons step' rest' =>
      rw [List.flatMap_cons, List.flatMap_cons] at hchars
      obtain ⟨rfl, hrest⟩ := segment_append_inj hchars
      rw [ih hrest]

/-- The path of a node is that of its parent and its own step. -/
theorem node_path_eq (above : List (Bytes × Nat)) (tag : Bytes) (k : Nat) :
    nodePath (pathOf above) (hexTag tag) (k + 1) = pathOf (above ++ [(tag, k)]) := by
  apply String.toList_inj.mp
  unfold nodePath pathOf segment
  simp [hex_tag_eq]

end Document

end OpenTlv
