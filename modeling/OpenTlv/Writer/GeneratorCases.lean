import OpenTlv.Writer.GeneratorAreas

/-!
# Generated cases are valid

What the generator has in an output area is at any time a stream of complete elements. Elements that
are rejected give back what they took from the budget, so the elements in the output and the rest of
the budget are together no more than the budget. The attempts are the measure of all loops together.
-/

namespace OpenTlv

/-- An element that decodes from all of its octets, and what was decoded re-encodes to them. -/
structure CompleteElement (format : Format) (tag value bytes : Bytes) : Prop where
  decodes : ∃ decoded, formatDecode format bytes = .ok decoded ∧
    decoded.source.size = bytes.length ∧ decoded.tag.bytes = tag ∧ decoded.value.bytes = value ∧
    Reencodes format decoded.tag.bytes decoded.value.bytes bytes

/-- A sequence of complete elements, `count` of them at all levels together, that is nested at most
`levels` deep. The values of constructed elements are such sequences. -/
inductive CaseStream (format : Format) : Nat → Nat → Bytes → Prop where
  | nil {levels : Nat} : CaseStream format levels 0 []
  | primitive {levels count : Nat} {front tag value bytes : Bytes} :
      CaseStream format levels count front → format.constructs tag = false →
      CompleteElement format tag value bytes →
      CaseStream format levels (count + 1) (front ++ bytes)
  | empty {levels count : Nat} {front tag bytes : Bytes} :
      CaseStream format levels count front → format.constructs tag = true →
      CompleteElement format tag [] bytes → CaseStream format levels (count + 1) (front ++ bytes)
  | constructed {levels count inner : Nat} {front tag value bytes : Bytes} :
      CaseStream format (levels + 1) count front → format.constructs tag = true →
      CaseStream format levels inner value → CompleteElement format tag value bytes →
      CaseStream format (levels + 1) (count + inner + 1) (front ++ bytes)

/-- What the value of an element may be, and the elements in it. -/
inductive CaseContent (format : Format) (tag value : Bytes) : Nat → Nat → Prop where
  | primitive {levels : Nat} (h : format.constructs tag = false) :
      CaseContent format tag value levels 0
  | empty {levels : Nat} (h : format.constructs tag = true) (hvalue : value = []) :
      CaseContent format tag value levels 0
  | constructed {levels inner : Nat} (h : format.constructs tag = true)
      (hvalue : CaseStream format levels inner value) :
      CaseContent format tag value (levels + 1) inner

/-- A stream goes on with a complete element. -/
theorem CaseStream.snoc {format : Format} {levels count inner : Nat}
    {front tag value bytes : Bytes} (h : CaseStream format levels count front)
    (hcontent : CaseContent format tag value levels inner)
    (helement : CompleteElement format tag value bytes) :
    CaseStream format levels (count + inner + 1) (front ++ bytes) := by
  cases hcontent with
  | primitive hprimitive => exact h.primitive hprimitive helement
  | empty hconstructed hvalue =>
    subst hvalue
    exact h.empty hconstructed helement
  | constructed hconstructed hvalue => exact h.constructed hconstructed hvalue helement

namespace Generator

/-- The areas below `k` and the limits are kept. -/
structure Kept (o : GeneratorOptions) (k : Nat) (g g' : Generator) : Prop where
  sized : g'.Sized o
  areas : ∀ b, b < k → g'.area o b = g.area o b
  attempts : g'.attempts ≤ g.attempts

variable {encoder : Encoder} {o : GeneratorOptions} {g g' g'' : Generator}
  {c : GeneratorCandidate} {nested : Nat → Generating Nat}
  {a k depth capacity pos length hi n turns : Nat}

theorem Kept.refl (hs : g.Sized o) : g.Kept o k g :=
  ⟨hs, fun _ _ => rfl, Nat.le_refl _⟩

theorem Kept.trans (h : g.Kept o k g') (h' : g'.Kept o k g'') : g.Kept o k g'' :=
  ⟨h'.sized, fun b hb => (h'.areas b hb).trans (h.areas b hb), h'.attempts.trans h.attempts⟩

theorem Kept.fewer {k' : Nat} (h : g.Kept o k g') (hk : k' ≤ k) : g.Kept o k' g' :=
  ⟨h.sized, fun b hb => h.areas b (hb.trans_le hk), h.attempts⟩

theorem Changes.kept (h : g.Changes o a g') (hk : k ≤ a) : g.Kept o k g' :=
  ⟨h.sized, fun b hb => h.others b (hb.trans_le hk).ne, h.attempts.le⟩

/-- A refusal rejects the candidate or ends the case. -/
theorem refused_sound {status : Status} {good : Option Nat → Generator → Prop}
    (h : good none g) : Sound (refused status) g good := by
  unfold refused
  split
  · exact nofun
  · exact h

section Verification

/-- The second encoding changes the slice of the depth only. -/
theorem reencode_sound {decoded : Decoded} (hs : g.Sized o) (hdepth : depth ≤ o.maxDepth)
    (hroom : pos + n ≤ o.maxCaseSize)
    (hsizes : decoded.tag.bytes.length ≤ sizeMax ∧ decoded.value.bytes.length ≤ sizeMax) :
    Sound (reencode encoder o depth pos n decoded) g fun result g' =>
      g.Changes o (depth + 1) g' ∧ ∀ m, result = some m → m = n := by
  have hown : depth + 1 ≤ o.maxDepth + 1 := Nat.succ_le_succ hdepth
  unfold reencode
  refine (encode_sound hs hown (Nat.zero_add _).le hsizes).bind fun result g₁ h₁ => ?_
  obtain ⟨hchanges, -, -⟩ := h₁
  cases result with
  | error status => exact refused_sound ⟨hchanges, nofun⟩
  | ok check =>
    dsimp only
    split
    · exact ⟨hchanges, nofun⟩
    · refine (load_sound hchanges.sized hown (by omega)).bind fun again g₂ h₂ => ?_
      obtain ⟨rfl, -⟩ := h₂
      refine (load_sound hchanges.sized (by omega) hroom).bind fun first g₃ h₃ => ?_
      obtain ⟨rfl, -⟩ := h₃
      refine ⟨hchanges, fun m hm => ?_⟩
      split at hm
      · cases hm
        rfl
      · cases hm

/-- What is accepted decodes to the candidate and its value. -/
theorem verify_sound (hs : g.Sized o) (hdepth : depth ≤ o.maxDepth)
    (hlimit : o.maxCaseSize ≤ sizeMax) (hroom : pos + n ≤ o.maxCaseSize)
    (hlength : length ≤ o.maxCaseSize) :
    Sound (verify encoder o c depth pos length n) g fun result g' =>
      g.Changes o (depth + 1) g' ∧ ∀ m, result = some m → m = n ∧
        ∃ decoded, formatDecode encoder.format (((g.area o depth).drop pos).take n) = .ok decoded ∧
          decoded.source.size = n ∧ decoded.tag.bytes = c.tag.bytes ∧
          decoded.value.bytes = (g.area o (depth + 1)).take length := by
  have hown : depth + 1 ≤ o.maxDepth + 1 := Nat.succ_le_succ hdepth
  unfold verify
  refine (load_sound hs (by omega) hroom).bind fun bytes g₁ h₁ => ?_
  obtain ⟨rfl, rfl⟩ := h₁
  cases hdecode : formatDecode encoder.format (((g₁.area o depth).drop pos).take n) with
  | error failed => exact refused_sound ⟨.refl hs, nofun⟩
  | ok decoded =>
    dsimp only
    refine (load_sound hs hown (by omega)).bind fun value g₂ h₂ => ?_
    obtain ⟨rfl, rfl⟩ := h₂
    rw [List.drop_zero]
    split
    next hpreserved =>
      unfold preserved at hpreserved
      simp only [Bool.and_eq_true, decide_eq_true_eq] at hpreserved
      obtain ⟨⟨⟨hsize, htag⟩, -⟩, hvalue⟩ := hpreserved
      have hsizes : decoded.tag.bytes.length ≤ sizeMax ∧
          decoded.value.bytes.length ≤ sizeMax := by
        rw [htag, hvalue, List.length_take]
        exact ⟨c.tag_le, by omega⟩
      refine (reencode_sound hs hdepth hroom hsizes).mono fun result g₃ h₃ => ?_
      exact ⟨h₃.1, fun m hm => ⟨h₃.2 m hm, decoded, rfl, hsize, htag, hvalue⟩⟩
    next => exact nofun

/-- An accepted candidate is a complete element behind what was there before. -/
theorem write_sound (hs : g.Sized o) (hdepth : depth ≤ o.maxDepth)
    (hlimit : o.maxCaseSize ≤ sizeMax) (hcapacity : capacity ≤ o.maxCaseSize)
    (hpos : pos ≤ capacity) (hlength : length ≤ o.maxCaseSize) :
    Sound (write encoder o c depth capacity pos length) g fun result g' =>
      g.Kept o depth g' ∧ g'.remaining = g.remaining ∧
        (g'.area o depth).take pos = (g.area o depth).take pos ∧
        ∀ n, result = some n → 0 < n ∧ pos + n ≤ capacity ∧ ∃ bytes : Bytes, bytes.length = n ∧
          CompleteElement encoder.format c.tag.bytes ((g.area o (depth + 1)).take length) bytes ∧
          (g'.area o depth).take (pos + n) = (g.area o depth).take pos ++ bytes := by
  have hown : depth + 1 ≤ o.maxDepth + 1 := Nat.succ_le_succ hdepth
  have hfront : ((g.area o depth).take pos).length = pos := by
    rw [List.length_take, area_length hs (by omega)]
    omega
  unfold write
  refine (load_sound hs hown (by omega)).bind fun value g₁ h₁ => ?_
  obtain ⟨rfl, rfl⟩ := h₁
  rw [List.drop_zero]
  have hsizes : c.tag.bytes.length ≤ sizeMax ∧
      ((g₁.area o (depth + 1)).take length).length ≤ sizeMax := by
    rw [List.length_take]
    exact ⟨c.tag_le, by omega⟩
  refine (encode_sound hs (by omega) (by omega) hsizes).bind fun result g₂ h₂ => ?_
  obtain ⟨hfirst, htake, hencoded⟩ := h₂
  cases result with
  | error status =>
    exact refused_sound ⟨hfirst.kept (Nat.le_refl _), hfirst.remaining, htake, nofun⟩
  | ok n =>
    obtain ⟨hn, bytes, hbytes, hreencodes, hstored⟩ := hencoded n rfl
    dsimp only
    split
    · exact nofun
    next hpositive =>
      have hread : ((g₂.area o depth).drop pos).take n = bytes := by
        rw [List.take_drop, hstored, List.drop_left' hfront]
      refine (verify_sound hfirst.sized hdepth hlimit (by omega) hlength).mono
        fun result g₃ h₃ => ?_
      obtain ⟨hsecond, hverified⟩ := h₃
      have hout : g₃.area o depth = g₂.area o depth := hsecond.others depth (by omega)
      refine ⟨(hfirst.kept (Nat.le_refl _)).trans (hsecond.kept (by omega)),
        hsecond.remaining.trans hfirst.remaining, by rw [hout]; exact htake, fun m hm => ?_⟩
      obtain ⟨rfl, decoded, hdecode, hsize, htag, hvalue⟩ := hverified m hm
      rw [hread] at hdecode
      rw [hfirst.others (depth + 1) (by omega)] at hvalue
      refine ⟨Nat.pos_of_ne_zero hpositive, by omega, bytes, hbytes,
        ⟨⟨decoded, hdecode, hsize.trans hbytes.symm, htag, hvalue, ?_⟩⟩, ?_⟩
      · rw [htag, hvalue]
        exact hreencodes
      · rw [hout]
        exact hstored

end Verification

section Values

theorem value_size_sound {lo : Nat} (hs : g.Sized o) (a : Nat) (hle : lo ≤ hi) :
    Sound (valueSize lo hi) g fun n g' => g.Changes o a g' ∧ lo ≤ n ∧ n ≤ hi := by
  unfold valueSize
  refine (next_sound hs a).bind fun r g₁ h₁ => ?_
  dsimp only
  split
  · exact ⟨h₁.1, Nat.le_refl _, hle⟩
  split
  · exact ⟨h₁.1, hle, Nat.le_refl _⟩
  split
  next hboundary => exact ⟨h₁.1, hboundary.2.1, hboundary.2.2⟩
  · refine (next_sound h₁.1.sized a).bind fun s g₂ h₂ => ?_
    have hmod := Nat.mod_lt s.toNat (show 0 < hi - lo + 1 from Nat.succ_pos _)
    exact ⟨h₁.1.trans h₂.1, Nat.le_add_right _ _, by omega⟩

/-- A run one level deeper that stays inside of its area and of the budget. -/
def Nests (format : Format) (o : GeneratorOptions) (depth turns : Nat)
    (nested : Nat → Generating Nat) : Prop :=
  ∀ hi g, hi ≤ o.maxCaseSize → g.Sized o → g.remaining ≠ 0 → g.attempts ≤ turns →
    Sound (nested hi) g fun n g' => g.Kept o depth g' ∧ n ≤ hi ∧
      ∃ count, CaseStream format (o.maxDepth - depth) count ((g'.area o depth).take n) ∧
        count + g'.remaining ≤ g.remaining

/-- What a candidate has as its value, in the slice of its depth. -/
def Filled (format : Format) (o : GeneratorOptions) (c : GeneratorCandidate) (depth hi : Nat)
    (g : Generator) (result : Option Nat) (g' : Generator) : Prop :=
  g.Kept o (depth + 1) g' ∧ ∀ length, result = some length → length ≤ hi ∧
    ∃ inner, CaseContent format c.tag.bytes ((g'.area o (depth + 1)).take length)
      (o.maxDepth - depth) inner ∧ inner + g'.remaining ≤ g.remaining

/-- Generated children keep their budget and are complete. -/
theorem children_sound (hs : g.Sized o) (hi_le : hi ≤ o.maxCaseSize)
    (hconstructs : encoder.format.constructs c.tag.bytes = true) (hturns : g.attempts ≤ turns)
    (hnested : depth < o.maxDepth → Nests encoder.format o (depth + 1) turns nested) :
    Sound (children o nested c depth hi) g fun result g' =>
      Filled encoder.format o c depth hi g result g' := by
  unfold children
  refine get_sound.bind fun found g₁ h₁ => ?_
  obtain ⟨rfl, rfl⟩ := h₁
  dsimp only
  split
  next hdeeper =>
    obtain ⟨hdepth, hremaining, -⟩ := hdeeper
    refine (hnested hdepth hi g₁ hi_le hs hremaining hturns).bind fun length g₂ h₂ => ?_
    obtain ⟨hkept, hle, inner, hstream, hbudget⟩ := h₂
    refine ⟨hkept, fun length' hlength => ?_⟩
    split at hlength
    · cases hlength
    · cases hlength
      obtain ⟨levels, hlevels⟩ : ∃ levels, o.maxDepth - depth = levels + 1 :=
        ⟨o.maxDepth - (depth + 1), by omega⟩
      have hbelow : o.maxDepth - (depth + 1) = levels := by omega
      rw [hbelow] at hstream
      rw [hlevels]
      exact ⟨hle, inner, .constructed hconstructs hstream, hbudget⟩
  next =>
    refine ⟨.refl hs, fun length' hlength => ?_⟩
    split at hlength
    · cases hlength
    · cases hlength
      exact ⟨Nat.zero_le _, 0, .empty hconstructs List.take_zero, (Nat.zero_add _).le⟩

theorem random_value_sound (hs : g.Sized o) (hdepth : depth ≤ o.maxDepth)
    (hi_le : hi ≤ o.maxCaseSize) (hmin : c.minValueSize ≤ hi)
    (hprimitive : encoder.format.constructs c.tag.bytes = false) :
    Sound (randomValue o c depth hi) g fun result g' =>
      Filled encoder.format o c depth hi g result g' := by
  unfold randomValue
  refine (value_size_sound hs (depth + 1) hmin).bind fun length g₁ h₁ => ?_
  obtain ⟨hchanges, -, hlength⟩ := h₁
  refine (fill_sound hchanges.sized (Nat.succ_le_succ hdepth) (hlength.trans hi_le)).bind
    fun _ g₂ h₂ => ?_
  refine ⟨(hchanges.trans h₂).kept (Nat.le_refl _), fun length' hresult => ?_⟩
  cases hresult
  exact ⟨hlength, 0, .primitive hprimitive, by rw [Nat.zero_add, h₂.remaining, hchanges.remaining]⟩

end Values

section Elements

/-- What a turn of the loop may accept: a complete element with the content that it may have, behind
the elements in the output. -/
def Accepted (format : Format) (o : GeneratorOptions) (depth capacity pos n budget : Nat)
    (g g' : Generator) : Prop :=
  0 < n ∧ pos + n ≤ capacity ∧ ∃ tag value bytes inner, bytes.length = n ∧
    CompleteElement format tag value bytes ∧
    CaseContent format tag value (o.maxDepth - depth) inner ∧
    (g'.area o depth).take (pos + n) = (g.area o depth).take pos ++ bytes ∧
    inner + g'.remaining ≤ budget

/-- A generated element is complete and fits. -/
theorem element_sound (hs : g.Sized o) (hdepth : depth ≤ o.maxDepth)
    (hlimit : o.maxCaseSize ≤ sizeMax) (hcapacity : capacity ≤ o.maxCaseSize)
    (hpos : pos ≤ capacity) (hi_le : hi ≤ o.maxCaseSize) (hmin : c.minValueSize ≤ hi)
    (hturns : g.attempts ≤ turns)
    (hnested : depth < o.maxDepth → Nests encoder.format o (depth + 1) turns nested) :
    Sound (element encoder o nested c depth capacity pos hi) g fun result g' =>
      g.Kept o depth g' ∧ (g'.area o depth).take pos = (g.area o depth).take pos ∧
        ∀ n, result = some n →
          Accepted encoder.format o depth capacity pos n g.remaining g g' := by
  have hvalue : Sound (value encoder o nested c depth hi) g fun result g' =>
      Filled encoder.format o c depth hi g result g' := by
    unfold value
    cases hconstructs : encoder.format.constructs c.tag.bytes with
    | true => exact children_sound hs hi_le hconstructs hturns hnested
    | false => exact random_value_sound hs hdepth hi_le hmin hconstructs
  unfold element
  refine hvalue.bind fun result g₁ h₁ => ?_
  obtain ⟨hkept, hfilled⟩ := h₁
  have hout : g₁.area o depth = g.area o depth := hkept.areas depth (Nat.lt_succ_self _)
  cases result with
  | none => exact ⟨hkept.fewer (Nat.le_succ _), by rw [hout], nofun⟩
  | some length =>
    obtain ⟨hlength, inner, hcontent, hbudget⟩ := hfilled length rfl
    refine (write_sound hkept.sized hdepth hlimit hcapacity hpos
      (hlength.trans hi_le)).mono fun result g₂ h₂ => ?_
    obtain ⟨hwritten, hremaining, htake, haccepts⟩ := h₂
    rw [hout] at htake haccepts
    refine ⟨(hkept.fewer (Nat.le_succ _)).trans hwritten, htake, fun n hn => ?_⟩
    obtain ⟨hpositive, hend, bytes, hbytes, hcomplete, hstored⟩ := haccepts n hn
    exact ⟨hpositive, hend, _, _, bytes, inner, hbytes, hcomplete, hcontent, hstored,
      by rw [hremaining]; exact hbudget⟩

/-- A turn of the loop takes an attempt. What it rejects leaves the budget as it was. -/
theorem attempt_sound (hs : g.Sized o) (hdepth : depth ≤ o.maxDepth)
    (hlimit : o.maxCaseSize ≤ sizeMax) (hcandidates : o.candidates ≠ [])
    (hcapacity : capacity ≤ o.maxCaseSize) (hpos : pos ≤ capacity)
    (hturns : g.attempts ≤ turns + 1)
    (hnested : depth < o.maxDepth → Nests encoder.format o (depth + 1) turns nested) :
    Sound (attempt encoder o nested depth capacity pos) g fun result g' =>
      g.Kept o depth g' ∧ g'.attempts ≤ turns ∧
        match result with
        | none => (g'.area o depth).take pos = (g.area o depth).take pos ∧
            g'.remaining = g.remaining
        | some n => Accepted encoder.format o depth capacity pos n (g.remaining - 1) g g' := by
  unfold attempt
  refine (modify_sound _).bind fun _ g₁ h₁ => ?_
  have hs₁ : g₁.Sized o := by
    subst h₁
    exact ⟨hs.data, hs.workspace⟩
  have hkept₁ : g.Kept o depth g₁ := by
    subst h₁
    exact ⟨hs₁, fun b _ => area_congr b rfl rfl, Nat.sub_le _ _⟩
  have hout₁ : g₁.area o depth = g.area o depth := by
    subst h₁
    exact area_congr depth rfl rfl
  have hattempts₁ : g₁.attempts ≤ turns := by
    subst h₁
    show g.attempts - 1 ≤ turns
    omega
  have hremaining₁ : g₁.remaining = g.remaining := by
    subst h₁
    rfl
  refine (next_sound hs₁ depth).bind fun r g₂ h₂ => ?_
  obtain ⟨hchanges, hout⟩ := h₂
  have hkept₂ : g.Kept o depth g₂ := hkept₁.trans (hchanges.kept (Nat.le_refl _))
  have hout₂ : g₂.area o depth = g.area o depth := hout.trans hout₁
  have hattempts₂ : g₂.attempts ≤ turns := hchanges.attempts.trans_le hattempts₁
  have hremaining₂ : g₂.remaining = g.remaining := hchanges.remaining.trans hremaining₁
  have hindex : r.toNat % o.candidates.length < o.candidates.length :=
    Nat.mod_lt _ (List.length_pos_of_ne_nil hcandidates)
  rw [List.getElem?_eq_getElem hindex]
  dsimp only
  split
  · exact ⟨hkept₂, hattempts₂, by rw [hout₂], hremaining₂⟩
  next hmin =>
    refine get_sound.bind fun saved g₃ h₃ => ?_
    obtain ⟨rfl, rfl⟩ := h₃
    refine (modify_sound _).bind fun _ g₄ h₄ => ?_
    have hs₄ : g₄.Sized o := by
      subst h₄
      exact ⟨hkept₂.sized.data, hkept₂.sized.workspace⟩
    have hkept₄ : g.Kept o depth g₄ := by
      subst h₄
      exact ⟨hs₄, fun b hb => (area_congr b rfl rfl).trans (hkept₂.areas b hb), hkept₂.attempts⟩
    have hout₄ : g₄.area o depth = g.area o depth := by
      subst h₄
      exact (area_congr depth rfl rfl).trans hout₂
    have hattempts₄ : g₄.attempts ≤ turns := by
      subst h₄
      exact hattempts₂
    have hremaining₄ : g₄.remaining = g.remaining - 1 := by
      subst h₄
      show g₃.remaining - 1 = _
      rw [hremaining₂]
    refine (element_sound hs₄ hdepth hlimit hcapacity hpos (by omega) (Nat.le_of_not_lt hmin)
      hattempts₄ hnested).bind fun result g₅ h₅ => ?_
    -- a refused candidate gives the remaining count back
    obtain ⟨hkept₅, htake, haccepted⟩ := h₅
    rw [hout₄] at htake
    cases result with
    | some n =>
      obtain ⟨hpositive, hend, tag, value, bytes, inner, hbytes, hcomplete, hcontent, hstored,
        hbudget⟩ := haccepted n rfl
      rw [hout₄] at hstored
      rw [hremaining₄] at hbudget
      exact ⟨hkept₄.trans hkept₅, hkept₅.attempts.trans hattempts₄, hpositive, hend, tag, value,
        bytes, inner, hbytes, hcomplete, hcontent, hstored, hbudget⟩
    | none =>
      refine (modify_sound _).bind fun _ g₆ h₆ => ?_
      subst h₆
      have hs₆ := hkept₅.sized
      refine ⟨⟨⟨hs₆.data, hs₆.workspace⟩, fun b hb => ?_, ?_⟩, ?_, ?_, hremaining₂⟩
      · exact (area_congr b rfl rfl).trans ((hkept₄.trans hkept₅).areas b hb)
      · exact (hkept₄.trans hkept₅).attempts
      · exact hkept₅.attempts.trans hattempts₄
      · rw [← htake]
        exact congrArg (List.take pos) (area_congr depth rfl rfl)

end Elements

section Streams

theorem target_sound (hs : g.Sized o) (hremaining : g.remaining ≠ 0) (a : Nat) :
    Sound target g fun _ g' => g.Changes o a g' ∧ g'.area o a = g.area o a := by
  unfold target
  refine get_sound.bind fun found g₁ h₁ => ?_
  obtain ⟨rfl, rfl⟩ := h₁
  rw [if_neg hremaining]
  refine (next_sound hs a).bind fun r g₂ h₂ => ?_
  exact h₂

/-- The loop keeps a stream of complete elements in its output, within the budget. The induction is
on the turns, which are never fewer than the attempts that are left. -/
theorem stream_loop_sound (hlimit : o.maxCaseSize ≤ sizeMax) (hcandidates : o.candidates ≠ [])
    (turns : Nat) {wanted accepted count total : Nat} (hs : g.Sized o)
    (hdepth : depth ≤ o.maxDepth) (hcapacity : capacity ≤ o.maxCaseSize) (hpos : pos ≤ capacity)
    (hturns : g.attempts ≤ turns)
    (hstream : CaseStream encoder.format (o.maxDepth - depth) count ((g.area o depth).take pos))
    (hbudget : count + g.remaining ≤ total) :
    Sound (streamLoop encoder o turns depth capacity wanted accepted pos) g fun n g' =>
      g.Kept o depth g' ∧ n ≤ capacity ∧
        ∃ count, CaseStream encoder.format (o.maxDepth - depth) count
          ((g'.area o depth).take n) ∧ count + g'.remaining ≤ total := by
  induction turns generalizing g depth capacity pos wanted accepted count total with
  | zero =>
    unfold streamLoop
    refine get_sound.bind fun found g₁ h₁ => ?_
    obtain ⟨rfl, rfl⟩ := h₁
    have hnone : g₁.attempts = 0 := Nat.le_zero.mp hturns
    split
    next hgoes =>
      unfold goesOn at hgoes
      simp only [Bool.and_eq_true, decide_eq_true_eq] at hgoes
      exact absurd hnone hgoes.1.2
    next => exact ⟨.refl hs, hpos, count, hstream, hbudget⟩
  | succ turns ih =>
    unfold streamLoop
    refine get_sound.bind fun found g₁ h₁ => ?_
    obtain ⟨rfl, rfl⟩ := h₁
    dsimp only
    split
    next hgoes =>
      unfold goesOn at hgoes
      simp only [Bool.and_eq_true, decide_eq_true_eq] at hgoes
      obtain ⟨⟨⟨-, hremaining⟩, hattempts⟩, hroom⟩ := hgoes
      refine (attempt_sound hs hdepth hlimit hcandidates hcapacity hpos hturns
        fun hdeeper hi g hi_le hs hremaining hturns => ?_).bind fun result g₂ h₂ => ?_
      · -- A stream one level deeper is a run of this loop with one turn less.
        refine (target_sound hs hremaining (depth + 1)).bind fun wanted g₂ h₂ => ?_
        obtain ⟨hchanges, hout⟩ := h₂
        refine (ih hchanges.sized hdeeper hi_le (Nat.zero_le _)
          (hchanges.attempts.trans_le hturns) .nil (Nat.le_refl _)).mono fun n g₃ h₃ => ?_
        obtain ⟨hkept, hn, inner, hinner, hinnerBudget⟩ := h₃
        refine ⟨(hchanges.kept (Nat.le_refl _)).trans hkept, hn, inner, hinner, ?_⟩
        rw [← hchanges.remaining]
        omega
      · obtain ⟨hkept, hleft, hresult⟩ := h₂
        cases result with
        | none =>
          obtain ⟨htake, hsame⟩ := hresult
          have hbudget₂ : count + g₂.remaining ≤ total := by
            rw [hsame]
            exact hbudget
          refine (ih hkept.sized hdepth hcapacity hpos hleft (by rw [htake]; exact hstream)
            hbudget₂).mono fun n g₃ h₃ => ?_
          exact ⟨hkept.trans h₃.1, h₃.2⟩
        | some n =>
          obtain ⟨-, hend, tag, value, bytes, inner, hbytes, hcomplete, hcontent, hstored,
            hspent⟩ := hresult
          have hgrown := hstream.snoc hcontent hcomplete
          rw [← hstored] at hgrown
          have hbudget₂ : count + inner + 1 + g₂.remaining ≤ total := by omega
          refine (ih hkept.sized hdepth hcapacity hend hleft hgrown hbudget₂).mono
            fun n g₃ h₃ => ?_
          exact ⟨hkept.trans h₃.1, h₃.2⟩
    next => exact ⟨.refl hs, hpos, count, hstream, hbudget⟩

end Streams

/-- What valid options say. -/
theorem workspace_size_eq_ok {required : Nat} (h : workspaceSize o = .ok required) :
    required = (o.maxDepth + 1) * o.maxCaseSize ∧ o.maxElements ≠ 0 ∧ o.candidates ≠ [] ∧
      o.maxCaseSize ≤ sizeMax := by
  unfold workspaceSize at h
  obtain ⟨hlimits, h⟩ := guard_ok.mp h
  split at h
  · cases h
  obtain ⟨hsizes, h⟩ := guard_ok.mp h
  split at h
  · cases h
  obtain ⟨-, h⟩ := guard_ok.mp h
  cases h
  simp only [not_or, List.isEmpty_iff] at hlimits
  have hdiv := Nat.div_le_self sizeMax (o.maxDepth + 1)
  exact ⟨rfl, hlimits.1, hlimits.2.2, by omega⟩

/-- **Generated cases are valid.** No access of a run lies outside of the output of `max_case_size`
octets and the workspace of the reported size, the attempts suffice for the loops of all levels, and
a case that is returned is not empty, fits the maximum, and is a sequence of complete elements
within the limits for elements and nesting. -/
theorem generate_valid (encoder : Encoder) (o : GeneratorOptions) (data workspace : Bytes) :
    generate encoder o data workspace ≠ .error .fault ∧
      ∀ written output, generate encoder o data workspace = .ok (written, output) →
        1 ≤ written ∧ written ≤ o.maxCaseSize ∧ output.length = o.maxCaseSize ∧
          ∃ count, count ≤ o.maxElements ∧
            CaseStream encoder.format o.maxDepth count (output.take written) := by
  unfold generate
  split
  · exact ⟨nofun, nofun⟩
  cases hrequired : workspaceSize o with
  | error status => exact ⟨nofun, nofun⟩
  | ok required =>
    obtain ⟨rfl, helements, hcandidates, hlimit⟩ := workspace_size_eq_ok hrequired
    dsimp only
    split
    · exact ⟨nofun, nofun⟩
    next hextents =>
      generalize hstart : start o data workspace ((o.maxDepth + 1) * o.maxCaseSize) = g
      have hs : g.Sized o := by
        subst hstart
        refine ⟨?_, ?_⟩
        · show (data.take o.maxCaseSize).length = _
          rw [List.length_take]
          omega
        · show (workspace.take _).length = _
          rw [List.length_take]
          omega
      have hremaining : g.remaining = o.maxElements := by
        subst hstart
        rfl
      have hrun : Sound (stream encoder o g.attempts 0 o.maxCaseSize) g fun n g' =>
          g'.Sized o ∧ n ≤ o.maxCaseSize ∧ ∃ count, count ≤ o.maxElements ∧
            CaseStream encoder.format o.maxDepth count (g'.data.take n) := by
        unfold stream
        refine (target_sound hs (by omega) 0).bind fun wanted g₁ h₁ => ?_
        have hbudget : 0 + g₁.remaining ≤ o.maxElements := by
          rw [h₁.1.remaining, hremaining, Nat.zero_add]
        refine (stream_loop_sound hlimit hcandidates _ h₁.1.sized (Nat.zero_le _) (Nat.le_refl _)
          (Nat.zero_le _) h₁.1.attempts.le .nil hbudget).mono fun n g₂ h₂ => ?_
        obtain ⟨hkept, hn, count, hstream, hspent⟩ := h₂
        exact ⟨hkept.sized, hn, count, by omega, hstream⟩
      unfold Sound InPlace.Leads at hrun
      cases hran : (stream encoder o g.attempts 0 o.maxCaseSize).exec g with
      | mk result g' =>
        rw [hran] at hrun
        cases result with
        | error stop =>
          refine ⟨fun h => ?_, nofun⟩
          cases h
          exact hrun rfl
        | ok n =>
          obtain ⟨hsized, hn, count, hcount, hstream⟩ := hrun
          dsimp only
          split
          · exact ⟨nofun, nofun⟩
          next hpositive =>
            refine ⟨nofun, fun written output h => ?_⟩
            cases h
            exact ⟨Nat.pos_of_ne_zero hpositive, hn, hsized.data, count, hcount, hstream⟩

/-- Sequences and octet strings of DER, two levels deep. -/
def nestedOptions : GeneratorOptions :=
  { seed := 10, maxElements := 3, maxDepth := 1, maxValueSize := 4, maxCaseSize := 12
    candidates := [⟨{ bytes := [0x30] }, 0, 4, by decide⟩, ⟨{ bytes := [0x04] }, 0, 1, by decide⟩] }

/-- A sequence of one octet string, and an octet string behind it. -/
theorem generate_valid_nested :
    generate derEncoder nestedOptions (List.replicate 12 0) (List.replicate 24 0) =
        .ok (8, [0x30, 0x03, 0x04, 0x01, 0xAD, 0x04, 0x01, 0x54, 0, 0, 0, 0]) ∧
      ∃ count, count ≤ 3 ∧
        CaseStream formatDer 1 count [0x30, 0x03, 0x04, 0x01, 0xAD, 0x04, 0x01, 0x54] := by
  have hrun : generate derEncoder nestedOptions (List.replicate 12 0) (List.replicate 24 0) =
      .ok (8, [0x30, 0x03, 0x04, 0x01, 0xAD, 0x04, 0x01, 0x54, 0, 0, 0, 0]) := by
    decide +kernel
  exact ⟨hrun, ((generate_valid derEncoder nestedOptions _ _).2 _ _ hrun).2.2.2⟩

end Generator

end OpenTlv
