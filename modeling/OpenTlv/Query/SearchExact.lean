import OpenTlv.Query.Functions

/-!
# The byte search and the comparison

`contains` finds a byte string exactly where it occurs, in the slots below the length of the
pattern and at a linear cost. The comparison behind the relational operators and `tag-range`
orders byte strings lexicographically and numbers as signed integers.
-/

namespace OpenTlv.Query

/-- The comparison of byte strings is the lexicographic order, a proper front part first. -/
theorem bytes_compare_eq (a b : Bytes) :
    bytesCompare a b = if a < b then .lt else if b < a then .gt else .eq := by
  induction a generalizing b with
  | nil =>
    cases b with
    | nil => simp [bytesCompare]
    | cons y ys => simp [bytesCompare]
  | cons x xs ih =>
    cases b with
    | nil => simp [bytesCompare]
    | cons y ys =>
      simp only [List.cons_lt_cons_iff]
      unfold bytesCompare
      by_cases hlt : x < y
      · simp [hlt]
      · by_cases hgt : y < x
        · have hne : x ≠ y := fun h => UInt8.lt_irrefl x (by rw [h] at hgt ⊢; exact hgt)
          simp [hlt, hgt, hne]
        · -- equal octets leave the order to the rests
          have hsame : x = y := by
            by_contra hne
            exact (UInt8.lt_or_lt_of_ne hne).elim hlt hgt
          subst hsame
          simpa [hlt] using ih ys

theorem bytes_compare_lt {a b : Bytes} : bytesCompare a b = .lt ↔ a < b := by
  rw [bytes_compare_eq]
  by_cases hlt : a < b
  · simp [hlt]
  · by_cases hgt : b < a <;> simp [hlt, hgt]

theorem bytes_compare_gt {a b : Bytes} : bytesCompare a b = .gt ↔ b < a := by
  rw [bytes_compare_eq]
  by_cases hlt : a < b
  · have hnot : ¬ b < a := fun h => List.lt_irrefl a (List.lt_trans hlt h)
    simp [hlt, hnot]
  · by_cases hgt : b < a <;> simp [hlt, hgt]

theorem bytes_compare_same {a b : Bytes} : bytesCompare a b = .eq ↔ a = b := by
  constructor
  · intro h
    by_contra hne
    have hle : ¬ a < b := fun hlt => by simp [bytes_compare_lt.mpr hlt] at h
    have hgt : b < a := Std.lt_of_le_of_ne hle (Ne.symm hne)
    simp [bytes_compare_gt.mpr hgt] at h
  · rintro rfl
    rw [bytes_compare_eq]
    simp [List.lt_irrefl]

/-- Magnitudes with signs compare as the integers they stand for. -/
theorem signed_order_eq (x y : Int) :
    signedOrder (signedValue x) (signedValue y) = Ord.compare x y := by
  rw [Int.compare_eq_ite_lt]
  show (if decide (x < 0) ≠ decide (y < 0) then (if decide (x < 0) then Ordering.lt else .gt)
    else if decide (x < 0) then Ord.compare y.natAbs x.natAbs
    else Ord.compare x.natAbs y.natAbs) = _
  by_cases hx : x < 0
  · by_cases hy : y < 0
    · -- two negative numbers: the larger magnitude is the smaller number
      have hlt : y.natAbs < x.natAbs ↔ x < y := by omega
      have hgt : x.natAbs < y.natAbs ↔ y < x := by omega
      simp [hx, hy, Nat.compare_eq_ite_lt, hlt, hgt]
    · have hlt : x < y := by omega
      simp [hx, hy, hlt]
  · by_cases hy : y < 0
    · have hlt : ¬ x < y := by omega
      have hgt : y < x := by omega
      simp [hx, hy, hlt, hgt]
    · have hlt : x.natAbs < y.natAbs ↔ x < y := by omega
      have hgt : y.natAbs < x.natAbs ↔ y < x := by omega
      simp [hx, hy, Nat.compare_eq_ite_lt, hlt, hgt]

/-- A call on two arguments applies its function to their values. -/
theorem function_eval_two {p : Program} {n : Instruction} {x y : Nat} {values : Area Value}
    {a b : Value} (hwalk : p.argumentWalk 2 n.left [] = .ok (some [x, y]))
    (hx : values.read x = some a) (hy : values.read y = some b) (capacity : Nat)
    (event : TreeEvent) (table : Area Nat) (meter : Meter) :
    functionEval p capacity event n values table meter =
      functionApply capacity event n [a, b] table meter := by
  have hread : readArguments values [x, y] = .ok [a, b] := by
    simp [readArguments, hx, hy]
    rfl
  unfold functionEval
  rw [hwalk]
  show (readArguments values [x, y] >>= fun arguments =>
    functionApply capacity event n arguments table meter) = _
  rw [hread]
  rfl

/-- A run that meets its condition either lacks budget or has its result. -/
theorem spent_cases {α : Type} {run : Run α} {cost : Nat} {meter : Meter} {good : α → Prop}
    {rest : α → Meter} (h : Meets run (Reports (meter.left < cost)) fun x =>
      good x ∧ Spent cost meter (rest x)) :
    (meter.left < cost → ∃ d, run = .error (.failed d)) ∧
      (cost ≤ meter.left → ∃ x, run = .ok x ∧ good x ∧
        rest x = { meter with left := meter.left - cost }) := by
  cases run with
  | error stop =>
    obtain ⟨⟨d, rfl⟩, hless⟩ := h
    exact ⟨fun _ => ⟨d, rfl⟩, fun hle => by omega⟩
  | ok x =>
    obtain ⟨hgood, hleft, hlimit⟩ := h
    refine ⟨fun hless => by omega, fun _ => ⟨x, rfl, hgood, ?_⟩⟩
    have hsame : (rest x).left = meter.left - cost := by omega
    cases hrest : rest x with
    | mk left limit =>
      rw [hrest] at hsame hlimit
      exact congr_arg₂ Meter.mk hsame hlimit

/-- An order that agrees with the lexicographic order of two byte strings. -/
structure SameOrder (order : Ordering) (a b : Bytes) : Prop where
  lt : order = .lt ↔ a < b
  eq : order = .eq ↔ a = b
  gt : order = .gt ↔ b < a

theorem bytes_compare_agrees (a b : Bytes) : SameOrder (bytesCompare a b) a b :=
  ⟨bytes_compare_lt, bytes_compare_same, bytes_compare_gt⟩

/-- Byte or text strings compare lexicographically at the cost of the shorter one. -/
theorem compare_strings {kind : Kind} (hkind : kind = .bytes ∨ kind = .string) (a b : Bytes)
    (n : Instruction) {meter : Meter} (hwork : min a.length b.length ≤ meter.left) :
    ∃ order, SameOrder order a b ∧
      compareValues meter { kind := kind, data := a } { kind := kind, data := b } n =
        .ok (order, { meter with left := meter.left - min a.length b.length }) := by
  have hboth : (kind = .bytes ∧ kind = .bytes) ∨ (kind = .string ∧ kind = .string) := by
    simpa using hkind
  have hrun := compare_bytes_spec (a := { kind := kind, data := a })
    (b := { kind := kind, data := b }) hboth n meter
  obtain ⟨-, hok⟩ := spent_cases hrun
  obtain ⟨⟨order, left⟩, hresult, rfl, rfl⟩ := hok hwork
  exact ⟨bytesCompare a b, bytes_compare_agrees a b, hresult⟩

/-- Numbers compare as integers, at no cost. -/
theorem compare_numbers (x y : Int) (n : Instruction) (meter : Meter) :
    compareValues meter (signedValue x) (signedValue y) n = .ok (Ord.compare x y, meter) := by
  rw [← signed_order_eq]
  rfl

/-- `tag-range` holds of the tags between its bounds. -/
theorem tag_range_value (tag a b : Bytes) (root : Bool) :
    tagValue .range tag a b root =
      some { number := (decide (¬ tag < a ∧ ¬ b < tag) && root).toNat } := by
  have hlow : bytesCompare tag a ≠ .lt ↔ ¬ tag < a := not_congr bytes_compare_lt
  have hhigh : bytesCompare tag b ≠ .gt ↔ ¬ b < tag := not_congr bytes_compare_gt
  simp [tagValue, hlow, hhigh]

/-- The search of `contains` is exact within a linear budget and the slots of its pattern, and
the comparison of `tag-range` and the relational operators is the order of byte strings and of
signed integers. -/
theorem search_and_order_exact (p : Program) (n : Instruction) (x y : Nat)
    (values : Area Value) (a b : Value) (capacity : Nat) (event : TreeEvent)
    (hwalk : p.argumentWalk 2 n.left [] = .ok (some [x, y]))
    (hx : values.read x = some a) (hy : values.read y = some b)
    (ha : a.kind = .bytes) (hb : b.kind = .bytes) :
    (n.function = .contains → b.data.length ≤ capacity →
      ∃ cost ≤ 2 * (b.data.length + a.data.length),
        ∀ (table : Area Nat) (meter : Meter), b.data.length ≤ table.size →
          (meter.left < cost →
            ∃ d, functionEval p capacity event n values table meter = .error (.failed d)) ∧
          (cost ≤ meter.left → ∃ after : Area Nat,
            functionEval p capacity event n values table meter =
              .ok ({ kind := .bool, number := (decide (b.data <:+: a.data)).toNat }, after,
                { meter with left := meter.left - cost }) ∧
            after.size = table.size ∧
            ∀ k, b.data.length ≤ k → after.cell k = table.cell k)) ∧
    (n.function = .range →
      ∃ cost, ∀ (table : Area Nat) (meter : Meter), cost ≤ meter.left →
        functionEval p capacity event n values table meter =
          .ok ({ number := (decide (¬ event.element.tag < a.data ∧ ¬ b.data < event.element.tag) &&
            (n.anchor = 0 || event.depth = 0)).toNat }, table,
            { meter with left := meter.left - cost })) ∧
    (∀ kind, kind = .bytes ∨ kind = .string → ∀ (s t : Bytes) (meter : Meter),
      min s.length t.length ≤ meter.left → ∃ order, SameOrder order s t ∧
        compareValues meter { kind := kind, data := s } { kind := kind, data := t } n =
          .ok (order, { meter with left := meter.left - min s.length t.length })) ∧
    ∀ (u v : Int) (meter : Meter),
      compareValues meter (signedValue u) (signedValue v) n = .ok (Ord.compare u v, meter) := by
  refine ⟨fun hfunction hcapacity => ?_, fun hfunction => ?_,
    fun kind hkind s t meter hwork => compare_strings hkind s t n hwork,
    fun u v meter => compare_numbers u v n meter⟩
  · obtain ⟨cost, hcost, hrun⟩ := contains_value_spec capacity n a.data b.data
      (by rw [hfunction]; exact ⟨by decide, by decide⟩)
    refine ⟨cost, hcost, fun table meter hsize => ?_⟩
    have happly : functionEval p capacity event n values table meter =
        containsValue capacity meter n a.data b.data table := by
      rw [function_eval_two hwalk hx hy]
      simp [functionApply, hfunction, ha, hb]
    have hvalue : searchValue capacity n.function a.data b.data =
        some { kind := .bool, number := (decide (b.data <:+: a.data)).toNat } := by
      simp [searchValue, hfunction, hcapacity]
    rw [happly]
    have hmeets := hrun table meter (fun _ => hsize)
    rw [hvalue] at hmeets
    let good (x : Value × Area Nat × Meter) : Prop :=
      some { kind := .bool, number := (decide (b.data <:+: a.data)).toNat } = some x.1 ∧
        x.2.1.size = table.size ∧ ∀ k, b.data.length ≤ k → x.2.1.cell k = table.cell k
    have hcases : Meets (containsValue capacity meter n a.data b.data table)
        (Reports (meter.left < cost)) fun x => good x ∧ Spent cost meter x.2.2 :=
      hmeets.mono (fun stop hstop => hstop.mono (by simp))
        fun x hx => ⟨⟨hx.1, hx.2.1, hx.2.2.1⟩, hx.2.2.2⟩
    obtain ⟨hshort, hok⟩ := spent_cases hcases
    refine ⟨hshort, fun hwork => ?_⟩
    obtain ⟨⟨value, after, left⟩, hresult, ⟨hsame, hkept⟩, hleft⟩ := hok hwork
    obtain rfl := Option.some.inj hsame
    exact ⟨after, by rw [hresult, ← hleft], hkept⟩
  · obtain ⟨cost, hrun⟩ := tag_function_spec event n ha hb
    refine ⟨cost, fun table meter hwork => ?_⟩
    have happly : functionEval p capacity event n values table meter =
        (tagFunction meter event n a b >>= fun x => .ok (x.1, table, x.2)) := by
      rw [function_eval_two hwalk hx hy]
      simp [functionApply, hfunction, ha, hb]
      rfl
    have hmeets := hrun meter
    rw [hfunction, tag_range_value] at hmeets
    have hcases : Meets (tagFunction meter event n a b) (Reports (meter.left < cost)) fun x =>
        some { number := (decide (¬ event.element.tag < a.data ∧ ¬ b.data < event.element.tag) &&
          (n.anchor = 0 || event.depth = 0)).toNat } = some x.1 ∧ Spent cost meter x.2 :=
      hmeets.mono (fun stop hstop => hstop.mono (by simp)) fun x hx => hx
    obtain ⟨-, hok⟩ := spent_cases hcases
    obtain ⟨⟨value, left⟩, hresult, hsame, hleft⟩ := hok hwork
    obtain rfl := Option.some.inj hsame
    rw [happly, hresult, ← hleft]
    rfl

/-- A call of `contains` on the value and three octets. -/
def searchCall : Program :=
  { instructions :=
      [{ op := .call, type := .bytes }, { op := .bytes, type := .bytes, dataSize := 3 },
        { op := .args, left := some 0, right := some 1 },
        { op := .call, left := some 2, selector := 5, type := .bool }]
    root := 3
    text := []
    level := .s1
    variableCount := 0
    payload := [0x0A, 0x0A, 0x0B]
    patternCapacity := 3
    codecStride := 0
    tagId := 0 }

/-- The values of its arguments, the haystack and the pattern. -/
def searchValues : Area Value :=
  { size := 4
    cell := fun i =>
      if i = 0 then { kind := .bytes, data := [0x0A, 0x0A, 0x0A, 0x0B] }
      else { kind := .bytes, data := [0x0A, 0x0A, 0x0B] } }

theorem search_tag_fits : ([0x5A] : Bytes).length ≤ sizeMax := by decide

theorem search_value_fits : ([0x0A, 0x0A, 0x0A, 0x0B] : Bytes).length ≤ sizeMax := by decide

/-- An element with that value. -/
def searchEvent : TreeEvent :=
  { kind := .element
    element := ⟨[0x5A], [0x0A, 0x0A, 0x0A, 0x0B], search_tag_fits, search_value_fits⟩
    depth := 0 }

/-- The search finds a pattern behind a front part that only looks like it. -/
theorem search_and_order_exact_overlap :
    ∃ cost ≤ 14, ∀ (table : Area Nat) (meter : Meter), 3 ≤ table.size → cost ≤ meter.left →
      ∃ after : Area Nat,
        functionEval searchCall 3 searchEvent (searchCall.get 3) searchValues table meter =
          .ok ({ kind := .bool, number := 1 }, after,
            { meter with left := meter.left - cost }) := by
  obtain ⟨hcontains, -⟩ := search_and_order_exact searchCall (searchCall.get 3) 0 1 searchValues
    { kind := .bytes, data := [0x0A, 0x0A, 0x0A, 0x0B] }
    { kind := .bytes, data := [0x0A, 0x0A, 0x0B] } 3 searchEvent rfl rfl rfl rfl rfl
  obtain ⟨cost, hcost, hrun⟩ := hcontains rfl (by decide)
  refine ⟨cost, hcost, fun table meter hsize hwork => ?_⟩
  obtain ⟨after, hafter, -⟩ := (hrun table meter hsize).2 hwork
  exact ⟨after, hafter⟩

end OpenTlv.Query
