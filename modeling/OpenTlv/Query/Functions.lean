import OpenTlv.Query.Denotation
import OpenTlv.Query.Search

/-!
# What the functions compute

`functionValue` is `functionApply` without its work and its search table: a plain function of
the event and the evaluated arguments. `function_apply_spec` says that the metered computation
has that value, at a cost that only its arguments decide. `function_value_denotes` relates it to
the functions of the language.
-/

namespace OpenTlv.Query

/-- A length as a value. -/
def lengthValue (length : Nat) : Option Value :=
  if length > int64Max then none else some { kind := .number, number := length }

/-- `substr` as a value. -/
def substringValue (a b : Value) (c : Option Value) : Option Value :=
  if b.negative || c.any (·.negative) then none
  else
    let rest := a.data.drop (min b.number a.data.length)
    some { a with data := rest.take (c.elim rest.length (min rest.length ·.number)) }

/-- `tag-mask` and `tag-range` on the tag of an event. -/
def tagValue (function : Fn) (tag a b : Bytes) (root : Bool) : Option Value :=
  if function = .mask then
    if a.length ≠ b.length then none
    else if a.length ≠ tag.length then some {}
    else some { number := (maskTest tag a b && root).toNat }
  else some { number := ((bytesCompare tag a ≠ .lt && bytesCompare tag b ≠ .gt) && root).toNat }

/-- `starts-with`, `ends-with` and `contains`. -/
def searchValue (capacity : Nat) (function : Fn) (a b : Bytes) : Option Value :=
  match function with
  | .starts => some { kind := .bool, number := (decide (b <+: a)).toNat }
  | .ends => some { kind := .bool, number := (decide (b <:+ a)).toNat }
  | _ =>
    if b.length > capacity then none
    else some { kind := .bool, number := (decide (b <:+: a)).toNat }

/-- What `functionApply` computes. -/
def functionValue (capacity : Nat) (event : TreeEvent) (n : Instruction)
    (arguments : List Value) : Option Value :=
  match n.function, arguments with
  | .value, [] => some { kind := .bytes, data := event.element.value }
  | .len, [] => lengthValue event.element.value.length
  | .len, [a] => if a.kind = .bytes ∨ a.kind = .string then lengthValue a.data.length else none
  | .not, [a] =>
    if a.kind = .bool ∨ a.kind = .node then some { kind := .bool, number := (!a.truth).toNat }
    else none
  | .substr, [a, b] =>
    if a.kind = .bytes ∧ b.kind = .number then substringValue a b none else none
  | .substr, [a, b, c] =>
    if a.kind = .bytes ∧ b.kind = .number ∧ c.kind = .number then substringValue a b (some c)
    else none
  | .value, _ | .len, _ | .not, _ | .substr, _ => none
  | function, [a, b] =>
    if a.kind ≠ .bytes ∨ b.kind ≠ .bytes then none
    else if function = .mask ∨ function = .range then
      tagValue function event.element.tag a.data b.data (n.anchor = 0 || event.depth = 0)
    else searchValue capacity function a.data b.data
  | _, _ => none

/-- A comparison of byte or text strings costs the shorter length. -/
theorem compare_bytes_spec {a b : Value}
    (hkind : (a.kind = .bytes ∧ b.kind = .bytes) ∨ (a.kind = .string ∧ b.kind = .string))
    (n : Instruction) (meter : Meter) :
    Meets (compareValues meter a b n) (Reports (meter.left < min a.data.length b.data.length))
      fun x => x.1 = bytesCompare a.data b.data ∧
        Spent (min a.data.length b.data.length) meter x.2 := by
  have hcharge := charge_spec meter (min a.data.length b.data.length) n
  unfold compareValues
  rw [if_pos hkind]
  cases hstep : charge meter (min a.data.length b.data.length) n with
  | error stop =>
    rw [hstep] at hcharge
    exact hcharge
  | ok meter' =>
    rw [hstep] at hcharge
    exact ⟨rfl, hcharge⟩

theorem tag_function_spec (event : TreeEvent) (n : Instruction) {a b : Value}
    (ha : a.kind = .bytes) (hb : b.kind = .bytes) :
    ∃ cost, ∀ meter, Meets (tagFunction meter event n a b)
      (Reports (meter.left < cost ∨ tagValue n.function event.element.tag a.data b.data
        (n.anchor = 0 || event.depth = 0) = none)) fun x =>
        tagValue n.function event.element.tag a.data b.data
          (n.anchor = 0 || event.depth = 0) = some x.1 ∧ Spent cost meter x.2 := by
  unfold tagFunction tagValue
  dsimp only
  by_cases hmask : n.function = .mask
  · simp only [if_pos hmask]
    by_cases hwidth : a.data.length = b.data.length
    · simp only [if_neg (not_not.mpr hwidth)]
      by_cases hlength : a.data.length = event.element.tag.length
      · simp only [if_neg (not_not.mpr hlength)]
        refine ⟨a.data.length, fun meter => ?_⟩
        refine (charge_spec meter a.data.length n).bind
          (fun e => Reports.mono Or.inl e) fun meter' hspent => ?_
        exact ⟨rfl, hspent⟩
      · simp only [if_pos hlength]
        exact ⟨0, fun meter => ⟨rfl, Spent.zero meter⟩⟩
    · simp only [if_pos hwidth]
      exact ⟨0, fun meter => query_error_meets.mpr (.inr trivial)⟩
  · simp only [if_neg hmask]
    let tag : Value := { kind := .bytes, data := event.element.tag }
    refine ⟨min tag.data.length a.data.length + min tag.data.length b.data.length,
      fun meter => ?_⟩
    refine (compare_bytes_spec (a := tag) (.inl ⟨rfl, ha⟩) n meter).bind
      (fun e => Reports.mono (by omega) e) ?_
    rintro ⟨low, meter'⟩ ⟨rfl, hspent⟩
    refine (compare_bytes_spec (a := tag) (.inl ⟨rfl, hb⟩) n meter').bind
      (fun e => Reports.mono (by have := hspent.1; dsimp only at this; omega) e) ?_
    rintro ⟨high, meter''⟩ ⟨rfl, hspent'⟩
    exact ⟨rfl, hspent.trans hspent'⟩

/-- `starts-with` and `ends-with` cost the length of a pattern that fits. -/
theorem affix_value_spec (capacity : Nat) (n : Instruction) (a b : Bytes)
    (hfunction : n.function = .starts ∨ n.function = .ends) :
    ∃ cost, ∀ meter, Meets (affixValue meter n a b) (Reports (meter.left < cost)) fun x =>
      searchValue capacity n.function a b = some x.1 ∧ Spent cost meter x.2 := by
  unfold affixValue
  by_cases hlonger : b.length > a.length
  · refine ⟨0, fun meter => ?_⟩
    rw [if_pos hlonger]
    have hprefix : ¬ b <+: a := fun h => absurd h.length_le (by omega)
    have hsuffix : ¬ b <:+ a := fun h => absurd h.length_le (by omega)
    refine ⟨?_, Spent.zero meter⟩
    rcases hfunction with h | h <;> simp [searchValue, h, hprefix, hsuffix]
  · refine ⟨b.length, fun meter => ?_⟩
    rw [if_neg hlonger]
    refine (charge_spec meter b.length n).bind (fun e he => he) fun meter' hspent => ?_
    refine ⟨?_, hspent⟩
    rcases hfunction with h | h
    · have hsame : decide (b <+: a) = (a.take b.length == b) := by
        rw [Bool.eq_iff_iff, beq_iff_eq, decide_eq_true_iff, List.prefix_iff_eq_take, eq_comm]
      simp [searchValue, h, hsame]
    · have hsame : decide (b <:+ a) = ((a.drop (a.length - b.length)).take b.length == b) := by
        rw [Bool.eq_iff_iff, beq_iff_eq, decide_eq_true_iff, List.suffix_iff_eq_drop,
          List.take_of_length_le (by simp; omega), eq_comm]
      simp [searchValue, h, hsame]

theorem contains_value_spec (capacity : Nat) (n : Instruction) (a b : Bytes)
    (hfunction : n.function ≠ .starts ∧ n.function ≠ .ends) :
    ∃ cost ≤ 2 * (b.length + a.length),
      ∀ table meter, (b.length ≤ capacity → b.length ≤ table.size) →
        Meets (containsValue capacity meter n a b table)
          (Reports (meter.left < cost ∨ searchValue capacity n.function a b = none)) fun x =>
            searchValue capacity n.function a b = some x.1 ∧ x.2.1.size = table.size ∧
              (∀ k, b.length ≤ k → x.2.1.cell k = table.cell k) ∧ Spent cost meter x.2.2 := by
  have hsearch : searchValue capacity n.function a b =
      if b.length > capacity then none
      else some { kind := .bool, number := (decide (b <:+: a)).toNat } := by
    cases hcase : n.function <;> simp_all [searchValue]
  rw [hsearch]
  unfold containsValue
  by_cases hcapacity : b.length > capacity
  · simp only [if_pos hcapacity]
    exact ⟨0, Nat.zero_le _, fun table meter _ => query_limit_meets.mpr (.inr trivial)⟩
  · simp only [if_neg hcapacity]
    by_cases hlonger : b.length > a.length
    · simp only [if_pos hlonger]
      have habsent : ¬ b <:+: a := fun h => absurd h.length_le (by omega)
      exact ⟨0, Nat.zero_le _, fun table meter _ =>
        ⟨by simp [habsent], rfl, fun _ _ => rfl, Spent.zero meter⟩⟩
    · simp only [if_neg hlonger]
      by_cases hempty : b.length = 0
      · simp only [if_pos hempty]
        obtain rfl : b = [] := List.length_eq_zero_iff.mp hempty
        exact ⟨0, Nat.zero_le _, fun table meter _ =>
          ⟨by simp, rfl, fun _ _ => rfl, Spent.zero meter⟩⟩
      · simp only [if_neg hempty]
        obtain ⟨cost, hcost, hrun⟩ := @kmp_search_spec a b
          (by rintro rfl; exact hempty rfl) n
        refine ⟨cost, hcost, fun table meter hsize => ?_⟩
        refine (hrun table meter (hsize (by omega))).bind (fun e => Reports.mono Or.inl e) ?_
        rintro ⟨found, table', meter'⟩ ⟨rfl, hrest⟩
        exact ⟨rfl, hrest⟩

theorem len_value_spec (n : Instruction) (length : Nat) :
    Meets (lenValue n length) (Reports (lengthValue length = none)) fun v =>
      lengthValue length = some v := by
  unfold lenValue lengthValue
  split
  · exact query_error_meets.mpr rfl
  · exact rfl

theorem substr_value_spec (n : Instruction) (a b : Value) (c : Option Value) :
    Meets (substrValue n a b c) (Reports (substringValue a b c = none)) fun v =>
      substringValue a b c = some v := by
  unfold substrValue substringValue
  split
  · exact query_error_meets.mpr rfl
  · exact rfl

/-- Two byte strings reach the function that the instruction names. -/
theorem function_apply_bytes (capacity : Nat) (event : TreeEvent) (n : Instruction)
    (hfunction : n.function ≠ .value ∧ n.function ≠ .len ∧ n.function ≠ .not ∧
      n.function ≠ .substr) {a b : Value} (ha : a.kind = .bytes) (hb : b.kind = .bytes)
    (table : Area Nat) (meter : Meter) :
    functionApply capacity event n [a, b] table meter =
      if n.function = .mask ∨ n.function = .range then do
        let (value, meter) ← tagFunction meter event n a b
        return (value, table, meter)
      else if n.function = .starts ∨ n.function = .ends then do
        let (value, meter) ← affixValue meter n a.data b.data
        return (value, table, meter)
      else containsValue capacity meter n a.data b.data table := by
  obtain ⟨hvalue, hlen, hnot, hsubstr⟩ := hfunction
  unfold functionApply
  dsimp only
  split <;> simp_all

/-- The functions of two byte strings. -/
theorem bytes_function_spec (capacity : Nat) (event : TreeEvent) (n : Instruction)
    (arguments : List Value)
    (hfunction : n.function ≠ .value ∧ n.function ≠ .len ∧ n.function ≠ .not ∧
      n.function ≠ .substr) :
    ∃ cost, ∀ table meter, table.size = capacity →
      Meets (functionApply capacity event n arguments table meter)
        (Reports (meter.left < cost ∨ functionValue capacity event n arguments = none)) fun x =>
          functionValue capacity event n arguments = some x.1 ∧ x.2.1.size = capacity ∧
            Spent cost meter x.2.2 := by
  obtain ⟨hvalue, hlen, hnot, hsubstr⟩ := hfunction
  by_cases hshape : ∃ a b, arguments = [a, b] ∧ a.kind = .bytes ∧ b.kind = .bytes
  · obtain ⟨a, b, rfl, ha, hb⟩ := hshape
    have hmeaning : functionValue capacity event n [a, b] =
        if n.function = .mask ∨ n.function = .range then
          tagValue n.function event.element.tag a.data b.data (n.anchor = 0 || event.depth = 0)
        else searchValue capacity n.function a.data b.data := by
      unfold functionValue
      split <;> simp_all
    simp only [hmeaning, function_apply_bytes capacity event n ⟨hvalue, hlen, hnot, hsubstr⟩ ha hb]
    by_cases htag : n.function = .mask ∨ n.function = .range
    · simp only [if_pos htag]
      obtain ⟨cost, hrun⟩ := tag_function_spec event n ha hb
      refine ⟨cost, fun table meter hsize => ?_⟩
      refine (hrun meter).bind (fun e he => he) ?_
      rintro ⟨value, meter'⟩ ⟨hv, hspent⟩
      exact ⟨hv, hsize, hspent⟩
    · simp only [if_neg htag]
      by_cases haffix : n.function = .starts ∨ n.function = .ends
      · simp only [if_pos haffix]
        obtain ⟨cost, hrun⟩ := affix_value_spec capacity n a.data b.data haffix
        refine ⟨cost, fun table meter hsize => ?_⟩
        refine (hrun meter).bind (fun e => Reports.mono Or.inl e) ?_
        rintro ⟨value, meter'⟩ ⟨hv, hspent⟩
        exact ⟨hv, hsize, hspent⟩
      · simp only [if_neg haffix]
        obtain ⟨cost, -, hrun⟩ := contains_value_spec capacity n a.data b.data (not_or.mp haffix)
        refine ⟨cost, fun table meter hsize => ?_⟩
        refine (hrun table meter (fun hle => by omega)).mono (fun _ he => he) ?_
        rintro x ⟨hvalue, hsize', -, hspent⟩
        exact ⟨hvalue, by omega, hspent⟩
  · have hmeaning : functionValue capacity event n arguments = none := by
      unfold functionValue
      split <;> simp_all
    have happly : ∀ table meter,
        functionApply capacity event n arguments table meter = arityError n := by
      intro table meter
      unfold functionApply
      dsimp only
      have hbad : arguments.length ≠ 2 ∨ (arguments.getD 0 {}).kind ≠ .bytes ∨
          (arguments.getD 1 {}).kind ≠ .bytes := by
        by_contra hcontra
        simp only [not_or, not_not] at hcontra
        obtain ⟨hlength, ha, hb⟩ := hcontra
        obtain ⟨a, b, rfl⟩ := List.length_eq_two.mp hlength
        exact hshape ⟨a, b, rfl, ha, hb⟩
      split <;> simp_all
    simp only [hmeaning, happly]
    exact ⟨0, fun table meter _ => query_error_meets.mpr (.inr trivial)⟩

/-- The functions have the value `functionValue`, at a cost that their arguments decide. -/
theorem function_apply_spec (capacity : Nat) (event : TreeEvent) (n : Instruction)
    (arguments : List Value) :
    ∃ cost, ∀ table meter, table.size = capacity →
      Meets (functionApply capacity event n arguments table meter)
        (Reports (meter.left < cost ∨ functionValue capacity event n arguments = none)) fun x =>
          functionValue capacity event n arguments = some x.1 ∧ x.2.1.size = capacity ∧
            Spent cost meter x.2.2 := by
  by_cases hvalue : n.function = .value
  · refine ⟨0, fun table meter hsize => ?_⟩
    cases arguments with
    | nil =>
      simp only [functionApply, functionValue, hvalue]
      exact ⟨rfl, hsize, Spent.zero meter⟩
    | cons a rest =>
      simp [functionApply, functionValue, hvalue, arityError]
  by_cases hlen : n.function = .len
  · refine ⟨0, fun table meter hsize => ?_⟩
    simp only [functionApply, hlen]
    rcases arguments with _ | ⟨a, _ | ⟨b, rest⟩⟩
    · simp only [functionValue, hlen]
      refine (len_value_spec n _).bind (fun e => Reports.mono Or.inr e) fun v hv => ?_
      exact ⟨hv, hsize, Spent.zero meter⟩
    · by_cases hkind : a.kind = .bytes ∨ a.kind = .string
      · have hok : ¬ (¬ a.kind = .bytes ∧ ¬ a.kind = .string) := by tauto
        simp only [functionValue, hlen, if_pos hkind]
        simp [hok]
        refine (len_value_spec n _).bind (fun e he => he) fun v hv => ?_
        exact ⟨hv, hsize, Spent.zero meter⟩
      · have hbad : ¬ a.kind = .bytes ∧ ¬ a.kind = .string := by tauto
        simp [functionValue, hlen, hbad, arityError]
    · simp [functionValue, hlen, arityError]
  by_cases hnot : n.function = .not
  · refine ⟨0, fun table meter hsize => ?_⟩
    simp only [functionApply, hnot]
    rcases arguments with _ | ⟨a, _ | ⟨b, rest⟩⟩
    · simp [functionValue, hnot, arityError]
    · by_cases hkind : a.kind = .bool ∨ a.kind = .node
      · have hok : ¬ (¬ a.kind = .bool ∧ ¬ a.kind = .node) := by tauto
        simp [functionValue, hnot, hkind, hok, hsize, Spent.zero]
      · have hbad : ¬ a.kind = .bool ∧ ¬ a.kind = .node := by tauto
        simp [functionValue, hnot, hbad, arityError]
    · simp [functionValue, hnot, arityError]
  by_cases hsubstr : n.function = .substr
  · refine ⟨0, fun table meter hsize => ?_⟩
    simp only [functionApply, hsubstr]
    rcases arguments with _ | ⟨a, _ | ⟨b, _ | ⟨c, _ | ⟨d, rest⟩⟩⟩⟩
    · simp [functionValue, hsubstr, arityError]
    · simp [functionValue, hsubstr, arityError]
    · by_cases hkind : a.kind = .bytes ∧ b.kind = .number
      · simp only [functionValue, hsubstr, if_pos hkind]
        simp [hkind.1, hkind.2]
        refine (substr_value_spec n a b none).bind (fun e he => he) fun v hv => ?_
        exact ⟨hv, hsize, Spent.zero meter⟩
      · have hbad : ¬ a.kind = .bytes ∨ ¬ b.kind = .number := by tauto
        simp [functionValue, hsubstr, hkind, hbad, arityError]
    · by_cases hkind : a.kind = .bytes ∧ b.kind = .number ∧ c.kind = .number
      · simp only [functionValue, hsubstr, if_pos hkind]
        simp [hkind.1, hkind.2.1, hkind.2.2]
        refine (substr_value_spec n a b (some c)).bind (fun e he => he) fun v hv => ?_
        exact ⟨hv, hsize, Spent.zero meter⟩
      · have hbad : ¬ a.kind = .bytes ∨ ¬ b.kind = .number ∨ ¬ c.kind = .number := by tauto
        simp [functionValue, hsubstr, hkind, hbad, arityError]
    · simp [functionValue, hsubstr, arityError]
  exact bytes_function_spec capacity event n arguments ⟨hvalue, hlen, hnot, hsubstr⟩

theorem read_arguments_eq {values : Area Value} {arguments : List Nat}
    (h : ∀ a ∈ arguments, a < values.size) :
    readArguments values arguments = .ok (arguments.map values.cell) := by
  unfold readArguments
  induction arguments with
  | nil => rfl
  | cons a rest ih =>
    rw [List.forall_mem_cons] at h
    rw [List.mapM_cons, ih h.2, Area.read_of_lt h.1]
    rfl

/-- `query_function_eval` reads its arguments and applies the function. -/
theorem function_eval_spec {p : Program} {n : Instruction} {slots : List Nat}
    (hwalk : p.argumentWalk 2 n.left [] = .ok (some slots)) (capacity : Nat) (event : TreeEvent)
    (arguments : List Value) :
    ∃ cost, ∀ values table meter, table.size = capacity → (∀ a ∈ slots, a < values.size) →
      slots.map values.cell = arguments →
      Meets (functionEval p capacity event n values table meter)
        (Reports (meter.left < cost ∨ functionValue capacity event n arguments = none)) fun x =>
          functionValue capacity event n arguments = some x.1 ∧ x.2.1.size = capacity ∧
            Spent cost meter x.2.2 := by
  obtain ⟨cost, hrun⟩ := function_apply_spec capacity event n arguments
  refine ⟨cost, fun values table meter hsize hslots hvalues => ?_⟩
  unfold functionEval
  rw [hwalk]
  show Meets (readArguments values slots >>= _) _ _
  rw [read_arguments_eq hslots, hvalues]
  exact hrun table meter hsize

end OpenTlv.Query
