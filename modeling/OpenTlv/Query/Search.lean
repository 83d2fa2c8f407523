import OpenTlv.Lib.Dispatch
import OpenTlv.Query.Value

/-!
# Metered computations and the byte search

`Reports` admits the failures of the library and never an access out of range; `Spent` says
what a computation took from the work meter. The search of `contains` finds an occurrence
exactly when there is one, at a cost that only its operands decide.
-/

namespace OpenTlv.Query

open Border

/-- A failure that the library reports, under a condition. -/
def Reports (fails : Prop) (stop : Stop) : Prop :=
  (∃ d, stop = .failed d) ∧ fails

theorem Reports.mono {fails fails' : Prop} (h : fails → fails') (stop : Stop)
    (hstop : Reports fails stop) : Reports fails' stop :=
  ⟨hstop.1, h hstop.2⟩

/-- The meter after an expense. -/
def Spent (cost : Nat) (before after : Meter) : Prop :=
  after.left + cost = before.left ∧ after.limit = before.limit

theorem Spent.zero (meter : Meter) : Spent 0 meter meter :=
  ⟨rfl, rfl⟩

theorem Spent.trans {first second : Nat} {a b c : Meter} (hfirst : Spent first a b)
    (hsecond : Spent second b c) : Spent (first + second) a c := by
  obtain ⟨hleft, hlimit⟩ := hfirst
  obtain ⟨hleft', hlimit'⟩ := hsecond
  exact ⟨by omega, hlimit'.trans hlimit⟩

@[simp] theorem query_limit_meets {α : Type} {n : Instruction} {name : String} {configured : Nat}
    {fails : Prop} {good : α → Prop} :
    Meets (queryLimit n name configured : Run α) (Reports fails) good ↔ fails := by
  simp [queryLimit, Reports]

@[simp] theorem query_error_meets {α : Type} {n : Instruction} {status : Status}
    {kind : ErrorKind} {expected : String} {fails : Prop} {good : α → Prop} :
    Meets (queryError n status kind expected : Run α) (Reports fails) good ↔ fails := by
  simp [queryError, Reports]

theorem charge_spec (meter : Meter) (amount : Nat) (n : Instruction) :
    Meets (charge meter amount n) (Reports (meter.left < amount)) (Spent amount meter) := by
  unfold charge
  split
  · rename_i hgt
    exact query_limit_meets.mpr hgt
  · simp only [meets_ok, Spent, and_true]
    omega

/-- The fallbacks that the prefix table holds for the first `n` stretches. -/
def Tabled (pattern : Bytes) (table : Area Nat) (n : Nat) : Prop :=
  ∀ k, 0 < k → k ≤ n → Longest pattern (pattern.take k) k (table.cell (k - 1))

/-- The fallback loop finds the longest stretch of the longer text. Every turn but the last one
shortens the stretch, which pays for it. -/
theorem kmp_advance_spec {pattern text : Bytes} {octet : UInt8} {bound m : Nat}
    (hm : m < pattern.length) (hcandidate : Candidate pattern text octet bound m) :
    ∃ cost r, Longest pattern (text ++ [octet]) (bound + 1) r ∧ cost + r ≤ m + 2 ∧
      ∀ (table : Area Nat) (d : Diagnostic), pattern.length ≤ table.size →
        Tabled pattern table m → ∀ left,
          Meets (kmpAdvance (.error (.failed d)) pattern table octet left m)
            (Reports (left < cost)) fun x => x.1 = r ∧ x.2 + cost = left := by
  induction m using Nat.strong_induction_on with
  | _ m ih =>
    have hget : pattern[m]? = some pattern[m] := List.getElem?_eq_getElem hm
    by_cases hsame : octet = pattern[m]
    · refine ⟨1, m + 1, hcandidate.extend (by rw [hget, hsame]), by omega, ?_⟩
      intro table d _ _ left
      cases left with
      | zero => simp [kmpAdvance, Reports]
      | succ left => simp [kmpAdvance, hget, ← hsame]
    · have hother : pattern[m]? ≠ some octet := by
        rw [hget]
        simpa using fun h => hsame h.symm
      by_cases hzero : m = 0
      · subst hzero
        refine ⟨1, 0, hcandidate.exhaust hother, by omega, ?_⟩
        intro table d _ _ left
        cases left with
        | zero => simp [kmpAdvance, Reports]
        | succ left => simp [kmpAdvance, hget, hsame]
      · obtain ⟨border, hborder⟩ :=
          exists_longest pattern (pattern.take m) (Nat.pos_of_ne_zero hzero)
        have hlt := hborder.lt
        obtain ⟨cost, r, hlongest, hpaid, hrun⟩ :=
          ih border hlt (by omega) (hcandidate.fall hother hborder)
        refine ⟨cost + 1, r, hlongest, by omega, ?_⟩
        intro table d hsize htable left
        cases left with
        | zero => simp [kmpAdvance, Reports]
        | succ left =>
          have hcell : table.cell (m - 1) = border :=
            (htable m (by omega) (Nat.le_refl m)).unique hborder
          have hread : table.read (m - 1) = some border := by
            rw [Area.read_of_lt (by omega), hcell]
          simp only [kmpAdvance, hget, hsame, if_false, hzero, hread]
          refine (hrun table d hsize (fun k hk hle => htable k hk (by omega)) left).mono
            (fun e => Reports.mono (by omega) e) ?_
          rintro ⟨r', left'⟩ ⟨hr, hleft⟩
          exact ⟨hr, by dsimp only at hleft ⊢; omega⟩

/-- The table loop completes the table and leaves the slots behind it alone. -/
theorem kmp_table_spec {pattern rest : Bytes} {i m : Nat} (hrest : pattern.drop i = rest)
    (hm : Longest pattern (pattern.take i) i m) :
    ∃ cost ≤ m + 2 * rest.length,
      ∀ (table : Area Nat) (d : Diagnostic), pattern.length ≤ table.size →
        Tabled pattern table i → ∀ left,
          Meets (kmpTable (.error (.failed d)) pattern rest i table m left)
            (Reports (left < cost)) fun x => x.1.size = table.size ∧
              Tabled pattern x.1 pattern.length ∧
              (∀ k, pattern.length ≤ k → x.1.cell k = table.cell k) ∧ x.2 + cost = left := by
  induction rest generalizing i m with
  | nil =>
    have hlength : pattern.length ≤ i := List.drop_eq_nil_iff.mp hrest
    refine ⟨0, Nat.zero_le _, fun table d _ htable left => ?_⟩
    simp only [kmpTable, meets_ok]
    exact ⟨trivial, fun k hk hle => htable k hk (by omega), fun _ _ => trivial, rfl⟩
  | cons octet rest ih =>
    have hlt : i < pattern.length := by
      by_contra hge
      rw [List.drop_eq_nil_of_le (by omega)] at hrest
      cases hrest
    rw [List.drop_eq_getElem_cons hlt] at hrest
    obtain ⟨rfl, hrest'⟩ := List.cons.inj hrest
    have hmlt := hm.lt
    obtain ⟨cost, r, hlongest, hpaid, hrun⟩ :=
      kmp_advance_spec (by omega) (hm.candidate pattern[i])
    rw [← List.take_succ_eq_append_getElem hlt] at hlongest
    obtain ⟨cost', hcost', hrun'⟩ := ih hrest' hlongest
    refine ⟨cost + cost', by rw [List.length_cons]; omega,
      fun table d hsize htable left => ?_⟩
    have hnext : Tabled pattern (table.put i r) (i + 1) := by
      intro k hk hle
      rcases Nat.lt_or_ge k (i + 1) with hki | hki
      · rw [Area.put_cell_of_ne _ _ (by omega)]
        exact htable k hk (by omega)
      · obtain rfl : k = i + 1 := by omega
        simpa using hlongest
    have hfirst := hrun table d hsize (fun k hk hle => htable k hk (by omega)) left
    unfold kmpTable
    cases hstep : kmpAdvance (.error (.failed d)) pattern table pattern[i] left m with
    | error stop =>
      rw [hstep] at hfirst
      exact Reports.mono (by omega) stop hfirst
    | ok x =>
      rw [hstep] at hfirst
      obtain ⟨rfl, hleft⟩ := hfirst
      simp only [Area.write_of_lt x.1 (show i < table.size by omega)]
      refine (hrun' (table.put i x.1) d (by simpa using hsize) hnext x.2).mono
        (fun e => Reports.mono (by omega) e) ?_
      rintro y ⟨hsize', htable', hkept, hleft'⟩
      refine ⟨hsize', htable', fun k hk => ?_, by omega⟩
      rw [hkept k hk, Area.put_cell_of_ne _ _ (by omega)]

/-- The scan decides whether the pattern occurs. -/
theorem kmp_scan_spec {pattern text : Bytes} (rest : Bytes) {m : Nat}
    (hm : Longest pattern text pattern.length m)
    (hnone : ∀ i, ¬ Ends pattern (text.take i) pattern.length) :
    ∃ cost ≤ m + 2 * rest.length,
      ∀ (table : Area Nat) (d : Diagnostic), pattern.length ≤ table.size →
      Tabled pattern table pattern.length → ∀ left,
        Meets (kmpScan (.error (.failed d)) pattern table rest m left) (Reports (left < cost))
          fun x => x.1 = decide (pattern <:+: text ++ rest) ∧ x.2 + cost = left := by
  induction rest generalizing text m with
  | nil =>
    refine ⟨0, Nat.zero_le _, fun table d _ _ left => ?_⟩
    have habsent : ¬ pattern <:+: text := by
      rw [infix_iff_ends]
      rintro ⟨i, hi⟩
      exact hnone i hi
    simp [kmpScan, habsent]
  | cons octet rest ih =>
    obtain ⟨cost, r, hlongest, hpaid, hrun⟩ :=
      kmp_advance_spec hm.lt (hm.candidate octet)
    have hbelow : ∀ table : Area Nat, Tabled pattern table pattern.length →
        Tabled pattern table m := fun table htable k hk hle =>
      htable k hk (by have := hm.lt; omega)
    by_cases hfound : r = pattern.length
    · -- all of the pattern ends the text read so far
      refine ⟨cost, by rw [List.length_cons]; omega, fun table d hsize htable left => ?_⟩
      have hfirst := hrun table d hsize (hbelow table htable) left
      unfold kmpScan
      cases hstep : kmpAdvance (.error (.failed d)) pattern table octet left m with
      | error stop =>
        rw [hstep] at hfirst
        exact hfirst
      | ok x =>
        rw [hstep] at hfirst
        obtain ⟨rfl, hleft⟩ := hfirst
        have hinfix : pattern <:+: text ++ octet :: rest := by
          rw [infix_iff_ends]
          refine ⟨text.length + 1, ?_⟩
          have htake : (text ++ octet :: rest).take (text.length + 1) = text ++ [octet] := by
            simp [List.take_append]
          rw [htake, ← hfound]
          exact hlongest.ends
        simp [hfound, hinfix, hleft]
    · have hrlt : r < pattern.length := by have := hlongest.lt; omega
      have hnone' : ∀ i, ¬ Ends pattern ((text ++ [octet]).take i) pattern.length := by
        intro i hi
        rcases Nat.lt_or_ge i (text ++ [octet]).length with hlt | hge
        · rw [List.take_append_of_le_length (by simp at hlt; omega)] at hi
          exact hnone i hi
        · rw [List.take_of_length_le hge] at hi
          have := hlongest.le_of_ends _ hi (by omega)
          omega
      obtain ⟨cost', hcost', hrun'⟩ := @ih (text ++ [octet]) r
        ⟨hlongest.ends, hrlt, fun j hj hlt => hlongest.le_of_ends j hj (by omega)⟩ hnone'
      refine ⟨cost + cost', by rw [List.length_cons]; omega,
        fun table d hsize htable left => ?_⟩
      have hfirst := hrun table d hsize (hbelow table htable) left
      unfold kmpScan
      cases hstep : kmpAdvance (.error (.failed d)) pattern table octet left m with
      | error stop =>
        rw [hstep] at hfirst
        exact Reports.mono (by omega) stop hfirst
      | ok x =>
        rw [hstep] at hfirst
        obtain ⟨rfl, hleft⟩ := hfirst
        simp only [hfound, if_false]
        refine (hrun' table d hsize htable x.2).mono (fun e => Reports.mono (by omega) e) ?_
        rintro y ⟨hy, hleft'⟩
        exact ⟨by simpa using hy, by omega⟩

/-- The search of `contains` works in the slots below the length of the pattern, at a cost that
is linear in its operands. -/
theorem kmp_search_spec {haystack pattern : Bytes} (hpattern : pattern ≠ []) (n : Instruction) :
    ∃ cost ≤ 2 * (pattern.length + haystack.length),
      ∀ table meter, pattern.length ≤ table.size →
        Meets (kmpSearch meter n haystack pattern table) (Reports (meter.left < cost))
          fun x => x.1 = decide (pattern <:+: haystack) ∧ x.2.1.size = table.size ∧
            (∀ k, pattern.length ≤ k → x.2.1.cell k = table.cell k) ∧
            Spent cost meter x.2.2 := by
  have hpos : 0 < pattern.length := List.length_pos_iff.mpr hpattern
  have hfirst : Longest pattern (pattern.take 1) 1 0 :=
    ⟨ends_zero _ _, by omega, fun j _ hj => by omega⟩
  have hstart : Longest pattern [] pattern.length 0 := by
    refine ⟨ends_zero _ _, hpos, fun j hj _ => ?_⟩
    have hlength := List.IsSuffix.length_le hj.2
    have := hj.1
    simp only [List.length_take, List.length_nil] at hlength
    omega
  have hnone : ∀ i, ¬ Ends pattern (([] : Bytes).take i) pattern.length := by
    intro i hi
    have hlength := List.IsSuffix.length_le hi.2
    simp only [List.take_nil, List.length_take, List.length_nil] at hlength
    omega
  obtain ⟨cost, hcost, hbuild⟩ := kmp_table_spec rfl hfirst
  obtain ⟨cost', hcost', hscan⟩ := kmp_scan_spec haystack hstart hnone
  rw [List.length_drop] at hcost
  refine ⟨cost + cost', by omega, fun table meter htable => ?_⟩
  have hbase : Tabled pattern (table.put 0 0) 1 := by
    intro k hk hle
    obtain rfl : k = 1 := by omega
    simpa using hfirst
  unfold kmpSearch
  rw [Area.write_of_lt 0 (by omega : 0 < table.size)]
  show Meets (kmpTable _ pattern (pattern.drop 1) 1 (table.put 0 0) 0 meter.left >>= _) _ _
  refine (hbuild (table.put 0 0) _ (by simp; omega) hbase meter.left).bind
    (fun e => Reports.mono (by omega) e) ?_
  rintro ⟨table', left⟩ ⟨hsize, htabled, hkept, hleft⟩
  dsimp only at hsize htabled hkept hleft ⊢
  refine (hscan table' _ (by rw [hsize]; simp; omega) htabled left).bind
    (fun e => Reports.mono (by omega) e) ?_
  rintro ⟨found, left'⟩ ⟨hfound, hleft'⟩
  dsimp only at hfound hleft' ⊢
  refine ⟨by simpa using hfound, by rw [hsize]; rfl, fun k hk => ?_, by dsimp only; omega, rfl⟩
  show table'.cell k = table.cell k
  rw [hkept k hk, Area.put_cell_of_ne _ _ (by omega)]

end OpenTlv.Query
