import Mathlib.Tactic

/-!
# Fallible computations and dispatch loops

`Meets` is the postcondition of a computation that may fail: which failures are admitted and
what holds of a result. `drive` runs a step function until its state halts, with a bound on the
number of steps. `Settles` is the rule for such loops: with a measure that every step lowers, a
run from a state ends in an admitted failure or comes to a good state, whatever follows it, and
the bound is never reached.
-/

namespace OpenTlv

section Meets

variable {ε α β : Type}

/-- A computation fails only as admitted, or has a good result. -/
def Meets (run : Except ε α) (bad : ε → Prop) (good : α → Prop) : Prop :=
  match run with
  | .error e => bad e
  | .ok x => good x

variable {bad bad' : ε → Prop} {good : α → Prop}

@[simp] theorem meets_ok {x : α} : Meets (.ok x) bad good ↔ good x := Iff.rfl

@[simp] theorem meets_pure {x : α} : Meets (pure x : Except ε α) bad good ↔ good x := Iff.rfl

@[simp] theorem meets_error {e : ε} : Meets (.error e) bad good ↔ bad e := Iff.rfl

/-- Sequencing: the continuation starts from any good result. -/
theorem Meets.bind {run : Except ε α} {next : α → Except ε β} {good' : β → Prop}
    (hrun : Meets run bad good) (hbad : ∀ e, bad e → bad' e)
    (hnext : ∀ x, good x → Meets (next x) bad' good') : Meets (run >>= next) bad' good' := by
  cases run with
  | error e => exact hbad e hrun
  | ok x => exact hnext x hrun

/-- Consequence. -/
theorem Meets.mono {run : Except ε α} {good' : α → Prop} (hrun : Meets run bad good)
    (hbad : ∀ e, bad e → bad' e) (hgood : ∀ x, good x → good' x) : Meets run bad' good' := by
  cases run with
  | error e => exact hbad e hrun
  | ok x => exact hgood x hrun

/-- What every turn of a loop keeps holds at its end. -/
theorem Meets.foldlM {ι : Type} {body : α → ι → Except ε α} {first : α} (good : α → Prop)
    (l : List ι)
    (hfirst : good first) (hbody : ∀ x, good x → ∀ i ∈ l, Meets (body x i) bad good) :
    Meets (l.foldlM body first) bad good := by
  induction l generalizing first with
  | nil => exact hfirst
  | cons i rest ih =>
    rw [List.foldlM_cons]
    refine (hbody first hfirst i List.mem_cons_self).bind (fun _ h => h) fun next hnext => ?_
    exact ih hnext fun x hx j hj => hbody x hx j (List.mem_cons_of_mem _ hj)

/-- A list of computations fails only as one of them does. -/
theorem Meets.mapM {f : β → Except ε α} (l : List β)
    (hf : ∀ x ∈ l, Meets (f x) bad fun _ => True) : Meets (l.mapM f) bad fun _ => True := by
  induction l with
  | nil => exact trivial
  | cons x rest ih =>
    rw [List.mapM_cons]
    refine (hf x List.mem_cons_self).bind (fun _ h => h) fun y _ => ?_
    refine (ih fun z hz => hf z (List.mem_cons_of_mem _ hz)).bind (fun _ h => h) fun ys _ => ?_
    exact trivial

/-- A list of computations succeeds when each of them does. -/
theorem mapM_eq_some_iff {f : α → Option β} {l : List α} {results : List β} :
    l.mapM f = some results ↔ l.map f = results.map some := by
  induction l generalizing results with
  | nil => cases results <;> simp
  | cons x rest ih =>
    rw [List.mapM_cons]
    cases results with
    | nil => cases f x <;> cases rest.mapM f <;> simp
    | cons y more =>
      rw [List.map_cons, List.map_cons, List.cons.injEq, ← ih]
      cases f x <;> cases rest.mapM f <;> simp

/-- A property of every result, along the list. -/
theorem map_of_map_some {γ : Type} {f : α → Option β} {l : List α} {results : List β}
    (h : l.map f = results.map some) {g : β → γ} {k : α → γ}
    (hk : ∀ x ∈ l, ∀ y, f x = some y → g y = k x) : results.map g = l.map k := by
  induction l generalizing results with
  | nil =>
    cases results with
    | nil => rfl
    | cons y more => simp at h
  | cons x rest ih =>
    cases results with
    | nil => simp at h
    | cons y more =>
      rw [List.map_cons, List.map_cons, List.cons.injEq] at h
      rw [List.forall_mem_cons] at hk
      rw [List.map_cons, List.map_cons, hk.1 y h.1, ih h.2 hk.2]

/-- A list of computations in two steps. -/
theorem map_bind_some {γ : Type} {f : α → Option β} {g : β → Option γ} {l : List α}
    {results : List γ} (h : (l.map fun x => (f x).bind g) = results.map some) :
    ∃ middle : List β, l.map f = middle.map some ∧ middle.map g = results.map some := by
  induction l generalizing results with
  | nil => exact ⟨[], rfl, by simpa using h⟩
  | cons x rest ih =>
    cases results with
    | nil => simp at h
    | cons z more =>
      rw [List.map_cons, List.map_cons, List.cons.injEq] at h
      obtain ⟨y, hy, hz⟩ := Option.bind_eq_some_iff.mp h.1
      obtain ⟨middle, hfirst, hsecond⟩ := ih h.2
      exact ⟨y :: middle, by simp [hy, hfirst], by simp [hz, hsecond]⟩

end Meets

section Drive

variable {σ ε : Type}

/-- Step until the state halts, at most `fuel` times. -/
def drive (stuck : ε) (halted : σ → Bool) (step : σ → Except ε σ) : Nat → σ → Except ε σ
  | 0, x => if halted x then .ok x else .error stuck
  | fuel + 1, x => if halted x then .ok x else step x >>= drive stuck halted step fuel

variable (stuck : ε) (halted : σ → Bool) (step : σ → Except ε σ) (rank : σ → Nat)

/-- A run from `x` ends in an admitted failure or goes on from a good state. -/
def Settles (x : σ) (bad : ε → Prop) (good : σ → Prop) : Prop :=
  ∀ fuel, rank x < fuel →
    (∃ e, drive stuck halted step fuel x = .error e ∧ bad e) ∨
      ∃ y fuel', rank y < fuel' ∧ good y ∧
        drive stuck halted step fuel x = drive stuck halted step fuel' y

variable {stuck halted step rank} {x : σ} {bad bad' : ε → Prop} {good good' : σ → Prop}

/-- A state that is good has settled. -/
theorem Settles.refl (hgood : good x) : Settles stuck halted step rank x bad good :=
  fun fuel hfuel => .inr ⟨x, fuel, hfuel, hgood, rfl⟩

/-- One step, after which the rank is lower. -/
theorem Settles.advance (hlive : halted x = false)
    (hstep : Meets (step x) bad fun y =>
      rank y < rank x ∧ Settles stuck halted step rank y bad good) :
    Settles stuck halted step rank x bad good := by
  intro fuel hfuel
  obtain ⟨fuel, rfl⟩ : ∃ k, fuel = k + 1 := ⟨fuel - 1, by omega⟩
  cases hx : step x with
  | error e =>
    rw [hx] at hstep
    exact .inl ⟨e, by simp [drive, hlive, hx, bind, Except.bind], hstep⟩
  | ok y =>
    rw [hx] at hstep
    have hy := hstep.2 fuel (by have := hstep.1; omega)
    have hunfold : drive stuck halted step (fuel + 1) x = drive stuck halted step fuel y := by
      simp [drive, hlive, hx, bind, Except.bind]
    rw [hunfold]
    exact hy

/-- Two runs after each other. -/
theorem Settles.trans (hfirst : Settles stuck halted step rank x bad good)
    (hbad : ∀ e, bad e → bad' e)
    (hsecond : ∀ y, good y → Settles stuck halted step rank y bad' good') :
    Settles stuck halted step rank x bad' good' := by
  intro fuel hfuel
  rcases hfirst fuel hfuel with ⟨e, herror, he⟩ | ⟨y, fuel', hfuel', hy, heq⟩
  · exact .inl ⟨e, herror, hbad e he⟩
  · rw [heq]
    exact hsecond y hy fuel' hfuel'

/-- A run to halted states decides the loop. -/
theorem Settles.meets (hrun : Settles stuck halted step rank x bad good)
    (hhalted : ∀ y, good y → halted y = true) {fuel : Nat} (hfuel : rank x < fuel) :
    Meets (drive stuck halted step fuel x) bad good := by
  rcases hrun fuel hfuel with ⟨e, herror, he⟩ | ⟨y, fuel', -, hy, heq⟩
  · rw [herror]
    exact he
  · have hdone : drive stuck halted step fuel' y = .ok y := by
      cases fuel' <;> simp [drive, hhalted y hy]
    rw [heq, hdone]
    exact hy

/-- A loop whose steps keep an invariant and lower the rank does not depend on fuel above the
rank. -/
theorem drive_enough_invariant {holds : σ → Prop}
    (hstep : ∀ x y, holds x → halted x = false → step x = .ok y → holds y ∧ rank y < rank x)
    {fuel fuel' : Nat} {x : σ} (hx : holds x) (hfuel : rank x < fuel) (hfuel' : rank x < fuel') :
    drive stuck halted step fuel x = drive stuck halted step fuel' x := by
  induction fuel generalizing fuel' x with
  | zero => omega
  | succ fuel ih =>
    obtain ⟨fuel', rfl⟩ : ∃ k, fuel' = k + 1 := ⟨fuel' - 1, by omega⟩
    cases hlive : halted x with
    | true => simp [drive, hlive]
    | false =>
      cases hnext : step x with
      | error e => simp [drive, hlive, hnext, bind, Except.bind]
      | ok y =>
        obtain ⟨hy, hrank⟩ := hstep x y hx hlive hnext
        simp only [drive, hlive, hnext, bind, Except.bind, Bool.false_eq_true, if_false]
        exact ih hy (by omega) (by omega)

/-- What every step keeps holds at the end of a loop. -/
theorem drive_ok_invariant {holds : σ → Prop}
    (hstep : ∀ x x', holds x → halted x = false → step x = .ok x' → holds x') {fuel : Nat}
    {x y : σ} (hx : holds x) (h : drive stuck halted step fuel x = .ok y) :
    holds y ∧ halted y = true := by
  induction fuel generalizing x with
  | zero =>
    unfold drive at h
    split at h
    · rename_i hhalted
      cases h
      exact ⟨hx, hhalted⟩
    · cases h
  | succ fuel ih =>
    unfold drive at h
    split at h
    · rename_i hhalted
      cases h
      exact ⟨hx, hhalted⟩
    · rename_i hlive
      cases hnext : step x with
      | error e => rw [hnext] at h; cases h
      | ok x' =>
        rw [hnext] at h
        exact ih (hstep x x' hx (by simpa using hlive) hnext) h

/-- What a state yields exactly when its next state does, a loop with enough fuel yields. -/
theorem drive_yields {holds yields : σ → Prop}
    (hstep : ∀ x y, holds x → halted x = false → step x = .ok y → holds y ∧ rank y < rank x)
    (hyields : ∀ x, holds x → halted x = false → (yields x ↔ ∃ y, step x = .ok y ∧ yields y))
    {fuel : Nat} {x : σ} (hx : holds x) (hfuel : rank x < fuel) :
    yields x ↔ ∃ y, drive stuck halted step fuel x = .ok y ∧ halted y = true ∧ yields y := by
  induction fuel generalizing x with
  | zero => omega
  | succ fuel ih =>
    cases hlive : halted x with
    | true =>
      have hdone : drive stuck halted step (fuel + 1) x = .ok x := by simp [drive, hlive]
      rw [hdone]
      constructor
      · exact fun h => ⟨x, rfl, hlive, h⟩
      · rintro ⟨y, hy, -, h⟩
        cases hy
        exact h
    | false =>
      have hunfold : drive stuck halted step (fuel + 1) x =
          step x >>= drive stuck halted step fuel := by simp [drive, hlive]
      rw [hyields x hx hlive, hunfold]
      cases hnext : step x with
      | error e =>
        constructor
        · rintro ⟨y, hy, -⟩
          cases hy
        · rintro ⟨y, hy, -⟩
          cases hy
      | ok y =>
        obtain ⟨hy, hrank⟩ := hstep x y hx hlive hnext
        have hrest := ih hy (by omega)
        constructor
        · rintro ⟨z, hz, h⟩
          cases hz
          exact hrest.mp h
        · intro h
          exact ⟨y, rfl, hrest.mpr h⟩

/-- A failure of a loop comes from a state that the steps before it kept good. -/
theorem drive_error_invariant {holds : σ → Prop}
    (hstep : ∀ x x', holds x → halted x = false → step x = .ok x' → holds x') {fuel : Nat}
    {x : σ} {e : ε} (hx : holds x) (h : drive stuck halted step fuel x = .error e) :
    e = stuck ∨ ∃ y, holds y ∧ halted y = false ∧ step y = .error e := by
  induction fuel generalizing x with
  | zero =>
    unfold drive at h
    split at h
    · cases h
    · cases h
      exact .inl rfl
  | succ fuel ih =>
    unfold drive at h
    split at h
    · cases h
    · rename_i hlive
      have hlive : halted x = false := by simpa using hlive
      cases hnext : step x with
      | error failed =>
        rw [hnext] at h
        cases h
        exact .inr ⟨x, hx, hlive, hnext⟩
      | ok x' =>
        rw [hnext] at h
        exact ih (hstep x x' hx hlive hnext) h

end Drive

end OpenTlv
