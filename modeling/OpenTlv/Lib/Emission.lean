import Mathlib.Tactic

/-!
# Machines that emit

A deterministic machine moves quietly, emits something, or halts. `Emits` is its runs with what
they emit. A run to a halt determines what every other run from the same state emits, so a machine
may be interrupted between any two moves: `Emits.remainder` and `Emits.halted` are the rules for
that. `Mirrors` is the relation of two machines that move alike, of which one may also wait.
-/

namespace OpenTlv

/-- A move of a machine with states `σ`, emissions `ε` and results `ρ`. -/
inductive Move (σ ε ρ : Type) where
  | fault
  | halt (result : ρ) (next : σ)
  | quiet (next : σ)
  | emit (emission : ε) (next : σ)

variable {σ τ ε ρ : Type} {move : σ → Move σ ε ρ} {s s' t : σ} {emitted : List ε}

/-- Some moves, none of them a halt, with what they emit. -/
inductive Emits (move : σ → Move σ ε ρ) : σ → List ε → σ → Prop where
  | refl (s : σ) : Emits move s [] s
  | quiet {s next s' : σ} {emitted : List ε} (hmove : move s = .quiet next)
      (hnext : Emits move next emitted s') : Emits move s emitted s'
  | emit {s next s' : σ} {emission : ε} {emitted : List ε} (hmove : move s = .emit emission next)
      (hnext : Emits move next emitted s') : Emits move s (emission :: emitted) s'

/-- What two runs emit, one after the other. -/
theorem Emits.trans {rest : List ε} (h : Emits move s emitted s') (h' : Emits move s' rest t) :
    Emits move s (emitted ++ rest) t := by
  induction h with
  | refl => exact h'
  | quiet hmove _ ih => exact .quiet hmove (ih h')
  | emit hmove _ ih => exact .emit hmove (ih h')

/-- What a run still has to emit before it halts. -/
theorem Emits.remainder {all : List ε} {result : ρ} {final : σ} (h : Emits move s emitted s')
    (hall : Emits move s all t) (hhalt : move t = .halt result final) :
    ∃ rest, all = emitted ++ rest ∧ Emits move s' rest t := by
  induction h generalizing all with
  | refl => exact ⟨all, rfl, hall⟩
  | quiet hmove _ ih =>
    cases hall with
    | refl =>
      rw [hmove] at hhalt
      cases hhalt
    | quiet hmove' hnext =>
      rw [hmove] at hmove'
      cases hmove'
      exact ih hnext
    | emit hmove' _ =>
      rw [hmove] at hmove'
      cases hmove'
  | emit hmove _ ih =>
    cases hall with
    | refl =>
      rw [hmove] at hhalt
      cases hhalt
    | quiet hmove' _ =>
      rw [hmove] at hmove'
      cases hmove'
    | emit hmove' hnext =>
      rw [hmove] at hmove'
      cases hmove'
      obtain ⟨rest, rfl, hrest⟩ := ih hnext
      exact ⟨rest, rfl, hrest⟩

/-- A machine that halts where it is has emitted everything. -/
theorem Emits.halted {result : ρ} {final : σ} (h : Emits move s emitted t)
    (hhalt : move s = .halt result final) : emitted = [] ∧ t = s := by
  cases h with
  | refl => exact ⟨rfl, rfl⟩
  | quiet hmove _ =>
    rw [hhalt] at hmove
    cases hmove
  | emit hmove _ =>
    rw [hhalt] at hmove
    cases hmove

/-- Related states move alike, except that the first machine may wait. -/
def Mirrors (move : σ → Move σ ε ρ) (move' : τ → Move τ ε ρ) (waits : ρ → Prop)
    (related ended : σ → τ → Prop) : Prop :=
  ∀ s t, related s t →
    match move s with
    | .fault => move' t = .fault
    | .halt result next =>
      (waits result ∧ next = s) ∨
        (¬ waits result ∧ ∃ result' next', move' t = .halt result' next' ∧ ended next next')
    | .quiet next => ∃ next', move' t = .quiet next' ∧ related next next'
    | .emit emission next => ∃ next', move' t = .emit emission next' ∧ related next next'

/-- A run of the first machine is one of the second. -/
theorem Mirrors.emits {move' : τ → Move τ ε ρ} {waits : ρ → Prop} {related ended : σ → τ → Prop}
    (hmirrors : Mirrors move move' waits related ended) {t : τ} (hrelated : related s t)
    (h : Emits move s emitted s') : ∃ t', Emits move' t emitted t' ∧ related s' t' := by
  induction h generalizing t with
  | refl => exact ⟨t, .refl t, hrelated⟩
  | @quiet s next s' emitted hmove _ ih =>
    have hstep := hmirrors s t hrelated
    rw [hmove] at hstep
    obtain ⟨next', hmove', hnext⟩ := hstep
    obtain ⟨t', hemits, hend⟩ := ih hnext
    exact ⟨t', .quiet hmove' hemits, hend⟩
  | @emit s next s' emission emitted hmove _ ih =>
    have hstep := hmirrors s t hrelated
    rw [hmove] at hstep
    obtain ⟨next', hmove', hnext⟩ := hstep
    obtain ⟨t', hemits, hend⟩ := ih hnext
    exact ⟨t', .emit hmove' hemits, hend⟩

end OpenTlv
