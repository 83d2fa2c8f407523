import OpenTlv.Lib.Dispatch

/-!
# Results that survive more input

A reader looks at the front of its input. `Persists` compares what it says about some input with
what it says about a longer one: a result stays, and a failure turns into one that counts as the
same, unless it only asks for more input. The rules follow the shape of readers: sequencing,
choice and loops.
-/

namespace OpenTlv

section Persists

variable {ε ε' α β : Type} {asks : ε → Prop} {same : ε → ε → Prop} {asks' : ε' → Prop}
  {same' : ε' → ε' → Prop}

/-- A result on short input stays on long input. A failure that does not ask for more input
turns into one that counts as the same. -/
def Persists (asks : ε → Prop) (same : ε → ε → Prop) (short long : Except ε α) : Prop :=
  match short with
  | .ok x => long = .ok x
  | .error e => asks e ∨ ∃ e', long = .error e' ∧ same e e'

/-- A failure that does not ask for more input counts as the same as itself. -/
class Repeatable (asks : ε → Prop) (same : ε → ε → Prop) : Prop where
  repeats : ∀ e, ¬ asks e → same e e

@[simp] theorem persists_ok {x : α} {long : Except ε α} :
    Persists asks same (.ok x) long ↔ long = .ok x := Iff.rfl

/-- Every result persists as itself. -/
theorem Persists.refl [Repeatable asks same] (short : Except ε α) :
    Persists asks same short short := by
  cases short with
  | ok x => rfl
  | error e => exact (Classical.em (asks e)).imp id fun h => ⟨e, rfl, Repeatable.repeats e h⟩

/-- Two failures that count as the same. -/
theorem Persists.errors {e e' : ε} (h : same e e') :
    Persists asks same (.error e : Except ε α) (.error e') :=
  .inr ⟨e', rfl, h⟩

/-- Sequencing. -/
theorem Persists.bind {short long : Except ε α} {next next' : α → Except ε β}
    (h : Persists asks same short long)
    (hnext : ∀ x, short = .ok x → Persists asks same (next x) (next' x)) :
    Persists asks same (short >>= next) (long >>= next') := by
  cases short with
  | ok x =>
    rw [persists_ok] at h
    rw [h]
    exact hnext x rfl
  | error e =>
    rcases h with hasks | ⟨e', rfl, hasks⟩
    · exact .inl hasks
    · exact .inr ⟨e', rfl, hasks⟩

/-- A change of the failures that keeps what they ask and which count as the same. -/
theorem Persists.convert {short long : Except ε α} {next next' : Except ε α → Except ε' β}
    (h : Persists asks same short long)
    (hok : ∀ x, short = .ok x → Persists asks' same' (next (.ok x)) (next' (.ok x)))
    (hasks : ∀ e, asks e → ∃ e', next (.error e) = .error e' ∧ asks' e')
    (hsame : ∀ e e', same e e' → ∃ f f', next (.error e) = .error f ∧
      next' (.error e') = .error f' ∧ same' f f') :
    Persists asks' same' (next short) (next' long) := by
  cases short with
  | ok x =>
    rw [persists_ok] at h
    rw [h]
    exact hok x rfl
  | error e =>
    rcases h with hask | ⟨e', rfl, hkind⟩
    · obtain ⟨e', heq, hask'⟩ := hasks e hask
      rw [heq]
      exact .inl hask'
    · obtain ⟨first, second, hfirst, hsecond, hkind'⟩ := hsame e e' hkind
      rw [hfirst, hsecond]
      exact .inr ⟨second, rfl, hkind'⟩

end Persists

section Drive

variable {ε σ τ : Type} {stuck : ε} {asks : ε → Prop} {same : ε → ε → Prop}
  {halted : σ → Bool} {step : σ → Except ε σ} {rank : σ → Nat}
  {halted' : τ → Bool} {step' : τ → Except ε τ} {rank' : τ → Nat}

/-- Two failures, or two states in a relation. -/
def PersistsTo (asks : ε → Prop) (same : ε → ε → Prop) (related : σ → τ → Prop)
    (short : Except ε σ) (long : Except ε τ) : Prop :=
  match short with
  | .ok x => ∃ y, long = .ok y ∧ related x y
  | .error e => asks e ∨ ∃ e', long = .error e' ∧ same e e'

/-- Two loops whose states stay related until the first one asks for more input. Both have
enough steps. -/
theorem drive_persists {related : σ → τ → Prop}
    (hhalted : ∀ x y, related x y → halted x = halted' y)
    (hstep : ∀ x y, related x y → halted x = false →
      PersistsTo asks same related (step x) (step' y))
    (hrank : ∀ x y x', related x y → halted x = false → step x = .ok x' → rank x' < rank x)
    (hrank' : ∀ x y y', related x y → halted x = false → step' y = .ok y' → rank' y' < rank' y)
    {fuel fuel' : Nat} {x : σ} {y : τ} (hxy : related x y) (hfuel : rank x < fuel)
    (hfuel' : rank' y < fuel') :
    PersistsTo asks same related (drive stuck halted step fuel x)
      (drive stuck halted' step' fuel' y) := by
  induction fuel generalizing fuel' x y with
  | zero => omega
  | succ fuel ih =>
    obtain ⟨fuel', rfl⟩ : ∃ k, fuel' = k + 1 := ⟨fuel' - 1, by omega⟩
    have hsame := hhalted x y hxy
    cases hx : halted x with
    | true =>
      rw [hx] at hsame
      simp only [drive, hx, ← hsame, if_true]
      exact ⟨y, rfl, hxy⟩
    | false =>
      rw [hx] at hsame
      simp only [drive, hx, ← hsame, Bool.false_eq_true, if_false]
      have hpair := hstep x y hxy hx
      cases hnext : step x with
      | error e =>
        rw [hnext] at hpair
        rcases hpair with hask | ⟨e', heq, hask⟩
        · exact .inl hask
        · rw [heq]
          exact .inr ⟨e', rfl, hask⟩
      | ok x' =>
        rw [hnext] at hpair
        obtain ⟨y', hnext', hrelated⟩ := hpair
        have hlow := hrank x y x' hxy hx hnext
        have hlow' := hrank' x y y' hxy hx hnext'
        rw [hnext']
        exact ih hrelated (by omega) (by omega)

end Drive

end OpenTlv
