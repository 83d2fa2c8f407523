import Mathlib.Tactic

/-!
# Searches that stop and searches that collect

A search over a list carries a state and may find something at every entry. `collect` lists all
findings; `stopAtFirst` is what a search returns that fails at the first of them. The rules say how
both compose, so that a search that stops is read off the one that collects.
-/

namespace OpenTlv

variable {α σ ι ε ρ : Type}

/-- All findings of a search, and the state behind it. -/
def collect (step : α → σ → σ × List ι) : List α → σ → σ × List ι
  | [], s => (s, [])
  | a :: rest, s =>
    ((collect step rest (step a s).1).1, (step a s).2 ++ (collect step rest (step a s).1).2)

/-- What a search returns that fails at its first finding. -/
def stopAtFirst (fail : ι → ε) : σ × List ι → Except ε σ
  | (s, []) => .ok s
  | (_, found :: _) => .error (fail found)

variable {fail : ι → ε} {step : α → σ → σ × List ι}

/-- Collecting from the first entry on. -/
theorem collect_cons (a : α) (rest : List α) (s : σ) :
    collect step (a :: rest) s =
      ((collect step rest (step a s).1).1, (step a s).2 ++ (collect step rest (step a s).1).2) :=
  rfl

/-- Behind a search that found nothing the next one goes on. -/
theorem stop_bind {β : Type} {s : σ} {found more : List ι} {next : σ → Except ε β} {t : β}
    (h : next s = stopAtFirst fail (t, more)) :
    (stopAtFirst fail (s, found)).bind next = stopAtFirst fail (t, found ++ more) := by
  cases found with
  | nil => exact h
  | cons first rest => rfl

/-- A loop that stops is read off the loop that collects. The invariant holds as long as nothing
is found. -/
theorem foldlM_stop (fail : ι → ε) (step : α → σ → σ × List ι) (first : σ → α → Except ε σ)
    (invariant : σ → Prop)
    (hstep : ∀ a s, invariant s → first s a = stopAtFirst fail (step a s))
    (hkeep : ∀ a s, invariant s → (step a s).2 = [] → invariant (step a s).1) (entries : List α)
    (s : σ) (hs : invariant s) :
    entries.foldlM first s = stopAtFirst fail (collect step entries s) := by
  induction entries generalizing s with
  | nil => rfl
  | cons a rest ih =>
    rw [List.foldlM_cons, collect_cons, hstep a s hs]
    cases hfound : step a s with
    | mk next found =>
      cases found with
      | nil =>
        have hnext := hkeep a s hs (by rw [hfound])
        rw [hfound] at hnext
        exact ih next hnext
      | cons issue more => rfl

/-- Stopping at each entry's first finding stops at the first of all. -/
theorem forM_stop (fail : ι → ε) (first : α → Except ε Unit) (found : α → List ι)
    (h : ∀ a, first a = stopAtFirst fail ((), found a)) (entries : List α) :
    entries.forM first = stopAtFirst fail ((), entries.flatMap found) := by
  induction entries with
  | nil => rfl
  | cons a rest ih =>
    show (first a).bind (fun _ => rest.forM first) = _
    rw [List.flatMap_cons, h a]
    exact stop_bind ih

/-- A loop that returns has stopped at no entry. -/
theorem forM_ok {check : α → Except ε Unit} {entries : List α}
    (h : entries.forM check = .ok ()) : ∀ a ∈ entries, check a = .ok () := by
  induction entries with
  | nil => intro a ha; cases ha
  | cons first rest ih =>
    unfold List.forM at h
    cases hfirst : check first with
    | error failed =>
      rw [hfirst] at h
      cases h
    | ok value =>
      rw [hfirst] at h
      intro a ha
      rcases List.mem_cons.mp ha with rfl | hmem
      · exact hfirst
      · exact ih h a hmem

/-- A loop that adds its findings to a record adds all of them. -/
theorem foldlM_collect (add : ρ → ι → ρ) (step : α → σ → σ × List ι)
    (both : σ × ρ → α → Except ε (σ × ρ))
    (hstep : ∀ a s record, both (s, record) a =
      .ok ((step a s).1, (step a s).2.foldl add record)) (entries : List α) (s : σ) (record : ρ) :
    entries.foldlM both (s, record) =
      .ok ((collect step entries s).1, (collect step entries s).2.foldl add record) := by
  induction entries generalizing s record with
  | nil => rfl
  | cons a rest ih =>
    rw [List.foldlM_cons, collect_cons, hstep a s record, List.foldl_append]
    exact ih _ _

/-- Recording entry by entry records all findings in order. -/
theorem foldlM_record (add : ρ → ι → ρ) (both : ρ → α → Except ε ρ) (found : α → List ι)
    (h : ∀ a record, both record a = .ok ((found a).foldl add record)) (entries : List α)
    (record : ρ) :
    entries.foldlM both record = .ok ((entries.flatMap found).foldl add record) := by
  induction entries generalizing record with
  | nil => rfl
  | cons a rest ih =>
    rw [List.foldlM_cons, h a record, List.flatMap_cons, List.foldl_append]
    exact ih _

end OpenTlv
