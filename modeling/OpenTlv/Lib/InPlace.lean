import Mathlib.Tactic

/-!
# Code that stores in place

An operation that stores to its state piece by piece and may fail between two stores. A failure
keeps what was stored before it, so that "a failed call changes nothing" is a property to prove.
The simp set runs such an operation symbolically.
-/

namespace OpenTlv

/-- Operations on a state `σ` that fail with an `ε` and keep the state at the failure. -/
abbrev InPlace (ε σ α : Type) := ExceptT ε (StateM σ) α

variable {ε σ α β : Type}

/-- The result of a callee that does not touch the state. -/
def InPlace.lift (result : Except ε α) : InPlace ε σ α :=
  ExceptT.mk (pure result)

/-- What an operation returns and the state it leaves. -/
def InPlace.exec (op : InPlace ε σ α) (s : σ) : Except ε α × σ :=
  Id.run (StateT.run (ExceptT.run op) s)

namespace InPlace

@[simp] theorem exec_pure (a : α) (s : σ) : (pure a : InPlace ε σ α).exec s = (.ok a, s) :=
  rfl

@[simp] theorem exec_throw (e : ε) (s : σ) :
    (throw e : InPlace ε σ α).exec s = (.error e, s) :=
  rfl

@[simp] theorem exec_lift (result : Except ε α) (s : σ) :
    (lift result : InPlace ε σ α).exec s = (result, s) :=
  rfl

@[simp] theorem exec_get (s : σ) : (get : InPlace ε σ σ).exec s = (.ok s, s) :=
  rfl

@[simp] theorem exec_set (s s' : σ) : (set s' : InPlace ε σ PUnit).exec s = (.ok ⟨⟩, s') :=
  rfl

@[simp] theorem exec_modify (f : σ → σ) (s : σ) :
    (modify f : InPlace ε σ PUnit).exec s = (.ok ⟨⟩, f s) :=
  rfl

/-- A sequence stops at the first failure, in the state it has there. -/
@[simp] theorem exec_bind (op : InPlace ε σ α) (rest : α → InPlace ε σ β) (s : σ) :
    (op >>= rest).exec s =
      match op.exec s with
      | (.ok a, s') => (rest a).exec s'
      | (.error e, s') => (.error e, s') := by
  show Id.run (StateT.run (ExceptT.run op >>= ExceptT.bindCont rest) s) = _
  show Id.run (do
    let found ← StateT.run (ExceptT.run op) s
    StateT.run (ExceptT.bindCont rest found.1) found.2) = _
  unfold exec
  cases hrun : Id.run (StateT.run (ExceptT.run op) s) with
  | mk result s' =>
    show Id.run (StateT.run (ExceptT.bindCont rest
      (Id.run (StateT.run (ExceptT.run op) s)).1) (Id.run (StateT.run (ExceptT.run op) s)).2) = _
    rw [hrun]
    cases result with
    | ok a => rfl
    | error e => rfl

@[simp] theorem exec_ite (c : Prop) [Decidable c] (yes no : InPlace ε σ α) (s : σ) :
    (if c then yes else no).exec s = if c then yes.exec s else no.exec s := by
  split <;> rfl

/-- From `s` an operation fails in an admitted way, or has a good result. -/
def Leads (op : InPlace ε σ α) (s : σ) (bad : ε → σ → Prop) (good : α → σ → Prop) : Prop :=
  match op.exec s with
  | (.ok a, s') => good a s'
  | (.error e, s') => bad e s'

variable {bad : ε → σ → Prop} {good : α → σ → Prop} {s : σ}

@[simp] theorem leads_pure {a : α} : Leads (pure a) s bad good ↔ good a s :=
  Iff.rfl

@[simp] theorem leads_throw {e : ε} : Leads (throw e) s bad good ↔ bad e s :=
  Iff.rfl

@[simp] theorem leads_lift_ok {a : α} : Leads (lift (.ok a)) s bad good ↔ good a s :=
  Iff.rfl

@[simp] theorem leads_lift_error {e : ε} : Leads (lift (.error e)) s bad good ↔ bad e s :=
  Iff.rfl

@[simp] theorem leads_get {good : σ → σ → Prop} : Leads get s bad good ↔ good s s :=
  Iff.rfl

@[simp] theorem leads_modify {good : PUnit → σ → Prop} {f : σ → σ} :
    Leads (modify f) s bad good ↔ good ⟨⟩ (f s) :=
  Iff.rfl

/-- Sequencing: the continuation starts where the first operation leads. -/
theorem Leads.bind {op : InPlace ε σ α} {rest : α → InPlace ε σ β} {good' : β → σ → Prop}
    (hop : Leads op s bad good) (hrest : ∀ a s', good a s' → Leads (rest a) s' bad good') :
    Leads (op >>= rest) s bad good' := by
  unfold Leads at hop ⊢
  rw [exec_bind]
  cases hran : op.exec s with
  | mk result s' =>
    rw [hran] at hop
    cases result with
    | ok a => exact hrest a s' hop
    | error e => exact hop

/-- Consequence. -/
theorem Leads.mono {op : InPlace ε σ α} {good' : α → σ → Prop} (hop : Leads op s bad good)
    (hgood : ∀ a s', good a s' → good' a s') : Leads op s bad good' := by
  unfold Leads at hop ⊢
  cases hran : op.exec s with
  | mk result s' =>
    rw [hran] at hop
    cases result with
    | ok a => exact hgood a s' hop
    | error e => exact hop

/-- What every turn over a list keeps holds at its end. -/
theorem leads_forM {ι : Type} {body : ι → InPlace ε σ PUnit} (keeps : σ → Prop) (l : List ι)
    (hbody : ∀ x ∈ l, ∀ s, keeps s → Leads (body x) s bad fun _ s' => keeps s')
    (hs : keeps s) : Leads (l.forM body) s bad fun _ s' => keeps s' := by
  induction l generalizing s with
  | nil => exact hs
  | cons x rest ih =>
    refine (hbody x (List.mem_cons_self ..) s hs).bind fun _ s' hs' => ?_
    exact ih (fun y hy => hbody y (List.mem_cons_of_mem _ hy)) hs'

/-- What a turn carries from one index to the next holds behind the last one. -/
theorem leads_range {body : Nat → InPlace ε σ PUnit} (stage : Nat → σ → Prop) (n : Nat)
    (hbody : ∀ k < n, ∀ s, stage k s → Leads (body k) s bad fun _ s' => stage (k + 1) s')
    (hs : stage 0 s) : Leads ((List.range n).forM body) s bad fun _ s' => stage n s' := by
  have hfrom : ∀ m k s, k + m = n → stage k s →
      Leads ((List.range' k m).forM body) s bad fun _ s' => stage n s' := by
    intro m
    induction m with
    | zero =>
      intro k s hk hs
      rw [Nat.add_zero] at hk
      exact hk ▸ hs
    | succ m ih =>
      intro k s hk hs
      refine (hbody k (by omega) s hs).bind fun _ s' hs' => ?_
      exact ih (k + 1) s' (by omega) hs'
  rw [List.range_eq_range']
  exact hfrom n 0 s (Nat.zero_add n) hs

end InPlace

end OpenTlv
