import OpenTlv.Query.Denotation

/-!
# The rank of the virtual root

The documented denotation ranks the virtual root before all nodes. Ranking it behind them changes
the positions in a sequence that holds both, and nothing else: an evaluation that never numbers
such a sequence is `Unmixed`, and there both ranks have the same meaning.
-/

namespace OpenTlv.Query

namespace World

variable (w : World)

/-- The world with the virtual root before its nodes. -/
def first : World :=
  { w with rootFirst := true }

/-- The world with the virtual root behind its nodes. -/
def last : World :=
  { w with rootFirst := false }

/-- The concrete members of a set. -/
def concrete (s : Context → Bool) : List Context :=
  ((List.range w.nodes.length).map some).filter s

theorem members_first (s : Context → Bool) :
    w.first.members s = [none].filter s ++ w.concrete s :=
  List.filter_append [none] _

theorem members_last (s : Context → Bool) :
    w.last.members s = w.concrete s ++ [none].filter s :=
  List.filter_append _ [none]

@[simp] theorem members_length (s : Context → Bool) :
    (w.last.members s).length = (w.first.members s).length := by
  rw [members_first, members_last, List.length_append, List.length_append, Nat.add_comm]

@[simp] theorem reached_rank (s : Context → Bool) : w.last.reached s = w.first.reached s := by
  funext c
  simp [reached, contexts, last, first, below, Bool.or_comm]

@[simp] theorem truth_rank (d : Denoted) : w.last.truth d = w.first.truth d := by
  cases d <;> simp [truth]

@[simp] theorem keeps_rank (d : Denoted) (position : Nat) :
    w.last.keeps d position = w.first.keeps d position := by
  cases d <;> simp [keeps]

/-- A set is one concrete node under either rank. -/
@[simp] theorem single_rank (s : Context → Bool) : w.last.single s = w.first.single s := by
  unfold single
  rw [members_first, members_last]
  cases hroot : s none with
  | false => simp [hroot]
  | true =>
    simp only [List.filter_cons, hroot, if_true, List.filter_nil, List.cons_append,
      List.nil_append]
    cases hconcrete : w.concrete s with
    | nil => rfl
    | cons c rest => cases rest <;> simp

/-- A set that holds the virtual root alone, or not at all, is listed alike. -/
theorem members_rank (s : Context → Bool) (h : s none = true → w.first.members s = [none]) :
    w.last.members s = w.first.members s := by
  rw [members_first] at h ⊢
  rw [members_last]
  cases hroot : s none with
  | false => simp [hroot]
  | true =>
    have hnone : w.concrete s = [] := by simpa [hroot] using h hroot
    rw [hnone, List.append_nil, List.nil_append]

end World

variable {w : World}

theorem mapM_agree {α β : Type} {l : List α} {f g : α → Option β} (h : ∀ a ∈ l, f a = g a) :
    l.mapM f = l.mapM g := by
  induction l with
  | nil => rfl
  | cons a rest ih =>
    rw [List.mapM_cons, List.mapM_cons, h a List.mem_cons_self,
      ih fun b hb => h b (List.mem_cons_of_mem a hb)]

/-- A union does not depend on the order of the contexts. -/
theorem union_over_rank (s : Context → Bool) {right right' : Context → Option Denoted}
    (h : ∀ d ∈ w.first.members s, right d = right' d) :
    unionOver (w.last.members s) right = unionOver (w.first.members s) right' := by
  rw [World.members_first] at h ⊢
  rw [World.members_last]
  unfold unionOver
  rw [← mapM_agree h, List.mapM_append, List.mapM_append]
  cases List.mapM right (w.concrete s) with
  | none => cases List.mapM right ([none].filter s) <;> rfl
  | some below =>
    cases List.mapM right ([none].filter s) with
    | none => rfl
    | some root => simp [Bool.or_comm]

/-- Numbered candidates that are judged alike are kept alike. -/
theorem keep_from_rank {sequence : List Context}
    {predicate predicate' : Context → Nat → Option Denoted}
    (h : ∀ candidate ∈ sequence.zipIdx,
      predicate candidate.1 (candidate.2 + 1) = predicate' candidate.1 (candidate.2 + 1)) :
    keepFrom w.last sequence predicate = keepFrom w.first sequence predicate' := by
  unfold keepFrom
  rw [mapM_agree fun candidate hc => ?_]
  unfold judge
  rw [h candidate hc]
  simp

/-- A call does not depend on the rank. -/
theorem denote_call_rank (call : CallSpec) (c : Context) (position last : Nat)
    (arguments : List Denoted) :
    denoteCall w.last call c position last arguments =
      denoteCall w.first call c position last arguments := by
  unfold denoteCall
  split
  case h_2 =>
    simp only [World.members_length, World.single_rank]
    rfl
  all_goals rfl

/-- No evaluated predicate numbers a sequence that holds both the virtual root and a node. -/
def Unmixed (w : World) : Expr → Context → Nat → Nat → Prop
  | .child left right, c, position, last =>
    Unmixed w left c position last ∧
      ∀ s, (denote w left c position last).bind Denoted.set = some s →
        ∀ d ∈ w.members s, Unmixed w right d 1 1
  | .desc left right, c, position, last =>
    Unmixed w left c position last ∧
      ∀ s, (denote w left c position last).bind Denoted.set = some s →
        ∀ d ∈ w.members (w.reached s), Unmixed w right d 1 1
  | .filter left right _, c, position, last =>
    Unmixed w left c position last ∧
      ∀ s, (denote w left c position last).bind Denoted.set = some s →
        (s none = true → w.members s = [none]) ∧
          let sequence := if left.reversed then (w.members s).reverse else w.members s
          ∀ candidate ∈ sequence.zipIdx,
            Unmixed w right candidate.1 (candidate.2 + 1) sequence.length
  | .union left right, c, position, last | .intersect left right, c, position, last
  | .except left right, c, position, last | .compare _ left right, c, position, last
  | .and left right, c, position, last | .or left right, c, position, last
  | .call2 _ left right, c, position, last =>
    Unmixed w left c position last ∧ Unmixed w right c position last
  | .call1 _ a, c, position, last => Unmixed w a c position last
  | .call3 _ a b d, c, position, last =>
    Unmixed w a c position last ∧ Unmixed w b c position last ∧ Unmixed w d c position last
  | _, _, _, _ => True

/-- Without mixed sequences both ranks have the same meaning. -/
theorem denote_rank {x : Expr} {c : Context} {position last : Nat}
    (h : Unmixed w.first x c position last) :
    denote w.last x c position last = denote w.first x c position last := by
  induction x generalizing c position last with
  | test | root | self | metadata | literal | bytes | string | variableRef | bool => rfl
  | child left right ihleft ihright =>
    obtain ⟨hleft, hright⟩ := h
    simp only [denote, ihleft hleft]
    cases hvalue : denote w.first left c position last with
    | none => rfl
    | some d =>
      cases hset : d.set with
      | none => simp [hset]
      | some s =>
        have hagree := hright s (by simp [hvalue, hset])
        simp only [hset, Option.bind_eq_bind, Option.bind_some]
        exact union_over_rank s fun d hd => ihright (hagree d hd)
  | desc left right ihleft ihright =>
    obtain ⟨hleft, hright⟩ := h
    simp only [denote, ihleft hleft]
    cases hvalue : denote w.first left c position last with
    | none => rfl
    | some d =>
      cases hset : d.set with
      | none => simp [hset]
      | some s =>
        have hagree := hright s (by simp [hvalue, hset])
        simp only [hset, Option.bind_eq_bind, Option.bind_some, World.reached_rank]
        exact union_over_rank _ fun d hd => ihright (hagree d hd)
  | filter left right grouped ihleft ihright =>
    obtain ⟨hleft, hright⟩ := h
    simp only [denote, ihleft hleft]
    cases hvalue : denote w.first left c position last with
    | none => rfl
    | some d =>
      cases hset : d.set with
      | none => simp [hset]
      | some s =>
        obtain ⟨halone, hagree⟩ := hright s (by simp [hvalue, hset])
        simp only [hset, Option.bind_eq_bind, Option.bind_some, w.members_rank s halone]
        refine keep_from_rank fun candidate hc => ?_
        exact ihright (hagree candidate hc)
  | union left right ihleft ihright => simp only [denote, ihleft h.1, ihright h.2]
  | intersect left right ihleft ihright => simp only [denote, ihleft h.1, ihright h.2]
  | except left right ihleft ihright => simp only [denote, ihleft h.1, ihright h.2]
  | compare op left right ihleft ihright => simp only [denote, ihleft h.1, ihright h.2]
  | and left right ihleft ihright =>
    simp only [denote, ihleft h.1, ihright h.2, World.truth_rank]
  | or left right ihleft ihright =>
    simp only [denote, ihleft h.1, ihright h.2, World.truth_rank]
  | call0 call => exact denote_call_rank call c position last []
  | call1 call a ih => simp only [denote, ih h, denote_call_rank]
  | call2 call a b iha ihb => simp only [denote, iha h.1, ihb h.2, denote_call_rank]
  | call3 call a b d iha ihb ihd =>
    simp only [denote, iha h.1, ihb h.2.1, ihd h.2.2, denote_call_rank]

end OpenTlv.Query
