import OpenTlv.Lib.Forest

/-!
# Paths through forests

The labels from an outermost item down to another address that item. `Forest.select` follows a path
downwards. A matcher that sees the items in preorder does with one number, of how many steps of the
path the items above have matched: `path_run_live` and `path_run_dead` are its rules inside and
outside of what the path can reach.
-/

namespace OpenTlv

variable {α β : Type} [DecidableEq β]

namespace Forest

/-- The items in preorder, each with its depth. -/
def walk (depth : Nat) : Forest α → List (α × Nat)
  | nil => []
  | leaf item rest => (item, depth) :: rest.walk depth
  | branch item kids _ rest => (item, depth) :: (kids.walk (depth + 1) ++ rest.walk depth)

variable (label : α → β)

/-- The items that a path addresses, in preorder. -/
def select : Forest α → List β → List α
  | nil, _ => []
  | leaf item rest, steps =>
    (if steps.head? = some (label item) ∧ steps.tail = [] then [item] else []) ++
      rest.select steps
  | branch item kids _ rest, steps =>
    (if steps.head? = some (label item) then
      (if steps.tail = [] then [item] else []) ++ kids.select steps.tail
    else []) ++ rest.select steps

/-- Every selected item is met by the walk. -/
theorem select_subset (forest : Forest α) :
    ∀ (depth : Nat) (steps : List β), ∀ item ∈ forest.select label steps,
      item ∈ (forest.walk depth).map (·.1) := by
  induction forest with
  | nil => exact fun _ _ _ hitem => by cases hitem
  | leaf first rest ih =>
    intro depth steps item hitem
    rw [walk, List.map_cons, List.mem_cons]
    rcases List.mem_append.mp hitem with hitem | hitem
    · split at hitem
      · exact .inl (List.mem_singleton.mp hitem)
      · cases hitem
    · exact .inr (ih depth steps item hitem)
  | branch first kids close rest ihKids ihRest =>
    intro depth steps item hitem
    rw [walk, List.map_cons, List.map_append, List.mem_cons, List.mem_append]
    rcases List.mem_append.mp hitem with hitem | hitem
    · split at hitem
      · rcases List.mem_append.mp hitem with hitem | hitem
        · split at hitem
          · exact .inl (List.mem_singleton.mp hitem)
          · cases hitem
        · exact .inr (.inl (ihKids (depth + 1) _ item hitem))
      · cases hitem
    · exact .inr (.inr (ihRest depth steps item hitem))

end Forest

/-- What a matcher answers about the next item, and the steps that are matched then. -/
def pathStep (steps : List β) (matched : Nat) (label : β) (depth : Nat) : Bool × Nat :=
  if depth > matched then (false, matched)
  else if steps[depth]? = some label then (depth + 1 = steps.length, depth + 1)
  else (false, depth)

/-- The items of a preorder walk that a matcher reports, and the steps that are matched at the
end. -/
def pathRun (steps : List β) (label : α → β) : Nat → List (α × Nat) → List α × Nat
  | matched, [] => ([], matched)
  | matched, entry :: rest =>
    let answer := pathStep steps matched (label entry.1) entry.2
    let more := pathRun steps label answer.2 rest
    (if answer.1 then entry.1 :: more.1 else more.1, more.2)

variable {steps : List β} {label : α → β} {matched depth : Nat}

/-- The run over a walk that is cut in two. -/
theorem path_run_append (front rest : List (α × Nat)) :
    pathRun steps label matched (front ++ rest) =
      ((pathRun steps label matched front).1 ++
        (pathRun steps label (pathRun steps label matched front).2 rest).1,
        (pathRun steps label (pathRun steps label matched front).2 rest).2) := by
  induction front generalizing matched with
  | nil => rfl
  | cons entry front ih =>
    rw [List.cons_append, pathRun, pathRun, ih]
    dsimp only
    split
    · rfl
    · rfl

/-- The run takes one step and goes on. -/
theorem path_run_cons {answer : Bool} {after : Nat} {item : α} {rest : List (α × Nat)}
    (h : pathStep steps matched (label item) depth = (answer, after)) :
    pathRun steps label matched ((item, depth) :: rest) =
      ((if answer then [item] else []) ++ (pathRun steps label after rest).1,
        (pathRun steps label after rest).2) := by
  rw [pathRun, h]
  cases answer with
  | true => rfl
  | false => rfl

theorem path_step_dead (h : matched < depth) (label : β) :
    pathStep steps matched label depth = (false, matched) := by
  rw [pathStep, if_pos h]

/-- Below an item that the path passes by, nothing is addressed. -/
theorem path_run_dead (h : matched < depth) (forest : Forest α) :
    pathRun steps label matched (forest.walk depth) = ([], matched) := by
  induction forest generalizing depth with
  | nil => rfl
  | leaf item rest ih =>
    rw [Forest.walk, path_run_cons (path_step_dead h _), ih h]
    rfl
  | branch item kids close rest ihKids ihRest =>
    rw [Forest.walk, path_run_cons (path_step_dead h _), path_run_append,
      ihKids (by omega), ihRest h]
    rfl

/-- A step at a depth where the path still matches. -/
theorem path_step_live (h : depth ≤ matched) (label : β) :
    pathStep steps matched label depth =
      if (steps.drop depth).head? = some label then
        (decide ((steps.drop depth).tail = []), depth + 1)
      else (false, depth) := by
  rw [pathStep, if_neg (by omega), List.head?_drop]
  split
  next hstep =>
    have hlt := (List.getElem?_eq_some_iff.mp hstep).1
    have hlast : (steps.drop depth).tail = [] ↔ depth + 1 = steps.length := by
      rw [List.tail_drop, List.drop_eq_nil_iff]
      omega
    simp only [hlast]
  next => rfl

/-- Where all items above match, the items that the rest of the path addresses are reported. -/
theorem path_run_live (forest : Forest α) (hdepth : depth ≤ matched)
    (hmatched : matched ≤ steps.length) :
    ∃ after, depth ≤ after ∧ after ≤ steps.length ∧
      pathRun steps label matched (forest.walk depth) =
        (forest.select label (steps.drop depth), after) := by
  induction forest generalizing depth matched with
  | nil => exact ⟨matched, hdepth, hmatched, rfl⟩
  | leaf item rest ih =>
    have hanswer := @path_step_live _ _ steps matched depth hdepth (label item)
    by_cases hstep : (steps.drop depth).head? = some (label item)
    · rw [if_pos hstep] at hanswer
      rw [List.head?_drop] at hstep
      have hlt := (List.getElem?_eq_some_iff.mp hstep).1
      obtain ⟨after, hlow, hhigh, hrest⟩ := ih (Nat.le_succ depth) hlt
      refine ⟨after, hlow, hhigh, ?_⟩
      rw [Forest.walk, path_run_cons hanswer, hrest, Forest.select, List.head?_drop, hstep]
      simp only [true_and, decide_eq_true_eq]
    · rw [if_neg hstep] at hanswer
      obtain ⟨after, hlow, hhigh, hrest⟩ := ih (Nat.le_refl depth) (hdepth.trans hmatched)
      refine ⟨after, hlow, hhigh, ?_⟩
      have hother : ¬ ((steps.drop depth).head? = some (label item) ∧
          (steps.drop depth).tail = []) := fun h => hstep h.1
      rw [Forest.walk, path_run_cons hanswer, hrest, Forest.select, if_neg hother,
        if_neg Bool.false_ne_true]
  | branch item kids close rest ihKids ihRest =>
    have hanswer := @path_step_live _ _ steps matched depth hdepth (label item)
    by_cases hstep : (steps.drop depth).head? = some (label item)
    · rw [if_pos hstep] at hanswer
      have hat := hstep
      rw [List.head?_drop] at hat
      have hlt := (List.getElem?_eq_some_iff.mp hat).1
      obtain ⟨inside, hin, hinside, hkids⟩ := ihKids (Nat.le_refl (depth + 1)) hlt
      obtain ⟨after, hlow, hhigh, hrest⟩ := ihRest ((Nat.le_succ depth).trans hin) hinside
      refine ⟨after, hlow, hhigh, ?_⟩
      rw [Forest.walk, path_run_cons hanswer, path_run_append, hkids]
      dsimp only
      rw [hrest, Forest.select, if_pos hstep, List.tail_drop]
      simp only [decide_eq_true_eq, List.append_assoc]
    · rw [if_neg hstep] at hanswer
      obtain ⟨after, hlow, hhigh, hrest⟩ := ihRest (Nat.le_refl depth) (hdepth.trans hmatched)
      refine ⟨after, hlow, hhigh, ?_⟩
      rw [Forest.walk, path_run_cons hanswer, path_run_append,
        path_run_dead (Nat.lt_succ_self depth)]
      dsimp only
      rw [hrest, Forest.select, if_neg hstep]
      rfl

end OpenTlv
