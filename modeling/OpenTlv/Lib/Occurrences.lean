import OpenTlv.Lib.Keyed
import OpenTlv.Lib.LinkedForest

/-!
# Nodes addressed by occurrence

A node of a labelled forest is found by the labels on the way to it and, for every label, the number
of earlier siblings with it. `locate` follows such steps, `located` lists the nodes in preorder with
their steps, and the two agree (`lookup_located`). `Corresponds` compares two forests sibling by
sibling of one label, and that is the comparison of what they have at all steps
(`corresponds_iff`). A node whose inside is not open is a leaf.
-/

namespace OpenTlv

namespace LinkForest

variable {A D L : Type} [DecidableEq L] (label : D → L) (opens : D → Bool)

/-- The outermost node with a label behind `k` others. -/
def nth (l : L) : Nat → LinkForest A D → Option (A × D × LinkForest A D)
  | _, nil => none
  | k, node addr data inner rest =>
    if label data = l then
      match k with
      | 0 => some (addr, data, inner)
      | k + 1 => nth l k rest
    else nth l k rest

/-- The node behind steps. -/
def locate : List (L × Nat) → LinkForest A D → Option (A × D)
  | [], _ => none
  | step :: steps, forest =>
    match forest.nth label step.1 step.2 with
    | none => none
    | some (addr, data, inner) =>
      if steps = [] then some (addr, data)
      else if opens data then locate steps inner
      else none

/-- The nodes in preorder behind `counts` earlier siblings, with their steps. -/
def located (above : List (L × Nat)) (counts : L → Nat) :
    LinkForest A D → List (List (L × Nat) × A × D)
  | nil => []
  | node addr data inner rest =>
    (above ++ [(label data, counts (label data))], addr, data) ::
      ((if opens data then
          inner.located (above ++ [(label data, counts (label data))]) fun _ => 0
        else []) ++
        rest.located above
          (Function.update counts (label data) (counts (label data) + 1)))

/-- Nothing is inside of nodes that are not open. -/
def Leaves : LinkForest A D → Prop
  | nil => True
  | node _ data inner rest => (opens data = false → inner = nil) ∧ inner.Leaves ∧ rest.Leaves

/-- Two forests have the same siblings with every label, and so on inside of them. -/
inductive Corresponds (same : D → D → Prop) : LinkForest A D → LinkForest A D → Prop where
  | mk {forest other : LinkForest A D}
      (hsiblings : ∀ l k, Option.Rel (fun a b => same a.2.1 b.2.1) (forest.nth label l k)
        (other.nth label l k))
      (hinside : ∀ l k a b, forest.nth label l k = some a → other.nth label l k = some b →
        opens a.2.1 = true → Corresponds same a.2.2 b.2.2) :
      Corresponds same forest other

variable {label opens} {forest other : LinkForest A D}

@[simp] theorem locate_nil (steps : List (L × Nat)) :
    (nil : LinkForest A D).locate label opens steps = none := by
  cases steps <;> rfl

/-- The first step to a node that is no first sibling. -/
theorem locate_node (addr : A) (data : D) (inner rest : LinkForest A D) (l : L) (k : Nat)
    (steps : List (L × Nat)) :
    (node addr data inner rest).locate label opens ((l, k) :: steps) =
      if label data = l then
        match k with
        | 0 =>
          if steps = [] then some (addr, data)
          else if opens data then inner.locate label opens steps
          else none
        | k + 1 => rest.locate label opens ((l, k) :: steps)
      else rest.locate label opens ((l, k) :: steps) := by
  simp only [locate, nth]
  by_cases hlabel : label data = l
  · rw [if_pos hlabel, if_pos hlabel]
    cases k <;> rfl
  · rw [if_neg hlabel, if_neg hlabel]

/-- The listing has what the steps lead to. -/
theorem mem_located (above : List (L × Nat)) (counts : L → Nat) {path : List (L × Nat)}
    {item : A × D} :
    (path, item) ∈ forest.located label opens above counts ↔
      ∃ l k steps, path = above ++ (l, counts l + k) :: steps ∧
        forest.locate label opens ((l, k) :: steps) = some item := by
  induction forest generalizing above counts with
  | nil => simp [located]
  | node addr data inner rest ihinner ihrest =>
    rw [located, List.mem_cons, List.mem_append, ihrest]
    constructor
    · intro h
      obtain hhere | hinside | ⟨l, k, steps, rfl, hlocate⟩ := h
      · cases hhere
        exact ⟨label data, 0, [], rfl, by rw [locate_node, if_pos rfl]; rfl⟩
      · cases hopens : opens data with
        | false => simp [hopens] at hinside
        | true =>
          rw [if_pos hopens, ihinner] at hinside
          obtain ⟨l, k, steps, rfl, hlocate⟩ := hinside
          refine ⟨label data, 0, (l, k) :: steps, ?_, ?_⟩
          · rw [Nat.zero_add, List.append_assoc]
            rfl
          · rw [locate_node, if_pos rfl]
            show (if (l, k) :: steps = [] then _ else if opens data = true then _ else _) = _
            rw [if_neg (by simp), if_pos hopens, hlocate]
      · by_cases hlabel : label data = l
        · subst hlabel
          refine ⟨label data, k + 1, steps, ?_, ?_⟩
          · rw [Function.update_self, Nat.add_assoc, Nat.add_comm 1]
          · rw [locate_node, if_pos rfl]
            exact hlocate
        · refine ⟨l, k, steps, ?_, ?_⟩
          · rw [Function.update_of_ne (Ne.symm hlabel)]
          · rw [locate_node, if_neg hlabel]
            exact hlocate
    · intro h
      obtain ⟨l, k, steps, rfl, hlocate⟩ := h
      rw [locate_node] at hlocate
      by_cases hlabel : label data = l
      · subst hlabel
        rw [if_pos rfl] at hlocate
        cases k with
        | zero =>
          cases steps with
          | nil =>
            cases hlocate
            exact .inl rfl
          | cons step steps =>
            obtain ⟨l, k⟩ := step
            change (if (l, k) :: steps = [] then _ else if opens data = true then _ else _)
              = _ at hlocate
            rw [if_neg (by simp)] at hlocate
            cases hopens : opens data with
            | false => simp [hopens] at hlocate
            | true =>
              rw [if_pos hopens] at hlocate
              refine .inr (.inl ?_)
              rw [if_pos rfl, ihinner]
              exact ⟨l, k, steps, by rw [List.append_assoc, Nat.zero_add]; rfl, hlocate⟩
        | succ k =>
          refine .inr (.inr ⟨label data, k, steps, ?_, hlocate⟩)
          rw [Function.update_self, Nat.add_assoc, Nat.add_comm 1]
      · rw [if_neg hlabel] at hlocate
        refine .inr (.inr ⟨l, k, steps, ?_, hlocate⟩)
        rw [Function.update_of_ne (Ne.symm hlabel)]

/-- A whole forest lists what its steps lead to. -/
theorem mem_located_root {path : List (L × Nat)} {item : A × D} :
    (path, item) ∈ forest.located label opens [] (fun _ => 0) ↔
      forest.locate label opens path = some item := by
  rw [mem_located]
  constructor
  · intro h
    obtain ⟨l, k, steps, rfl, hlocate⟩ := h
    rw [Nat.zero_add]
    exact hlocate
  · intro h
    cases path with
    | nil => cases h
    | cons step steps =>
      obtain ⟨l, k⟩ := step
      exact ⟨l, k, steps, by rw [Nat.zero_add]; rfl, h⟩

/-- Listed are nodes of the forest, in preorder. -/
theorem located_items (above : List (L × Nat)) (counts : L → Nat) :
    ((forest.located label opens above counts).map Prod.snd).Sublist forest.items := by
  induction forest generalizing above counts with
  | nil => exact List.Sublist.slnil
  | node addr data inner rest ihinner ihrest =>
    rw [located, List.map_cons, List.map_append]
    refine (List.Sublist.append ?_ (ihrest _ _)).cons_cons (addr, data)
    split
    · exact ihinner _ _
    · exact List.nil_sublist _

/-- All nodes are listed where nothing is inside of leaves. -/
theorem located_addrs (above : List (L × Nat)) (counts : L → Nat)
    (hleaves : forest.Leaves opens) :
    ((forest.located label opens above counts).map fun entry => entry.2.1) = forest.addrs := by
  induction forest generalizing above counts with
  | nil => rfl
  | node addr data inner rest ihinner ihrest =>
    obtain ⟨hempty, hinner, hrest⟩ := hleaves
    rw [located, List.map_cons, List.map_append, addrs_node, ihrest _ _ hrest]
    cases hopens : opens data with
    | true => rw [if_pos rfl, ihinner _ _ hinner]
    | false => simp [hempty hopens]

/-- Different nodes have different steps. -/
theorem located_steps_nodup (hnodup : forest.addrs.Nodup) :
    ((forest.located label opens [] fun _ => 0).map Prod.fst).Nodup := by
  have hitems : forest.items.Nodup := by
    rw [← items_addrs] at hnodup
    exact hnodup.of_map
  have hentries : (forest.located label opens [] fun _ => 0).Nodup :=
    ((located_items [] fun _ => 0).nodup hitems).of_map
  refine hentries.map_on fun entry hentry entry' hentry' hsteps => ?_
  obtain ⟨steps, item⟩ := entry
  obtain ⟨steps', item'⟩ := entry'
  obtain rfl : steps = steps' := hsteps
  have hitem := (mem_located_root.mp hentry).symm.trans (mem_located_root.mp hentry')
  rw [Option.some.inj hitem]

/-- What is listed under steps is what they lead to. -/
theorem lookup_located [BEq (List (L × Nat))] [LawfulBEq (List (L × Nat))]
    (hnodup : forest.addrs.Nodup) (path : List (L × Nat)) :
    (forest.located label opens [] fun _ => 0).lookup path =
      forest.locate label opens path := by
  refine Option.ext fun item => ?_
  rw [Keyed.lookup_iff (located_steps_nodup hnodup), mem_located_root]

/-- The inside of a sibling is smaller than the forest. -/
theorem nth_size {l : L} {k : Nat} {a : A × D × LinkForest A D}
    (h : forest.nth label l k = some a) : a.2.2.size < forest.size := by
  induction forest generalizing k with
  | nil => cases h
  | node addr data inner rest _ ihrest =>
    have hsize : (node addr data inner rest).size = inner.size + rest.size + 1 := rfl
    have hrest : ∀ {k}, rest.nth label l k = some a →
        a.2.2.size < (node addr data inner rest).size := fun h => by
      have := ihrest h
      omega
    by_cases hlabel : label data = l
    · cases k with
      | zero =>
        simp only [nth, if_pos hlabel] at h
        cases h
        show inner.size < _
        omega
      | succ k =>
        simp only [nth, if_pos hlabel] at h
        exact hrest h
    · simp only [nth, if_neg hlabel] at h
      exact hrest h

/-- Where a single step leads. -/
theorem locate_single (l : L) (k : Nat) :
    forest.locate label opens [(l, k)] =
      (forest.nth label l k).map fun a => (a.1, a.2.1) := by
  rw [locate]
  cases forest.nth label l k <;> rfl

/-- Where steps into a sibling lead. -/
theorem locate_inside {l : L} {k : Nat} {steps : List (L × Nat)} (hsteps : steps ≠ [])
    {a : A × D × LinkForest A D} (h : forest.nth label l k = some a) :
    forest.locate label opens ((l, k) :: steps) =
      if opens a.2.1 then a.2.2.locate label opens steps else none := by
  rw [locate, h]
  exact if_neg hsteps

/-- Forests correspond where the same steps lead to the same content. -/
theorem corresponds_iff {same : D → D → Prop} (hsame : ∀ a b, same a b → opens a = opens b) :
    Corresponds label opens same forest other ↔
      ∀ path, Option.Rel (fun a b => same a.2 b.2) (forest.locate label opens path)
        (other.locate label opens path) := by
  constructor
  · intro h
    induction h with
    | @mk forest other hsiblings hinside ih =>
      intro path
      match path with
      | [] => exact .none
      | (l, k) :: steps =>
        by_cases hsteps : steps = []
        · subst hsteps
          have hrel := hsiblings l k
          rw [locate_single, locate_single]
          generalize forest.nth label l k = a at hrel ⊢
          generalize other.nth label l k = b at hrel ⊢
          cases hrel with
          | none => exact .none
          | some hrel => exact .some hrel
        · have hrel := hsiblings l k
          cases hforest : forest.nth label l k with
          | none =>
            rw [hforest] at hrel
            cases hother : other.nth label l k with
            | none =>
              rw [locate, locate, hforest, hother]
              exact .none
            | some b =>
              rw [hother] at hrel
              cases hrel
          | some a =>
            rw [hforest] at hrel
            cases hother : other.nth label l k with
            | none =>
              rw [hother] at hrel
              cases hrel
            | some b =>
              rw [hother] at hrel
              cases hrel with
              | some hdata =>
                rw [locate_inside hsteps hforest, locate_inside hsteps hother,
                  ← hsame _ _ hdata]
                cases hopens : opens a.2.1 with
                | false => exact .none
                | true => exact ih l k a b hforest hother hopens steps
  · -- The insides of siblings are smaller, and steps into them are steps of the whole.
    intro h
    induction hsize : forest.size using Nat.strong_induction_on generalizing forest other with
    | h size ih =>
      have hsiblings : ∀ l k, Option.Rel (fun a b => same a.2.1 b.2.1)
          (forest.nth label l k) (other.nth label l k) := by
        intro l k
        have hrel := h [(l, k)]
        rw [locate_single, locate_single] at hrel
        cases hforest : forest.nth label l k <;> cases hother : other.nth label l k <;>
          rw [hforest, hother] at hrel <;> cases hrel
        · exact .none
        · exact .some ‹_›
      refine .mk hsiblings fun l k a b hforest hother hopens => ?_
      refine ih a.2.2.size (hsize ▸ nth_size hforest) ?_ rfl
      intro steps
      by_cases hsteps : steps = []
      · subst hsteps
        exact .none
      · have hrel := h ((l, k) :: steps)
        have hdata := hsiblings l k
        rw [hforest, hother] at hdata
        cases hdata with
        | some hdata =>
          rwa [locate_inside hsteps hforest, locate_inside hsteps hother,
            ← hsame _ _ hdata, if_pos hopens, if_pos hopens] at hrel

end LinkForest

end OpenTlv
