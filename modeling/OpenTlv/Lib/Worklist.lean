import Mathlib.Data.Set.Card
import Mathlib.Logic.Relation
import Mathlib.Tactic

/-!
# Worklists of bounded capacity

A search that checks every node once and queues the successors that it does not know yet. It
succeeds exactly when the nodes that the root reaches fit into the queue and all of them pass
their check.
-/

namespace OpenTlv

namespace Worklist

variable {α ε : Type} [DecidableEq α]

/-- Queue the nodes that are not known yet. -/
def enqueue (capacity : Nat) (full : ε) : List α → List α → Except ε (List α)
  | [], known => .ok known
  | node :: rest, known =>
    if node ∈ known then enqueue capacity full rest known
    else if known.length = capacity then .error full
    else enqueue capacity full rest (known ++ [node])

/-- Check the nodes from a position of the queue on, and queue what they lead to. -/
def explore (capacity : Nat) (full : ε) (check : α → Except ε Unit) (next : α → List α) :
    Nat → Nat → List α → Except ε (List α)
  | 0, _, known => .ok known
  | fuel + 1, position, known =>
    match known[position]? with
    | none => .ok known
    | some node => do
        check node
        let known ← enqueue capacity full (next node) known
        explore capacity full check next fuel (position + 1) known

/-- The nodes that a root leads to. -/
def Reaches (next : α → List α) : α → α → Prop :=
  Relation.ReflTransGen fun node other => other ∈ next node

variable {capacity : Nat} {full : ε} {check : α → Except ε Unit} {next : α → List α} {root : α}

/-- Some nodes that the root leads to, each once. -/
structure Known (next : α → List α) (root : α) (known : List α) : Prop where
  nodup : known.Nodup
  reaches : ∀ node ∈ known, Reaches next root node

omit [DecidableEq α] in
/-- A new reachable node keeps the list known. -/
theorem Known.push {known : List α} {node : α} (h : Known next root known)
    (hnew : node ∉ known) (hreaches : Reaches next root node) :
    Known next root (known ++ [node]) where
  nodup := by
    rw [List.nodup_append]
    refine ⟨h.nodup, List.nodup_singleton node, fun other hother last hlast hsame => ?_⟩
    rw [List.mem_singleton.mp hlast] at hsame
    exact hnew (hsame ▸ hother)
  reaches other hother := by
    rcases List.mem_append.mp hother with hold | hlast
    · exact h.reaches other hold
    · rw [List.mem_singleton.mp hlast]
      exact hreaches

/-- Queueing finds room for all nodes, or there are more of them than the queue holds. -/
theorem enqueue_cases {nodes known : List α} (h : Known next root known)
    (hnodes : ∀ node ∈ nodes, Reaches next root node) (hroom : known.length ≤ capacity) :
    (∃ queued, enqueue capacity full nodes known = .ok queued ∧ known <+: queued ∧
        Known next root queued ∧ queued.length ≤ capacity ∧ ∀ node ∈ nodes, node ∈ queued) ∨
      (enqueue capacity full nodes known = .error full ∧
        ∃ many, Known next root many ∧ many.length = capacity + 1) := by
  induction nodes generalizing known with
  | nil => exact .inl ⟨known, rfl, List.prefix_refl _, h, hroom, fun _ hmem => by cases hmem⟩
  | cons node rest ih =>
    have hrest : ∀ other ∈ rest, Reaches next root other := fun other hother =>
      hnodes other (List.mem_cons_of_mem _ hother)
    unfold enqueue
    by_cases hmem : node ∈ known
    · rw [if_pos hmem]
      rcases ih h hrest hroom with ⟨queued, hqueue, hfront, hknown, hlength, hall⟩ | hfull
      · refine .inl ⟨queued, hqueue, hfront, hknown, hlength, fun other hother => ?_⟩
        cases hother with
        | head => exact hfront.subset hmem
        | tail _ hother => exact hall other hother
      · exact .inr hfull
    · have hpush := h.push hmem (hnodes node List.mem_cons_self)
      have hpushed : (known ++ [node]).length = known.length + 1 := by
        rw [List.length_append, List.length_singleton]
      rw [if_neg hmem]
      by_cases hfull : known.length = capacity
      · rw [if_pos hfull]
        exact .inr ⟨rfl, known ++ [node], hpush, by omega⟩
      · rw [if_neg hfull]
        rcases ih hpush hrest (by omega) with
          ⟨queued, hqueue, hfront, hknown, hlength, hall⟩ | hmany
        · refine .inl ⟨queued, hqueue, (List.prefix_append _ _).trans hfront, hknown, hlength,
            fun other hother => ?_⟩
          cases hother with
          | head => exact hfront.subset (by simp)
          | tail _ hother => exact hall other hother
        · exact .inr hmany

/-- Nodes that passed their check and lead to known nodes only. -/
def Done (check : α → Except ε Unit) (next : α → List α) (known done : List α) : Prop :=
  ∀ node ∈ done, check node = .ok () ∧ ∀ other ∈ next node, other ∈ known

/-- How a search ends from a position on: with a closed queue, at a node that fails its check, or
with more nodes than the queue holds. -/
theorem explore_cases {fuel position : Nat} {known : List α} (h : Known next root known)
    (hroom : known.length ≤ capacity) (hfuel : capacity ≤ position + fuel)
    (hdone : Done check next known (known.take position)) :
    (∃ found, explore capacity full check next fuel position known = .ok found ∧
        known <+: found ∧ Known next root found ∧ found.length ≤ capacity ∧
        Done check next found found) ∨
      ∃ failure, explore capacity full check next fuel position known = .error failure ∧
        ((∃ node, Reaches next root node ∧ check node = .error failure) ∨
          ∃ many, Known next root many ∧ many.length = capacity + 1) := by
  induction fuel generalizing position known with
  | zero =>
    rw [List.take_of_length_le (by omega)] at hdone
    exact .inl ⟨known, rfl, List.prefix_refl _, h, hroom, hdone⟩
  | succ fuel ih =>
    unfold explore
    cases hnode : known[position]? with
    | none =>
      rw [List.take_of_length_le (List.getElem?_eq_none_iff.mp hnode)] at hdone
      exact .inl ⟨known, rfl, List.prefix_refl _, h, hroom, hdone⟩
    | some node =>
      obtain ⟨hless, hget⟩ := List.getElem?_eq_some_iff.mp hnode
      have hreaches := h.reaches node (List.mem_of_getElem? hnode)
      dsimp only
      cases hcheck : check node with
      | error failure => exact .inr ⟨failure, rfl, .inl ⟨node, hreaches, hcheck⟩⟩
      | ok accepted =>
        have hnext : ∀ other ∈ next node, Reaches next root other := fun other hother =>
          Relation.ReflTransGen.tail hreaches hother
        rcases @enqueue_cases α ε _ capacity full next root _ _ h hnext hroom with
          ⟨queued, hqueue, hfront, hqueued, hlength, hall⟩ | ⟨hqueue, hmany⟩
        · -- the node at the position joins the ones that are done
          have htaken : queued.take (position + 1) = known.take position ++ [node] := by
            obtain ⟨more, rfl⟩ := hfront
            rw [List.take_append_of_le_length hless, List.take_add_one, hnode]
            rfl
          have hdone' : Done check next queued (queued.take (position + 1)) := by
            intro other hother
            rw [htaken] at hother
            rcases List.mem_append.mp hother with hold | hlast
            · obtain ⟨haccepted, hinside⟩ := hdone other hold
              exact ⟨haccepted, fun child hchild => hfront.subset (hinside child hchild)⟩
            · rw [List.mem_singleton.mp hlast]
              exact ⟨hcheck, hall⟩
          rw [hqueue]
          rcases ih hqueued hlength (by omega) hdone' with
            ⟨found, hfound, hlonger, hrest⟩ | hfailed
          · exact .inl ⟨found, hfound, hfront.trans hlonger, hrest⟩
          · exact .inr hfailed
        · rw [hqueue]
          exact .inr ⟨full, rfl, .inr hmany⟩

omit [DecidableEq α] in
/-- A closed queue that holds the root holds what the root leads to. -/
theorem mem_of_done {known : List α} (hroot : root ∈ known) (hdone : Done check next known known)
    {node : α} (h : Reaches next root node) : node ∈ known := by
  induction h with
  | refl => exact hroot
  | tail _ hnext ih => exact (hdone _ ih).2 _ hnext

omit [DecidableEq α] in
/-- The search starts with its root known. -/
theorem known_root (next : α → List α) (root : α) : Known next root [root] :=
  ⟨List.nodup_singleton root, fun node hmem => by
    rw [List.mem_singleton.mp hmem]
    exact .refl⟩

/-- A search from the root succeeds exactly when the nodes that the root reaches fit and pass
their checks. -/
theorem explore_ok_iff {fuel : Nat} (hcapacity : 0 < capacity) (hfuel : capacity ≤ fuel) :
    (∃ found, explore capacity full check next fuel 0 [root] = .ok found) ↔
      {node | Reaches next root node}.encard ≤ capacity ∧
        ∀ node, Reaches next root node → check node = .ok () := by
  have hstart : Done check next [root] (([root] : List α).take 0) := fun node hmem => by cases hmem
  rcases @explore_cases α ε _ capacity full check next root fuel 0 [root]
    (known_root next root) hcapacity (by omega) hstart with
    ⟨found, hfound, hfront, hknown, hlength, hdone⟩ | ⟨failure, hfailure, hwhy⟩
  · have hroot : root ∈ found := hfront.subset (List.mem_singleton_self root)
    refine ⟨fun _ => ⟨?_, fun node hnode => (hdone node (mem_of_done hroot hdone hnode)).1⟩,
      fun _ => ⟨found, hfound⟩⟩
    have hsubset : {node | Reaches next root node} ⊆ (found.toFinset : Set α) := fun node hnode =>
      List.mem_toFinset.mpr (mem_of_done hroot hdone hnode)
    calc {node | Reaches next root node}.encard
        ≤ (found.toFinset : Set α).encard := Set.encard_le_encard hsubset
      _ = (found.toFinset.card : ℕ∞) := Set.encard_coe_eq_coe_finsetCard _
      _ ≤ (found.length : ℕ∞) := by exact_mod_cast found.toFinset_card_le
      _ ≤ (capacity : ℕ∞) := by exact_mod_cast hlength
  · constructor
    · rintro ⟨found, hfound⟩
      rw [hfailure] at hfound
      cases hfound
    · rintro ⟨hsmall, hall⟩
      exfalso
      rcases hwhy with ⟨node, hnode, hcheck⟩ | ⟨many, hmany, hlength⟩
      · rw [hall node hnode] at hcheck
        cases hcheck
      · have hsubset : (many.toFinset : Set α) ⊆ {node | Reaches next root node} :=
          fun node hnode => hmany.reaches node (List.mem_toFinset.mp hnode)
        have hcard : many.toFinset.card = capacity + 1 := by
          rw [List.toFinset_card_of_nodup hmany.nodup, hlength]
        have hle := (Set.encard_le_encard hsubset).trans hsmall
        rw [Set.encard_coe_eq_coe_finsetCard, hcard] at hle
        have : capacity + 1 ≤ capacity := by exact_mod_cast hle
        omega

/-- What a search that succeeds has found. -/
theorem mem_explore_iff {fuel : Nat} {found : List α} (hcapacity : 0 < capacity)
    (hfuel : capacity ≤ fuel)
    (h : explore capacity full check next fuel 0 [root] = .ok found) {node : α} :
    node ∈ found ↔ Reaches next root node := by
  have hstart : Done check next [root] (([root] : List α).take 0) := fun node hmem => by cases hmem
  rcases @explore_cases α ε _ capacity full check next root fuel 0 [root]
    (known_root next root) hcapacity (by omega) hstart with
    ⟨found', hfound, hfront, hknown, -, hdone⟩ | ⟨failure, hfailure, -⟩
  · rw [h] at hfound
    cases hfound
    exact ⟨hknown.reaches node,
      mem_of_done (hfront.subset (List.mem_singleton_self root)) hdone⟩
  · rw [h] at hfailure
    cases hfailure

end Worklist

end OpenTlv
