import OpenTlv.Document.Runs

/-!
# Erasures inside of callbacks

While query callbacks are active, at any nesting, the calls of a document only mark nodes. When the
outermost callback ends, what is left is the forest without the subtrees of the marked nodes,
whatever the order in which they were marked.
-/

namespace OpenTlv

/-- A node that is to be erased is marked. -/
def markBy (erased : List Place) (addr : Place) (data : NodeData) : NodeData :=
  if addr ∈ erased then { data with pendingErase := true } else data

/-- The nodes that calls were to erase. -/
def erasedBy (calls : List DocumentCall) : List Place :=
  calls.filterMap fun call =>
    match call with
    | .erase node => some node
    | _ => none

theorem erased_by_append (calls more : List DocumentCall) :
    erasedBy (calls ++ more) = erasedBy calls ++ erasedBy more :=
  List.filterMap_append

namespace Document

/-- Legal calls after each of which a callback is still active, and none that frees the document. -/
inductive InCallbacks (document : Document) : List DocumentCall → Document → Prop where
  | start : InCallbacks document [] document
  | called {calls : List DocumentCall} {middle after : Document}
      (h : InCallbacks document calls middle) (call : DocumentCall) (hlegal : middle.Legal call)
      (hfree : call ≠ .free) (happly : middle.apply call = some (some after))
      (hactive : after.queryCallbacks ≠ 0) : InCallbacks document (calls ++ [call]) after

section Marks

variable {document : Document} {forest : LinkForest Place NodeData} {erased : List Place}

/-- What active callbacks leave of a document: only marks are new. -/
structure Waiting (document : Document) (forest : LinkForest Place NodeData) (erased : List Place)
    (during : Document) : Prop where
  represents : during.Represents (forest.map (markBy erased))
  active : during.queryCallbacks ≠ 0
  pending : during.queryPending = if erased = [] then .nothing else .erase
  options : during.options = document.options
  count : during.count = document.count
  revision : during.revision = document.revision
  retireEpoch : during.retireEpoch = document.retireEpoch
  locations : during.locations = document.locations

/-- One more node is marked. -/
theorem mark_node {context : LinkContext Place NodeData}
    {left inner right : LinkForest Place NodeData}
    {node : Place} {data : NodeData}
    (hforest : forest.map (markBy erased) =
      context.plug (left.append (.node node data inner right)))
    (hnodup : (forest.map (markBy erased)).addrs.Nodup) :
    context.plug (left.append (.node node { data with pendingErase := true } inner right)) =
      forest.map (markBy (erased ++ [node])) := by
  obtain ⟨mark, hmark⟩ : ∃ mark : Place → NodeData → NodeData, mark = fun addr data =>
      if addr = node then { data with pendingErase := true } else data := ⟨_, rfl⟩
  have hself : ∀ data, mark node data = { data with pendingErase := true } := by
    intro data
    rw [hmark]
    exact if_pos rfl
  have hother : ∀ item : Place × NodeData, item.1 ≠ node → mark item.1 item.2 = item.2 := by
    intro item hne
    rw [hmark]
    exact if_neg hne
  rw [hforest] at hnodup
  obtain ⟨-, hlist, hapart⟩ := List.nodup_append.mp
    ((context.addrs_plug (left.append (.node node data inner right))).nodup_iff.mp hnodup)
  have haddr : ∀ {list : LinkForest Place NodeData} {item : Place × NodeData}, item ∈ list.items →
      item.1 ∈ list.addrs := by
    intro list item hitem
    rw [← list.items_addrs]
    exact List.mem_map_of_mem hitem
  have hkeep : ∀ list : LinkForest Place NodeData, node ∉ list.addrs → list.map mark = list := by
    intro list hnot
    refine (LinkForest.map_congr fun item hitem => ?_).trans (LinkForest.map_id list)
    exact hother item fun heq => hnot (heq ▸ haddr hitem)
  rw [LinkForest.addrs_append, LinkForest.addrs_node] at hlist
  obtain ⟨-, hnode, hleft⟩ := List.nodup_append.mp hlist
  obtain ⟨hnot, -⟩ := List.nodup_cons.mp hnode
  have hplug := @LinkForest.map_plug _ _ mark context (left.append (.node node data inner right))
    (fun item hitem => hother item fun heq => by
      refine hapart item.1 (List.mem_map_of_mem hitem) node ?_ heq
      simp)
  rw [LinkForest.map_append, LinkForest.map, hself,
    hkeep left fun hin => hleft node hin node List.mem_cons_self rfl,
    hkeep inner fun hin => hnot (List.mem_append_left _ hin),
    hkeep right fun hin => hnot (List.mem_append_right _ hin)] at hplug
  rw [← hplug, ← hforest, LinkForest.map_map]
  refine LinkForest.map_congr fun item _ => ?_
  obtain ⟨addr, old⟩ := item
  rw [hmark]
  simp only [markBy, List.mem_append, List.mem_singleton]
  by_cases heq : addr = node
  · by_cases hin : addr ∈ erased <;> simp [heq, heq ▸ hin]
  · simp [heq]

/-- A call inside of a callback marks a node or does nothing. -/
theorem Waiting.called {during after : Document} (h : Waiting document forest erased during)
    {call : DocumentCall} (hlegal : during.Legal call) (hfree : call ≠ .free)
    (happly : during.apply call = some (some after)) (hactive : after.queryCallbacks ≠ 0) :
    Waiting document forest (erased ++ erasedBy [call]) after := by
  have hsame : ∀ {call : DocumentCall} {after : Document}, erasedBy [call] = [] →
      Waiting document forest erased after →
      Waiting document forest (erased ++ erasedBy [call]) after := by
    intro call after hnone hafter
    rw [hnone, List.append_nil]
    exact hafter
  cases call with
  | insert parent before element =>
    have hcall : during.insert parent before element = some (.error .invalidState, during) :=
      if_pos h.active
    rw [apply, hcall] at happly
    cases happly
    exact hsame rfl h
  | setValue node value =>
    have hcall : during.setValue node value = some (.error .invalidState, during) :=
      if_pos h.active
    rw [apply, hcall] at happly
    cases happly
    exact hsame rfl h
  | editTargets targets kind element =>
    have hcall : during.editTargets targets kind element =
        some (.error .invalidState, 0, during) := if_pos h.active
    rw [apply, hcall] at happly
    cases happly
    exact hsame rfl h
  | erase node =>
    obtain ⟨context, left, data, inner, right, hforest, -⟩ := h.represents.node hlegal
    have hrepresents := h.represents
    have hmark := mark_node hforest h.represents.nodup
    rw [hforest] at hrepresents
    obtain ⟨heap, herase, hmarked⟩ := hrepresents.erase_marks h.active
    rw [apply, herase] at happly
    cases happly
    rw [hmark] at hmarked
    refine ⟨hmarked.congr rfl rfl rfl rfl (Nat.le_refl _) hmarked.available, h.active, ?_,
      h.options, h.count, h.revision, h.retireEpoch, h.locations⟩
    show (if during.queryPending = .nothing then QueryPending.erase else during.queryPending) = _
    rw [h.pending, if_neg (show ¬ erased ++ erasedBy [.erase node] = [] by simp [erasedBy])]
    split <;> simp_all
  | enterCallback =>
    cases happly
    exact hsame rfl ⟨h.represents.congr rfl rfl rfl rfl (Nat.le_refl _) h.represents.available,
      hactive, h.pending, h.options, h.count, h.revision, h.retireEpoch, h.locations⟩
  | leaveCallback =>
    obtain ⟨active, hcount⟩ := Nat.exists_eq_succ_of_ne_zero h.active
    cases active with
    | succ active =>
      rw [apply, leave_inner hcount] at happly
      cases happly
      exact hsame rfl ⟨h.represents.congr rfl rfl rfl rfl (Nat.le_refl _)
        h.represents.available, hactive, h.pending, h.options, h.count, h.revision,
        h.retireEpoch, h.locations⟩
    | zero =>
      -- the outermost callback would end
      obtain ⟨swept, hsweep, -, hswept, -⟩ := @Represents.sweep during.idled _
        (h.represents.congr rfl rfl rfl rfl (Nat.le_refl _) h.represents.available) rfl
      have hsweep' : erasePending during.bound during.idled during.heap.first = some swept :=
        hsweep
      rw [apply, leave_outer hcount, h.pending] at happly
      by_cases hnone : erased = []
      · rw [if_pos hnone] at happly
        cases happly
        exact absurd rfl hactive
      · rw [if_neg hnone, hsweep'] at happly
        cases happly
        exact absurd hswept.keeps.queryCallbacks hactive
  | free => exact absurd rfl hfree

/-- Calls inside a callback leave the document waiting for the sweep. -/
theorem InCallbacks.waiting {calls : List DocumentCall} {entered during : Document}
    (hrun : InCallbacks entered calls during) (h : Waiting document forest [] entered) :
    Waiting document forest (erasedBy calls) during := by
  induction hrun with
  | start => exact h
  | called _ call hlegal hfree happly hactive ih =>
    have hafter := ih.called hlegal hfree happly hactive
    rwa [← erased_by_append] at hafter

end Marks

/-- Nothing happens to the tree while callbacks are active. When the outermost one ends, the
subtrees of all nodes that were to be erased are taken out, and on the way each node is looked at
once, in preorder, and none inside of a node that was taken out. -/
theorem deferred_erasure {document : Document} (h : Reachable document)
    (hidle : document.queryCallbacks = 0) :
    ∃ forest, document.Represents forest ∧ ∀ calls during,
      InCallbacks document.enterCallback calls during →
      Waiting document forest (erasedBy calls) during ∧
      (during.queryCallbacks = 1 → ∃ pending after,
        during.leaveCallback = some (pending, some after) ∧
        after.Represents (forest.prune fun addr _ => decide (addr ∈ erasedBy calls)) ∧
        after.count + (forest.pruned fun addr _ => decide (addr ∈ erasedBy calls)).length =
          document.count ∧
        Unmarked (forest.prune fun addr _ => decide (addr ∈ erasedBy calls)) ∧
        after.queryCallbacks = 0 ∧ after.queryPending = .nothing ∧
        (pending = .erase → visited during.bound during.idled during.heap.first =
            forest.met fun addr _ => decide (addr ∈ erasedBy calls)) ∧
        (forest.met fun addr _ => decide (addr ∈ erasedBy calls)).Nodup) := by
  obtain ⟨forest, hrepresents, hsettled⟩ := h.represents
  have hpending := hsettled.pending hidle
  have hunmarked := hsettled.unmarked hpending
  refine ⟨forest, hrepresents, fun calls during hrun => ?_⟩
  have hentered : Waiting document forest [] document.enterCallback := by
    refine ⟨?_, Nat.succ_ne_zero _, hpending, rfl, rfl, rfl, rfl, rfl⟩
    have hnone : forest.map (markBy []) = forest :=
      (LinkForest.map_congr fun item _ => by simp [markBy]).trans (LinkForest.map_id forest)
    rw [hnone]
    exact hrepresents.congr rfl rfl rfl rfl (Nat.le_refl _) hrepresents.available
  have hwaiting := hrun.waiting hentered
  refine ⟨hwaiting, fun houter => ?_⟩
  generalize erasedBy calls = erased at hwaiting ⊢
  have hmet : (forest.met fun addr _ => decide (addr ∈ erased)).Nodup :=
    hrepresents.nodup.sublist forest.met_sublist
  have hmarks := @LinkForest.prune_map _ _ (markBy erased) Marked
    (fun addr _ => decide (addr ∈ erased)) forest (fun item hitem => by
      have hnone := hunmarked item hitem
      simp only [Marked, markBy, decide_eq_false_iff_not]
      by_cases hin : item.1 ∈ erased <;> simp [hin, hnone])
  have hsize := @LinkForest.size_prune _ _ (fun addr _ => decide (addr ∈ erased)) forest
  have hleave := leave_outer houter
  have hidled : during.idled.Represents (forest.map (markBy erased)) :=
    hwaiting.represents.congr rfl rfl rfl rfl (Nat.le_refl _) hwaiting.represents.available
  rw [hwaiting.pending] at hleave
  by_cases hnothing : erased = []
  · subst hnothing
    rw [if_pos rfl] at hleave
    have hnone : forest.map (markBy []) = forest :=
      (LinkForest.map_congr fun item _ => by simp [markBy]).trans (LinkForest.map_id forest)
    have hall := @LinkForest.prune_none _ _ (fun addr _ => decide (addr ∈ ([] : List Place))) forest
      fun _ _ => by simp
    rw [hall] at hsize ⊢
    rw [hnone] at hidled
    refine ⟨.nothing, during.idled, hleave, hidled, ?_, hunmarked, rfl, rfl,
      (fun hcon => by cases hcon), hmet⟩
    show during.count + _ = document.count
    rw [hwaiting.count, hrepresents.count]
    omega
  · rw [if_neg hnothing] at hleave
    obtain ⟨swept, hsweep, hedits, hswept, hvisited⟩ := hidled.sweep rfl
    rw [hmarks.1] at hedits
    rw [hmarks.2] at hvisited
    have hsweep' : erasePending during.bound during.idled during.heap.first = some swept := hsweep
    rw [hsweep'] at hleave
    refine ⟨.erase, swept, hleave, hedits.represents, ?_, ?_, hswept.keeps.queryCallbacks,
      hswept.keeps.queryPending, fun _ => hvisited, hmet⟩
    · rw [hedits.represents.count, hrepresents.count, hsize]
    · intro item hitem
      exact hunmarked item (forest.prune_subset item hitem).1

/-- A sequence of an octet string and an inner sequence, which has an integer. -/
def innerOctets : Bytes :=
  [0x30, 0x08, 0x04, 0x01, 0xAA, 0x30, 0x03, 0x02, 0x01, 0x05]

/-- The integer is erased, then the sequence that it lies in, and then the integer again. -/
theorem deferred_erasure_sample :
    ∃ (document during after : Document) (pending : QueryPending)
      (forest : LinkForest Place NodeData), document.Represents forest ∧ document.count = 4 ∧
      InCallbacks document.enterCallback
        [.erase (.block 6), .erase (.block 5), .erase (.block 6)] during ∧
      during.leaveCallback = some (pending, some after) ∧ after.count = 2 ∧
      after.Represents (forest.prune fun addr _ => decide (addr = .block 5 ∨ addr = .block 6)) := by
  have hsample : ∃ document, parse sampleOptions some innerOctets = some (.ok document) ∧
      document.queryCallbacks = 0 ∧ document.count = 4 ∧
      document.enterCallback.Alive (.block 6) ∧
      ∃ first, document.enterCallback.apply (.erase (.block 6)) = some (some first) ∧
        first.queryCallbacks ≠ 0 ∧ first.Alive (.block 5) ∧
      ∃ second, first.apply (.erase (.block 5)) = some (some second) ∧
        second.queryCallbacks ≠ 0 ∧ second.Alive (.block 6) ∧
      ∃ during, second.apply (.erase (.block 6)) = some (some during) ∧
        during.queryCallbacks = 1 ∧ ∃ pending after,
          during.leaveCallback = some (pending, some after) ∧ after.count = 2 :=
    ⟨_, rfl, rfl, rfl, rfl, _, rfl, by decide, rfl, _, rfl, by decide, rfl, _, rfl, rfl, _, _, rfl,
      rfl⟩
  obtain ⟨document, hparse, hidle, hcount, halive, first, hfirst, hactive, hinner, second, hsecond,
    hstill, hagain, during, hduring, hone, pending, after, hleave, hleft⟩ := hsample
  obtain ⟨forest, hrepresents, hrun⟩ := deferred_erasure (.parsed hparse) hidle
  have hfirst := InCallbacks.called .start (.erase (.block 6)) halive
    (fun hcon => by cases hcon) hfirst hactive
  have hsecond := hfirst.called (.erase (.block 5)) hinner (fun hcon => by cases hcon) hsecond
    hstill
  have hcalls := hsecond.called (.erase (.block 6)) hagain (fun hcon => by cases hcon) hduring
    (by omega)
  obtain ⟨-, houter⟩ := hrun _ during hcalls
  obtain ⟨pending', after', hleave', hafter, -⟩ := houter hone
  rw [hleave] at hleave'
  cases hleave'
  refine ⟨document, during, after, pending, forest, hrepresents, hcount, hcalls, hleave, hleft, ?_⟩
  have hmarked : (fun (addr : Place) (_ : NodeData) =>
      decide (addr ∈ erasedBy [.erase (.block 6), .erase (.block 5), .erase (.block 6)])) =
        fun addr _ => decide (addr = .block 5 ∨ addr = .block 6) := by
    funext addr _
    simp only [erasedBy, List.filterMap, List.mem_cons, List.not_mem_nil, or_false]
    exact decide_eq_decide.mpr ⟨by tauto, by tauto⟩
  rw [← hmarked]
  exact hafter

end Document

end OpenTlv
