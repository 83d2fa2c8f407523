import OpenTlv.Document.Batch

/-!
# Runs of a document

Documents are created or parsed and then live through calls in any order: edits, erasures that wait
for the end of a query callback, and callbacks that begin and end. Every reachable document is a
forest, no legal call is undefined, and each call is a step of `Evolves`.
-/

namespace OpenTlv

/-- A call that changes a document, with its arguments. -/
inductive DocumentCall where
  | insert (parent before : Option Place) (element : Element)
  | setValue (node : Place) (value : Bytes)
  | erase (node : Place)
  | editTargets (targets : List Place) (kind : EditKind) (element : Element)
  | enterCallback
  | leaveCallback
  | free

namespace Document

/-- What a call leaves; nothing if it frees the document. -/
def apply (document : Document) : DocumentCall → Option (Option Document)
  | .insert parent before element =>
    (document.insert parent before element).map fun result => some result.2
  | .setValue node value => (document.setValue node value).map fun result => some result.2
  | .erase node => (document.erase node).map some
  | .editTargets targets kind element =>
    (document.editTargets targets kind element).map fun result => some result.2.2
  | .enterCallback => some (some document.enterCallback)
  | .leaveCallback => document.leaveCallback.map Prod.snd
  | .free => document.free

/-- The node is in the document. -/
def Alive (document : Document) (node : Place) : Prop :=
  (document.heap.cells node).isSome

/-- The nodes are found in this order on a walk of the document. -/
def InOrder (document : Document) (nodes : List Place) : Prop :=
  ∃ all, Visits (document.heap.walkNext none document.bound) document.heap.first all none ∧
    nodes.Sublist all

/-- What a caller has to see to: nodes that are passed are in the document, targets are in preorder,
and a callback that ends was begun. -/
def Legal (document : Document) : DocumentCall → Prop
  | .insert parent before _ =>
    (∀ p, parent = some p → document.Alive p) ∧ ∀ b, before = some b → document.Alive b
  | .setValue node _ => document.Alive node
  | .erase node => document.Alive node
  | .editTargets targets _ _ => document.InOrder targets
  | .enterCallback => True
  | .leaveCallback => document.queryCallbacks ≠ 0
  | .free => True

/-- The documents that calls lead to. -/
inductive Reachable : Document → Prop where
  | created {options : DocumentOptions} {allocator : Nat → Option Nat} {document : Document}
      (h : create options allocator = .ok document) : Reachable document
  | parsed {options : DocumentOptions} {allocator : Nat → Option Nat} {data : Bytes}
      {document : Document} (h : parse options allocator data = some (.ok document)) :
      Reachable document
  | called {document after : Document} (h : Reachable document) (call : DocumentCall)
      (hlegal : document.Legal call) (happly : document.apply call = some (some after)) :
      Reachable after

/-- Nodes are marked only while something waits for the end of a callback. -/
structure Settled (document : Document) (forest : LinkForest Place NodeData) : Prop where
  unmarked : document.queryPending = .nothing → Unmarked forest
  pending : document.queryCallbacks = 0 → document.queryPending = .nothing

section Start

variable {options : DocumentOptions} {allocator : Nat → Option Nat} {document : Document}

/-- Nothing is in a new document. -/
theorem create_grows (h : create options allocator = .ok document) (depth : Nat) :
    Grows document document none depth .nil ∧ document.retireEpoch = 0 ∧ document.count = 0 ∧
      document.queryCallbacks = 0 ∧ document.queryPending = .nothing ∧
      document.options = options ∧ ∀ a, document.heap.cells a = none := by
  unfold create at h
  cases hgiven : allocator 0 with
  | none =>
    rw [hgiven] at h
    cases h
  | some address =>
    rw [hgiven] at h
    cases h
    exact ⟨⟨Unedited.refl _, ⟨⟨trivial, rfl, rfl⟩, (fun a ha => by cases ha), fun _ => ⟨rfl, rfl⟩,
      fun _ _ _ _ => rfl⟩, (fun p hp => by cases hp), (fun a ha => by cases ha), List.nodup_nil,
      trivial, (fun item hitem => by cases hitem), rfl, Nat.zero_le _, .inl rfl, List.nodup_nil,
      (fun identity hmem => by cases hmem), Nat.zero_le _⟩, rfl, rfl, rfl, rfl, rfl, fun _ => rfl⟩

/-- What was read into a new document is the document. -/
theorem grows_represents {base : Document} {forest : LinkForest Place NodeData}
    (h : Grows base document none 0 forest) (hdead : ∀ a, base.heap.cells a = none)
    (hcount : base.count = 0) (hepoch : base.retireEpoch = 0) : document.Represents forest := by
  refine ⟨h.edit.lists, ?_, fun hmem => (h.fresh _ hmem).2 rfl, h.nodup, h.typed, ?_, h.room, ?_,
    h.identities, ?_, h.available, ?_⟩
  · intro a ha
    by_contra hnot
    rw [h.edit.frame a (by simp) (by simp) hnot, hdead] at ha
    cases ha
  · have hgrown := h.count
    omega
  · rcases h.height with hnil | hheight
    · rw [hnil]
      exact Nat.zero_le _
    · omega
  · intro identity hmem
    have hissued := h.issued identity hmem
    exact ⟨by omega, hissued.2⟩
  · have hsize := h.issued_size
    have hsame := h.unedited.retireEpoch
    omega

/-- `tlv_document_parse` returns, and what it returns is a document. -/
theorem parse_spec (options : DocumentOptions) (allocator : Nat → Option Nat) (data : Bytes) :
    ∃ result, parse options allocator data = some result ∧
      ∀ document, result = .ok document → ∃ forest, document.Represents forest ∧
        Unmarked forest ∧ document.queryCallbacks = 0 ∧ document.queryPending = .nothing := by
  unfold parse
  cases hcreate : create options allocator with
  | error status => exact ⟨_, rfl, fun document hok => by cases hok⟩
  | ok created =>
    obtain ⟨hgrows, hepoch, hcount, hidle, hpending, -, hdead⟩ := create_grows hcreate 0
    obtain ⟨result, after, list, hparse, hparses⟩ := @Grows.parse_list _ _ _ _ [] hgrows
      (fun level hlevel => by cases hlevel) data
    have hparse' : created.parseList none data 0 = some (result, after) := hparse
    have hbuilt : Grows created after none 0 list := hparses.grows
    have hrepresents := grows_represents hbuilt hdead hcount hepoch
    dsimp only
    rw [hparse']
    cases result with
    | ok done =>
      refine ⟨.ok after, rfl, ?_⟩
      intro document hok
      cases hok
      exact ⟨list, hrepresents, hbuilt.unmarked, hbuilt.unedited.queryCallbacks.trans hidle,
        hbuilt.unedited.queryPending.trans hpending⟩
    | error status =>
      obtain ⟨heap, hdiscard, -⟩ := hbuilt.discard
      refine ⟨.error status, ?_, fun document hok => by cases hok⟩
      have hfree : after.free = some none := by
        rw [free, if_neg (not_not.mpr (hbuilt.unedited.queryCallbacks.trans hidle))]
        simp only [hdiscard, Option.bind_eq_bind, Option.bind_some]
        rfl
      simp only [Option.bind_eq_bind, Option.bind_some, hfree]
      rfl

end Start

section Step

variable {document : Document} {forest : LinkForest Place NodeData}

/-- A walk of the document finds the nodes of its forest in preorder. -/
theorem Represents.in_order (h : document.Represents forest) {nodes : List Place} :
    document.InOrder nodes ↔ nodes.Sublist forest.addrs := by
  have hsize := h.size_lt
  have hvisits : Visits (document.heap.walkNext none document.bound) (forest.firstAddr.or none)
      forest.addrs none :=
    @Holds.visits _ _ _ _ none none none forest h.lists.holds (fun r hr => by cases hr) none 0 _
      ⟨rfl, rfl⟩ (by omega)
  have hfirst : document.heap.first = forest.firstAddr.or none := by
    rw [Option.or_none]
    exact Option.some.inj h.lists.first
  rw [← hfirst] at hvisits
  constructor
  · rintro ⟨all, hall, hsub⟩
    rwa [hall.unique hvisits] at hsub
  · exact fun hsub => ⟨forest.addrs, hvisits, hsub⟩

/-- A call of `tlv_document_free` outside of a callback gives everything back. -/
theorem Represents.free_spec (h : document.Represents forest) (hidle : document.queryCallbacks = 0) :
    document.free = some none := by
  have hsize := h.size_lt
  have hdiscard := discard_children_spec h.lists h.nodup (fun p hp => by cases hp) (by omega)
  rw [free, if_neg (not_not.mpr hidle)]
  simp only [hdiscard, Option.bind_eq_bind, Option.bind_some]
  rfl

theorem Settled.edits (h : Settled document forest) {after : Document}
    {forest' : LinkForest Place NodeData} (hedits : Edits document forest after forest') :
    Settled after forest' :=
  ⟨fun hnone => hedits.unmarked (h.unmarked (hedits.queryPending ▸ hnone)),
    fun hidle => hedits.queryPending.trans (h.pending (hedits.queryCallbacks ▸ hidle))⟩

/-- Inside of a callback an erased node is marked, and nothing else happens. -/
theorem Represents.erase_marks {context : LinkContext Place NodeData}
    {left inner right : LinkForest Place NodeData} {node : Place} {data : NodeData}
    (h : document.Represents (context.plug (left.append (.node node data inner right))))
    (hactive : document.queryCallbacks ≠ 0) :
    ∃ heap, document.erase node = some { document with
        heap := heap
        queryPending := if document.queryPending = .nothing then .erase else document.queryPending } ∧
      { document with heap := heap }.Represents (context.plug (left.append
        (.node node { data with pendingErase := true } inner right))) := by
  obtain ⟨heap, hmodify, hrepresents⟩ := @Represents.set_data document context left inner right node
    data h (fun item => { item with pendingErase := true }) rfl rfl fun hconstructed =>
      (typed_append.mp (typed_list h.typed)).2.2.1 hconstructed
  refine ⟨heap, ?_, hrepresents⟩
  rw [erase, if_pos hactive, hmodify]
  rfl

/-- A legal call is defined. It frees the document or is a step of it. -/
theorem Represents.apply_spec (h : document.Represents forest) (hsettled : Settled document forest)
    (call : DocumentCall) (hlegal : document.Legal call) :
    ∃ result, document.apply call = some result ∧ ∀ after, result = some after →
      ∃ forest', Evolves document forest after forest' ∧ Settled after forest' := by
  -- an edit that is not deferred leaves a settled tree
  have hedited : ∀ {after : Document} {forest' : LinkForest Place NodeData},
      Edits document forest after forest' →
      ∀ other, some after = some other →
        ∃ forest', Evolves document forest other forest' ∧ Settled other forest' := by
    intro after forest' hedits other hother
    cases hother
    exact ⟨forest', hedits.toEvolves, hsettled.edits hedits⟩
  cases call with
  | insert parent before element =>
    obtain ⟨result, hinsert, hcases⟩ := h.insert_spec hlegal.1 hlegal.2 element
    refine ⟨some result.2, by rw [apply, hinsert]; rfl, ?_⟩
    rcases hcases with ⟨status, after, rfl, hfails⟩ |
      ⟨context, left, right, rfl, -, -, hinserts⟩
    · exact hedited (h.edits_failure hfails)
    · obtain ⟨forest', hedits⟩ := hinserts.edits h
      exact hedited hedits
  | setValue node value =>
    obtain ⟨context, left, data, inner, right, rfl, -⟩ := h.node hlegal
    obtain ⟨result, hset, hsets⟩ := h.set_value_spec value
    obtain ⟨forest', hedits⟩ := hsets.edits h
    exact ⟨some result.2, by rw [apply, hset]; rfl, hedited hedits⟩
  | erase node =>
    obtain ⟨context, left, data, inner, right, rfl, -⟩ := h.node hlegal
    by_cases hidle : document.queryCallbacks = 0
    · obtain ⟨after, herase, hedits, -⟩ := h.erase_now_edits
      refine ⟨some after, ?_, hedited hedits⟩
      rw [apply, erase, if_neg (not_not.mpr hidle), herase]
      rfl
    · obtain ⟨heap, herase, hrepresents⟩ := h.erase_marks hidle
      refine ⟨_, by rw [apply, herase]; rfl, ?_⟩
      intro after hafter
      cases hafter
      refine ⟨_, ⟨hrepresents.congr rfl rfl rfl rfl (Nat.le_refl _) h.available, rfl,
        Nat.le_refl _, Nat.le_refl _, Nat.le_refl _, ?_, ?_⟩, ?_, fun hcon => absurd hcon hidle⟩
      · intro _ other hother
        rw [nodes_plug, nodes_append, nodes_node] at hother ⊢
        exact hother
      · intro other hother _
        rw [nodes_plug, nodes_append, nodes_node] at hother ⊢
        exact hother
      · intro hnothing
        have hpending : (if document.queryPending = .nothing then QueryPending.erase
          else document.queryPending) = .nothing := hnothing
        split at hpending
        · cases hpending
        next hsome => exact absurd hpending hsome
  | editTargets targets kind element =>
    obtain ⟨result, applied, after, forest', hedit, hedits⟩ :=
      h.edit_targets (h.in_order.mp hlegal) kind element
    exact ⟨some after, by rw [apply, hedit]; rfl, hedited hedits⟩
  | enterCallback =>
    refine ⟨some document.enterCallback, rfl, ?_⟩
    intro after hafter
    cases hafter
    refine ⟨forest, ⟨h.congr rfl rfl rfl rfl (Nat.le_refl _) h.available, rfl, Nat.le_refl _,
      Nat.le_refl _, Nat.le_refl _, fun _ _ hnode => hnode, fun _ hnode _ => hnode⟩,
      hsettled.unmarked, fun hidle => ?_⟩
    exact absurd hidle (Nat.succ_ne_zero _)
  | leaveCallback =>
    -- only the outermost callback does what has waited
    obtain ⟨active, hactive⟩ := Nat.exists_eq_succ_of_ne_zero hlegal
    cases active with
    | succ active =>
      refine ⟨_, by rw [apply, leave_inner hactive]; rfl, ?_⟩
      intro after hafter
      cases hafter
      exact ⟨forest, ⟨h.congr rfl rfl rfl rfl (Nat.le_refl _) h.available, rfl, Nat.le_refl _,
        Nat.le_refl _, Nat.le_refl _, fun _ _ hnode => hnode, fun _ hnode _ => hnode⟩,
        hsettled.unmarked, fun hidle => absurd hidle (Nat.succ_ne_zero _)⟩
    | zero =>
      have hidled : document.idled.Represents forest :=
        h.congr rfl rfl rfl rfl (Nat.le_refl _) h.available
      have hevolves : Evolves document forest document.idled forest :=
        ⟨hidled, rfl, Nat.le_refl _, Nat.le_refl _, Nat.le_refl _, fun _ _ hnode => hnode,
          fun _ hnode _ => hnode⟩
      have hleave := leave_outer hactive
      cases hpending : document.queryPending with
      | nothing =>
        rw [hpending] at hleave
        refine ⟨_, by rw [apply, hleave]; rfl, ?_⟩
        intro after hafter
        cases hafter
        exact ⟨forest, hevolves, fun _ => hsettled.unmarked hpending, fun _ => rfl⟩
      | free =>
        rw [hpending] at hleave
        simp only [hidled.free_spec rfl] at hleave
        exact ⟨none, by rw [apply, hleave]; rfl, fun after hafter => by cases hafter⟩
      | erase =>
        rw [hpending] at hleave
        obtain ⟨swept, hsweep, hedits, -⟩ := hidled.sweep rfl
        have hsweep' : erasePending document.bound document.idled document.heap.first =
            some swept := hsweep
        rw [hsweep'] at hleave
        refine ⟨some swept, by rw [apply, hleave]; rfl, ?_⟩
        intro after hafter
        cases hafter
        refine ⟨forest.prune Marked, hevolves.trans hedits.toEvolves, ?_, ?_⟩
        · exact fun _ item hitem => (forest.prune_subset item hitem).2
        · exact fun _ => hedits.queryPending.trans rfl
  | free =>
    by_cases hidle : document.queryCallbacks = 0
    · exact ⟨none, h.free_spec hidle, fun after hafter => by cases hafter⟩
    · refine ⟨some { document with queryPending := .free }, ?_, ?_⟩
      · rw [apply, free, if_pos hidle]
      · intro after hafter
        cases hafter
        exact ⟨forest, ⟨h.congr rfl rfl rfl rfl (Nat.le_refl _) h.available, rfl, Nat.le_refl _,
          Nat.le_refl _, Nat.le_refl _, fun _ _ hnode => hnode, fun _ hnode _ => hnode⟩,
          (fun hnothing => by cases hnothing), fun hcon => absurd hcon hidle⟩

end Step

/-- A reachable document is a forest, and nodes are marked only while something waits. -/
theorem Reachable.represents {document : Document} (h : Reachable document) :
    ∃ forest, document.Represents forest ∧ Settled document forest := by
  induction h with
  | created h =>
    obtain ⟨hgrows, hepoch, hcount, hidle, hpending, -, hdead⟩ := create_grows h 0
    exact ⟨.nil, grows_represents hgrows hdead hcount hepoch, fun _ => hgrows.unmarked,
      fun _ => hpending⟩
  | @parsed options allocator data document h =>
    obtain ⟨result, hparse, hresult⟩ := parse_spec options allocator data
    rw [hparse] at h
    obtain ⟨forest, hrepresents, hunmarked, -, hpending⟩ :=
      hresult document (Option.some.inj h)
    exact ⟨forest, hrepresents, fun _ => hunmarked, fun _ => hpending⟩
  | called _ call hlegal happly ih =>
    obtain ⟨forest, hrepresents, hsettled⟩ := ih
    obtain ⟨result, hcall, hresult⟩ := hrepresents.apply_spec hsettled call hlegal
    rw [hcall] at happly
    obtain ⟨forest', hevolves, hsettled'⟩ := hresult _ (Option.some.inj happly)
    exact ⟨forest', hevolves.represents, hsettled'⟩

/-- Every document that calls lead to is a well-formed ordered tree, also after calls that failed,
and no legal call on it is undefined. -/
theorem document_well_formed {document : Document} (h : Reachable document) :
    (∃ forest, document.Represents forest) ∧
      ∀ call, document.Legal call → (document.apply call).isSome := by
  obtain ⟨forest, hrepresents, hsettled⟩ := h.represents
  refine ⟨⟨forest, hrepresents⟩, fun call hlegal => ?_⟩
  obtain ⟨result, happly, -⟩ := hrepresents.apply_spec hsettled call hlegal
  simp [happly]

/-- A small document with a location for each element. -/
def sampleOptions : DocumentOptions where
  format := formatDer
  maxDepth := 4
  maxElements := 8
  retainSourceLocations := true
  maxDepth_le := by decide
  maxElements_le := by decide

/-- A sequence with one octet string inside. -/
def sampleOctets : Bytes :=
  [0x30, 0x03, 0x04, 0x01, 0xAA]

/-- A document that was parsed and then lost its only root. -/
theorem document_well_formed_sample :
    ∃ document : Document, (∃ forest, document.Represents forest) ∧ document.retireEpoch = 1 := by
  have hparse : ∃ document, parse sampleOptions some sampleOctets = some (.ok document) ∧
      ∃ after, document.apply (.erase (.block 2)) = some (some after) ∧ after.retireEpoch = 1 ∧
        document.Alive (.block 2) := ⟨_, rfl, _, rfl, rfl, rfl⟩
  obtain ⟨document, hparse, after, herase, hepoch, halive⟩ := hparse
  exact ⟨after, (document_well_formed
    (.called (.parsed hparse) (.erase (.block 2)) halive herase)).1, hepoch⟩

/-- The tree with its addresses, tags, values and locations, and the counters, are as they were. -/
structure Unchanged (document after : Document) : Prop where
  heap : after.heap = document.heap
  locations : ∀ node, document.Alive node → after.sourceLocation node = document.sourceLocation node
  count : after.count = document.count
  revision : after.revision = document.revision
  retireEpoch : after.retireEpoch = document.retireEpoch

theorem Fails.unchanged {document after : Document} (h : Fails document after) :
    Unchanged document after := by
  refine ⟨h.heap, fun node halive => ?_, h.count, h.unedited.revision, h.unedited.retireEpoch⟩
  rw [sourceLocation, sourceLocation, h.unedited.options, h.unedited.locations node halive]

/-- An insertion or a value that fails changes nothing, wherever it fails. -/
theorem failed_edit_unchanged {document : Document} (h : Reachable document) :
    (∀ parent before element status after, document.Legal (.insert parent before element) →
      document.insert parent before element = some (.error status, after) →
      Unchanged document after) ∧
    ∀ node value status after, document.Legal (.setValue node value) →
      document.setValue node value = some (.error status, after) → Unchanged document after := by
  obtain ⟨forest, hrepresents, -⟩ := h.represents
  constructor
  · intro parent before element status after hlegal hinsert
    obtain ⟨result, hcall, hcases⟩ := hrepresents.insert_spec hlegal.1 hlegal.2 element
    rw [hcall] at hinsert
    cases hinsert
    rcases hcases with ⟨status, after, heq, hfails⟩ | ⟨context, left, right, -, -, -, hinserts⟩
    · cases heq
      exact hfails.unchanged
    · cases hinserts with
      | failed hfails => exact hfails.unchanged
  · intro node value status after hlegal hset
    obtain ⟨context, left, data, inner, right, rfl, -⟩ := hrepresents.node hlegal
    obtain ⟨result, hcall, hsets⟩ := hrepresents.set_value_spec value
    rw [hcall] at hset
    cases hset
    cases hsets with
    | failed hfails => exact hfails.unchanged

/-- The sequence of an integer is built before the octet string behind it is cut off. -/
theorem failed_edit_unchanged_sample :
    ∃ document status after, document.setValue (.block 2)
        [0x30, 0x03, 0x02, 0x01, 0x05, 0x04, 0x02, 0xAA] = some (.error status, after) ∧
      document.allocations + 2 ≤ after.allocations ∧ Unchanged document after := by
  have hparse : ∃ document, parse sampleOptions some sampleOctets = some (.ok document) ∧
      document.Alive (.block 2) ∧ ∃ status after, document.setValue (.block 2)
        [0x30, 0x03, 0x02, 0x01, 0x05, 0x04, 0x02, 0xAA] = some (.error status, after) ∧
          document.allocations + 2 ≤ after.allocations :=
    ⟨_, rfl, rfl, _, _, rfl, by decide⟩
  obtain ⟨document, hparse, halive, status, after, hset, hasked⟩ := hparse
  exact ⟨document, status, after, hset, hasked,
    (failed_edit_unchanged (.parsed hparse)).2 _ _ _ _ halive hset⟩

end Document

end OpenTlv
