import OpenTlv.Document.Runs

/-!
# Handles of nodes

A handle of `tlv::node` keeps the address of a node, its identity and the retirement epoch. As long
as the epoch is the one of the document the address is trusted; otherwise `c_node` looks for the
address in the tree and compares the identity, since an address may be that of a later node.
-/

namespace OpenTlv

namespace Document

/-- The loop of `tlv_document_node_identity`. -/
def identityFrom (document : Document) (wanted : Place) : Nat → Option Place → Option Nat
  | _, none => some 0
  | 0, some _ => none
  | fuel + 1, some node => do
      let cell ← document.heap.cells node
      if node = wanted then return cell.data.identity
      else
        let next ← document.heap.walkNext none document.bound node
        document.identityFrom wanted fuel next

/-- `tlv_document_node_identity`. -/
def nodeIdentity (document : Document) (wanted : Place) : Option Nat :=
  document.identityFrom wanted document.bound document.heap.first

end Document

/-- `tlv::node` of a document that is there. -/
structure NodeHandle where
  pointer : Option Place
  identity : Nat
  retireEpoch : Nat
  deriving Repr, DecidableEq

namespace NodeHandle

/-- A handle of a node in the document. -/
def capture (document : Document) (node : Place) : Option NodeHandle :=
  (document.heap.cells node).map fun cell =>
    { pointer := some node, identity := cell.data.identity, retireEpoch := document.retireEpoch }

/-- `node::c_node`, which updates the handle. -/
def cNode (document : Document) (handle : NodeHandle) : Option (Option Place × NodeHandle) :=
  match handle.pointer with
  | none => some (none, handle)
  | some pointer =>
    if handle.retireEpoch ≠ document.retireEpoch then do
      let identity ← document.nodeIdentity pointer
      let found := if identity ≠ handle.identity then none else some pointer
      return (found, { handle with pointer := found, retireEpoch := document.retireEpoch })
    else some (some pointer, handle)

end NodeHandle

namespace Document

/-- A walk of the document finds the node, and it has this identity. -/
def Contains (document : Document) (node : Place) (identity : Nat) : Prop :=
  document.InOrder [node] ∧
    (document.heap.cells node).map (fun cell => cell.data.identity) = some identity

/-- Legal calls lead from one document to another. -/
inductive Run (document : Document) : Document → Prop where
  | start : Run document document
  | called {middle after : Document} (h : Run document middle) (call : DocumentCall)
      (hlegal : middle.Legal call) (happly : middle.apply call = some (some after)) :
      Run document after

/-- Legal calls, and checks of one handle between them in any order. -/
inductive HandleRun (document : Document) (handle : NodeHandle) : Document → NodeHandle → Prop where
  | start : HandleRun document handle document handle
  | called {middle after : Document} {held : NodeHandle} (h : HandleRun document handle middle held)
      (call : DocumentCall) (hlegal : middle.Legal call)
      (happly : middle.apply call = some (some after)) : HandleRun document handle after held
  | checked {middle : Document} {held held' : NodeHandle} {found : Option Place}
      (h : HandleRun document handle middle held) (hcheck : held.cNode middle = some (found, held')) :
      HandleRun document handle middle held'

section Evolution

variable {document after : Document} {forest : LinkForest Place NodeData}

/-- The nodes that a document contains are those of its forest. -/
theorem Represents.contains_iff (h : document.Represents forest) {node : Place} {identity : Nat} :
    document.Contains node identity ↔ (node, identity) ∈ forest.nodes := by
  rw [Contains, h.in_order, List.singleton_sublist, LinkForest.nodes, List.mem_map]
  constructor
  · rintro ⟨hmem, hcell⟩
    rw [← forest.items_addrs, List.mem_map] at hmem
    obtain ⟨item, hitem, rfl⟩ := hmem
    obtain ⟨cell, hfound, hdata⟩ := h.lists.holds.cell_data hitem
    refine ⟨item, hitem, ?_⟩
    rw [hfound, Option.map_some, Option.some.injEq, hdata] at hcell
    rw [hcell]
  · rintro ⟨item, hitem, heq⟩
    cases heq
    obtain ⟨cell, hfound, hdata⟩ := h.lists.holds.cell_data hitem
    refine ⟨?_, by rw [hfound, ← hdata]; rfl⟩
    rw [← forest.items_addrs]
    exact List.mem_map_of_mem hitem

/-- A run is a step of `Evolves`. -/
theorem Run.evolves (hrun : Run document after) (h : document.Represents forest)
    (hsettled : Settled document forest) :
    ∃ forest', Evolves document forest after forest' ∧ Settled after forest' := by
  induction hrun with
  | start => exact ⟨forest, h.evolves_refl, hsettled⟩
  | called _ call hlegal happly ih =>
    obtain ⟨between, hevolves, hsettled'⟩ := ih
    obtain ⟨result, hcall, hresult⟩ := hevolves.represents.apply_spec hsettled' call hlegal
    rw [hcall] at happly
    obtain ⟨forest', hstep, hsettled''⟩ := hresult _ (Option.some.inj happly)
    exact ⟨forest', hevolves.trans hstep, hsettled''⟩

/-- Two nodes of a document with one identity are one node. -/
theorem Represents.identity_unique (h : document.Represents forest) {node node' : Place}
    {identity : Nat} (hnode : (node, identity) ∈ forest.nodes)
    (hnode' : (node', identity) ∈ forest.nodes) : node' = node := by
  obtain ⟨item, hitem, heq⟩ := List.mem_map.mp hnode
  obtain ⟨item', hitem', heq'⟩ := List.mem_map.mp hnode'
  have hsame : item.2.identity = item'.2.identity :=
    (congrArg Prod.snd heq).trans (congrArg Prod.snd heq').symm
  have hitems := List.inj_on_of_nodup_map h.identities hitem hitem' hsame
  rw [← hitems] at heq'
  exact (congrArg Prod.fst heq').symm.trans (congrArg Prod.fst heq)

/-- The identity of a node was issued before. -/
theorem Represents.node_issued (h : document.Represents forest) {node : Place × Nat}
    (hnode : node ∈ forest.nodes) : 0 < node.2 ∧ node.2 ≤ document.nextIdentity := by
  obtain ⟨item, hitem, rfl⟩ := List.mem_map.mp hnode
  exact h.issued _ (List.mem_map_of_mem hitem)

/-- On a walk the identity of the wanted node is found, if it is met. -/
theorem identity_from_visits {wanted : Place} {place : Option Place} {list : List Place}
    {last : Option Place} (h : Visits (document.heap.walkNext none document.bound) place list last)
    (hlast : last = none) (halive : ∀ a ∈ list, document.Alive a) {fuel : Nat}
    (hfuel : list.length ≤ fuel) :
    document.identityFrom wanted fuel place =
      some (if wanted ∈ list then
        ((document.heap.cells wanted).map fun cell => cell.data.identity).getD 0 else 0) := by
  induction h generalizing fuel with
  | done place =>
    subst hlast
    cases fuel <;> simp [identityFrom]
  | @step node place last list hnext hrest ih =>
    obtain ⟨fuel, rfl⟩ : ∃ less, fuel = less + 1 :=
      ⟨fuel - 1, by simp only [List.length_cons] at hfuel; omega⟩
    obtain ⟨cell, hcell⟩ := Option.isSome_iff_exists.mp (halive node List.mem_cons_self)
    simp only [identityFrom, hcell, Option.bind_eq_bind, Option.bind_some]
    by_cases hnode : node = wanted
    · subst hnode
      simp [hcell]
    · rw [if_neg hnode, hnext, Option.bind_some]
      rw [ih hlast (fun a ha => halive a (List.mem_cons_of_mem _ ha)) (by simpa using hfuel)]
      have hne : wanted ≠ node := fun heq => hnode heq.symm
      simp [hne]

/-- The identity read at a place is that of the node there. -/
theorem Represents.node_identity (h : document.Represents forest) (wanted : Place) :
    ∃ identity, document.nodeIdentity wanted = some identity ∧
      ∀ other, 0 < other → (identity = other ↔ (wanted, other) ∈ forest.nodes) := by
  have hsize := h.size_lt
  obtain ⟨all, hvisits, -⟩ := h.in_order.mpr (List.Sublist.refl _)
  have hall : all.Sublist forest.addrs := h.in_order.mp ⟨all, hvisits, List.Sublist.refl _⟩
  have hlength := hall.length_le
  rw [forest.addrs_length] at hlength
  have hwalk := @identity_from_visits document wanted _ _ _ hvisits rfl
    (fun a ha => h.mem_iff.mp (hall.subset ha)) document.bound (by omega)
  refine ⟨_, hwalk, fun other hother => ?_⟩
  rw [← h.contains_iff, Contains]
  constructor
  · intro heq
    split at heq
    next hmem =>
      refine ⟨⟨all, hvisits, List.singleton_sublist.mpr hmem⟩, ?_⟩
      obtain ⟨cell, hcell⟩ := Option.isSome_iff_exists.mp (h.mem_iff.mp (hall.subset hmem))
      rw [hcell] at heq ⊢
      exact congrArg some heq
    next => omega
  · rintro ⟨⟨others, hothers, hsub⟩, hcell⟩
    rw [← hvisits.unique hothers, List.singleton_sublist] at hsub
    rw [if_pos hsub, hcell]
    rfl

end Evolution

section Handle

variable {document after : Document} {forest forest' : LinkForest Place NodeData} {node : Place}
  {identity : Nat} {handle : NodeHandle}

/-- What is known of a handle that was captured for a node. -/
structure Tracks (document : Document) (forest : LinkForest Place NodeData) (node : Place)
    (identity : Nat) (handle : NodeHandle) : Prop where
  same : handle.identity = identity
  issued : 0 < identity ∧ identity ≤ document.nextIdentity
  lost : handle.pointer = none → (node, identity) ∉ forest.nodes
  held : ∀ pointer, handle.pointer = some pointer → pointer = node ∧
    handle.retireEpoch ≤ document.retireEpoch ∧
    (handle.retireEpoch = document.retireEpoch → (node, identity) ∈ forest.nodes)

/-- A handle follows its node through a step. -/
theorem Tracks.evolves (h : Tracks document forest node identity handle)
    (hevolves : Evolves document forest after forest') :
    Tracks after forest' node identity handle := by
  have hepoch := hevolves.epoch
  refine ⟨h.same, ⟨h.issued.1, h.issued.2.trans hevolves.nextIdentity⟩, ?_, ?_⟩
  · exact fun hnone hmem => h.lost hnone (hevolves.known _ hmem h.issued.2)
  · intro pointer hpointer
    obtain ⟨hnode, hle, hin⟩ := h.held pointer hpointer
    refine ⟨hnode, by omega, fun hsame => ?_⟩
    exact hevolves.kept (by omega) _ (hin (by omega))

/-- A check finds the node exactly when it is still in the tree. -/
theorem Tracks.check (h : Tracks document forest node identity handle)
    (hrepresents : document.Represents forest) :
    ∃ found held, handle.cNode document = some (found, held) ∧
      Tracks document forest node identity held ∧
      ((found = some node ∧ (node, identity) ∈ forest.nodes) ∨
        (found = none ∧ (node, identity) ∉ forest.nodes)) := by
  cases hpointer : handle.pointer with
  | none =>
    refine ⟨none, handle, by simp [NodeHandle.cNode, hpointer], h, .inr ⟨rfl, h.lost hpointer⟩⟩
  | some pointer =>
    obtain ⟨rfl, hle, hin⟩ := h.held pointer hpointer
    by_cases hepoch : handle.retireEpoch = document.retireEpoch
    · refine ⟨some pointer, handle, ?_, h, .inl ⟨rfl, hin hepoch⟩⟩
      simp [NodeHandle.cNode, hpointer, hepoch]
    · obtain ⟨found, hfound, hidentity⟩ := hrepresents.node_identity pointer
      have hcheck := hidentity identity h.issued.1
      have hstep : handle.cNode document = some (if found ≠ handle.identity then none
          else some pointer, { handle with
            pointer := if found ≠ handle.identity then none else some pointer
            retireEpoch := document.retireEpoch }) := by
        simp only [NodeHandle.cNode, hpointer, ne_eq, hepoch, not_false_eq_true, if_true, hfound,
          Option.bind_eq_bind, Option.bind_some]
        rfl
      rw [h.same] at hstep
      by_cases hsame : found = identity
      · have hmem := hcheck.mp hsame
        rw [if_neg (not_not.mpr hsame)] at hstep
        refine ⟨_, _, hstep, ⟨rfl, h.issued, (fun hnone => by cases hnone), ?_⟩,
          .inl ⟨rfl, hmem⟩⟩
        intro other hother
        cases hother
        exact ⟨rfl, Nat.le_refl _, fun _ => hmem⟩
      · have hnot := fun hmem => hsame (hcheck.mpr hmem)
        rw [if_pos hsame] at hstep
        exact ⟨_, _, hstep, ⟨rfl, h.issued, fun _ => hnot, fun other hother => by cases hother⟩,
          .inr ⟨rfl, hnot⟩⟩

/-- A handle follows its node through a run. -/
theorem HandleRun.tracks {held : NodeHandle} (hrun : HandleRun document handle after held)
    (h : Tracks document forest node identity handle) (hrepresents : document.Represents forest)
    (hsettled : Settled document forest) :
    ∃ forest', after.Represents forest' ∧ Settled after forest' ∧
      Tracks after forest' node identity held := by
  induction hrun with
  | start => exact ⟨forest, hrepresents, hsettled, h⟩
  | called _ call hlegal happly ih =>
    obtain ⟨between, hbetween, hsettled', htracks⟩ := ih
    obtain ⟨result, hcall, hresult⟩ := hbetween.apply_spec hsettled' call hlegal
    rw [hcall] at happly
    obtain ⟨forest', hstep, hsettled''⟩ := hresult _ (Option.some.inj happly)
    exact ⟨forest', hstep.represents, hsettled'', htracks.evolves hstep⟩
  | checked _ hcheck ih =>
    obtain ⟨between, hbetween, hsettled', htracks⟩ := ih
    obtain ⟨found, held', hcheck', htracks', -⟩ := htracks.check hbetween
    rw [hcheck'] at hcheck
    cases hcheck
    exact ⟨between, hbetween, hsettled', htracks'⟩

/-- Equal epochs promise that no node has gone, an identity belongs to one node, which never comes
back once it has gone, and a handle finds its node exactly as long as it is in the tree. -/
theorem retire_epochs_safe {document : Document} (h : Reachable document) :
    (∀ after, Run document after → after.retireEpoch = document.retireEpoch →
      ∀ node identity, document.Contains node identity → after.Contains node identity) ∧
    (∀ middle after, Run document middle → Run middle after → ∀ node node' identity,
      document.Contains node identity → after.Contains node' identity →
        node' = node ∧ middle.Contains node identity) ∧
    ∀ node handle, NodeHandle.capture document node = some handle →
      ∀ after held, HandleRun document handle after held →
        ∃ found held', held.cNode after = some (found, held') ∧
          ((found = some node ∧ after.Contains node handle.identity) ∨
            (found = none ∧ ¬ after.Contains node handle.identity)) := by
  obtain ⟨forest, hrepresents, hsettled⟩ := h.represents
  refine ⟨?_, ?_, ?_⟩
  · intro after hrun hsame node identity hnode
    obtain ⟨forest', hevolves, -⟩ := hrun.evolves hrepresents hsettled
    rw [hrepresents.contains_iff] at hnode
    exact hevolves.represents.contains_iff.mpr (hevolves.kept hsame _ hnode)
  · intro middle after hfirst hsecond node node' identity hnode hnode'
    obtain ⟨between, hevolves, hsettled'⟩ := hfirst.evolves hrepresents hsettled
    obtain ⟨forest', hevolves', -⟩ := hsecond.evolves hevolves.represents hsettled'
    rw [hrepresents.contains_iff] at hnode
    rw [hevolves'.represents.contains_iff] at hnode'
    have hissued := (hrepresents.node_issued hnode).2
    have hmiddle := hevolves'.known _ hnode' (hissued.trans hevolves.nextIdentity)
    have heq := hrepresents.identity_unique hnode (hevolves.known _ hmiddle hissued)
    subst heq
    exact ⟨rfl, hevolves.represents.contains_iff.mpr hmiddle⟩
  · intro node handle hcapture after held hrun
    obtain ⟨cell, hcell, rfl⟩ := Option.map_eq_some_iff.mp hcapture
    have hmem : (node, cell.data.identity) ∈ forest.nodes := by
      refine hrepresents.contains_iff.mp ⟨?_, by rw [hcell]; rfl⟩
      exact hrepresents.in_order.mpr
        (List.singleton_sublist.mpr (hrepresents.mem_iff.mpr (by rw [hcell]; rfl)))
    have htracks : Tracks document forest node cell.data.identity
        { pointer := some node, identity := cell.data.identity,
          retireEpoch := document.retireEpoch } := by
      refine ⟨rfl, hrepresents.node_issued hmem, (fun hnone => by cases hnone), ?_⟩
      intro pointer hpointer
      cases hpointer
      exact ⟨rfl, Nat.le_refl _, fun _ => hmem⟩
    obtain ⟨forest', hafter, -, htracks'⟩ := hrun.tracks htracks hrepresents hsettled
    obtain ⟨found, held', hcheck, -, hfound⟩ := htracks'.check hafter
    refine ⟨found, held', hcheck, ?_⟩
    rw [hafter.contains_iff]
    exact hfound

/-- A handle of the root of the sample, after the root was erased. -/
theorem retire_epochs_safe_sample :
    ∃ document handle after held, parse sampleOptions some sampleOctets = some (.ok document) ∧
      NodeHandle.capture document (.block 2) = some handle ∧
      document.apply (.erase (.block 2)) = some (some after) ∧
      handle.cNode after = some (none, held) ∧ ¬ after.Contains (.block 2) handle.identity := by
  have hsample : ∃ document, parse sampleOptions some sampleOctets = some (.ok document) ∧
      ∃ handle, NodeHandle.capture document (.block 2) = some handle ∧
        ∃ after, document.apply (.erase (.block 2)) = some (some after) ∧
          document.Alive (.block 2) ∧ ∃ held, handle.cNode after = some (none, held) :=
    ⟨_, rfl, _, rfl, _, rfl, rfl, _, rfl⟩
  obtain ⟨document, hparse, handle, hcapture, after, herase, halive, held, hcheck⟩ := hsample
  have hrun : HandleRun document handle after handle :=
    .called .start (.erase (.block 2)) halive herase
  obtain ⟨found, held', hfound, hcases⟩ :=
    (retire_epochs_safe (.parsed hparse)).2.2 _ _ hcapture _ _ hrun
  rw [hcheck] at hfound
  cases hfound
  rcases hcases with ⟨hcon, -⟩ | ⟨-, hgone⟩
  · cases hcon
  · exact ⟨document, handle, after, held, hparse, hcapture, herase, hcheck, hgone⟩

end Handle

end Document

end OpenTlv
