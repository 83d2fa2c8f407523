import OpenTlv.Document.Callbacks
import OpenTlv.Lib.LinkedPaths
import OpenTlv.Query.PathMatch

/-!
# Path queries of documents

`tlv_document_query_visit` and `tlv_document_find_path`. A visitor may call the document that it
visits, which keeps such calls waiting. So the visit never meets a node that is gone, and it sees the
nodes that the path addresses in the tree as it was at the start.
-/

namespace OpenTlv

open Query (PathData PathMatcher matcherInit matcherVisit)

variable {γ : Type}

/-- `tlv_document_query_visitor_t`. It may change the document, and nothing is left of a call that is
undefined. -/
abbrev DocumentVisitor (γ : Type) := Place → γ → Document → Option (VisitResult × γ × Document)

/-- How a visit ends. A visitor may have freed the document. -/
structure DocumentVisit (γ : Type) where
  status : Except Status Unit
  context : γ
  document : Option Document

namespace Document

section Visit

variable (visitor : DocumentVisitor γ)

/-- The visitor is called. The visit ends, or it goes on. -/
def callVisitor (node : Place) (context : γ) (document : Document) :
    Option (Except (DocumentVisit γ) (γ × Document)) := do
  let (answer, context, during) ← visitor node context document.enterCallback
  let (pending, after) ← during.leaveCallback
  if pending ≠ .nothing then return .error ⟨.error .invalidState, context, after⟩
  else
    let document ← after
    match answer with
    | .resume => return .ok (context, document)
    | .stop => return .error ⟨.ok (), context, some document⟩
    | .error => return .error ⟨.error .visitor, context, some document⟩
    | .unknown => return .error ⟨.error .callback, context, some document⟩

/-- A node of the loop of `tlv_document_query_visit`. -/
def visitNode (matched : Bool) (node : Place) (context : γ) (document : Document) :
    Option (Except (DocumentVisit γ) (γ × Document)) :=
  if matched then callVisitor visitor node context document else some (.ok (context, document))

/-- The loop of `tlv_document_query_visit`. -/
def queryNodes : Nat → Option (Place × Nat) → PathMatcher → γ → Document →
    Option (DocumentVisit γ)
  | _, none, _, context, document => some ⟨.ok (), context, some document⟩
  | 0, some _, _, _, _ => none
  | fuel + 1, some place, matcher, context, document => do
      let cell ← document.heap.cells place.1
      let answer := matcherVisit matcher cell.data.tag place.2
      match ← visitNode visitor answer.1 place.1 context document with
      | .error ended => return ended
      | .ok (context, document) => do
          let next ← document.heap.walkDeep document.bound place
          queryNodes fuel next answer.2 context document

/-- `tlv_document_query_visit`. -/
def queryVisit (query : PathData) (context : γ) (document : Document) :
    Option (DocumentVisit γ) :=
  match matcherInit query with
  | .error status => some ⟨.error status, context, some document⟩
  | .ok matcher =>
    queryNodes visitor document.bound (document.heap.first.map (·, 0)) matcher context document

/-- A visitor is called with some nodes. -/
def visitNodes : List Place → γ → Document → Option (DocumentVisit γ)
  | [], context, document => some ⟨.ok (), context, some document⟩
  | node :: rest, context, document => do
      match ← callVisitor visitor node context document with
      | .error ended => return ended
      | .ok (context, document) => visitNodes rest context document

end Visit

/-- `first_path_match`. -/
def firstPathMatch : DocumentVisitor (Option Place) :=
  fun node _ document => some (.stop, some node, document)

/-- `tlv_document_find_path`. -/
def findPath (query : PathData) (document : Document) :
    Option (Except Status (Option Place) × Option Document) :=
  (queryVisit firstPathMatch query none document).map fun ended =>
    (ended.status.map fun _ => ended.context, ended.document)

/-- What legal calls leave, as long as a callback is active behind each. -/
inductive Inside (document : Document) : Document → Prop where
  | start : Inside document document
  | called {middle after : Document} (h : Inside document middle) (call : DocumentCall)
      (hlegal : middle.Legal call) (happly : middle.apply call = some (some after))
      (hactive : after.queryCallbacks ≠ 0) : Inside document after

/-- A visitor that makes legal calls and ends the callbacks that it begins. -/
def Obeys (visitor : DocumentVisitor γ) : Prop :=
  ∀ document node context, Reachable document → document.queryCallbacks ≠ 0 →
    document.Alive node → ∃ answer after during,
      visitor node context document = some (answer, after, during) ∧ Inside document during ∧
        during.queryCallbacks = document.queryCallbacks

section Marks

variable {document during after : Document} {forest : LinkForest Place NodeData}

/-- The tree of a document but for the marks of nodes that are to be erased. -/
def Marks (forest : LinkForest Place NodeData) (document : Document) : Prop :=
  ∃ erased, document.Represents (forest.map (markBy erased))

theorem Represents.marks (h : document.Represents forest) : Marks forest document := by
  refine ⟨[], ?_⟩
  rwa [show forest.map (markBy []) = forest from
    (LinkForest.map_congr fun item _ => by simp [markBy]).trans (LinkForest.map_id forest)]

/-- Whether nodes are marked is seen in the heap. -/
theorem unmarked_congr {other : LinkForest Place NodeData} (h : document.Represents forest)
    (h' : document.Represents other) (hunmarked : Unmarked other) : Unmarked forest := by
  intro item hitem
  obtain ⟨cell, hcell, hdata⟩ := h.lists.holds.cell_data hitem
  have hmem := h'.live item.1 (by rw [hcell]; rfl)
  rw [← LinkForest.items_addrs] at hmem
  obtain ⟨other, hother, haddr⟩ := List.mem_map.mp hmem
  obtain ⟨cell', hcell', hdata'⟩ := h'.lists.holds.cell_data hother
  rw [haddr, hcell] at hcell'
  cases hcell'
  rw [← hdata, hdata']
  exact hunmarked other hother

/-- Outside of callbacks nothing is marked. -/
theorem Marks.idle (h : Marks forest document) (hreachable : Reachable document)
    (hidle : document.queryCallbacks = 0) : document.Represents forest := by
  obtain ⟨erased, hrepresents⟩ := h
  obtain ⟨other, hother, hsettled⟩ := hreachable.represents
  have hunmarked := unmarked_congr hrepresents hother
    (hsettled.unmarked (hsettled.pending hidle))
  have hsame : forest.map (markBy erased) = forest := by
    refine (LinkForest.map_congr fun item hitem => ?_).trans (LinkForest.map_id forest)
    have hnone := hunmarked (item.1, markBy erased item.1 item.2)
      (by rw [LinkForest.map_items]; exact List.mem_map_of_mem hitem)
    unfold markBy at hnone ⊢
    split
    next hin =>
      rw [if_pos hin] at hnone
      cases hnone
    next => rfl
  rwa [hsame] at hrepresents

/-- Marks depend only on the heap and the counters. -/
theorem Marks.congr (h : Marks forest during) (hheap : after.heap = during.heap)
    (hoptions : after.options = during.options) (hcount : after.count = during.count)
    (hepoch : after.retireEpoch = during.retireEpoch)
    (hidentity : after.nextIdentity = during.nextIdentity) : Marks forest after := by
  obtain ⟨erased, hrepresents⟩ := h
  exact ⟨erased, hrepresents.congr hheap hoptions hcount hepoch hidentity.ge
    (hidentity ▸ hrepresents.available)⟩

/-- The end of a callback leaves all nodes where they are, or it is the outermost one and does what
waits. -/
theorem Marks.leave (h : Marks forest during) (hactive : during.queryCallbacks ≠ 0)
    {pending : QueryPending} {left : Option Document}
    (hleave : during.leaveCallback = some (pending, left)) :
    (pending = .nothing ∧ ∃ after, left = some after ∧ Marks forest after ∧
        after.queryCallbacks = during.queryCallbacks - 1) ∨
      (pending ≠ .nothing ∧ ∀ after, left = some after → after.queryCallbacks = 0) := by
  obtain ⟨active, hcount⟩ := Nat.exists_eq_succ_of_ne_zero hactive
  cases active with
  | succ active =>
    rw [leave_inner hcount] at hleave
    cases hleave
    exact .inl ⟨rfl, _, rfl, h.congr rfl rfl rfl rfl rfl, by rw [hcount]; rfl⟩
  | zero =>
    obtain ⟨erased, hrepresents⟩ := h
    have hidled : during.idled.Represents (forest.map (markBy erased)) :=
      hrepresents.congr rfl rfl rfl rfl (Nat.le_refl _) hrepresents.available
    rw [leave_outer hcount] at hleave
    cases hpending : during.queryPending with
    | nothing =>
      rw [hpending] at hleave
      cases hleave
      exact .inl ⟨rfl, _, rfl, ⟨erased, hidled⟩, by rw [hcount]; rfl⟩
    | free =>
      rw [hpending] at hleave
      simp only [hidled.free_spec rfl] at hleave
      cases hleave
      exact .inr ⟨QueryPending.noConfusion, fun after heq => by cases heq⟩
    | erase =>
      obtain ⟨swept, hsweep, -, hswept, -⟩ := hidled.sweep rfl
      have hsweep' : erasePending during.bound during.idled during.heap.first = some swept :=
        hsweep
      rw [hpending] at hleave
      simp only [hsweep'] at hleave
      cases hleave
      refine .inr ⟨QueryPending.noConfusion, fun after heq => ?_⟩
      cases heq
      exact hswept.keeps.queryCallbacks

/-- Inside of a callback a call leaves all nodes where they are. -/
theorem Marks.called (h : Marks forest during) (hinside : during.queryCallbacks ≠ 0)
    {call : DocumentCall} (hlegal : during.Legal call)
    (happly : during.apply call = some (some after)) (hactive : after.queryCallbacks ≠ 0) :
    Marks forest after := by
  cases call with
  | insert parent before element =>
    rw [apply, insert, if_pos hinside] at happly
    cases happly
    exact h
  | setValue node value =>
    rw [apply, setValue, if_pos hinside] at happly
    cases happly
    exact h
  | editTargets targets kind element =>
    rw [apply, show during.editTargets targets kind element =
      some (.error .invalidState, 0, during) from if_pos hinside] at happly
    cases happly
    exact h
  | erase node =>
    obtain ⟨erased, hrepresents⟩ := h
    obtain ⟨context, left, data, inner, right, hforest, -⟩ := hrepresents.node hlegal
    have hmark := mark_node hforest hrepresents.nodup
    have hplugged := hrepresents
    rw [hforest] at hplugged
    obtain ⟨heap, herase, hmarked⟩ := hplugged.erase_marks hinside
    rw [apply, herase] at happly
    cases happly
    rw [hmark] at hmarked
    exact ⟨_, hmarked.congr rfl rfl rfl rfl (Nat.le_refl _) hmarked.available⟩
  | enterCallback =>
    cases happly
    exact h.congr rfl rfl rfl rfl rfl
  | leaveCallback =>
    obtain ⟨⟨pending, left⟩, hleave, hleft⟩ := Option.map_eq_some_iff.mp happly
    obtain rfl : left = some after := hleft
    rcases h.leave hinside hleave with ⟨-, other, hother, hmarks, -⟩ | ⟨-, hidle⟩
    · cases hother
      exact hmarks
    · exact absurd (hidle _ rfl) hactive
  | free =>
    rw [apply, free, if_pos hinside] at happly
    cases happly
    exact h.congr rfl rfl rfl rfl rfl

/-- The calls of a visitor lead to a document with the same tree. -/
theorem Inside.marks (h : Inside document during) (hreachable : Reachable document)
    (hactive : document.queryCallbacks ≠ 0) (hmarks : Marks forest document) :
    Reachable during ∧ during.queryCallbacks ≠ 0 ∧ Marks forest during := by
  induction h with
  | start => exact ⟨hreachable, hactive, hmarks⟩
  | called _ call hlegal happly hafter ih =>
    obtain ⟨hreached, hinside, hkept⟩ := ih
    exact ⟨.called hreached call hlegal happly, hafter, hkept.called hinside hlegal happly hafter⟩

end Marks

section Exact

variable {document : Document} {forest : LinkForest Place NodeData} {query : PathData}
  {visitor : DocumentVisitor γ}

/-- What a visit leaves: a document that calls lead to, with the same tree unless the visitor has
erased nodes of it or freed it. -/
structure Ends (forest : LinkForest Place NodeData) (document : Document)
    (ended : DocumentVisit γ) : Prop where
  reachable : ∀ after, ended.document = some after → Reachable after
  kept : ended.status ≠ .error .invalidState → ∃ after, ended.document = some after ∧
    after.queryCallbacks = document.queryCallbacks ∧ Marks forest after

/-- A call of the visitor ends the visit or leaves the tree. -/
theorem call_visitor_spec (hvisitor : Obeys visitor) (hreachable : Reachable document)
    (hmarks : Marks forest document) {node : Place} (hnode : node ∈ forest.addrs) (context : γ) :
    ∃ called, callVisitor visitor node context document = some called ∧
      (∀ ended, called = .error ended → Ends forest document ended) ∧
      ∀ going, called = .ok going → Reachable going.2 ∧ Marks forest going.2 ∧
        going.2.queryCallbacks = document.queryCallbacks := by
  have hentered : Reachable document.enterCallback := .called hreachable .enterCallback trivial rfl
  have hactive : document.enterCallback.queryCallbacks ≠ 0 := Nat.succ_ne_zero _
  have hsame : Marks forest document.enterCallback := hmarks.congr rfl rfl rfl rfl rfl
  have halive : document.enterCallback.Alive node := by
    obtain ⟨erased, hrepresents⟩ := hsame
    exact hrepresents.mem_iff.mp (by rw [LinkForest.map_addrs]; exact hnode)
  obtain ⟨answer, after, during, hcall, hinside, hcount⟩ :=
    hvisitor _ node context hentered hactive halive
  obtain ⟨hreached, hduring, hkept⟩ := hinside.marks hentered hactive hsame
  obtain ⟨result, hleave⟩ := Option.isSome_iff_exists.mp
    ((document_well_formed hreached).2 .leaveCallback hduring)
  obtain ⟨⟨pending, left⟩, hleave', hleft⟩ := Option.map_eq_some_iff.mp hleave
  obtain rfl : left = result := hleft
  have hleaves : ∀ last, left = some last → Reachable last := by
    rintro last rfl
    exact .called hreached .leaveCallback hduring hleave
  unfold callVisitor
  rw [hcall]
  simp only [Option.bind_eq_bind, Option.bind_some, hleave']
  rcases hkept.leave hduring hleave' with ⟨rfl, last, rfl, hlast, hdone⟩ | ⟨hpending, -⟩
  · rw [hcount] at hdone
    have hends : ∀ status, Ends forest document (⟨status, after, some last⟩ : DocumentVisit γ) :=
      fun status => ⟨hleaves, fun _ => ⟨last, rfl, hdone, hlast⟩⟩
    rw [if_neg (by simp)]
    cases answer with
    | resume =>
      refine ⟨_, rfl, (fun ended heq => by cases heq), fun going heq => ?_⟩
      cases heq
      exact ⟨hleaves last rfl, hlast, hdone⟩
    | stop | error | unknown =>
      refine ⟨_, rfl, (fun ended heq => ?_), fun going heq => by cases heq⟩
      cases heq
      exact hends _
  · rw [if_pos hpending]
    refine ⟨_, rfl, (fun ended heq => ?_), fun going heq => by cases heq⟩
    cases heq
    exact ⟨hleaves, fun hne => absurd rfl hne⟩

/-- At each node the loop knows the next one, whatever is marked. -/
theorem Marks.walk_deep (h : Marks forest document) {front rest : List ((Place × NodeData) × Nat)}
    {entry : (Place × NodeData) × Nat} (hwalk : forest.tree.walk 0 = front ++ entry :: rest) :
    document.heap.walkDeep document.bound (walkPlace entry) = some (rest.head?.map walkPlace) ∧
      ∃ cell, document.heap.cells entry.1.1 = some cell ∧ cell.data.tag = entry.1.2.tag := by
  obtain ⟨erased, hrepresents⟩ := h
  constructor
  · have hsize := hrepresents.size_lt
    have hvisits := @Holds.visits_deep _ _ document.heap none none _ hrepresents.lists.holds 0 none
      0 document.bound rfl (by omega)
    rw [tree_map_places, hwalk, List.map_append, List.map_cons] at hvisits
    rw [hvisits.next_at, List.head?_map, Option.or_none]
  · have hitem : entry.1 ∈ forest.items := by
      rw [← tree_items forest 0, hwalk]
      simp
    obtain ⟨cell, hcell, hdata⟩ := hrepresents.lists.holds.cell_data
      (show (entry.1.1, markBy erased entry.1.1 entry.1.2) ∈ _ by
        rw [LinkForest.map_items]
        exact List.mem_map_of_mem hitem)
    refine ⟨cell, hcell, ?_⟩
    rw [hdata]
    unfold markBy
    split
    · rfl
    · rfl

/-- From any node on, the loop calls the visitor with the nodes that the matcher reports. The
induction is on the nodes that are left; the visitor may mark any of them meanwhile. -/
theorem query_nodes_exact (hquery : query.valid = true) (hvisitor : Obeys visitor)
    (rest : List ((Place × NodeData) × Nat)) :
    ∀ (front : List ((Place × NodeData) × Nat)) (document : Document) (context : γ)
      (matched fuel : Nat), forest.tree.walk 0 = front ++ rest → Reachable document →
      Marks forest document → matched ≤ query.tags.length → rest.length ≤ fuel →
      ∃ ended, queryNodes visitor fuel (rest.head?.map walkPlace) ⟨some query, matched⟩ context
          document = some ended ∧
        visitNodes visitor ((pathRun query.tags (·.2.tag) matched rest).1.map (·.1)) context
          document = some ended ∧ Ends forest document ended := by
  induction rest with
  | nil =>
    intro front document context matched fuel _ hreachable hmarks _ _
    refine ⟨⟨.ok (), context, some document⟩, by cases fuel <;> rfl, rfl, ?_, fun _ => ?_⟩
    · intro after heq
      cases heq
      exact hreachable
    · exact ⟨document, rfl, rfl, hmarks⟩
  | cons entry rest ih =>
    intro front document context matched fuel hwalk hreachable hmarks hmatched hfuel
    obtain ⟨fuel, rfl⟩ : ∃ less, fuel = less + 1 :=
      ⟨fuel - 1, by rw [List.length_cons] at hfuel; omega⟩
    obtain ⟨hnext, cell, hcell, htag⟩ := hmarks.walk_deep hwalk
    obtain ⟨hvisit, hafter⟩ := Query.matcher_visit_step hquery hmatched cell.data.tag entry.2
    rw [htag] at hvisit hafter
    have hwalk' : forest.tree.walk 0 = (front ++ [entry]) ++ rest := by
      rw [hwalk, List.append_assoc, List.singleton_append]
    have hless : rest.length ≤ fuel := Nat.le_of_succ_le_succ hfuel
    rw [List.head?_cons, Option.map_some, queryNodes, pathRun]
    simp only [walkPlace, hcell, Option.bind_eq_bind, Option.bind_some, htag, hvisit]
    unfold visitNode
    cases hanswer : (pathStep query.tags matched entry.1.2.tag entry.2).1 with
    | false =>
      obtain ⟨ended, hrun, hsame, hends⟩ := ih _ document context _ fuel hwalk' hreachable hmarks
        hafter hless
      refine ⟨ended, ?_, hsame, hends⟩
      simp only [Bool.false_eq_true, if_false, Option.bind_some]
      rw [show document.heap.walkDeep document.bound (entry.1.1, entry.2) = _ from hnext]
      exact hrun
    | true =>
      have hnode : entry.1.1 ∈ forest.addrs := by
        rw [← LinkForest.items_addrs, ← tree_items forest 0, hwalk]
        simp
      obtain ⟨called, hcall, hended, hgoing⟩ :=
        call_visitor_spec hvisitor hreachable hmarks hnode context
      simp only [if_true, List.map_cons, visitNodes, hcall, Option.bind_eq_bind,
        Option.bind_some]
      cases called with
      | error ended => exact ⟨ended, rfl, rfl, hended ended rfl⟩
      | ok going =>
        obtain ⟨hreached, hkept, hcount⟩ := hgoing going rfl
        obtain ⟨ended, hrun, hsame, hends⟩ := ih _ going.2 going.1 _ fuel hwalk' hreached
          hkept hafter hless
        refine ⟨ended, ?_, hsame, hends.reachable, fun hne => ?_⟩
        · dsimp only
          rw [show going.2.heap.walkDeep going.2.bound (entry.1.1, entry.2) = _ from
            (hkept.walk_deep hwalk).1]
          exact hrun
        · rw [← hcount]
          exact hends.kept hne

/-- The visit is a run of the visitor along the nodes that the path addresses at the start. -/
theorem query_visit_nodes (h : Reachable document) (hrepresents : document.Represents forest)
    (hquery : query.valid = true) (hvisitor : Obeys visitor) (context : γ) :
    ∃ ended, queryVisit visitor query context document = some ended ∧
      visitNodes visitor ((forest.tree.select (·.2.tag) query.tags).map (·.1)) context document =
        some ended ∧ Ends forest document ended := by
  have hsize := hrepresents.size_lt
  have hfew : (forest.tree.walk 0).length ≤ document.bound := by
    rw [tree_length]
    omega
  obtain ⟨ended, hrun, hsame, hends⟩ := @query_nodes_exact γ forest query visitor hquery hvisitor
    (forest.tree.walk 0) [] document context 0 document.bound rfl h hrepresents.marks
    (Nat.zero_le _) hfew
  obtain ⟨after, -, -, hall⟩ := @path_run_live _ _ _ query.tags
    (fun item : Place × NodeData => item.2.tag) _ _ forest.tree (Nat.le_refl 0) (Nat.zero_le _)
  rw [hall, List.drop_zero] at hsame
  have hfirst : document.heap.first.map (·, 0) = (forest.tree.walk 0).head?.map walkPlace := by
    rw [show document.heap.first = forest.firstAddr from Option.some.inj hrepresents.lists.first]
    cases forest with
    | nil => rfl
    | node addr data inner rest => rfl
  refine ⟨ended, ?_, hsame, hends⟩
  unfold queryVisit
  rw [Query.matcher_init_valid hquery, hfirst]
  exact hrun

/-- A path query of a document is defined whatever calls its visitor makes of the document. It calls
the visitor with the nodes that the path addresses in the tree as it is at the start, until the
visitor ends the visit or something is done that has waited for the end of its callback. Otherwise
the tree is as it was. -/
theorem document_query_visit_exact (h : Reachable document)
    (hrepresents : document.Represents forest)
    (hquery : query.valid = true) (hvisitor : Obeys visitor) (context : γ) :
    ∃ ended, queryVisit visitor query context document = some ended ∧
      visitNodes visitor ((forest.tree.select (·.2.tag) query.tags).map (·.1)) context document =
        some ended ∧
      (∀ after, ended.document = some after → Reachable after) ∧
      (ended.status ≠ .error .invalidState → ∃ after, ended.document = some after ∧
        after.queryCallbacks = document.queryCallbacks ∧ Marks forest after ∧
        (document.queryCallbacks = 0 → after.Represents forest)) := by
  obtain ⟨ended, hrun, hsame, hends⟩ := query_visit_nodes h hrepresents hquery hvisitor context
  refine ⟨ended, hrun, hsame, hends.reachable, fun hne => ?_⟩
  obtain ⟨after, hafter, hcount, hmarks⟩ := hends.kept hne
  exact ⟨after, hafter, hcount, hmarks, fun hidle =>
    hmarks.idle (hends.reachable after hafter) (hcount.trans hidle)⟩

/-- A callback in which nothing happens leaves the document as it was. -/
theorem leave_entered (h : Settled document forest) :
    document.enterCallback.leaveCallback = some (.nothing, some document) := by
  have hback : ∀ {active : Nat} {pending : QueryPending}, document.queryCallbacks = active →
      document.queryPending = pending →
      { document.enterCallback with queryCallbacks := active, queryPending := pending } =
        document := by
    rintro _ _ rfl rfl
    rfl
  cases hcount : document.queryCallbacks with
  | zero =>
    have hpending : document.enterCallback.queryPending = .nothing := h.pending hcount
    rw [@leave_outer document.enterCallback (congrArg (· + 1) hcount), hpending]
    exact congrArg (fun last => some (QueryPending.nothing, some last))
      (hback hcount (h.pending hcount))
  | succ active =>
    rw [@leave_inner document.enterCallback active (congrArg (· + 1) hcount)]
    exact congrArg (fun last => some (QueryPending.nothing, some last)) (hback hcount rfl)

theorem first_path_match_obeys : Obeys firstPathMatch :=
  fun document node _ _ _ _ => ⟨.stop, some node, document, rfl, .start, rfl⟩

/-- What is found is the first node in preorder that the path addresses, and the document is as it
was. -/
theorem find_path_first (h : Reachable document) (hrepresents : document.Represents forest)
    (hquery : query.valid = true) :
    findPath query document =
      some (.ok ((forest.tree.select (·.2.tag) query.tags).head?.map (·.1)), some document) := by
  obtain ⟨_, -, hsettled⟩ := h.represents
  obtain ⟨ended, hvisit, hnodes, -⟩ :=
    query_visit_nodes h hrepresents hquery first_path_match_obeys none
  unfold findPath
  rw [hvisit, ← hnodes]
  cases forest.tree.select (fun item : Place × NodeData => item.2.tag) query.tags with
  | nil => rfl
  | cons item rest =>
    have hcall : callVisitor firstPathMatch item.1 none document =
        some (.error ⟨.ok (), some item.1, some document⟩) := by
      unfold callVisitor firstPathMatch
      simp only [Option.bind_eq_bind, Option.bind_some, leave_entered hsettled]
      rfl
    rw [List.map_cons, visitNodes, hcall]
    rfl

/-- The first `30/04` of the sample document is its third block. -/
theorem find_path_first_sample :
    ∃ (document : Document) (forest : LinkForest Place NodeData), document.Represents forest ∧
      findPath (Query.storedPath "30/04") document = some (.ok (some (.block 3)), some document) ∧
      (forest.tree.select (·.2.tag) (Query.storedPath "30/04").tags).head?.map (·.1) =
        some (.block 3) := by
  have hvalid : (Query.storedPath "30/04").valid = true := by decide +kernel
  have hsample : ∃ document, parse sampleOptions some sampleOctets = some (.ok document) ∧
      (findPath (Query.storedPath "30/04") document).map (·.1.toOption) =
        some (some (some (.block 3))) := ⟨_, rfl, rfl⟩
  obtain ⟨document, hparse, hfound⟩ := hsample
  obtain ⟨forest, hrepresents, -⟩ := (Reachable.parsed hparse).represents
  have hfind := find_path_first (.parsed hparse) hrepresents hvalid
  rw [hfind] at hfound
  have hfirst := Option.some.inj (Option.some.inj hfound)
  rw [hfirst] at hfind
  exact ⟨document, forest, hrepresents, hfind, hfirst⟩

/-- A visitor that erases every node that it sees. -/
def erasing : DocumentVisitor (List Place) :=
  fun node seen document => (document.erase node).map fun during =>
    (.resume, seen ++ [node], during)

theorem erasing_obeys : Obeys erasing := by
  intro document node seen hreachable hactive halive
  obtain ⟨forest, hrepresents, -⟩ := hreachable.represents
  obtain ⟨context, left, data, inner, right, rfl, -⟩ := hrepresents.node halive
  obtain ⟨heap, herase, -⟩ := hrepresents.erase_marks hactive
  obtain ⟨during, hcall, hcount⟩ : ∃ during, document.erase node = some during ∧
      during.queryCallbacks = document.queryCallbacks := ⟨_, herase, rfl⟩
  refine ⟨.resume, seen ++ [node], during, by rw [erasing, hcall]; rfl, ?_, hcount⟩
  exact .called .start (.erase node) halive (by rw [apply, hcall]; rfl) (hcount ▸ hactive)

/-- The octet string inside of the sample is erased when it is visited, which ends the visit. -/
theorem document_query_visit_exact_sample :
    ∃ (document : Document) (forest : LinkForest Place NodeData)
      (ended : DocumentVisit (List Place)), document.Represents forest ∧
      queryVisit erasing (Query.storedPath "30/04") [] document = some ended ∧
      visitNodes erasing ((forest.tree.select (·.2.tag) (Query.storedPath "30/04").tags).map (·.1)) []
        document = some ended ∧
      ended.status = .error .invalidState ∧ ended.context = [.block 3] := by
  have hvalid : (Query.storedPath "30/04").valid = true := by decide +kernel
  have hsample : ∃ document, parse sampleOptions some sampleOctets = some (.ok document) ∧
      ∃ ended, queryVisit erasing (Query.storedPath "30/04") [] document = some ended ∧
        ended.status = .error .invalidState ∧ ended.context = [.block 3] :=
    ⟨_, rfl, _, rfl, rfl, rfl⟩
  obtain ⟨document, hparse, ended, hrun, hstatus, hseen⟩ := hsample
  obtain ⟨forest, hrepresents, -⟩ := (Reachable.parsed hparse).represents
  obtain ⟨ended', hvisit, hnodes, -⟩ :=
    document_query_visit_exact (.parsed hparse) hrepresents hvalid erasing_obeys []
  rw [hrun] at hvisit
  cases hvisit
  exact ⟨document, forest, ended, hrepresents, hrun, hnodes, hstatus, hseen⟩

end Exact

end Document

end OpenTlv
