import OpenTlv.Document.PathQuery

/-!
# Queries of a document and of its octets

A document that was parsed has the elements of its octets. So a path query of the document and one
of the octets report the same elements in the same order, although both read within limits of their
own.
-/

namespace OpenTlv

open Query (PathData)

section Finds

/-- What reading finds where nothing fails, which no limit has a part in. -/
inductive Finds (format : Format) : Nat → Bytes → Parse → Prop
  | done (offset : Nat) : Finds format offset [] .done
  | element {offset : Nat} {octets : Bytes} {decoded : Decoded} {next : Parse}
      (hnil : octets ≠ []) (hdecode : formatDecode format octets = .ok decoded)
      (hconstructs : format.constructs decoded.tag.bytes = false)
      (hnext : Finds format (offset + decoded.source.size) (octets.drop decoded.source.size) next) :
      Finds format offset octets (.element offset decoded next)
  | group {offset : Nat} {octets : Bytes} {decoded : Decoded} {inner next : Parse}
      (hnil : octets ≠ []) (hdecode : formatDecode format octets = .ok decoded)
      (hconstructs : format.constructs decoded.tag.bytes = true)
      (hinner : Finds format (offset + decoded.source.value.offset) (decoded.content octets) inner)
      (hnext : Finds format (offset + decoded.source.size) (octets.drop decoded.source.size) next) :
      Finds format offset octets (.group offset decoded inner next)

variable {format : Format} {limits : TreeLimits} {budget depth offset : Nat} {octets : Bytes}
  {parse : Parse}

/-- A complete parse finds every element of its octets. -/
theorem Parses.finds (h : Parses format limits budget depth offset octets parse)
    (hread : parse.failure = none) : Finds format offset octets parse := by
  induction h with
  | done budget depth offset => exact .done offset
  | limit | failed => cases hread
  | element _ _ _ _ _ _ hnil hdecode hconstructs _ ih =>
    exact .element hnil hdecode hconstructs (ih hread)
  | empty _ _ _ _ _ _ hnil hdecode hconstructs hcontent _ ih =>
    exact .group hnil hdecode hconstructs (hcontent ▸ .done _) (ih hread)
  | barrier => cases hread
  | inside _ _ _ _ _ _ _ _ _ _ _ _ _ hfailure _ =>
    rw [Parse.failure, hfailure] at hread
    cases hread
  | group _ _ _ _ _ _ _ hnil hdecode hconstructs _ _ _ hinner _ ihInner ihNext =>
    rw [Parse.failure, hinner] at hread
    exact .group hnil hdecode hconstructs (ihInner hinner) (ihNext hread)

/-- Octets are read in one way. -/
theorem Finds.unique (h : Finds format offset octets parse) :
    ∀ {parse' : Parse}, Finds format offset octets parse' → parse' = parse := by
  induction h with
  | done offset =>
    intro parse' h'
    cases h' with
    | done => rfl
    | element hnil | group hnil => exact absurd rfl hnil
  | element hnil hdecode hconstructs _ ih =>
    intro parse' h'
    cases h' with
    | done => exact absurd rfl hnil
    | element _ hdecode' _ hnext' =>
      cases hdecode.symm.trans hdecode'
      rw [ih hnext']
    | group _ hdecode' hconstructs' _ _ =>
      cases hdecode.symm.trans hdecode'
      cases hconstructs.symm.trans hconstructs'
  | group hnil hdecode hconstructs _ _ ihInner ihNext =>
    intro parse' h'
    cases h' with
    | done => exact absurd rfl hnil
    | element _ hdecode' hconstructs' _ =>
      cases hdecode.symm.trans hdecode'
      cases hconstructs.symm.trans hconstructs'
    | group _ hdecode' _ hinner' hnext' =>
      cases hdecode.symm.trans hdecode'
      rw [ihInner hinner', ihNext hnext']

end Finds

section Views

/-- What a node tells of its element. -/
def NodeData.view (data : NodeData) : Bytes × Bool × Bytes :=
  (data.tag, data.constructed, data.value)

/-- What an item of a reader tells, as a node keeps it. -/
def TreeItem.view (item : TreeItem) : Bytes × Bool × Bytes :=
  (item.decoded.tag.bytes, item.constructed, if item.constructed then [] else
  item.decoded.value.bytes)

/-- The tokens behind a list of siblings. -/
def ListEnds (tokens : List NodeToken) : Prop :=
  tokens = [] ∨ ∃ rest, tokens = .closed :: rest

variable {locations : Place → SourceLocation} {retain : Bool}

/-- Where the tokens of a forest are those of a parse, a path addresses the same elements in both. -/
theorem spelled_select {parse : Parse} :
    ∀ {depth : Nat} {forest : LinkForest Place NodeData} {behind behind' : List NodeToken},
      parse.failure = none → Typed forest → ListEnds behind → ListEnds behind' →
      forest.spell locations ++ behind =
        (parse.preorder depth).map (TreeEvent.token retain) ++ behind' →
      behind = behind' ∧ ∀ steps, (forest.tree.select (·.2.tag) steps).map (·.2.view) =
        ((parse.forest depth).select (·.decoded.tag.bytes) steps).map TreeItem.view := by
  induction parse with
  | done =>
    intro depth forest behind behind' _ htyped hends hends' hspell
    cases forest with
    | nil => exact ⟨hspell, fun _ => rfl⟩
    | node addr data inner rest =>
      exfalso
      rw [LinkForest.spell] at hspell
      rcases hends' with rfl | ⟨_, rfl⟩
      · split at hspell <;> cases hspell
      · split at hspell <;> cases hspell
  | failed status =>
    intro depth forest behind behind' hread
    cases hread
  | element offset decoded next ih =>
    intro depth forest behind behind' hread htyped hends hends' hspell
    cases forest with
    | nil =>
      exfalso
      rcases hends with rfl | ⟨_, rfl⟩
      · cases hspell
      · cases hspell
    | node addr data inner rest =>
      rw [LinkForest.spell] at hspell
      split at hspell
      · cases hspell
      next hprimitive =>
        obtain ⟨htoken, hrest⟩ := List.cons.inj hspell
        injection htoken with htag hvalue _
        obtain ⟨hsame, hselect⟩ := ih hread htyped.2.2.2 hends hends' hrest
        refine ⟨hsame, fun steps => ?_⟩
        have hview : data.view = TreeItem.view ⟨decoded, depth, offset, false⟩ := by
          rw [NodeData.view, TreeItem.view, htag, hvalue, Bool.eq_false_iff.mpr hprimitive]
          rfl
        rw [LinkForest.tree, htyped.1 (Bool.eq_false_iff.mpr hprimitive), Parse.forest,
          Forest.select, Forest.select, List.map_append, List.map_append, hselect, htag]
        congr 1
        -- the element is selected by the last step of a path
        by_cases hstep : steps.head? = some decoded.tag.bytes
        · by_cases hlast : steps.tail = []
          · simp [hstep, hlast, LinkForest.tree, Forest.select, hview]
          · simp [hstep, hlast, LinkForest.tree, Forest.select]
        · simp [hstep]
  | group offset decoded inner next ihInner ihNext =>
    intro depth forest behind behind' hread htyped hends hends' hspell
    obtain ⟨hinner, hnext⟩ := Option.or_eq_none_iff.mp hread
    cases forest with
    | nil =>
      exfalso
      rcases hends with rfl | ⟨_, rfl⟩
      · cases hspell
      · cases hspell
    | node addr data within rest =>
      rw [LinkForest.spell] at hspell
      split at hspell
      next hconstructed =>
        rw [Parse.preorder, if_pos hinner, List.map_cons, List.map_append, List.map_cons,
          List.cons_append, List.cons_append, List.append_assoc, List.append_assoc] at hspell
        obtain ⟨htoken, hrest⟩ := List.cons.inj hspell
        injection htoken with htag _
        obtain ⟨hclosed, hwithin⟩ := ihInner hinner htyped.2.2.1 (.inr ⟨_, rfl⟩) (.inr ⟨_, rfl⟩)
          hrest
        obtain ⟨hsame, hselect⟩ := ihNext hnext htyped.2.2.2 hends hends'
          (List.cons.inj hclosed).2
        refine ⟨hsame, fun steps => ?_⟩
        have hview : data.view = TreeItem.view ⟨decoded, depth, offset, true⟩ := by
          rw [NodeData.view, TreeItem.view, htag, htyped.2.1 hconstructed, hconstructed]
          rfl
        rw [LinkForest.tree, Parse.forest, if_pos hinner, Forest.select, Forest.select,
          List.map_append, List.map_append, hselect, htag]
        congr 1
        by_cases hstep : steps.head? = some decoded.tag.bytes
        · rw [if_pos hstep, if_pos hstep, List.map_append, List.map_append, hwithin]
          congr 1
          split
          · rw [List.map_singleton, List.map_singleton, hview]
          · rfl
        · rw [if_neg hstep, if_neg hstep]
          rfl
      next => cases hspell

end Views

namespace Document

section Agreement

variable {options : DocumentOptions} {allocator : Nat → Option Nat} {data : Bytes}
  {document : Document}

/-- A document that was parsed spells a parse of its octets that does not fail. -/
theorem parse_spells (hparse : parse options allocator data = some (.ok document))
    (hdata : data.length ≤ sizeMax) :
    options.format.decode.isSome ∧ ∃ forest limits, document.Represents forest ∧
      (parseSequence options.format limits limits.maxElements 0 0 data).failure = none ∧
      forest.spell document.locations =
        ((parseSequence options.format limits limits.maxElements 0 0 data).preorder 0).map
          (TreeEvent.token options.retainSourceLocations) := by
  unfold parse at hparse
  cases hcreate : create options allocator with
  | error status =>
    rw [hcreate] at hparse
    cases hparse
  | ok created =>
    obtain ⟨hgrows, hepoch, hcount, -, -, hoptions, hdead⟩ := create_grows hcreate 0
    obtain ⟨result, after, list, hlist, hparses⟩ := @Grows.parse_list _ _ _ _ [] hgrows
      (fun level hlevel => by cases hlevel) data
    have hlist' : created.parseList none data 0 = some (result, after) := hlist
    rw [hcreate] at hparse
    dsimp only at hparse
    rw [hlist'] at hparse
    cases result with
    | error status =>
      simp only [Option.bind_eq_bind, Option.bind_some] at hparse
      obtain ⟨_, -, hfailed⟩ := Option.bind_eq_some_iff.mp hparse
      cases hfailed
    | ok done =>
      cases hparse
      obtain ⟨-, events, ⟨-, -, reader, last, hinit, hemits, hend⟩, hspell⟩ :=
        hparses.success rfl
      obtain ⟨hformat, rfl⟩ := reader_init_standing hinit
      rw [hoptions] at hformat hemits hspell
      refine ⟨hformat, list, created.parseLimits data.length 0,
        grows_represents hparses.grows hdead hcount hepoch, ?_⟩
      obtain ⟨last', hemits', hstuck', hend'⟩ :=
        standing_emits (created.parseLimits data.length 0) hformat hdata
      obtain ⟨status, hstuck⟩ := @at_end_halts options.format last hend
      -- both readers stop, so they have published the same events
      obtain ⟨rest, hall, hrest⟩ := hemits.remainder hemits' (pull_move_error hstuck')
      obtain ⟨rfl, rfl⟩ := hrest.halted (pull_move_error hstuck)
      rw [List.append_nil] at hall
      rw [hend, eq_comm, Option.isNone_iff_eq_none] at hend'
      exact ⟨hend', by rw [hall]; exact hspell⟩

/-- A path query of a parsed document calls its visitor with the nodes of the elements with which a
query of the octets calls its visitor, provided that the octets can be read within the limits of the
query. -/
theorem document_query_agrees (hparse : parse options allocator data = some (.ok document))
    (hdata : data.length ≤ sizeMax) {query : PathData} (hquery : query.valid = true)
    {maxDepth maxElements : Nat}
    (hread : (parseSequence options.format ⟨Query.pathMaxSteps, maxDepth, maxElements⟩ maxElements 0
      0 data).failure = none) :
    ∃ (nodes : List (Place × NodeData)) (items : List TreeItem),
      nodes.map (·.2.view) = items.map TreeItem.view ∧
      (∀ node ∈ nodes, ∃ cell, document.heap.cells node.1 = some cell ∧ cell.data = node.2) ∧
      (∀ {γ : Type} (visitor : DocumentVisitor γ) (context : γ), Obeys visitor →
        queryVisit visitor query context document =
          visitNodes visitor (nodes.map (·.1)) context document) ∧
      ∀ {γ : Type} (visitor : TreeItem → γ → VisitResult × γ) (context : γ),
        Query.queryVisitBuffer options.format query maxDepth maxElements visitor data context =
          visitItems visitor none items context := by
  obtain ⟨hformat, forest, limits, hrepresents, hfailure, hspell⟩ := parse_spells hparse hdata
  have hsame := (parse_sequence_parses options.format limits limits.maxElements 0 0 data).finds
    hfailure
  rw [((parse_sequence_parses options.format ⟨Query.pathMaxSteps, maxDepth, maxElements⟩ maxElements
    0 0 data).finds hread).unique hsame] at hspell hfailure
  obtain ⟨-, hselect⟩ := @spelled_select document.locations options.retainSourceLocations _ 0 forest
    [] [] hread hrepresents.typed (.inl rfl) (.inl rfl) (by
      rw [List.append_nil, List.append_nil]
      exact hspell)
  refine ⟨_, _, hselect query.tags, fun node hnode => ?_, fun visitor context hvisitor => ?_,
    fun visitor context => ?_⟩
  · have hitem := Forest.select_subset (fun item : Place × NodeData => item.2.tag) forest.tree 0 _
      node hnode
    rw [tree_items] at hitem
    exact hrepresents.lists.holds.cell_data hitem
  · obtain ⟨ended, hvisit, hnodes, -⟩ :=
      query_visit_nodes (.parsed hparse) hrepresents hquery hvisitor context
    rw [hvisit, hnodes]
  · rw [Query.visit_buffer_reader hquery hformat, Query.visit_selected hquery hformat hdata, hread]

/-- The octet string inside of the sample, in both queries. -/
theorem document_query_agrees_sample :
    ∃ (document : Document) (nodes : List (Place × NodeData)) (items : List TreeItem),
      parse sampleOptions some sampleOctets = some (.ok document) ∧
      nodes.map (·.2.view) = items.map TreeItem.view ∧
      findPath (Query.storedPath "30/04") document = some (.ok (some (.block 3)), some document) ∧
      visitNodes firstPathMatch (nodes.map (·.1)) none document =
        queryVisit firstPathMatch (Query.storedPath "30/04") none document ∧
      visitItems (fun item seen => (.resume, seen ++ [item.offset])) none items [] = .ok [2] := by
  have hvalid : (Query.storedPath "30/04").valid = true := by decide +kernel
  have hsample : ∃ document, parse sampleOptions some sampleOctets = some (.ok document) ∧
      findPath (Query.storedPath "30/04") document = some (.ok (some (.block 3)), some document) :=
    ⟨_, rfl, rfl⟩
  obtain ⟨document, hparse, hfind⟩ := hsample
  obtain ⟨nodes, items, hsame, -, hnodes, hitems⟩ := @document_query_agrees sampleOptions some
    sampleOctets document hparse (by decide) _ hvalid 4 8 (by decide +kernel)
  refine ⟨document, nodes, items, hparse, hsame, hfind,
    (hnodes firstPathMatch none first_path_match_obeys).symm, ?_⟩
  rw [← hitems]
  decide +kernel

end Agreement

end Document

end OpenTlv
