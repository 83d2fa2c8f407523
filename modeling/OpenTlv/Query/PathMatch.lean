import OpenTlv.Query.PathText
import OpenTlv.Reader.Visiting

/-!
# The elements that a path addresses

The matcher of `query/query.c` on any preorder traversal: it reports the elements that a path leads
to from an outermost element down, and it may be bound to a copy of its path between two elements.
`tlv_query_visit_buffer` is the matcher in a visit of the tree reader.
-/

namespace OpenTlv.Query

section Match

variable {α : Type} {data : PathData} {matched : Nat}

theorem tags_get (data : PathData) (depth : Nat) (tag : Bytes) :
    data.tags[depth]? = some tag ↔ depth < data.count ∧ tag = data.tag depth := by
  rw [PathData.tags, List.getElem?_map, Option.map_eq_some_iff]
  constructor
  · rintro ⟨index, hindex, rfl⟩
    obtain ⟨hlt, rfl⟩ := List.getElem?_eq_some_iff.mp hindex
    rw [List.length_range] at hlt
    rw [List.getElem_range]
    exact ⟨hlt, rfl⟩
  · rintro ⟨hlt, rfl⟩
    exact ⟨depth, List.getElem?_range hlt, rfl⟩

/-- On storage that holds the matcher compares one step, and remembers how far it came. -/
theorem matcher_visit_step (h : data.valid = true) (hmatched : matched ≤ data.tags.length)
    (tag : Bytes) (depth : Nat) :
    matcherVisit ⟨some data, matched⟩ tag depth =
        ((pathStep data.tags matched tag depth).1,
          ⟨some data, (pathStep data.tags matched tag depth).2⟩) ∧
      (pathStep data.tags matched tag depth).2 ≤ data.tags.length := by
  obtain ⟨hpos, hmany, hbounds⟩ := valid_bounds h
  have hlength : data.tags.length = data.count := by
    rw [PathData.tags, List.length_map, List.length_range]
  rw [hlength] at hmatched ⊢
  have hget := tags_get data depth tag
  unfold matcherVisit pathStep
  dsimp only
  by_cases hdeep : depth > matched
  · rw [if_pos (.inr (.inr (.inr hdeep))), if_pos hdeep]
    exact ⟨rfl, hmatched⟩
  rw [if_neg hdeep, if_neg (by omega)]
  by_cases hdepth : depth < data.count
  · obtain ⟨hlow, hhigh⟩ := hbounds depth hdepth
    rw [if_pos hdepth, if_neg (by omega)]
    by_cases hsame : tag = data.tag depth
    · rw [if_pos hsame, if_pos (hget.mpr ⟨hdepth, hsame⟩), hlength]
      exact ⟨rfl, hdepth⟩
    · rw [if_neg hsame, if_neg fun hstep => hsame (hget.mp hstep).2]
      exact ⟨rfl, hdepth.le⟩
  · rw [if_neg hdepth, if_neg fun hstep => hdepth (hget.mp hstep).1]
    exact ⟨rfl, by dsimp only; omega⟩

/-- The items of a traversal that the matcher reports, and the matcher behind them. -/
def matcherRun (label : α → Bytes) (matcher : PathMatcher) : List (α × Nat) → List α × PathMatcher
  | [] => ([], matcher)
  | entry :: rest =>
    let answer := matcherVisit matcher (label entry.1) entry.2
    let more := matcherRun label answer.2 rest
    (if answer.1 then entry.1 :: more.1 else more.1, more.2)

theorem matcher_run_path (h : data.valid = true) (hmatched : matched ≤ data.tags.length)
    (label : α → Bytes) (entries : List (α × Nat)) :
    matcherRun label ⟨some data, matched⟩ entries =
      ((pathRun data.tags label matched entries).1,
        ⟨some data, (pathRun data.tags label matched entries).2⟩) ∧
      (pathRun data.tags label matched entries).2 ≤ data.tags.length := by
  induction entries generalizing matched with
  | nil => exact ⟨rfl, hmatched⟩
  | cons entry rest ih =>
    obtain ⟨hvisit, hafter⟩ := matcher_visit_step h hmatched (label entry.1) entry.2
    obtain ⟨hrest, hbound⟩ := ih hafter
    refine ⟨?_, hbound⟩
    rw [matcherRun, hvisit, pathRun]
    dsimp only
    rw [hrest]

theorem matcher_init_valid (h : data.valid = true) : matcherInit data = .ok ⟨some data, 0⟩ := by
  obtain ⟨hpos, hmany, -⟩ := valid_bounds h
  rw [matcherInit, if_neg (by omega), if_neg (by rw [h]; exact Bool.noConfusion)]

/-- The copies that a matcher can be bound to are storage of the same tags. -/
theorem matcher_rebind_same {matcher after : PathMatcher} {copy : PathData}
    (h : matcherRebind matcher copy = .ok after) :
    ∃ old, matcher.query = some old ∧ after = ⟨some copy, matcher.matched⟩ ∧
      copy.valid = true ∧ copy.tags = old.tags := by
  unfold matcherRebind at h
  split at h
  · cases h
  next old hquery =>
    split at h
    · cases h
    next hsame =>
      cases h
      simp only [not_or, Decidable.not_not, Bool.not_eq_false] at hsame
      obtain ⟨hold, hcopy, hcount, hends, hbytes⟩ := hsame
      refine ⟨old, hquery, rfl, hcopy, ?_⟩
      have hend : ∀ i < old.count, copy.ends.getD i 0 = old.ends.getD i 0 := by
        intro i hi
        have hat := congrArg (·[i]?) hends
        simp only [List.getElem?_take_of_lt hi] at hat
        rw [List.getD_eq_getElem?_getD, List.getD_eq_getElem?_getD, hat]
      have hstart : ∀ i ≤ old.count, copy.start i = old.start i := by
        intro i hi
        cases i with
        | zero => rfl
        | succ i => rw [start_succ, start_succ, hend i hi]
      rw [PathData.tags, PathData.tags, ← hcount]
      refine List.map_congr_left fun i hi => ?_
      rw [List.mem_range] at hi
      -- the octets of a tag lie in front of the last end
      have hlast : old.ends.getD i 0 ≤ old.ends.getD (old.count - 1) 0 := by
        have hsum := tags_flatten_length hold (old.count - (i + 1)) (i + 1) (by omega)
        obtain ⟨last, hlast⟩ : ∃ last, old.count = last + 1 := ⟨old.count - 1, by omega⟩
        rw [Nat.add_sub_cancel' hi, hlast, start_succ, start_succ] at hsum
        rw [hlast, Nat.add_sub_cancel]
        omega
      rw [PathData.tag, PathData.tag, hend i hi, hstart i hi.le]
      have hslice : ∀ octets : Bytes, (octets.drop (old.start i)).take
          (old.ends.getD i 0 - old.start i) =
          ((octets.take (old.ends.getD (old.count - 1) 0)).drop (old.start i)).take
            (old.ends.getD i 0 - old.start i) := by
        intro octets
        rw [List.drop_take, List.take_take, Nat.min_eq_left (by omega)]
      rw [hslice copy.bytes, hslice old.bytes, hbytes]

/-- On any preorder traversal of any forest the matcher reports the elements that the path leads to,
also when it is bound to a copy of its path between two of them. -/
theorem matcher_selects (label : α → Bytes) (forest : Forest α) {front rest : List (α × Nat)}
    (hwalk : forest.walk 0 = front ++ rest) (h : data.valid = true) :
    ∃ matcher, matcherInit data = .ok matcher ∧
      ∀ {copy : PathData} {bound : PathMatcher},
        matcherRebind (matcherRun label matcher front).2 copy = .ok bound →
        (matcherRun label matcher front).1 ++ (matcherRun label bound rest).1 =
          forest.select label data.tags := by
  refine ⟨_, matcher_init_valid h, fun {copy bound} hbound => ?_⟩
  obtain ⟨hfront, hmatched⟩ := matcher_run_path h (Nat.zero_le _) label front
  rw [hfront] at hbound ⊢
  obtain ⟨old, hold, rfl, hcopy, htags⟩ := matcher_rebind_same hbound
  cases hold
  rw [← htags] at hmatched ⊢
  obtain ⟨hrest, -⟩ := matcher_run_path hcopy hmatched label rest
  dsimp only at hrest ⊢
  rw [hrest]
  obtain ⟨after, -, -, hall⟩ := @path_run_live _ _ _ copy.tags label _ _ forest
    (Nat.le_refl 0) (Nat.zero_le _)
  rw [hwalk, path_run_append, List.drop_zero] at hall
  exact congrArg Prod.fst hall

/-- Two tags below one tag, of which the path leads to the second. -/
def pathForest : Forest Bytes :=
  .branch [0x6F] (.leaf [0x84] (.branch [0xA5] (.leaf [0x50] .nil) [] .nil)) [] (.leaf [0xA5] .nil)

theorem matcher_selects_nested :
    ∃ matcher, matcherInit (storedPath "6F/A5/50") = .ok matcher ∧
      matcherRebind (matcherRun id matcher [([0x6F], 0), ([0x84], 1)]).2 (storedPath "6f/a5/50") =
        .ok ⟨some (storedPath "6f/a5/50"), 1⟩ ∧
      (matcherRun id matcher [([0x6F], 0), ([0x84], 1)]).1 ++
          (matcherRun id ⟨some (storedPath "6f/a5/50"), 1⟩
            [([0xA5], 1), ([0x50], 2), ([0xA5], 0)]).1 =
        pathForest.select id (storedPath "6F/A5/50").tags := by
  have hvalid : (storedPath "6F/A5/50").valid = true := by decide +kernel
  obtain ⟨matcher, hinit, hruns⟩ := @matcher_selects Bytes (storedPath "6F/A5/50") id pathForest
    [([0x6F], 0), ([0x84], 1)] [([0xA5], 1), ([0x50], 2), ([0xA5], 0)] rfl hvalid
  obtain rfl : (⟨some (storedPath "6F/A5/50"), 0⟩ : PathMatcher) = matcher :=
    Except.ok.inj ((matcher_init_valid hvalid).symm.trans hinit)
  have hbound : matcherRebind (matcherRun id ⟨some (storedPath "6F/A5/50"), 0⟩
      [([0x6F], 0), ([0x84], 1)]).2 (storedPath "6f/a5/50") =
      .ok ⟨some (storedPath "6f/a5/50"), 1⟩ := by decide +kernel
  exact ⟨_, hinit, hbound, hruns hbound⟩

end Match

section Visit

variable {γ : Type}

/-- `on_element`. -/
def onElement (visitor : TreeItem → γ → VisitResult × γ) (item : TreeItem)
    (s : PathMatcher × γ) : VisitResult × PathMatcher × γ :=
  let answer := matcherVisit s.1 item.decoded.tag.bytes item.depth
  if answer.1 then
    let called := visitor item s.2
    (called.1, answer.2, called.2)
  else (.resume, answer.2, s.2)

/-- `tlv_query_visit`. -/
def queryVisit (format : Format) (visitor : TreeItem → γ → VisitResult × γ) (reader : TreeReader)
    (matcher : PathMatcher) (context : γ) : Except Status (PathMatcher × γ) :=
  if matcher.query.isNone then .error .nullArg
  else treeReaderVisit format (some (onElement visitor)) reader (matcher, context)

/-- `tlv_query_visit_buffer`. -/
def queryVisitBuffer (format : Format) (query : PathData) (maxDepth maxElements : Nat)
    (visitor : TreeItem → γ → VisitResult × γ) (data : Bytes) (context : γ) : Except Status γ := do
  let matcher ← matcherInit query
  let reader ← treeReaderInit format ⟨pathMaxSteps, maxDepth, maxElements⟩ data
  let visited ← queryVisit format visitor reader matcher context
  return visited.2

variable {visitor : TreeItem → γ → VisitResult × γ} {failure : Option Status} {query : PathData}

/-- Behind the matcher the visitor is called with what the matcher reports. -/
theorem visit_items_matched (h : query.valid = true) (entries : List (TreeItem × Nat))
    (hdepth : ∀ entry ∈ entries, entry.1.depth = entry.2) :
    ∀ (matched : Nat) (context : γ), matched ≤ query.tags.length →
      (visitItems (onElement visitor) failure (entries.map (·.1))
          (⟨some query, matched⟩, context)).map (·.2) =
        visitItems visitor failure
          (pathRun query.tags (·.decoded.tag.bytes) matched entries).1 context := by
  induction entries with
  | nil =>
    intro matched context _
    cases failure with
    | none => rfl
    | some status => rfl
  | cons entry rest ih =>
    intro matched context hmatched
    rw [List.forall_mem_cons] at hdepth
    obtain ⟨hvisit, hafter⟩ := matcher_visit_step h hmatched entry.1.decoded.tag.bytes entry.2
    have hrest := fun context => ih hdepth.2 _ context hafter
    rw [List.map_cons, visitItems, pathRun]
    unfold onElement
    dsimp only
    rw [hdepth.1, hvisit]
    cases hanswer : (pathStep query.tags matched entry.1.decoded.tag.bytes entry.2).1 with
    | false =>
      rw [if_neg Bool.false_ne_true, if_neg Bool.false_ne_true]
      exact hrest context
    | true =>
      rw [if_pos rfl, if_pos rfl, visitItems]
      cases hcalled : visitor entry.1 context with
      | mk answer after =>
        cases answer with
        | resume => exact hrest after
        | stop => rfl
        | error => rfl
        | unknown => rfl

variable {format : Format} {data : Bytes}

/-- `tlv_query_visit_buffer` reads with a matcher at its start. -/
theorem visit_buffer_reader (h : query.valid = true) (hformat : format.decode.isSome)
    (maxDepth maxElements : Nat) (context : γ) :
    queryVisitBuffer format query maxDepth maxElements visitor data context =
      (treeReaderVisit format (some (onElement visitor))
        (.standing ⟨pathMaxSteps, maxDepth, maxElements⟩ data [] 0 0 {})
        (⟨some query, 0⟩, context)).map (·.2) := by
  have hinit : treeReaderInit format ⟨pathMaxSteps, maxDepth, maxElements⟩ data =
      .ok (.standing ⟨pathMaxSteps, maxDepth, maxElements⟩ data [] 0 0 {}) := by
    obtain ⟨decode, hdecode⟩ := Option.isSome_iff_exists.mp hformat
    unfold treeReaderInit readerInit
    rw [hdecode]
    rfl
  unfold queryVisitBuffer queryVisit
  rw [matcher_init_valid h, hinit]
  show (treeReaderVisit format (some (onElement visitor)) _ _ >>= fun visited =>
    Except.ok visited.2 : Except Status γ) = _
  cases treeReaderVisit format (some (onElement visitor))
      (.standing ⟨pathMaxSteps, maxDepth, maxElements⟩ data [] 0 0 {})
      (⟨some query, 0⟩, context) with
  | error status => rfl
  | ok visited => rfl

/-- Within any limits the matcher of a visit selects from what the parse has read. -/
theorem visit_selected (h : query.valid = true) (hformat : format.decode.isSome)
    (hdata : data.length ≤ sizeMax) (limits : TreeLimits) (context : γ) :
    (treeReaderVisit format (some (onElement visitor)) (.standing limits data [] 0 0 {})
        (⟨some query, 0⟩, context)).map (·.2) =
      visitItems visitor (parseSequence format limits limits.maxElements 0 0 data).failure
        (((parseSequence format limits limits.maxElements 0 0 data).forest 0).select
          (·.decoded.tag.bytes) query.tags) context := by
  generalize hparse : parseSequence format limits limits.maxElements 0 0 data = parse
  have hvisit := @tree_reader_visit_items (PathMatcher × γ) format limits data (onElement visitor)
    hformat hdata (⟨some query, 0⟩, context)
  have hmatched := @visit_items_matched γ visitor parse.failure query h _ (forest_depth parse 0) 0
    context (Nat.zero_le _)
  obtain ⟨after, -, -, hall⟩ := @path_run_live _ _ _ query.tags
    (fun item : TreeItem => item.decoded.tag.bytes) _ _ (parse.forest 0) (Nat.le_refl 0)
    (Nat.zero_le _)
  rw [hall, List.drop_zero] at hmatched
  rw [hvisit, hparse]
  exact hmatched

/-- A query of a buffer calls the visitor with the elements that the path addresses in the parse of
the buffer, in their order, until the visitor stops. Behind them the visit ends as the parse does. -/
theorem query_visit_buffer_exact (h : query.valid = true) (hformat : format.decode.isSome)
    (maxDepth maxElements : Nat) (hdata : data.length ≤ sizeMax) (context : γ) :
    let parse := parseSequence format ⟨pathMaxSteps, maxDepth, maxElements⟩ maxElements 0 0 data
    queryVisitBuffer format query maxDepth maxElements visitor data context =
      visitItems visitor parse.failure
        ((parse.forest 0).select (·.decoded.tag.bytes) query.tags) context :=
  (visit_buffer_reader h hformat maxDepth maxElements context).trans
    (visit_selected h hformat hdata _ context)

/-- The integer inside of a sequence. -/
theorem query_visit_buffer_exact_ber :
    (storedPath "30/02").valid = true ∧
      queryVisitBuffer formatBer (storedPath "30/02") 4 8
          (fun item seen => (.resume, seen ++ [item.offset])) sequenceOctets [] = .ok [2] := by
  have hvalid : (storedPath "30/02").valid = true := by decide +kernel
  have hvisit := @query_visit_buffer_exact (List Nat)
    (fun item seen => (.resume, seen ++ [item.offset])) (storedPath "30/02") formatBer sequenceOctets
    hvalid rfl 4 8 (by decide) []
  exact ⟨hvalid, hvisit.trans (by decide +kernel)⟩

end Visit

end OpenTlv.Query
