import OpenTlv.Query.Compiler
import OpenTlv.Query.Rank
import OpenTlv.Query.Safety
import OpenTlv.Query.Suspension

/-!
# What a retained execution answers

After a run of operations and a successful finish, the result of a retained execution is the
meaning of its root expression over the forest of the events that were fed, in the start context.
Reading the result publishes the selected nodes in document order, once each.

The library ranks the virtual root behind the nodes, where the documented denotation has it before
them. Both agree as long as no predicate numbers it together with a node.
-/

namespace OpenTlv.Query

variable {e e' : Exec} {fed : List TreeEvent} {forest : Forest Item} {set : Context → Bool}

/-- The selected ones of the nodes from an ordinal on, with their events. -/
def publishedFrom (set : Context → Bool) (list : List (Listed Item)) (start : Nat) :
    List (TreeEvent × Nat) :=
  ((list.zipIdx start).filter fun x => set (some x.2)).map fun x => (nodeEvent x.1, x.2)

/-- The nodes that a set selects, in document order. -/
def published (forest : Forest Item) (set : Context → Bool) : List (TreeEvent × Nat) :=
  publishedFrom set forest.nodes 0

theorem published_from_cons (node : Listed Item) (rest : List (Listed Item)) (start : Nat) :
    publishedFrom set (node :: rest) start =
      if set (some start) then (nodeEvent node, start) :: publishedFrom set rest (start + 1)
      else publishedFrom set rest (start + 1) := by
  unfold publishedFrom
  rw [List.zipIdx_cons, List.filter_cons]
  split <;> rfl

/-- The reply that publishes a node. -/
def publish (x : TreeEvent × Nat) : Reply :=
  .node x.1 x.2

section Reading

/-- The flags of the root frame from an ordinal on are those of the set. -/
def Flags (out : Area Bool) (set : Context → Bool) (start count : Nat) : Prop :=
  start + count ≤ out.size ∧ ∀ k < count, out.cell (start + k) = set (some (start + k))

theorem Flags.tail {out : Area Bool} {start count : Nat} (h : Flags out set start (count + 1)) :
    Flags out set (start + 1) count := by
  refine ⟨by have := h.1; omega, fun k hk => ?_⟩
  have := h.2 (k + 1) (by omega)
  rwa [show start + (k + 1) = start + 1 + k by omega] at this

/-- The search finds the first published node. -/
theorem next_selected_eq {out : Area Bool} (list : List (Listed Item)) (start : Nat)
    (h : Flags out set start list.length) :
    nextSelected out list.length start =
      .ok ((publishedFrom set list start).head?.map fun x => x.2) := by
  induction list generalizing start with
  | nil => rfl
  | cons node rest ih =>
    have hflag := h.2 0 (by simp)
    have hsize := h.1
    rw [List.length_cons] at hsize
    rw [Nat.add_zero] at hflag
    rw [List.length_cons, nextSelected, Area.read_of_lt (by omega), checked_some,
      published_from_cons, hflag]
    show (if set (some start) = true then _ else _) = _
    split
    · rfl
    · exact ih (start + 1) h.tail

/-- A finished retained execution whose result is a set of nodes. -/
structure Exec.Readable (e : Exec) (forest : Forest Item) (set : Context → Bool) : Prop where
  valid : e.invalid = false
  finished : e.finished = true
  retained : e.retained = true
  kind : e.result.kind = some .node
  elements : e.elements = forest.size
  frames : 0 < e.frames.size
  nodes : forest.size ≤ e.nodes.size
  flags : Flags (e.frames.cell 0).out set 0 forest.size
  listed : ∀ i node, forest.nodes[i]? = some node → (e.nodes.cell i).event = nodeEvent node

/-- Another cursor reads the same result. -/
theorem Exec.Readable.at (h : e.Readable forest set) (cursor : Nat) :
    Exec.Readable { e with resultCursor := cursor } forest set :=
  ⟨h.valid, h.finished, h.retained, h.kind, h.elements, h.frames, h.nodes, h.flags, h.listed⟩

/-- The first published node, and the ones behind it. -/
theorem published_from_head {list : List (Listed Item)} {start : Nat} {x : TreeEvent × Nat}
    {rest : List (TreeEvent × Nat)} (h : publishedFrom set list start = x :: rest) :
    ∃ k node, list[k]? = some node ∧ x = (nodeEvent node, start + k) ∧
      publishedFrom set (list.drop (k + 1)) (start + k + 1) = rest := by
  induction list generalizing start with
  | nil => cases h
  | cons node more ih =>
    rw [published_from_cons] at h
    split at h
    · cases h
      exact ⟨0, node, rfl, rfl, rfl⟩
    · obtain ⟨k, found, hk, hx, hrest⟩ := ih h
      refine ⟨k + 1, found, hk, by rw [hx]; congr 1; omega, ?_⟩
      rw [← hrest, List.drop_succ_cons]
      congr 1
      omega

/-- The search of one reading ends at the first selected node behind the cursor. -/
theorem result_next_search (h : e.Readable forest set) (hcursor : e.resultCursor ≤ forest.size) :
    e.resultNext = (do
      match (publishedFrom set (forest.nodes.drop e.resultCursor) e.resultCursor).head?.map
        fun x => x.2 with
      | none => return ({ e with resultCursor := max e.resultCursor e.elements }, none)
      | some i =>
        let node ← checked (e.nodes.read i)
        return ({ e with resultCursor := i + 1 }, some (node.event, i))) := by
  have hlength : (forest.nodes.drop e.resultCursor).length = e.elements - e.resultCursor := by
    rw [List.length_drop, Forest.nodes_length, h.elements]
  have hflags : Flags (e.frames.cell 0).out set e.resultCursor
      (forest.nodes.drop e.resultCursor).length := by
    rw [hlength, h.elements]
    refine ⟨by have := h.flags.1; omega, fun k hk => ?_⟩
    have hflag := h.flags.2 (e.resultCursor + k) (by omega)
    rwa [Nat.zero_add] at hflag
  have hsearch := next_selected_eq _ e.resultCursor hflags
  rw [hlength] at hsearch
  unfold Exec.resultNext
  rw [if_neg (by simp [h.finished]), if_neg (by simp [h.retained, h.kind]),
    Area.read_of_lt h.frames, checked_some]
  show (nextSelected (e.frames.cell 0).out (e.elements - e.resultCursor) e.resultCursor >>= _) = _
  rw [hsearch]
  rfl

/-- One reading publishes the first selected node behind the cursor. -/
theorem result_next_eq (h : e.Readable forest set) (hcursor : e.resultCursor ≤ forest.size) :
    (publishedFrom set (forest.nodes.drop e.resultCursor) e.resultCursor = [] ∧
      e.resultNext = .ok ({ e with resultCursor := max e.resultCursor e.elements }, none)) ∨
    ∃ event i rest,
      publishedFrom set (forest.nodes.drop e.resultCursor) e.resultCursor = (event, i) :: rest ∧
        e.resultNext = .ok ({ e with resultCursor := i + 1 }, some (event, i)) ∧
        i < forest.size ∧ publishedFrom set (forest.nodes.drop (i + 1)) (i + 1) = rest := by
  have hread := result_next_search h hcursor
  cases hpublished : publishedFrom set (forest.nodes.drop e.resultCursor) e.resultCursor with
  | nil =>
    rw [hpublished] at hread
    exact .inl ⟨rfl, hread⟩
  | cons x rest =>
    obtain ⟨k, node, hk, rfl, hrest⟩ := published_from_head hpublished
    rw [List.getElem?_drop] at hk
    have hlt : e.resultCursor + k < forest.size := by
      rw [← Forest.nodes_length]
      exact (List.getElem?_eq_some_iff.mp hk).1
    rw [hpublished] at hread
    refine .inr ⟨nodeEvent node, e.resultCursor + k, rest, rfl, ?_, hlt, ?_⟩
    · rw [hread]
      show (checked (e.nodes.read (e.resultCursor + k)) >>= _) = _
      rw [Area.read_of_lt (by have := h.nodes; omega), checked_some, ← h.listed _ node hk]
      rfl
    · rw [← hrest, List.drop_drop]
      congr 2

/-- More padding than is taken does not matter. -/
theorem take_padded {α : Type} (list : List α) (x : α) (count : Nat) :
    (list ++ List.replicate (count + 1) x).take count =
      (list ++ List.replicate count x).take count := by
  rw [List.take_append, List.take_append, List.take_replicate, List.take_replicate]
  congr 2
  omega

/-- Reading again and again publishes the selected nodes behind the cursor in order, then the
end. -/
theorem results_run (h : e.Readable forest set) (hcursor : e.resultCursor ≤ forest.size)
    (count : Nat) :
    ∃ e', e.run (List.replicate count .resultNext) =
      some (e', ((publishedFrom set (forest.nodes.drop e.resultCursor) e.resultCursor).map
        publish ++ List.replicate count Reply.atEnd).take count) := by
  induction count generalizing e with
  | zero => exact ⟨e, rfl⟩
  | succ count ih =>
    rcases result_next_eq h hcursor with
      ⟨hnone, hnext⟩ | ⟨event, i, rest, hsome, hnext, hi, hrest⟩
    · -- nothing is left to publish
      have hcall : e.call .resultNext =
          some ({ e with resultCursor := max e.resultCursor e.elements }, .atEnd) := by
        simp only [Exec.call, h.valid, Bool.false_eq_true, if_false, hnext, lenient]
      have hlast := h.elements
      have hmax : max e.resultCursor e.elements = forest.size := by omega
      obtain ⟨e', hrun⟩ := ih (h.at (max e.resultCursor e.elements)) (by dsimp only; omega)
      refine ⟨e', ?_⟩
      have hempty : publishedFrom set (forest.nodes.drop forest.size) forest.size = [] := by
        rw [← Forest.nodes_length, List.drop_length]
        rfl
      dsimp only at hrun
      rw [hmax, hempty] at hrun
      rw [List.replicate_succ, hnone]
      simp only [Exec.run, hcall, Option.bind_eq_bind, Option.bind_some, hmax, hrun]
      rfl
    · have hcall : e.call .resultNext =
          some ({ e with resultCursor := i + 1 }, .node event i) := by
        simp only [Exec.call, h.valid, Bool.false_eq_true, if_false, hnext, lenient]
      obtain ⟨e', hrun⟩ := ih (h.at (i + 1)) (by dsimp only; omega)
      refine ⟨e', ?_⟩
      dsimp only at hrun
      rw [hrest] at hrun
      rw [List.replicate_succ, hsome]
      simp only [Exec.run, hcall, Option.bind_eq_bind, Option.bind_some, hrun]
      rw [List.map_cons, List.cons_append, List.take_succ_cons, take_padded]
      rfl

end Reading

/-- A finished execution that holds a set of nodes can be read. -/
theorem readable_of_answers (h : e.Answers forest (.nodes set)) (hs : e.Sound fed)
    (hvalid : e.invalid = false) (hfinished : e.finished = true) (hr : e.retained = true) :
    e.Readable forest set := by
  have hretaining := hs.retaining hr
  have hroom := hretaining.room
  have helements := h.elements
  obtain ⟨hsize, hcells⟩ := h.holds.set set rfl
  refine ⟨hvalid, hfinished, hr, by rw [h.result]; rfl, helements, ?_, ?_, ?_, ?_⟩
  · rw [hretaining.frames]
    exact Nat.succ_pos _
  · rw [hretaining.nodes]
    omega
  · refine ⟨?_, fun k hk => ?_⟩
    · rw [hsize]
      show 0 + forest.size ≤ e.nodeCapacity + 1
      omega
    · rw [Nat.zero_add, hcells k (by show k ≤ e.nodeCapacity; omega), Session.member,
        if_pos (by show k < e.elements; omega)]
  · intro i node hnode
    rw [h.listed i node hnode]
    rfl

/-- The item of an event is told by the event. -/
theorem event_injective {item item' : Item} {kind : EventKind} {depth : Nat}
    (h : item.event kind depth = item'.event kind depth) : item = item' := by
  obtain ⟨element, source, offset⟩ := item
  obtain ⟨element', source', offset'⟩ := item'
  simpa [Item.event] using h

/-- What may follow the events of a forest: nothing, or the end of the node around it. -/
def Closes : List TreeEvent → Prop
  | [] => True
  | event :: _ => event.kind = .finish

/-- A balanced stream tells its forest, whatever closes it. -/
theorem events_closed {depth : Nat} {forest forest' : Forest Item} {tail tail' : List TreeEvent}
    (htail : Closes tail) (htail' : Closes tail')
    (h : events depth forest ++ tail = events depth forest' ++ tail') :
    forest = forest' ∧ tail = tail' := by
  induction forest generalizing depth forest' tail tail' with
  | nil =>
    cases forest' with
    | nil => exact ⟨rfl, h⟩
    | leaf item rest =>
      subst h
      cases htail
    | branch item kids close rest =>
      subst h
      cases htail
  | leaf item rest ih =>
    cases forest' with
    | nil =>
      subst h
      cases htail'
    | leaf item' rest' =>
      obtain ⟨hitem, hrest⟩ := List.cons.inj h
      obtain ⟨rfl, rfl⟩ := ih htail htail' hrest
      exact ⟨by rw [event_injective hitem], rfl⟩
    | branch item' kids' close' rest' => cases congrArg TreeEvent.kind (List.cons.inj h).1
  | branch item kids close rest ihkids ihrest =>
    cases forest' with
    | nil =>
      subst h
      cases htail'
    | leaf item' rest' => cases congrArg TreeEvent.kind (List.cons.inj h).1
    | branch item' kids' close' rest' =>
      obtain ⟨hitem, hkids⟩ := List.cons.inj h
      simp only [List.append_eq, List.append_assoc, List.cons_append] at hkids
      have hcloses : ∀ (close : Item) (more : List TreeEvent),
          Closes (close.event .finish depth :: more) := fun _ _ => rfl
      obtain ⟨rfl, hends⟩ := ihkids (hcloses close _) (hcloses close' _) hkids
      obtain ⟨hclose, hrest⟩ := List.cons.inj hends
      obtain ⟨rfl, rfl⟩ := ihrest htail htail' hrest
      exact ⟨by rw [event_injective hitem, event_injective hclose], rfl⟩

theorem events_injective {forest forest' : Forest Item} (h : events 0 forest = events 0 forest') :
    forest = forest' :=
  (@events_closed 0 forest forest' [] [] trivial trivial (by rw [h])).1

/-- Retained evaluation computes the denotation. Whatever was called before, a finish that
succeeds has evaluated the root expression over the forest of the events that were fed, in the
start context; the result shows that meaning, and reading it publishes the selected nodes once
each in document order. The virtual root ranks behind the nodes. -/
theorem retained_evaluation_denotes {layout : Layout} {p : Program} {environment : Environment}
    {storage capacity depth nodes work : Nat} {e₀ : Exec} {calls : List Call} {replies : List Reply}
    (hp : p.Accepted)
    (hinit : evalInit layout p environment storage capacity depth nodes work = .ok e₀)
    (hrun : e₀.run calls = some (e, replies)) (hpending : e.finished = false)
    (hfinish : e.call .finish = some (e', .done)) :
    ∃ forest d, fedBy [] calls replies = events 0 forest ∧
      denote (e'.session.world forest) (p.expression p.root) e'.context 1 1 = some d ∧
      (Unmixed (e'.session.world forest).first (p.expression p.root) e'.context 1 1 →
        denote (e'.session.world forest).first (p.expression p.root) e'.context 1 1 = some d) ∧
      e'.call .result = some (e', .result (d.result (e'.session.world forest))) ∧
      ∀ set, d = .nodes set → ∀ count, ∃ e'',
        e'.run (List.replicate count .resultNext) =
          some (e'', ((published forest set).map publish ++
            List.replicate count Reply.atEnd).take count) := by
  obtain ⟨hprogram₀, hretained₀, -⟩ := eval_init_same hinit
  have hbefore := eval_init_sound hp hinit
  obtain ⟨hprogram, hretained, -⟩ := run_same hbefore hrun
  obtain ⟨e₁, replies', hrun', hsound⟩ := run_sound hbefore calls
  rw [hrun] at hrun'
  cases hrun'
  have hdone := call_finish_done hfinish
  -- an invalid execution refuses to finish
  have hvalid : e.invalid = false := by
    by_contra hinvalid
    have hinvalid : e.invalid = true := by simpa using hinvalid
    simp [Exec.call, hinvalid] at hfinish
  have hmeets := finish_meets hsound
  rw [hdone] at hmeets
  obtain ⟨hsound', hcursor, hanswers⟩ := hmeets
  obtain ⟨forest, d, hfed, hanswer⟩ := hanswers hpending (hretained.trans hretained₀)
  obtain ⟨hsteady, -, hfinished⟩ := meets_of_ok finish_steady hdone
  have hvalid' : e'.invalid = false := hsteady.invalid.trans hvalid
  have hr : e'.retained = true := hsteady.retained.trans (hretained.trans hretained₀)
  have hplan : e'.program = p := hsteady.program.trans (hprogram.trans hprogram₀)
  have hmeaning := hanswer.meaning
  rw [hplan] at hmeaning
  refine ⟨forest, d, hfed, hmeaning, fun hunmixed => ?_, ?_, ?_⟩
  · rw [← denote_rank hunmixed]
    exact hmeaning
  · rw [← hanswer.result]
    simp [Exec.call, hvalid', Exec.getResult, hfinished, hr, lenient]
  · rintro set rfl count
    have hreadable := readable_of_answers hanswer hsound' hvalid' hfinished hr
    have hstart : e'.resultCursor = 0 := hcursor.trans (hsound.cursor hpending)
    obtain ⟨e'', hread⟩ := results_run hreadable (by omega) count
    rw [hstart, List.drop_zero] at hread
    exact ⟨e'', hread⟩

/-- `(70/.. | 70)[1]`. -/
def rankedText : Bytes :=
  [0x28, 0x37, 0x30, 0x2F, 0x2E, 0x2E, 0x20, 0x7C, 0x20, 0x37, 0x30, 0x29, 0x5B, 0x31, 0x5D]

/-- The plan that the compiler makes of it. -/
def rankedPlan : Program :=
  { instructions :=
      [{ op := .test, start := 1, stop := 3, anchor := 1, dataSize := 1, resolved := 2,
         maskOffset := 1 },
       { op := .test, start := 4, stop := 6, axis := .parent, low := 1, pathGuard := some 0,
         pathKind := .child, dataOffset := 2, context := true },
       { op := .child, left := some 0, right := some 1, start := 3, stop := 4 },
       { op := .test, start := 9, stop := 11, anchor := 1, low := 3, dataOffset := 2,
         dataSize := 1, resolved := 2, reuse := some 0, maskOffset := 3 },
       { op := .union, left := some 2, right := some 3, start := 7, stop := 8, grouped := true },
       { op := .literal, start := 13, stop := 14, anchor := 2, scalar := true, type := .number,
         low := 5, predicateGuard := some 4, immediate := 1 },
       { op := .filter, left := some 4, right := some 5, start := 12, stop := 13 }]
    root := 6
    text := rankedText
    level := .s2
    variableCount := 0
    payload := [0x70, 0xFF, 0x70, 0xFF]
    patternCapacity := 0
    codecStride := 0
    tagId := 0 }

theorem single_tag_fits : ([0x70] : Bytes).length ≤ sizeMax := by decide

/-- A single root node. -/
def singleItem : Item :=
  { element := ⟨[0x70], [], single_tag_fits, Nat.zero_le _⟩ }

/-- The forest of the node. -/
def singleForest : Forest Item :=
  .leaf singleItem .nil

theorem ranked_plan_accepted : rankedPlan.Accepted :=
  ⟨by decide +kernel, by decide +kernel⟩

/-- A node 30 around a node 70. -/
def nestedForest : Forest Item :=
  .branch { singleItem with element := ⟨[0x30], [], single_tag_fits, Nat.zero_le _⟩ } singleForest
    singleItem .nil

/-- The run that feeds it, evaluated from its first node. -/
def nestedFeeds : List Call :=
  .context 0 :: (events 0 nestedForest).map .feed

/-- From the node 30 the union holds both nodes and not the virtual root: its first is that
node. -/
theorem retained_evaluation_denotes_nested :
    ∃ e₀ e e' replies d, evalInit ⟨1, 1, 1, 1, 1⟩ rankedPlan {} 0 2000 1 2 1000 = .ok e₀ ∧
      e₀.run nestedFeeds = some (e, replies) ∧ e.call .finish = some (e', .done) ∧
      denote (e'.session.world nestedForest).first (rankedPlan.expression 6) (some 0) 1 1 =
        some d ∧
      e'.call .result = some (e', .result (d.result (e'.session.world nestedForest))) ∧
      ∀ set, d = .nodes set → ∀ count, ∃ e'',
        e'.run (List.replicate count .resultNext) =
          some (e'', ((published nestedForest set).map publish ++
            List.replicate count Reply.atEnd).take count) := by
  have hrun : ∃ e₀ e e' replies,
      evalInit ⟨1, 1, 1, 1, 1⟩ rankedPlan {} 0 2000 1 2 1000 = .ok e₀ ∧
      e₀.run nestedFeeds = some (e, replies) ∧ e.finished = false ∧
      e.call .finish = some (e', .done) ∧ fedBy [] nestedFeeds replies = events 0 nestedForest ∧
      e'.context = some 0 ∧
      Unmixed (e'.session.world nestedForest).first (rankedPlan.expression 6) (some 0) 1 1 := by
    refine ⟨_, _, _, _, rfl, rfl, rfl, rfl, rfl, rfl, ⟨⟨trivial, fun _ _ _ _ => trivial⟩, trivial⟩,
      fun s hs => ⟨fun hroot => ?_, fun _ _ => trivial⟩⟩
    cases hs
    exact absurd hroot (by decide +kernel)
  obtain ⟨e₀, e, e', replies, hinit, hrun, hpending, hfinish, hfed, hcontext, hunmixed⟩ := hrun
  obtain ⟨forest, d, hforest, -, hdenotes, hresult, hread⟩ :=
    retained_evaluation_denotes ranked_plan_accepted hinit hrun hpending hfinish
  obtain rfl := events_injective (hfed.symm.trans hforest)
  rw [hcontext] at hdenotes
  exact ⟨e₀, e, e', replies, d, hinit, hrun, hfinish, hdenotes hunmixed, hresult, hread⟩

/-- With the virtual root before its nodes, the first context of the union is the virtual root, and
no node is selected. The library publishes the node. -/
theorem retained_evaluation_root_rank :
    rankedPlan.Accepted ∧ ∃ e₀ e e' e'',
      evalInit ⟨1, 1, 1, 1, 1⟩ rankedPlan {} 0 2000 1 2 1000 = .ok e₀ ∧
      e₀.run [.feed (singleItem.event .element 0)] = some (e, [.matched false]) ∧
      e.call .finish = some (e', .done) ∧
      e'.run [.resultNext] = some (e'', [.node (singleItem.event .element 0) 0]) ∧
      ∃ set, denote { e'.session.world singleForest with rootFirst := true }
          (rankedPlan.expression 6) none 1 1 = some (.nodes set) ∧
        published singleForest set = [] :=
  ⟨ranked_plan_accepted, _, _, _, _, rfl, rfl, rfl, rfl, _, rfl, by decide +kernel⟩

end OpenTlv.Query
