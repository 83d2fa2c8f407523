import OpenTlv.Query.Safety
import OpenTlv.Query.Visit
import OpenTlv.Reader.Chunking

/-!
# Suspended visits

A visit may be suspended whenever it reports a match or waits for more data, and taken up again by
another visit of the same reader and execution. Every state between two iterations is one of the
machine `visitMove`, so the reports of all visits together are those of one run. A run over
successive windows mirrors the run over the whole input.
-/

namespace OpenTlv.Query

section Loop

variable {κ : Type} {format : Format} {visitor : EventVisitor κ} {s : Visiting} {context : κ}

/-- A visitor that only continues or stops. -/
def Suspends (visitor : EventVisitor κ) : Prop :=
  ∀ event context, (visitor event context).1 = .resume ∨ (visitor event context).1 = .stop

/-- What a visit returns is the end of a run of the machine: the visitor stopped it there, or the
machine halts. -/
theorem visit_loop_emits (hvisitor : Suspends visitor) {fuel : Nat} {r : VisitReturn κ}
    (h : visitLoop format visitor fuel s context = some r) :
    (r.ending = .stopped ∧ (∃ event context, (visitor event context).1 = .stop) ∧
        Emits (visitMove format) s r.delivered r.state) ∨
      ∃ last, Emits (visitMove format) s r.delivered last ∧
        visitMove format last = .halt r.ending r.state := by
  induction fuel generalizing s context r with
  | zero => cases h
  | succ fuel ih =>
    unfold visitLoop at h
    cases hmove : visitMove format s with
    | fault =>
      rw [hmove] at h
      cases h
    | halt ending next =>
      rw [hmove] at h
      cases h
      exact .inr ⟨s, .refl s, hmove⟩
    | quiet next =>
      rw [hmove] at h
      rcases ih h with ⟨hstopped, hstop, hemits⟩ | ⟨last, hemits, hhalt⟩
      · exact .inl ⟨hstopped, hstop, .quiet hmove hemits⟩
      · exact .inr ⟨last, .quiet hmove hemits, hhalt⟩
    | emit event next =>
      rw [hmove] at h
      dsimp only at h
      have hanswer := hvisitor event context
      cases hvisit : visitor event context with
      | mk answer context' =>
        rw [hvisit] at h hanswer
        cases answer with
        | resume =>
          dsimp only at h
          obtain ⟨r', hloop, rfl⟩ := Option.map_eq_some_iff.mp h
          rcases ih hloop with ⟨hstopped, hstop, hemits⟩ | ⟨last, hemits, hhalt⟩
          · exact .inl ⟨hstopped, hstop, .emit hmove hemits⟩
          · exact .inr ⟨last, .emit hmove hemits, hhalt⟩
        | stop =>
          cases h
          exact .inl ⟨rfl, ⟨event, context, by rw [hvisit]⟩, .emit hmove (.refl next)⟩
        | error => simp at hanswer
        | unknown => simp at hanswer

end Loop

section Calls

variable {e e' : Exec} {event : TreeEvent}

/-- A feed that reports whether the event matched. -/
theorem call_feed_matched {matched : Bool} (h : e.call (.feed event) = some (e', .matched matched)) :
    e.finished = false ∧ e.feed event = .ok (e', matched) := by
  unfold Exec.call at h
  dsimp only at h
  split at h
  · cases h
  split at h
  · cases h
  · rename_i hfinished
    unfold strict at h
    split at h
    · rename_i value hfeed
      cases h
      exact ⟨by simpa using hfinished, hfeed⟩
    · cases h
    · cases h

theorem call_finish_done (h : e.call .finish = some (e', .done)) : e.finish = .ok e' := by
  unfold Exec.call at h
  dsimp only at h
  split at h
  · cases h
  unfold strict at h
  split at h
  · rename_i value hfinish
    cases h
    exact hfinish
  · cases h
  · cases h

/-- A cursor that finds a node. -/
theorem call_result_node {i : Nat} (h : e.call .resultNext = some (e', .node event i)) :
    e.resultNext = .ok (e', some (event, i)) := by
  unfold Exec.call at h
  dsimp only at h
  split at h
  · cases h
  unfold lenient at h
  split at h
  · rename_i value hnext
    obtain ⟨next, found⟩ := value
    cases found with
    | none => cases h
    | some pair =>
      obtain ⟨found, j⟩ := pair
      cases h
      exact hnext
  · cases h
  · cases h

/-- A cursor that is behind all nodes. -/
theorem call_result_end (h : e.call .resultNext = some (e', .atEnd)) :
    e.resultNext = .ok (e', none) := by
  unfold Exec.call at h
  dsimp only at h
  split at h
  · cases h
  unfold lenient at h
  split at h
  · rename_i value hnext
    obtain ⟨next, found⟩ := value
    cases found with
    | none =>
      cases h
      exact hnext
    | some pair => cases h
  · cases h
  · cases h

/-- A feed that does not report a match invalidates the execution. -/
theorem call_feed_other {reply : Reply} (hfinished : e.finished = false)
    (h : e.call (.feed event) = some (e', reply)) :
    (∃ matched, reply = .matched matched) ∨ e'.invalid = true := by
  unfold Exec.call at h
  dsimp only at h
  split at h
  · rename_i hinvalid
    cases h
    exact .inr hinvalid
  split at h
  · rename_i hdone
    rw [hfinished] at hdone
    cases hdone
  · unfold strict at h
    split at h
    · cases h
      exact .inl ⟨_, rfl⟩
    · cases h
      exact .inr rfl
    · cases h

/-- A finish that fails invalidates the execution. -/
theorem call_finish_other {reply : Reply} (h : e.call .finish = some (e', reply)) :
    reply = .done ∨ e'.invalid = true := by
  unfold Exec.call at h
  dsimp only at h
  split at h
  · rename_i hinvalid
    cases h
    exact .inr hinvalid
  · unfold strict at h
    split at h
    · cases h
      exact .inl rfl
    · cases h
      exact .inr rfl
    · cases h

/-- A cursor that finds no node and is not behind all of them stays where it is. -/
theorem call_result_other {reply : Reply} (h : e.call .resultNext = some (e', reply)) :
    (∃ event i, reply = .node event i) ∨ reply = .atEnd ∨ e' = e := by
  unfold Exec.call at h
  dsimp only at h
  split at h
  · cases h
    exact .inr (.inr rfl)
  unfold lenient at h
  split at h
  · rename_i value hnext
    obtain ⟨next, found⟩ := value
    cases found with
    | none =>
      cases h
      exact .inr (.inl rfl)
    | some pair =>
      obtain ⟨event, i⟩ := pair
      cases h
      exact .inl ⟨_, _, rfl⟩
  · cases h
    exact .inr (.inr rfl)
  · cases h

/-- Behind all nodes the cursor stays. -/
theorem result_next_again (h : e.resultNext = .ok (e', none)) :
    e'.resultNext = .ok (e', none) := by
  have hend := (meets_of_ok result_next_steady h).2.1 rfl
  dsimp only at hend
  subst hend
  unfold Exec.resultNext at h ⊢
  split at h
  · cases h
  rename_i hfinished
  split at h
  · cases h
  rename_i hkind
  rw [if_neg hfinished, if_neg hkind]
  dsimp only at h ⊢
  cases hroot : checked (e.frames.read 0) with
  | error stop =>
    rw [hroot] at h
    cases h
  | ok root =>
    have hnone : e.elements - max e.resultCursor e.elements = 0 := by omega
    show (nextSelected root.out (e.elements - max e.resultCursor e.elements)
      (max e.resultCursor e.elements) >>= _) = _
    rw [hnone]
    show Except.ok _ = _
    rw [Nat.max_eq_left (Nat.le_max_right e.resultCursor e.elements)]

/-- A cursor that is behind all nodes is asked again. -/
theorem call_result_again (h : e.call .resultNext = some (e', .atEnd)) :
    e'.call .resultNext = some (e', .atEnd) := by
  have hnext := call_result_end h
  have hagain := result_next_again hnext
  have hsteady := (meets_of_ok result_next_steady hnext).1.steady
  dsimp only at hsteady
  unfold Exec.call at h ⊢
  dsimp only at h ⊢
  split at h
  · cases h
  · rename_i hinvalid
    rw [hsteady.invalid, if_neg hinvalid, hagain]
    rfl

end Calls

section Progress

variable {format : Format} {s next : Visiting}

/-- The reader of a visit has not read more than it may. -/
def Visiting.Counted (s : Visiting) : Prop :=
  s.reader.count ≤ s.reader.maxElements

theorem skip_pruned_remaining {exec : Exec} {event : TreeEvent} {reader next : TreeReader}
    (h : skipPruned exec event reader = .ok next) :
    next.remaining ≤ reader.remaining ∧ next.count = reader.count ∧
      next.maxElements = reader.maxElements := by
  unfold skipPruned at h
  split at h
  · unfold treeReaderSkipSubtree at h
    split at h
    · rename_i hdescend
      cases h
      refine ⟨?_, rfl, rfl⟩
      simp [TreeReader.remaining, TreeReader.leave, hdescend]
    · cases h
  · cases h
    exact ⟨Nat.le_refl _, rfl, rfl⟩

/-- The states before and after an iteration of a visit that goes on. -/
structure Visiting.Advances (s next : Visiting) : Prop where
  steady : s.exec.Steady next.exec
  elements : s.exec.elements ≤ next.exec.elements
  finished : s.exec.finished = true → next.exec.finished = true
  counted : s.Counted → next.Counted
  rank : s.Counted → next.rank < s.rank

/-- An iteration that reports nothing, or one that reports a match, goes on to `next`. -/
def VisitMove.Next (move : VisitMove) (next : Visiting) : Prop :=
  move = .quiet next ∨ ∃ event, move = .emit event next

theorem feed_move_next {reader : TreeReader} {exec : Exec} {event : TreeEvent}
    (h : VisitMove.Next (feedMove exec event reader) next) :
    exec.finished = false ∧ ∃ matched, exec.feed event = .ok (next.exec, matched) ∧
      next.reader.remaining ≤ reader.remaining ∧ next.reader.count = reader.count ∧
      next.reader.maxElements = reader.maxElements := by
  unfold feedMove at h
  split at h
  · rcases h with h | ⟨_, h⟩ <;> cases h
  · rename_i exec' matched hcall
    obtain ⟨hfinished, hfeed⟩ := call_feed_matched hcall
    refine ⟨hfinished, matched, ?_⟩
    split at h
    · rcases h with h | ⟨_, h⟩ <;> cases h
    · rename_i reader' hskip
      have hremaining := skip_pruned_remaining hskip
      split at h
      · rcases h with h | ⟨_, h⟩
        · cases h
        · cases h
          exact ⟨hfeed, hremaining⟩
      · rcases h with h | ⟨_, h⟩
        · cases h
          exact ⟨hfeed, hremaining⟩
        · cases h
  · rcases h with h | ⟨_, h⟩ <;> cases h

theorem event_move_next (hlive : s.exec.finished = false)
    (h : VisitMove.Next (eventMove format s) next) : s.Advances next := by
  unfold eventMove at h
  split at h
  · rename_i event reader hpull
    obtain ⟨hfinal, hprogress⟩ := next_event_progress hpull
    obtain ⟨hfinished, matched, hfeed, hremaining, hcount, hmax⟩ := feed_move_next h
    obtain ⟨hsteady, hmore, hless, hsame⟩ := meets_of_ok feed_steady hfeed
    dsimp only at hsteady hmore hless hsame
    refine ⟨hsteady, hmore, fun hdone => ?_, fun hcounted => ?_, fun hcounted => ?_⟩
    · rw [hlive] at hdone
      cases hdone
    · obtain ⟨hle, -⟩ := hprogress hcounted
      unfold Visiting.Counted
      omega
    · obtain ⟨-, hlt⟩ := hprogress hcounted
      unfold Visiting.rank
      rw [hsame, hfinished, if_neg Bool.false_ne_true, if_neg Bool.false_ne_true]
      omega
  · unfold finishMove at h
    split at h
    · rcases h with h | ⟨_, h⟩ <;> cases h
    · rename_i exec hcall
      obtain ⟨hsteady, helements, hfinished⟩ := meets_of_ok finish_steady (call_finish_done hcall)
      rcases h with h | ⟨_, h⟩
      · cases h
        refine ⟨hsteady, Nat.le_of_eq helements.symm, fun _ => hfinished, fun h => h, fun _ => ?_⟩
        unfold Visiting.rank
        dsimp only
        rw [hfinished, hlive, if_pos rfl, if_neg Bool.false_ne_true]
        omega
      · cases h
    · rcases h with h | ⟨_, h⟩ <;> cases h
  · rcases h with h | ⟨_, h⟩ <;> cases h
  · rcases h with h | ⟨_, h⟩ <;> cases h

theorem result_move_next (hdone : s.exec.finished = true)
    (h : VisitMove.Next (resultMove s) next) : s.Advances next := by
  unfold resultMove at h
  split at h
  · rcases h with h | ⟨_, h⟩ <;> cases h
  split at h
  · rcases h with h | ⟨_, h⟩ <;> cases h
  · rename_i exec event i hcall
    obtain ⟨hbetween, -, hcursor⟩ := meets_of_ok result_next_steady (call_result_node hcall)
    obtain ⟨hlow, hhigh⟩ := hcursor rfl
    dsimp only at hbetween hlow hhigh
    have helements := hbetween.elements
    have hfinished := hbetween.finished.trans hdone
    rcases h with h | ⟨_, h⟩
    · cases h
    · cases h
      refine ⟨{ hbetween.steady with }, Nat.le_of_eq helements.symm, fun _ => hfinished,
        fun h => h, fun _ => ?_⟩
      unfold Visiting.rank
      dsimp only
      rw [hfinished, hdone, if_pos rfl, if_pos rfl]
      omega
  · rcases h with h | ⟨_, h⟩ <;> cases h
  · rcases h with h | ⟨_, h⟩ <;> cases h

/-- Every iteration that goes on comes closer to the end and keeps the setup. -/
theorem visit_move_next (h : VisitMove.Next (visitMove format s) next) : s.Advances next := by
  unfold visitMove at h
  cases hfinished : s.exec.finished with
  | true =>
    rw [hfinished, if_pos rfl] at h
    exact result_move_next hfinished h
  | false =>
    rw [hfinished, if_neg Bool.false_ne_true] at h
    exact event_move_next hfinished h

/-- The setup along a run. -/
theorem emits_steady {emitted : List TreeEvent} {s' : Visiting}
    (h : Emits (visitMove format) s emitted s') :
    s.exec.Steady s'.exec ∧ s.exec.elements ≤ s'.exec.elements ∧
      (s.exec.finished = true → s'.exec.finished = true) ∧ (s.Counted → s'.Counted) := by
  induction h with
  | refl s => exact ⟨.refl _, Nat.le_refl _, id, id⟩
  | quiet hmove _ ih =>
    have hnext := visit_move_next (.inl hmove)
    exact ⟨hnext.steady.trans ih.1, hnext.elements.trans ih.2.1,
      fun h => ih.2.2.1 (hnext.finished h), fun h => ih.2.2.2 (hnext.counted h)⟩
  | emit hmove _ ih =>
    have hnext := visit_move_next (.inr ⟨_, hmove⟩)
    exact ⟨hnext.steady.trans ih.1, hnext.elements.trans ih.2.1,
      fun h => ih.2.2.1 (hnext.finished h), fun h => ih.2.2.2 (hnext.counted h)⟩

/-- The bound of the loop is not reached: a visit without result runs into a fault. -/
theorem visit_loop_none {κ : Type} {visitor : EventVisitor κ} {context : κ} {fuel : Nat}
    (hcounted : s.Counted) (hfuel : s.rank < fuel)
    (h : visitLoop format visitor fuel s context = none) :
    ∃ emitted last, Emits (visitMove format) s emitted last ∧
      visitMove format last = .fault := by
  induction fuel generalizing s context with
  | zero => omega
  | succ fuel ih =>
    unfold visitLoop at h
    cases hmove : visitMove format s with
    | fault => exact ⟨[], s, .refl s, hmove⟩
    | halt ending next =>
      rw [hmove] at h
      cases h
    | quiet next =>
      rw [hmove] at h
      have hnext := visit_move_next (.inl hmove)
      have hrank := hnext.rank hcounted
      obtain ⟨emitted, last, hemits, hfault⟩ := ih (hnext.counted hcounted) (by omega) h
      exact ⟨emitted, last, .quiet hmove hemits, hfault⟩
    | emit event next =>
      rw [hmove] at h
      have hnext := visit_move_next (.inr ⟨_, hmove⟩)
      have hrank := hnext.rank hcounted
      dsimp only at h
      split at h
      · rw [Option.map_eq_none_iff] at h
        obtain ⟨emitted, last, hemits, hfault⟩ := ih (hnext.counted hcounted) (by omega) h
        exact ⟨event :: emitted, last, .emit hmove hemits, hfault⟩
      · cases h
      · cases h
      · cases h

end Progress

section Returns

variable {format : Format} {compatible : Bool} {s : Visiting} {fed : List TreeEvent}

/-- No fault, and a sound execution wherever the visit goes on. -/
def VisitMove.Sound : VisitMove → Prop
  | .fault => False
  | .halt _ _ => True
  | .quiet next | .emit _ next => ∃ fed, next.exec.Sound fed

theorem feed_move_sound {reader : TreeReader} {exec : Exec} (h : exec.Sound fed)
    (event : TreeEvent) : (feedMove exec event reader).Sound := by
  obtain ⟨exec', reply, hcall, hsound⟩ := call_sound h (.feed event)
  unfold feedMove
  rw [hcall]
  cases reply with
  | matched matched =>
    dsimp only
    split
    · trivial
    · split
      · exact ⟨_, hsound⟩
      · exact ⟨_, hsound⟩
  | done | failed | refused | result | node | atEnd => trivial

theorem event_move_sound (h : s.exec.Sound fed) : (eventMove format s).Sound := by
  unfold eventMove
  split
  · exact feed_move_sound h _
  · obtain ⟨exec, reply, hcall, hsound⟩ := call_sound h .finish
    unfold finishMove
    rw [hcall]
    cases reply with
    | done => exact ⟨_, hsound⟩
    | matched | failed | refused | result | node | atEnd => trivial
  · trivial
  · trivial

theorem result_move_sound (h : s.exec.Sound fed) : (resultMove s).Sound := by
  unfold resultMove
  split
  · trivial
  obtain ⟨exec, reply, hcall, hsound⟩ := call_sound h .resultNext
  rw [hcall]
  cases reply with
  | node event i =>
    exact ⟨_, (hsound.framed.marked exec.pruned exec.pruneDepth exec.pruneAllowed
      exec.contextActive exec.publishedMatch true).sound hsound.holding⟩
  | done | matched | failed | refused | result | atEnd => trivial

/-- A visit of a sound execution does not run into a fault. -/
theorem emits_no_fault {emitted : List TreeEvent} {s' : Visiting} (h : s.exec.Sound fed)
    (hemits : Emits (visitMove format) s emitted s') : visitMove format s' ≠ .fault := by
  have hmove : ∀ {s : Visiting} {fed : List TreeEvent}, s.exec.Sound fed →
      (visitMove format s).Sound := by
    intro s fed h
    unfold visitMove
    split
    · exact result_move_sound h
    · exact event_move_sound h
  induction hemits generalizing fed with
  | refl s =>
    intro hfault
    have hsound := hmove h
    rw [hfault] at hsound
    exact hsound
  | quiet hnext _ ih =>
    have hsound := hmove h
    rw [hnext] at hsound
    obtain ⟨fed, hsound⟩ := hsound
    exact ih hsound
  | emit hnext _ ih =>
    have hsound := hmove h
    rw [hnext] at hsound
    obtain ⟨fed, hsound⟩ := hsound
    exact ih hsound

/-- A visit of a sound execution returns. -/
theorem visit_returns {κ : Type} {visitor : EventVisitor κ} {context : κ}
    (h : s.exec.Sound fed) (hcounted : s.Counted) :
    ∃ r, programVisit format compatible visitor s context = some r := by
  have hready : Meets (visitReady s.exec) (Reports True) fun _ => True := by
    unfold visitReady
    split
    · trivial
    · exact (ready_meets h.framed).mono (fun _ h => h) fun _ _ => trivial
  have hentry : Meets (visitEntry compatible s.exec) (Reports True) fun _ => True := by
    unfold visitEntry
    repeat' split
    · exact unlocated_meets
    · exact unlocated_meets
    · exact unlocated_meets
    · trivial
  unfold programVisit
  cases hpassed : visitEntry compatible s.exec with
  | error stop =>
    rw [hpassed] at hentry
    obtain ⟨⟨diagnostic, rfl⟩, -⟩ := hentry
    exact ⟨_, rfl⟩
  | ok value =>
    cases hbound : visitReady s.exec with
    | error stop =>
      rw [hbound] at hready
      obtain ⟨⟨diagnostic, rfl⟩, -⟩ := hready
      exact ⟨_, rfl⟩
    | ok value =>
      refine Option.isSome_iff_exists.mp (Option.isSome_iff_ne_none.mpr fun hnone => ?_)
      obtain ⟨emitted, last, hemits, hfault⟩ :=
        visit_loop_none hcounted (Nat.lt_succ_self _) hnone
      exact emits_no_fault h hemits hfault

end Returns

section Mirror

variable {format : Format} {whole : Bytes}

/-- The visit over the whole input that a visit over a window mirrors. -/
def Visiting.over (whole : Bytes) (s : Visiting) : Visiting :=
  { s with reader := s.reader.over whole }

/-- A visit over a window and the one over the whole input. -/
def Windowed (whole : Bytes) (s t : Visiting) : Prop :=
  t = s.over whole ∧ s.reader.Coherent whole ∧ s.Counted

theorem skip_pruned_over {exec : Exec} {event : TreeEvent} {reader : TreeReader}
    (h : reader.Coherent whole) :
    match skipPruned exec event reader with
    | .error status => skipPruned exec event (reader.over whole) = .error status
    | .ok next =>
      skipPruned exec event (reader.over whole) = .ok (next.over whole) ∧
        next.Coherent whole := by
  unfold skipPruned
  by_cases hprune : event.kind = .begin ∧ event.element.value.length ≠ 0 ∧
      exec.pruneAllowed = true
  · rw [if_pos hprune, if_pos hprune]
    exact skip_subtree_over h
  · rw [if_neg hprune, if_neg hprune]
    exact ⟨rfl, h⟩

/-- Two moves over a window and over the whole input. -/
def MovesAlike (whole : Bytes) (move move' : VisitMove) : Prop :=
  match move with
  | .fault => move' = .fault
  | .halt ending next => ending ≠ .waiting ∧
      ∃ ending' next', move' = .halt ending' next' ∧ next'.exec = next.exec
  | .quiet next => move' = .quiet (next.over whole) ∧ next.reader.Coherent whole
  | .emit event next => move' = .emit event (next.over whole) ∧ next.reader.Coherent whole

theorem feed_move_over {exec : Exec} {event : TreeEvent} {reader : TreeReader}
    (h : reader.Coherent whole) :
    MovesAlike whole (feedMove exec event reader) (feedMove exec event (reader.over whole)) := by
  unfold feedMove
  cases hcall : exec.call (.feed event) with
  | none => rfl
  | some found =>
    obtain ⟨exec', reply⟩ := found
    cases reply with
    | matched matched =>
      have hskip := @skip_pruned_over whole exec' event reader h
      dsimp only
      cases hpruned : skipPruned exec' event reader with
      | error status =>
        rw [hpruned] at hskip
        dsimp only at hskip ⊢
        rw [hskip]
        exact ⟨by simp, _, _, rfl, rfl⟩
      | ok next =>
        rw [hpruned] at hskip
        dsimp only at hskip ⊢
        rw [hskip.1]
        dsimp only
        split
        · exact ⟨rfl, hskip.2⟩
        · exact ⟨rfl, hskip.2⟩
    | done => exact ⟨by simp, _, _, rfl, rfl⟩
    | failed diagnostic => exact ⟨by simp, _, _, rfl, rfl⟩
    | refused status => exact ⟨by simp, _, _, rfl, rfl⟩
    | result value => exact ⟨by simp, _, _, rfl, rfl⟩
    | node event i => exact ⟨by simp, _, _, rfl, rfl⟩
    | atEnd => exact ⟨by simp, _, _, rfl, rfl⟩

theorem finish_move_over {s : Visiting} (h : s.reader.Coherent whole) :
    MovesAlike whole (finishMove s) (finishMove (s.over whole)) := by
  unfold finishMove
  rw [show (s.over whole).exec = s.exec from rfl]
  cases hcall : s.exec.call .finish with
  | none => rfl
  | some found =>
    obtain ⟨exec', reply⟩ := found
    cases reply with
    | done => exact ⟨rfl, h⟩
    | matched matched => exact ⟨by simp, _, _, rfl, rfl⟩
    | failed diagnostic => exact ⟨by simp, _, _, rfl, rfl⟩
    | refused status => exact ⟨by simp, _, _, rfl, rfl⟩
    | result value => exact ⟨by simp, _, _, rfl, rfl⟩
    | node event i => exact ⟨by simp, _, _, rfl, rfl⟩
    | atEnd => exact ⟨by simp, _, _, rfl, rfl⟩

theorem result_move_over {s : Visiting} (h : s.reader.Coherent whole) :
    MovesAlike whole (resultMove s) (resultMove (s.over whole)) := by
  unfold resultMove
  rw [show (s.over whole).exec = s.exec from rfl]
  by_cases hnone : s.exec.retained = false ∨ s.exec.result.kind ≠ some .node
  · rw [if_pos hnone, if_pos hnone]
    exact ⟨by simp, _, _, rfl, rfl⟩
  · rw [if_neg hnone, if_neg hnone]
    cases hcall : s.exec.call .resultNext with
    | none => rfl
    | some found =>
      obtain ⟨exec', reply⟩ := found
      cases reply with
      | node event i => exact ⟨rfl, h⟩
      | done => exact ⟨by simp, _, _, rfl, rfl⟩
      | matched matched => exact ⟨by simp, _, _, rfl, rfl⟩
      | failed diagnostic => exact ⟨by simp, _, _, rfl, rfl⟩
      | refused status => exact ⟨by simp, _, _, rfl, rfl⟩
      | result value => exact ⟨by simp, _, _, rfl, rfl⟩
      | atEnd => exact ⟨by simp, _, _, rfl, rfl⟩

/-- A pull that fails ends the visit. -/
theorem event_move_failed {s : Visiting} {status : Status}
    (h : treeReaderNextEvent format s.reader = .error status) (hend : status ≠ .atEnd)
    (hneed : status ≠ .needMoreData) :
    eventMove format s = .halt (.over (.error status)) s.invalidate := by
  unfold eventMove
  rw [h]
  split
  · rename_i hevent
    cases hevent
  · rename_i hevent
    cases hevent
    exact absurd rfl hend
  · rename_i hevent
    cases hevent
    exact absurd rfl hneed
  · rename_i hevent
    cases hevent
    rfl

/-- An iteration over a window waits for more data or is the one over the whole input. -/
theorem visit_move_over (hformat : PrefixStable format) (hwhole : whole.length ≤ sizeMax)
    {s : Visiting} (h : s.reader.Coherent whole) :
    visitMove format s = .halt .waiting s ∨
      MovesAlike whole (visitMove format s) (visitMove format (s.over whole)) := by
  unfold visitMove
  rw [show (s.over whole).exec = s.exec from rfl]
  cases hfinished : s.exec.finished with
  | true => exact .inr (result_move_over h)
  | false =>
    rw [if_neg Bool.false_ne_true, if_neg Bool.false_ne_true]
    have hpull := next_event_over hformat hwhole h
    have hfinal := next_event_final hformat hwhole h.over rfl
    have hover : (s.over whole).reader = s.reader.over whole := rfl
    cases hevent : treeReaderNextEvent format s.reader with
    | ok found =>
      obtain ⟨event, next⟩ := found
      rw [hevent] at hpull
      unfold eventMove
      rw [hevent, hover, hpull.1]
      exact .inr (feed_move_over hpull.2)
    | error status =>
      rw [hevent] at hpull
      rcases hpull with ⟨rfl, -⟩ | ⟨hneed, status', hlong, halike⟩
      · refine .inl ?_
        unfold eventMove
        rw [hevent]
      · refine .inr ?_
        have hneed' : status' ≠ .needMoreData := by
          intro heq
          rw [heq] at hlong
          exact hfinal hlong
        by_cases hend : status = .atEnd
        · have hend' : status' = .atEnd := by
            rcases halike with hcode | ⟨hnot, -⟩
            · rw [hcode, hend]
            · exact absurd hend hnot
          unfold eventMove
          rw [hevent, hover, hlong, hend, hend']
          exact finish_move_over h
        · have hend' : status' ≠ .atEnd := by
            rcases halike with hcode | ⟨-, hnot, -⟩
            · rw [hcode]
              exact hend
            · exact hnot
          rw [event_move_failed hevent hend hneed, event_move_failed hlong hend' hneed']
          exact ⟨by simp, _, _, rfl, rfl⟩

/-- A visit of a window takes the steps of the whole visit. -/
theorem visit_mirrors (hformat : PrefixStable format) (hwhole : whole.length ≤ sizeMax) :
    Mirrors (visitMove format) (visitMove format) (· = .waiting) (Windowed whole)
      fun s t => t.exec = s.exec := by
  rintro s t ⟨rfl, hcoherent, hcounted⟩
  have hnext := @visit_move_next format s
  rcases visit_move_over hformat hwhole hcoherent with hwaits | halike
  · rw [hwaits]
    exact .inl ⟨rfl, rfl⟩
  · cases hmove : visitMove format s with
    | fault =>
      rw [hmove] at halike
      exact halike
    | halt ending next =>
      rw [hmove] at halike
      exact .inr halike
    | quiet next =>
      rw [hmove] at halike
      exact ⟨_, halike.1, rfl, halike.2, (hnext (.inl hmove)).counted hcounted⟩
    | emit event next =>
      rw [hmove] at halike
      exact ⟨_, halike.1, rfl, halike.2, (hnext (.inr ⟨_, hmove⟩)).counted hcounted⟩

end Mirror

section Idle

variable {format : Format} {compatible : Bool}

/-- Every visit of the execution returns at once and reports nothing; it leaves `exec'`. -/
def Settles (format : Format) (compatible : Bool) (exec exec' : Exec) : Prop :=
  ∀ (κ : Type) (visitor : EventVisitor κ) (reader : TreeReader) (context : κ),
    ∃ r, programVisit format compatible visitor ⟨reader, exec⟩ context = some r ∧
      r.delivered = [] ∧ r.state.exec = exec'

/-- Every visit of the execution returns at once and leaves it as it is. -/
def Idle (format : Format) (compatible : Bool) (exec : Exec) : Prop :=
  Settles format compatible exec exec

/-- The checks at the start of a visit let the execution pass. -/
structure Admitted (compatible : Bool) (exec : Exec) : Prop where
  entry : visitEntry compatible exec = .ok ()
  ready : visitReady exec = .ok ()

theorem visit_admitted {κ : Type} {visitor : EventVisitor κ} {s : Visiting} {context : κ}
    (h : Admitted compatible s.exec) :
    programVisit format compatible visitor s context =
      visitLoop format visitor (s.rank + 1) s context := by
  unfold programVisit
  rw [h.entry, h.ready]

/-- An execution that a visit does not enter. -/
theorem idle_of_entry {exec : Exec} {diagnostic : Diagnostic}
    (h : visitEntry compatible exec = .error (.failed diagnostic)) :
    Idle format compatible exec := by
  intro κ visitor reader context
  refine ⟨⟨.over (.error diagnostic.status), ⟨reader, exec⟩, context, []⟩, ?_, rfl, rfl⟩
  unfold programVisit
  rw [h]

theorem idle_of_invalid {exec : Exec} (h : exec.invalid = true) :
    Idle format compatible exec := by
  have hentry : ∃ diagnostic, visitEntry compatible exec = .error (.failed diagnostic) := by
    unfold visitEntry
    rw [if_pos h]
    exact ⟨_, rfl⟩
  obtain ⟨diagnostic, hentry⟩ := hentry
  exact idle_of_entry hentry

/-- An execution with an unbound variable, which a visit invalidates. -/
theorem settles_of_ready {exec : Exec} {diagnostic : Diagnostic}
    (hentry : visitEntry compatible exec = .ok ())
    (h : visitReady exec = .error (.failed diagnostic)) :
    Settles format compatible exec { exec with invalid := true } := by
  intro κ visitor reader context
  refine ⟨⟨.over (.error diagnostic.status), ⟨reader, { exec with invalid := true }⟩, context,
    []⟩, ?_, rfl, rfl⟩
  unfold programVisit
  rw [hentry, h]
  rfl

/-- An execution at the end of its results, whatever the reader. -/
theorem idle_of_halt {exec : Exec} (hfinished : exec.finished = true)
    (hhalt : ∀ reader, ∃ ending, resultMove ⟨reader, exec⟩ = .halt ending ⟨reader, exec⟩)
    (hentry : Admitted compatible exec) : Idle format compatible exec := by
  intro κ visitor reader context
  obtain ⟨ending, hmove⟩ := hhalt reader
  refine ⟨⟨ending, ⟨reader, exec⟩, context, []⟩, ?_, rfl, rfl⟩
  rw [visit_admitted hentry]
  unfold visitLoop visitMove
  rw [if_pos hfinished, hmove]

/-- The checks look at the setup only, and at the bindings before the first element. -/
theorem entry_steady {e e' : Exec} (h : Admitted compatible e) (hsteady : e.Steady e')
    (helements : e.elements ≤ e'.elements)
    (hfinished : e.finished = true → e'.finished = true) : Admitted compatible e' := by
  obtain ⟨hentry, hready⟩ := h
  refine ⟨?_, ?_⟩
  · unfold visitEntry at hentry ⊢
    rw [hsteady.invalid, hsteady.program, hsteady.document, hsteady.retained,
      hsteady.environment]
    exact hentry
  · unfold visitReady at hready ⊢
    by_cases hdone : e'.finished = true
    · rw [if_pos hdone]
    · rw [if_neg fun hlive => hdone (hfinished hlive)] at hready
      rw [if_neg hdone]
      unfold Exec.ready at hready ⊢
      rw [hsteady.bindings, hsteady.program]
      by_cases hnone : e'.elements = 0
      · rw [if_pos (by omega)] at hready
        rw [if_pos hnone]
        exact hready
      · rw [if_neg hnone]

/-- Where the results are at an end they stay so. -/
theorem result_move_again {s next : Visiting} {ending : VisitEnd}
    (h : resultMove s = .halt ending next) :
    s.exec.Between next.exec ∧
      ∀ reader, ∃ ending, resultMove ⟨reader, next.exec⟩ = .halt ending ⟨reader, next.exec⟩ := by
  unfold resultMove at h
  split at h
  · rename_i hnone
    cases h
    refine ⟨.refl _, fun reader => ⟨.over (.ok ()), ?_⟩⟩
    unfold resultMove
    rw [if_pos hnone]
  rename_i hnodes
  cases hcall : s.exec.call .resultNext with
  | none =>
    rw [hcall] at h
    cases h
  | some found =>
    obtain ⟨exec, reply⟩ := found
    have hother := call_result_other hcall
    rw [hcall] at h
    cases reply with
    | node event i => cases h
    | atEnd =>
      cases h
      have hnext := call_result_end hcall
      obtain ⟨hbetween, hend, -⟩ := meets_of_ok result_next_steady hnext
      have hend := hend rfl
      dsimp only at hend
      refine ⟨hbetween, fun reader => ⟨.over (.ok ()), ?_⟩⟩
      have hnodes' : ¬ (exec.retained = false ∨ exec.result.kind ≠ some .node) := by
        rw [hend]
        exact hnodes
      unfold resultMove
      dsimp only
      rw [if_neg hnodes', call_result_again hcall]
    | done | failed | refused | matched | result =>
      have hsame : exec = s.exec := by simpa using hother
      subst hsame
      cases h
      refine ⟨.refl _, fun reader => ?_⟩
      unfold resultMove
      dsimp only
      rw [if_neg hnodes, hcall]
      exact ⟨_, rfl⟩

/-- A visit that is over leaves an idle execution. -/
theorem visit_halt_idle {s next : Visiting} {ending : VisitEnd}
    (hentry : Admitted compatible s.exec) (hend : ending ≠ .waiting)
    (h : visitMove format s = .halt ending next) : Idle format compatible next.exec := by
  unfold visitMove at h
  cases hfinished : s.exec.finished with
  | true =>
    rw [hfinished, if_pos rfl] at h
    obtain ⟨hbetween, hhalt⟩ := result_move_again h
    refine idle_of_halt (hbetween.finished.trans hfinished) hhalt ?_
    exact entry_steady hentry hbetween.steady (Nat.le_of_eq hbetween.elements.symm)
      fun _ => hbetween.finished.trans hfinished
  | false =>
    rw [hfinished, if_neg Bool.false_ne_true] at h
    unfold eventMove at h
    split at h
    · rename_i event reader hevent
      unfold feedMove at h
      split at h
      · cases h
      · rename_i exec matched hcall
        split at h
        · cases h
          exact idle_of_invalid rfl
        · split at h <;> cases h
      · rename_i exec reply hmatched hcall
        cases h
        rcases call_feed_other hfinished hcall with ⟨matched, hreply⟩ | hinvalid
        · exact absurd hreply (hmatched matched)
        · exact idle_of_invalid hinvalid
    · unfold finishMove at h
      split at h
      · cases h
      · cases h
      · rename_i exec reply hdone hcall
        cases h
        rcases call_finish_other hcall with hreply | hinvalid
        · exact absurd hreply hdone
        · exact idle_of_invalid hinvalid
    · cases h
      exact absurd rfl hend
    · cases h
      exact idle_of_invalid rfl

end Idle

section Sessions

variable {κ : Type} {format : Format} {compatible : Bool} {whole : Bytes}

/-- The calls of a client that visits a reader and supplies it with windows. -/
inductive VisitCall (κ : Type) where
  | visit (visitor : EventVisitor κ)
  | supply (data : Bytes) (discard : Nat) (finalInput : Bool)

/-- The reader and the execution between two calls, with all reports so far. `complete` says that
the last visit neither was stopped nor waits for more data. -/
structure VisitSession (κ : Type) where
  state : Visiting
  context : κ
  delivered : List TreeEvent := []
  complete : Bool := false

/-- Take over what a visit returns. -/
def VisitSession.took (session : VisitSession κ) (r : VisitReturn κ) : VisitSession κ :=
  { state := r.state
    context := r.context
    delivered := session.delivered ++ r.delivered
    complete :=
      match r.ending with
      | .over _ => true
      | _ => false }

/-- One call. -/
def VisitCall.apply (format : Format) (compatible : Bool) (session : VisitSession κ) :
    VisitCall κ → Option (VisitSession κ)
  | .visit visitor =>
    (programVisit format compatible visitor session.state session.context).map session.took
  | .supply data discard finalInput =>
    match treeReaderSetInput format session.state.reader data discard finalInput with
    | .ok reader => some { session with state := { session.state with reader := reader } }
    | .error _ => some session

/-- Some calls. -/
def VisitSession.after (format : Format) (compatible : Bool) :
    VisitSession κ → List (VisitCall κ) → Option (VisitSession κ)
  | session, [] => some session
  | session, call :: calls =>
    (call.apply format compatible session).bind fun session =>
      session.after format compatible calls

/-- A visitor of a call continues or stops. -/
def VisitCall.Suspends : VisitCall κ → Prop
  | .visit visitor => Query.Suspends visitor
  | .supply _ _ _ => True

/-- A supplied window shows the input, and a final one shows it to its end. -/
def VisitCall.Shows (whole : Bytes) (session : VisitSession κ) : VisitCall κ → Prop
  | .visit _ => True
  | .supply data discard finalInput =>
    data <+: whole.drop (session.state.reader.input.baseOffset + discard) ∧
      (finalInput = true →
        session.state.reader.input.baseOffset + discard + data.length = whole.length)

/-- Calls that show the input in windows. -/
def ShowsWhole (format : Format) (compatible : Bool) (whole : Bytes) :
    VisitSession κ → List (VisitCall κ) → Prop
  | _, [] => True
  | session, call :: calls =>
    call.Shows whole session ∧
      (call.apply format compatible session).elim True fun next =>
        ShowsWhole format compatible whole next calls

instance (whole : Bytes) (session : VisitSession κ) : (call : VisitCall κ) →
    Decidable (call.Shows whole session)
  | .visit _ => inferInstanceAs (Decidable True)
  | .supply _ _ _ => inferInstanceAs (Decidable (_ ∧ _))

instance decidableShowsWhole (format : Format) (compatible : Bool) (whole : Bytes) :
    (session : VisitSession κ) → (calls : List (VisitCall κ)) →
    Decidable (ShowsWhole format compatible whole session calls)
  | _, [] => inferInstanceAs (Decidable True)
  | session, call :: calls =>
    have : Decidable ((call.apply format compatible session).elim True fun next =>
        ShowsWhole format compatible whole next calls) :=
      match call.apply format compatible session with
      | none => inferInstanceAs (Decidable True)
      | some next => decidableShowsWhole format compatible whole next calls
    inferInstanceAs (Decidable (_ ∧ _))

/-- A visitor that always continues. -/
def unstopped : EventVisitor Unit := fun _ _ => (.resume, ())

/-- What one uninterrupted visit runs through. -/
theorem unstopped_emits {t : Visiting} {one : VisitReturn Unit} {fuel : Nat}
    (h : visitLoop format unstopped fuel t () = some one) :
    ∃ last, Emits (visitMove format) t one.delivered last ∧
      visitMove format last = .halt one.ending one.state := by
  rcases visit_loop_emits (fun _ _ => .inl rfl) h with ⟨-, ⟨event, context, hstop⟩, -⟩ | hhalt
  · cases hstop
  · exact hhalt

/-- Where a session is on its way along the uninterrupted visit: on it, or behind its end. -/
inductive OnTheWay (format : Format) (compatible : Bool) (whole : Bytes) (start : Visiting)
    (one : VisitReturn Unit) (session : VisitSession κ) : Prop where
  | running (t : Visiting) (hentry : Admitted compatible start.exec)
      (hemits : Emits (visitMove format) start session.delivered t)
      (hwindow : Windowed whole session.state t)
  | idle (hdelivered : session.delivered = one.delivered)
      (hsettles : Settles format compatible session.state.exec one.state.exec)
      (hidle : Idle format compatible one.state.exec)

/-- The invariant of a session. -/
structure Agrees (format : Format) (compatible : Bool) (whole : Bytes) (start : Visiting)
    (one : VisitReturn Unit) (session : VisitSession κ) : Prop where
  way : OnTheWay format compatible whole start one session
  complete : session.complete = true →
    session.delivered = one.delivered ∧ session.state.exec = one.state.exec

variable {start : Visiting} {one : VisitReturn Unit} {session : VisitSession κ}

theorem visit_apply {visitor : EventVisitor κ} {r : VisitReturn κ}
    (h : programVisit format compatible visitor session.state session.context = some r) :
    (VisitCall.visit visitor).apply format compatible session = some (session.took r) := by
  show (programVisit format compatible visitor session.state session.context).map _ = _
  rw [h]
  rfl

/-- A visit behind the end of the uninterrupted one reports nothing more. -/
theorem agrees_idle (hdelivered : session.delivered = one.delivered)
    (hsettles : Settles format compatible session.state.exec one.state.exec)
    (hidle : Idle format compatible one.state.exec) (visitor : EventVisitor κ) :
    ∃ next, (VisitCall.visit visitor).apply format compatible session = some next ∧
      Agrees format compatible whole start one next := by
  obtain ⟨r, hvisit, hnothing, hsame⟩ :=
    hsettles κ visitor session.state.reader session.context
  have hdelivered' : (session.took r).delivered = one.delivered := by
    show session.delivered ++ r.delivered = one.delivered
    rw [hnothing, List.append_nil, hdelivered]
  refine ⟨session.took r, visit_apply hvisit, .idle hdelivered' ?_ hidle,
    fun _ => ⟨hdelivered', hsame⟩⟩
  rw [show (session.took r).state.exec = one.state.exec from hsame]
  exact hidle

/-- A visit on the way goes on along the uninterrupted one. -/
theorem agrees_visit (hformat : PrefixStable format) (hwhole : whole.length ≤ sizeMax)
    {last t : Visiting} {ending : VisitEnd} {final : Visiting}
    (hone : Emits (visitMove format) start one.delivered last)
    (hlast : visitMove format last = .halt ending final) (hfinal : final = one.state)
    (hentry : Admitted compatible start.exec)
    (hemits : Emits (visitMove format) start session.delivered t)
    (hwindow : Windowed whole session.state t) {visitor : EventVisitor κ}
    (hvisitor : Suspends visitor) :
    ∃ next, (VisitCall.visit visitor).apply format compatible session = some next ∧
      Agrees format compatible whole start one next := by
  have hmirrors := @visit_mirrors format whole hformat hwhole
  have hexec : t.exec = session.state.exec := by
    rw [hwindow.1]
    rfl
  obtain ⟨hsteady, helements, hfinished, -⟩ := emits_steady hemits
  rw [hexec] at hsteady helements hfinished
  have hentry' := entry_steady hentry hsteady helements hfinished
  obtain ⟨rest, hrest, hahead⟩ := hemits.remainder hone hlast
  -- the loop cannot fault, since the whole visit does not
  cases hloop : visitLoop format visitor (session.state.rank + 1) session.state
      session.context with
  | none =>
    obtain ⟨emitted, stuck, hstuck, hfault⟩ :=
      visit_loop_none hwindow.2.2 (Nat.lt_succ_self _) hloop
    obtain ⟨t', hemits', hwindow'⟩ := hmirrors.emits hwindow hstuck
    obtain ⟨rest', -, hahead'⟩ := hemits'.remainder hahead hlast
    have hfault' := hmirrors stuck t' hwindow'
    rw [hfault] at hfault'
    dsimp only at hfault'
    cases hahead' with
    | refl =>
      rw [hfault'] at hlast
      cases hlast
    | quiet hmove _ =>
      rw [hfault'] at hmove
      cases hmove
    | emit hmove _ =>
      rw [hfault'] at hmove
      cases hmove
  | some r =>
    have hvisit : programVisit format compatible visitor session.state session.context =
        some r := by
      rw [visit_admitted hentry']
      exact hloop
    refine ⟨session.took r, visit_apply hvisit, ?_⟩
    -- stopped by the visitor, waiting for octets, or over
    rcases visit_loop_emits hvisitor hloop with ⟨hstopped, -, hrun⟩ | ⟨middle, hrun, hhalt⟩
    · obtain ⟨t', hemits', hwindow'⟩ := hmirrors.emits hwindow hrun
      refine ⟨.running t' hentry (hemits.trans hemits') hwindow', fun hcomplete => ?_⟩
      simp [VisitSession.took, hstopped] at hcomplete
    · obtain ⟨t', hemits', hwindow'⟩ := hmirrors.emits hwindow hrun
      have hstep := hmirrors middle t' hwindow'
      rw [hhalt] at hstep
      rcases hstep with ⟨hwaits, hsame⟩ | ⟨hwaits, ending', next', hmove', hend⟩
      · refine ⟨.running t' hentry (hemits.trans hemits') ?_, fun hcomplete => ?_⟩
        · show Windowed whole r.state t'
          rw [hsame]
          exact hwindow'
        · simp [VisitSession.took, hwaits] at hcomplete
      · obtain ⟨rest', hrest', hahead'⟩ := (hemits.trans hemits').remainder hone hlast
        obtain ⟨rfl, rfl⟩ := hahead'.halted hmove'
        rw [hlast] at hmove'
        cases hmove'
        have hdelivered : (session.took r).delivered = one.delivered := by
          rw [hrest', List.append_nil]
          rfl
        have hexec' : (session.took r).state.exec = one.state.exec := by
          rw [← hfinal]
          exact hend.symm
        obtain ⟨hsteady', helements', hfinished', -⟩ := emits_steady hrun
        have hidle := visit_halt_idle
          (entry_steady hentry' hsteady' helements' hfinished') hwaits hhalt
        have hidle : Idle format compatible one.state.exec := by
          rw [← hexec']
          exact hidle
        refine ⟨.idle hdelivered ?_ hidle, fun _ => ⟨hdelivered, hexec'⟩⟩
        rw [hexec']
        exact hidle

/-- A new window changes neither the reports nor where the session is. -/
theorem agrees_supply (h : Agrees format compatible whole start one session) {data : Bytes}
    {discard : Nat} {finalInput : Bool}
    (hshows : (VisitCall.supply data discard finalInput : VisitCall κ).Shows whole session) :
    ∃ next, (VisitCall.supply data discard finalInput).apply format compatible session =
        some next ∧ Agrees format compatible whole start one next := by
  cases hset : treeReaderSetInput format session.state.reader data discard finalInput with
  | error status => exact ⟨session, by simp only [VisitCall.apply, hset], h⟩
  | ok reader =>
    refine ⟨{ session with state := { session.state with reader := reader } },
      by simp only [VisitCall.apply, hset], ?_, h.complete⟩
    cases h.way with
    | running t hentry hemits hwindow =>
      obtain ⟨hover, hcoherent, hcounted⟩ := hwindow
      obtain ⟨hcoherent', hover'⟩ := set_input_over hcoherent hshows.1 hshows.2 hset
      have hinput : ∃ input, reader = { session.state.reader with input := input } := by
        unfold treeReaderSetInput at hset
        obtain ⟨input, hread, hset⟩ := bind_ok.mp hset
        cases hset
        exact ⟨input, rfl⟩
      obtain ⟨input, hinput⟩ := hinput
      refine .running t hentry hemits ⟨?_, hcoherent', ?_⟩
      · rw [hover]
        show _ = ({ session.state with reader := reader.over whole } : Visiting)
        rw [hover']
        rfl
      · show reader.count ≤ reader.maxElements
        rw [hinput]
        exact hcounted
    | idle hdelivered hsettles hidle => exact .idle hdelivered hsettles hidle

/-- Every call keeps the session on its way. -/
theorem agrees_call (hformat : PrefixStable format) (hwhole : whole.length ≤ sizeMax)
    (hone : programVisit format compatible unstopped start () = some one)
    (h : Agrees format compatible whole start one session) {call : VisitCall κ}
    (hshows : call.Shows whole session) (hsuspends : call.Suspends) :
    ∃ next, call.apply format compatible session = some next ∧
      Agrees format compatible whole start one next := by
  cases call with
  | supply data discard finalInput => exact agrees_supply h hshows
  | visit visitor =>
    cases h.way with
    | idle hdelivered hsettles hidle => exact agrees_idle hdelivered hsettles hidle visitor
    | running t hentry hemits hwindow =>
      rw [visit_admitted hentry] at hone
      obtain ⟨last, hwhole', hlast⟩ := unstopped_emits hone
      exact agrees_visit hformat hwhole hwhole' hlast rfl hentry hemits hwindow hsuspends

/-- A session agrees with the one visit after any calls. -/
theorem agrees_calls (hformat : PrefixStable format) (hwhole : whole.length ≤ sizeMax)
    (hone : programVisit format compatible unstopped start () = some one)
    (h : Agrees format compatible whole start one session) {calls : List (VisitCall κ)}
    (hshows : ShowsWhole format compatible whole session calls)
    (hsuspends : ∀ call ∈ calls, call.Suspends) :
    ∃ last, session.after format compatible calls = some last ∧
      Agrees format compatible whole start one last := by
  induction calls generalizing session with
  | nil => exact ⟨session, rfl, h⟩
  | cons call calls ih =>
    obtain ⟨hwindow, hrest⟩ := hshows
    obtain ⟨hfirst, hothers⟩ := List.forall_mem_cons.mp hsuspends
    obtain ⟨next, hcall, hnext⟩ := agrees_call hformat hwhole hone h hwindow hfirst
    rw [hcall] at hrest
    obtain ⟨last, hafter, hlast⟩ := ih hnext hrest hothers
    refine ⟨last, ?_, hlast⟩
    unfold VisitSession.after
    rw [hcall]
    exact hafter

/-- A new session agrees with the uninterrupted visit. -/
theorem agrees_start {limits : TreeLimits} {first : Bytes} {reader final : TreeReader}
    {exec : Exec} (hreader : treeReaderInitIncremental format limits first = .ok reader)
    (hfinal : treeReaderInit format limits whole = .ok final) (hfirst : first <+: whole)
    (hone : programVisit format compatible unstopped ⟨final, exec⟩ () = some one) (context : κ) :
    Agrees format compatible whole ⟨final, exec⟩ one
      { state := ⟨reader, exec⟩, context := context } := by
  obtain ⟨hcoherent, hover⟩ := init_incremental_coherent hreader hfirst
  obtain rfl : final = reader.over whole := Except.ok.inj (hfinal.symm.trans hover)
  refine ⟨?_, fun h => by cases h⟩
  unfold programVisit at hone
  cases hentry : visitEntry compatible exec with
  | ok value =>
    rw [hentry] at hone
    cases hready : visitReady exec with
    | ok value =>
      refine .running _ ⟨hentry, hready⟩ (.refl _) ⟨rfl, hcoherent, ?_⟩
      unfold treeReaderInitIncremental at hreader
      obtain ⟨input, hinput, hreader⟩ := bind_ok.mp hreader
      cases hreader
      exact Nat.zero_le _
    | error stop =>
      rw [hready] at hone
      cases stop with
      | fault => cases hone
      | failed diagnostic =>
        cases hone
        exact .idle rfl (settles_of_ready hentry hready) (idle_of_invalid rfl)
  | error stop =>
    rw [hentry] at hone
    cases stop with
    | fault => cases hone
    | failed diagnostic =>
      cases hone
      exact .idle rfl (idle_of_entry hentry) (idle_of_entry hentry)

/-- Visiting can be suspended anywhere: however the input is cut into windows and wherever the
visitor stops, the visits together report, in order, a front part of what one uninterrupted visit
of the whole input reports, and all of it when the last of them is over. The execution is then in
the same state. -/
theorem visit_suspension (hformat : PrefixStable format) (hwhole : whole.length ≤ sizeMax)
    {limits : TreeLimits} {first : Bytes} {reader final : TreeReader} {exec : Exec}
    (hreader : treeReaderInitIncremental format limits first = .ok reader)
    (hfinal : treeReaderInit format limits whole = .ok final) (hfirst : first <+: whole)
    (hone : programVisit format compatible unstopped ⟨final, exec⟩ () = some one) {context : κ}
    {calls : List (VisitCall κ)}
    (hshows : ShowsWhole format compatible whole
      { state := ⟨reader, exec⟩, context := context } calls)
    (hsuspends : ∀ call ∈ calls, call.Suspends) :
    ∃ session : VisitSession κ,
      VisitSession.after format compatible { state := ⟨reader, exec⟩, context := context } calls =
        some session ∧
      session.delivered <+: one.delivered ∧
      (session.complete = true →
        session.delivered = one.delivered ∧ session.state.exec = one.state.exec) := by
  obtain ⟨session, hafter, hway, hcomplete⟩ := agrees_calls hformat hwhole hone
    (agrees_start hreader hfinal hfirst hone context) hshows hsuspends
  refine ⟨session, hafter, ?_, hcomplete⟩
  cases hway with
  | idle hdelivered _ _ => rw [hdelivered]
  | running t hentry hemits _ =>
    rw [visit_admitted hentry] at hone
    obtain ⟨last, hall, hlast⟩ := unstopped_emits hone
    obtain ⟨rest, hrest, -⟩ := hemits.remainder hall hlast
    exact ⟨rest, hrest.symm⟩

/-- `descendant::02`. -/
def integersBelow : Program :=
  { instructions := [{ op := .test, axis := .desc, resolved := 1, dataSize := 1 }]
    root := 0
    text := []
    level := .s0
    variableCount := 0
    payload := [0x02]
    patternCapacity := 0
    codecStride := 0
    tagId := 0 }

/-- An execution of it. -/
def integersExec : Exec :=
  Exec.zeroed
    { program := integersBelow
      retained := false
      layout := ⟨1, 1, 1, 1, 1⟩
      storage := 0
      workspace := 12
      depthCapacity := 5
      maxElements := 8
      patternCapacity := 0
      meter := ⟨100, 100⟩ }

/-- A BER sequence of two integers. -/
def twoIntegers : Bytes :=
  [0x30, 0x06, 0x02, 0x01, 0x05, 0x02, 0x01, 0x06]

/-- Visits that stop at every match, with the input in three windows. -/
def stoppedCalls : List (VisitCall Unit) :=
  let visit : VisitCall Unit := .visit fun _ _ => (.stop, ())
  [visit, .supply (twoIntegers.take 6) 0 false, visit, .supply twoIntegers 0 true, visit, visit,
    visit]

/-- The start of a session over the first window. -/
def integersStart : VisitSession Unit :=
  { state := ⟨TreeReader.start ⟨4, 4, 8⟩ { data := [0x30], size := 1, finalInput := false },
      integersExec⟩
    context := () }

/-- The start of the uninterrupted visit. -/
def integersWhole : Visiting :=
  ⟨TreeReader.start ⟨4, 4, 8⟩ { data := twoIntegers, size := 8 }, integersExec⟩

theorem visit_suspension_integers :
    ∃ one session, programVisit formatBer true unstopped integersWhole () = some one ∧
      integersStart.after formatBer true stoppedCalls = some session ∧
      session.delivered = one.delivered ∧ session.delivered.length = 2 := by
  obtain ⟨one, hone⟩ := Option.isSome_iff_exists.mp
    (show (programVisit formatBer true unstopped integersWhole ()).isSome = true by
      decide +kernel)
  have hsuspends : ∀ call ∈ stoppedCalls, call.Suspends := by
    simp [stoppedCalls, VisitCall.Suspends, Query.Suspends]
  obtain ⟨session, hafter, -, hcomplete⟩ := visit_suspension
    (library_format_prefix_stable .ber) (by decide) rfl rfl (by decide) hone
    (show ShowsWhole formatBer true twoIntegers integersStart stoppedCalls by decide +kernel)
    hsuspends
  have hlast : integersStart.after formatBer true stoppedCalls = some session := hafter
  have hover : (integersStart.after formatBer true stoppedCalls).map
      (fun session => (session.complete, session.delivered.length)) = some (true, 2) := by
    decide +kernel
  rw [hlast] at hover
  have hpair := Prod.mk.inj (Option.some.inj hover)
  exact ⟨one, session, hone, hlast, (hcomplete hpair.1).1, hpair.2⟩

end Sessions

end OpenTlv.Query
