import OpenTlv.Lib.Emission
import OpenTlv.Query.Exec
import OpenTlv.Reader.Tree

/-!
# Visiting a reader

`tlv_query_program_visit` of `execute.c`: it pulls events from a tree reader, feeds them to an
execution and reports every match to a visitor. A retained execution reports its nodes when the
input has ended. The two loops of the source are one here, because `finished` tells which of them
runs. The visitor is a function of an explicit context.
-/

namespace OpenTlv.Query

/-- The element of a decoded event. A span lies in memory, so `size_t` holds its length. -/
def decodedElement (decoded : Decoded) : Element :=
  { tag := decoded.tag.bytes.take sizeMax
    value := decoded.value.bytes.take sizeMax
    tag_le := by
      rw [List.length_take]
      exact Nat.min_le_left _ _
    value_le := by
      rw [List.length_take]
      exact Nat.min_le_left _ _ }

/-- An event of the tree reader as an execution sees it. An end is zeroed but for its place. -/
def fedEvent (event : OpenTlv.TreeEvent) : TreeEvent :=
  { kind :=
      match event.kind with
      | .begin => .begin
      | .element => .element
      | .ending => .finish
    element := decodedElement event.decoded
    source := if event.kind = .ending then none else some event.decoded.source
    depth := event.depth
    offset := event.offset
    skipped := event.skipped }

/-- The reader and the execution of a visit. -/
structure Visiting where
  reader : TreeReader
  exec : Exec

/-- The status of an operation that did not succeed. -/
def Reply.status : Reply → Status
  | .failed d => d.status
  | .refused status => status
  | _ => .invalidState

/-- An execution that has failed. -/
def Visiting.invalidate (s : Visiting) : Visiting :=
  { s with exec := { s.exec with invalid := true } }

/-- How a visit ends: it waits for more data, the visitor stopped it, or it is over. -/
inductive VisitEnd where
  | waiting
  | stopped
  | over (status : Except Status Unit)

/-- What a visit returns: `TLV_OK` or a code. -/
def VisitEnd.status : VisitEnd → Except Status Unit
  | .waiting => .error .needMoreData
  | .stopped => .ok ()
  | .over status => status

/-- The moves of a visit: a match is an emission. -/
abbrev VisitMove := Move Visiting TreeEvent VisitEnd

/-- The subtree of an event that cannot match is skipped. -/
def skipPruned (exec : Exec) (event : TreeEvent) (reader : TreeReader) :
    Except Status TreeReader :=
  if event.kind = .begin ∧ event.element.value.length ≠ 0 ∧ exec.pruneAllowed = true then
    treeReaderSkipSubtree reader
  else .ok reader

/-- An event was pulled: it is fed, and a match is reported. -/
def feedMove (exec : Exec) (event : TreeEvent) (reader : TreeReader) : VisitMove :=
  match exec.call (.feed event) with
  | none => .fault
  | some (exec, .matched matched) =>
    match skipPruned exec event reader with
    | .error status => .halt (.over (.error status)) (Visiting.invalidate ⟨reader, exec⟩)
    | .ok reader =>
      if matched then
        .emit (if exec.program.level = .s1 then exec.delayed else event) ⟨reader, exec⟩
      else .quiet ⟨reader, exec⟩
  | some (exec, reply) => .halt (.over (.error reply.status)) ⟨reader, exec⟩

/-- The end of the input. -/
def finishMove (s : Visiting) : VisitMove :=
  match s.exec.call .finish with
  | none => .fault
  | some (exec, .done) => .quiet { s with exec := exec }
  | some (exec, reply) => .halt (.over (.error reply.status)) { s with exec := exec }

/-- An iteration of the loop over events. -/
def eventMove (format : Format) (s : Visiting) : VisitMove :=
  match treeReaderNextEvent format s.reader with
  | .ok (event, reader) => feedMove s.exec (fedEvent event) reader
  | .error .atEnd => finishMove s
  | .error .needMoreData => .halt .waiting s
  | .error status => .halt (.over (.error status)) s.invalidate

/-- An iteration of the loop over the nodes of a finished execution. -/
def resultMove (s : Visiting) : VisitMove :=
  if s.exec.retained = false ∨ s.exec.result.kind ≠ some .node then .halt (.over (.ok ())) s
  else
    match s.exec.call .resultNext with
    | none => .fault
    | some (exec, .node event _) => .emit event { s with exec := { exec with anyMatch := true } }
    | some (exec, .atEnd) => .halt (.over (.ok ())) { s with exec := exec }
    | some (exec, reply) => .halt (.over (.error reply.status)) { s with exec := exec }

/-- An iteration of either loop. -/
def visitMove (format : Format) (s : Visiting) : VisitMove :=
  if s.exec.finished then resultMove s else eventMove format s

/-- `tlv_query_event_visitor_t`, over an explicit context. -/
abbrev EventVisitor (κ : Type) := TreeEvent → κ → VisitResult × κ

/-- The end of a visit, with the events that it reported. -/
structure VisitReturn (κ : Type) where
  ending : VisitEnd
  state : Visiting
  context : κ
  delivered : List TreeEvent := []

variable {κ : Type}

/-- The loops of `tlv_query_program_visit`. -/
def visitLoop (format : Format) (visitor : EventVisitor κ) :
    Nat → Visiting → κ → Option (VisitReturn κ)
  | 0, _, _ => none
  | fuel + 1, s, context =>
    match visitMove format s with
    | .fault => none
    | .halt ending s => some ⟨ending, s, context, []⟩
    | .quiet s => visitLoop format visitor fuel s context
    | .emit event s =>
      match visitor event context with
      | (.resume, context) =>
        (visitLoop format visitor fuel s context).map fun r =>
          { r with delivered := event :: r.delivered }
      | (.stop, context) => some ⟨.stopped, s, context, [event]⟩
      | (.error, context) => some ⟨.over (.error .visitor), s.invalidate, context, [event]⟩
      | (.unknown, context) => some ⟨.over (.error .callback), s.invalidate, context, [event]⟩

/-- The iterations that are left: two for every pull that is left, and one for every node. -/
def Visiting.rank (s : Visiting) : Nat :=
  if s.exec.finished then s.exec.elements - s.exec.resultCursor
  else 2 * s.reader.remaining + s.exec.elements + 2

/-- The checks at the start of a visit that leave the execution as it is. `compatible` is the
result of `query_format_compatible`, which compares the callbacks of the reader's format and the
environment's. -/
def visitEntry (compatible : Bool) (exec : Exec) : Run Unit :=
  if exec.invalid then unlocated .invalidState .state "execution reset after failure"
  else if exec.program.level = .d ∨ exec.document.isSome = true then
    unlocated .unsupported .capability "Document execution required"
  else if exec.retained = true ∧ exec.environment.format.isSome = true ∧ compatible = false then
    unlocated .invalidArg .capability "compatible Reader format"
  else .ok ()

/-- The bindings of an execution that has not finished. An unbound variable invalidates it. -/
def visitReady (exec : Exec) : Run Unit :=
  if exec.finished then .ok () else exec.ready

/-- `tlv_query_program_visit`. There is no result when an access leaves its area. -/
def programVisit (format : Format) (compatible : Bool) (visitor : EventVisitor κ) (s : Visiting)
    (context : κ) : Option (VisitReturn κ) :=
  match visitEntry compatible s.exec, visitReady s.exec with
  | .error .fault, _ => none
  | .error (.failed d), _ => some ⟨.over (.error d.status), s, context, []⟩
  | .ok (), .error .fault => none
  | .ok (), .error (.failed d) => some ⟨.over (.error d.status), s.invalidate, context, []⟩
  | .ok (), .ok () => visitLoop format visitor (s.rank + 1) s context

end OpenTlv.Query
