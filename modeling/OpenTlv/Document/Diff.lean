import OpenTlv.Document.Document

/-!
# Semantic diffs

`index_document` and `semantic_diff` of `document/diff.hpp`. Nodes correspond by paths: the tag in
hexadecimal and the number of the node among its siblings with that tag, for the node and every
ancestor. A `std::map` is a list of entries whose first one for a key counts. A handle to no node
tests false, and what it is asked for is empty. The diff is undefined (`none`) where `at` finds no
key and where the loop over the nodes would not end.
-/

namespace OpenTlv

/-- `diff_kind`. -/
inductive DiffKind where
  | added
  | removed
  | changed
  deriving Repr, DecidableEq

/-- `diff_entry`. -/
structure DiffEntry where
  kind : DiffKind
  path : String
  left : Option Place
  right : Option Place
  deriving Repr, DecidableEq

/-- `diff_index`. -/
structure DiffIndex where
  nodes : List (String × Place) := []
  identities : List (Place × String) := []
  order : List String := []
  deriving Repr, DecidableEq

/-- The `scope` of `index_document`: the next sibling, the path of the parent and how many siblings
there were of each tag. -/
structure DiffScope where
  next : Option Place
  parent : String := ""
  counts : List (String × Nat) := []

/-- `emplace`, which keeps an entry that is there. -/
def emplace {K V : Type} [BEq K] (map : List (K × V)) (key : K) (value : V) : List (K × V) :=
  if (map.lookup key).isSome then map else map ++ [(key, value)]

/-- The digits that tags are written with. -/
def hexDigits : List Char :=
  ['0', '1', '2', '3', '4', '5', '6', '7', '8', '9', 'A', 'B', 'C', 'D', 'E', 'F']

/-- A tag in hexadecimal. -/
def hexTag (tag : Bytes) : String :=
  String.ofList (tag.flatMap fun octet : UInt8 =>
    [hexDigits.getD (octet >>> 4).toNat '0', hexDigits.getD (octet &&& 15).toNat '0'])

/-- The path of a node. -/
def nodePath (parent tag : String) (count : Nat) : String :=
  parent ++ "/" ++ tag ++ "[" ++ toString count ++ "]"

/-- A node is put into the index. -/
def DiffIndex.record (index : DiffIndex) (path : String) (node : Place) : DiffIndex :=
  { nodes := emplace index.nodes path node
    identities := emplace index.identities node path
    order := index.order ++ [path] }

namespace Document

/-- The loop of `index_document`. -/
def indexLoop (document : Document) : Nat → List DiffScope → DiffIndex → Option DiffIndex
  | _, [], index => some index
  | 0, _ :: _, _ => none
  | fuel + 1, frame :: stack, index =>
    match frame.next.bind fun node => (document.heap.cells node).map (node, ·) with
    | none => indexLoop document fuel stack index
    | some (current, cell) =>
      let tag := hexTag cell.data.tag
      let count := counterNext ((frame.counts.lookup tag).getD 0)
      let path := nodePath frame.parent tag count
      let index := index.record path current
      let frame := { frame with next := cell.next, counts := (tag, count) :: frame.counts }
      if cell.data.constructed then
        indexLoop document fuel ({ next := cell.first, parent := path } :: frame :: stack) index
      else indexLoop document fuel (frame :: stack) index

/-- `index_document`. -/
def indexDocument (document : Document) : Option DiffIndex :=
  document.indexLoop document.bound [{ next := document.heap.first }] {}

/-- What a handle is asked for: the classification and the value. -/
def nodeData (document : Document) (node : Place) : NodeData :=
  match document.heap.cells node with
  | some cell => cell.data
  | none => {}

/-- Whether the direct content of two nodes differs. -/
def contentDiffers (left right : Document) (lhs rhs : Place) : Bool :=
  (left.nodeData lhs).constructed != (right.nodeData rhs).constructed ||
    (!(left.nodeData lhs).constructed && (left.nodeData lhs).value != (right.nodeData rhs).value)

/-- The loop over the left nodes. -/
def leftEntries (left right : Document) (a b : DiffIndex) (included : String → Bool) :
    List String → Option (List DiffEntry)
  | [] => some []
  | path :: paths =>
    if !included path then leftEntries left right a b included paths
    else do
      let lhs ← a.nodes.lookup path
      let entries ← leftEntries left right a b included paths
      match b.nodes.lookup path with
      | none => return ⟨.removed, path, some lhs, none⟩ :: entries
      | some rhs =>
        if left.contentDiffers right lhs rhs then
          return ⟨.changed, path, some lhs, some rhs⟩ :: entries
        else return entries

/-- The loop over the right nodes. -/
def rightEntries (a b : DiffIndex) (included : String → Bool) :
    List String → Option (List DiffEntry)
  | [] => some []
  | path :: paths =>
    if (a.nodes.lookup path).isSome || !included path then rightEntries a b included paths
    else do
      let rhs ← b.nodes.lookup path
      let entries ← rightEntries a b included paths
      return ⟨.added, path, none, some rhs⟩ :: entries

/-- The paths that a selector includes. Without one there is no restriction. -/
def includedPaths {ε : Type} (left right : Document) (a b : DiffIndex) :
    Option (Document → Except ε (List Place)) → Option (Except ε (String → Bool))
  | none => some (.ok fun _ => true)
  | some select =>
    match select left with
    | .error failure => some (.error failure)
    | .ok x =>
      match select right with
      | .error failure => some (.error failure)
      | .ok y => do
          let lefts ← x.mapM fun node => a.identities.lookup node
          let rights ← y.mapM fun node => b.identities.lookup node
          return .ok fun path => (lefts ++ rights).contains path

/-- `semantic_diff`. The selector is what evaluates it on a document. -/
def semanticDiff {ε : Type} (left right : Document)
    (selector : Option (Document → Except ε (List Place))) :
    Option (Except ε (List DiffEntry)) := do
  let a ← left.indexDocument
  let b ← right.indexDocument
  match ← left.includedPaths right a b selector with
  | .error failure => return .error failure
  | .ok included => do
      let lefts ← left.leftEntries right a b included a.order
      let rights ← rightEntries a b included b.order
      return .ok (lefts ++ rights)

end Document

end OpenTlv
