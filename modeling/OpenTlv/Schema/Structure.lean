import OpenTlv.Reader.Items

/-!
# Structural schemas

The definitions of `schema.h`, the definition check of `schema.c` and the two validators: the one
of `structure.c` returns at the first violation, the one of `report.c` collects all of them. A rule
refers to the table of its children by identity, and tables may be shared or recursive, so a
definition is a map of tables and the identity of its root. Both validators first read the whole
input, then count and order the elements of every scope by reading it again for each rule.
-/

namespace OpenTlv

/-- `tlv_schema_entry_t`. -/
structure SchemaEntry where
  tag : Bytes
  minLength : Nat := 0
  maxLength : Nat := sizeMax
  flags : UInt32 := 0
  name : Option String := none
  lengthMultiple : Nat := 0
  deriving Repr, DecidableEq

/-- `TLV_SCHEMA_LENGTH_ENDPOINTS`. -/
def schemaLengthEndpoints : UInt32 := 1

/-- `tlv_schema_validate_length`. -/
def schemaValidateLength (entry : SchemaEntry) (length : Nat) : Except Status Unit :=
  if entry.minLength > entry.maxLength then .error .invalidSchema
  else if length < entry.minLength ∨ length > entry.maxLength ∨
      (entry.flags &&& schemaLengthEndpoints ≠ 0 ∧ length ≠ entry.minLength ∧
        length ≠ entry.maxLength) ∨
      (entry.lengthMultiple ≠ 0 ∧ length % entry.lengthMultiple ≠ 0) then .error .schema
  else .ok ()

/-- `tlv_schema_kind_t`. -/
inductive SchemaKind where
  | any
  | primitive
  | constructed
  deriving Repr, DecidableEq

/-- `tlv_structure_rule_t`. The table of the children is known by its identity; group 0 is none. -/
structure StructureRule where
  entry : SchemaEntry
  minOccurs : Nat := 0
  maxOccurs : Nat := sizeMax
  kind : SchemaKind := .any
  children : Option Nat := none
  group : UInt32 := 0
  deriving Repr, DecidableEq

/-- `tlv_structure_group_t`. -/
structure StructureGroup where
  id : UInt32
  minOccurs : Nat
  maxOccurs : Nat
  name : Option String := none
  deriving Repr, DecidableEq

/-- `tlv_schema_order_t`. -/
inductive SchemaOrder where
  | any
  | sequence
  deriving Repr, DecidableEq

/-- `tlv_structure_schema_t`. -/
structure StructureSchema where
  rules : List StructureRule := []
  allowUnknown : Bool := false
  groups : List StructureGroup := []
  order : SchemaOrder := .any
  deriving Repr, DecidableEq

/-- The tables that the identities of a definition refer to. -/
abbrev StructureSchemas := Nat → StructureSchema

/-- `TLV_SCHEMA_MAX_DEPTH`. -/
def schemaMaxDepth : Nat := 64

/-- `TLV_SCHEMA_MAX_TABLES`. -/
def schemaMaxTables : Nat := 256

section Check

/-- The loop of `check_table` over the groups, behind those it has passed. -/
def checkGroups (schema : StructureSchema) :
    List StructureGroup → List StructureGroup → Except Status Unit
  | _, [] => .ok ()
  | passed, group :: rest =>
    if group.id = 0 ∨ group.minOccurs > group.maxOccurs then .error .invalidSchema
    else if passed.any fun other => other.id = group.id then .error .invalidSchema
    else if schema.rules.all fun rule => rule.group ≠ group.id then .error .invalidSchema
    else checkGroups schema (passed ++ [group]) rest

/-- The loop of `check_table` over the rules, behind those it has passed. -/
def checkRules (schema : StructureSchema) :
    List StructureRule → List StructureRule → Except Status Unit
  | _, [] => .ok ()
  | passed, rule :: rest =>
    if rule.entry.tag = [] ∨ rule.entry.minLength > rule.entry.maxLength ∨
        rule.minOccurs > rule.maxOccurs ∨
        (rule.children.isSome ∧ rule.kind ≠ .constructed) ∨
        (rule.group ≠ 0 ∧ schema.groups.all fun group => group.id ≠ rule.group) ∨
        (rule.group ≠ 0 ∧ rule.minOccurs ≠ 0) then
      .error .invalidSchema
    else if passed.any fun other => rule.entry.tag = other.entry.tag then .error .invalidSchema
    else checkRules schema (passed ++ [rule]) rest

/-- `check_table`. -/
def checkTable (schema : StructureSchema) : Except Status Unit := do
  checkGroups schema [] schema.groups
  checkRules schema [] schema.rules

/-- The tables of the children that are not known yet are queued. -/
def addTables : List StructureRule → List Nat → Except Status (List Nat)
  | [], tables => .ok tables
  | rule :: rest, tables =>
    match rule.children with
    | none => addTables rest tables
    | some child =>
      if child ∈ tables then addTables rest tables
      else if tables.length = schemaMaxTables then .error .unsupported
      else addTables rest (tables ++ [child])

/-- The loop of `tlv_schema_check` from some queued table on. -/
def checkTables (schemas : StructureSchemas) : Nat → Nat → List Nat → Except Status Unit
  | 0, _, _ => .ok ()
  | fuel + 1, next, tables =>
    match tables[next]? with
    | none => .ok ()
    | some current => do
        checkTable (schemas current)
        let tables ← addTables (schemas current).rules tables
        checkTables schemas fuel (next + 1) tables

/-- `tlv_schema_check`. No more tables are queued than the worklist holds. -/
def schemaCheck (schemas : StructureSchemas) (root : Nat) : Except Status Unit :=
  checkTables schemas schemaMaxTables 0 [root]

end Check

/-- The kinds of `tlv_schema_issue_kind_t` that a structural validator reports. -/
inductive SchemaIssueKind where
  | missing
  | duplicate
  | unexpected
  | kind
  | length
  | order
  deriving Repr, DecidableEq

/-- The occurrences of `tlv_schema_diagnostic_t`, set by `schema_issue_occurs`. -/
structure IssueOccurs where
  isGroup : Bool
  minOccurs : Nat
  maxOccurs : Nat
  occurs : Nat
  deriving Repr, DecidableEq

/-- The lengths of `tlv_schema_diagnostic_t`, set by `schema_issue_length`. -/
structure IssueLength where
  minLength : Nat
  maxLength : Nat
  actualLength : Nat
  lengthMultiple : Nat
  lengthFlags : UInt32
  deriving Repr, DecidableEq

/-- `tlv_schema_diagnostic_t` of a violation. The path has the tags of the enclosing elements, the
outermost first. -/
structure SchemaIssue where
  kind : SchemaIssueKind
  tag : Bytes
  offset : Nat
  path : List Bytes
  field : Option String := none
  occurs : Option IssueOccurs := none
  length : Option IssueLength := none
  form : Option (SchemaKind × Bool) := none
  deriving Repr, DecidableEq

section Issues

variable (path : List Bytes)

/-- Too many occurrences for a rule. -/
def duplicateRule (rule : StructureRule) (tag : Bytes) (offset occurs : Nat) : SchemaIssue :=
  { kind := .duplicate, tag := tag, offset := offset, path := path, field := rule.entry.name
    occurs := some ⟨false, rule.minOccurs, rule.maxOccurs, occurs⟩ }

/-- Too few occurrences for a rule. -/
def missingRule (rule : StructureRule) (offset occurs : Nat) : SchemaIssue :=
  { kind := .missing, tag := rule.entry.tag, offset := offset, path := path
    field := rule.entry.name
    occurs := some ⟨false, rule.minOccurs, rule.maxOccurs, occurs⟩ }

/-- Too many occurrences for a group. -/
def duplicateGroup (group : StructureGroup) (tag : Bytes) (offset occurs : Nat) : SchemaIssue :=
  { kind := .duplicate, tag := tag, offset := offset, path := path, field := group.name
    occurs := some ⟨true, group.minOccurs, group.maxOccurs, occurs⟩ }

/-- The tag of the first rule of a group. A checked table has one. -/
def groupTag (schema : StructureSchema) (group : StructureGroup) : Bytes :=
  ((schema.rules.find? fun rule => rule.group = group.id).map (·.entry.tag)).getD []

/-- Too few occurrences for a group. -/
def missingGroup (schema : StructureSchema) (group : StructureGroup) (offset occurs : Nat) :
    SchemaIssue :=
  { kind := .missing, tag := groupTag schema group, offset := offset, path := path
    field := group.name
    occurs := some ⟨true, group.minOccurs, group.maxOccurs, occurs⟩ }

/-- An element in front of one whose rule is listed earlier. -/
def misplaced (rule : Option StructureRule) (tag : Bytes) (offset : Nat) : SchemaIssue :=
  { kind := .order, tag := tag, offset := offset, path := path
    field := rule.bind (·.entry.name) }

/-- An element without a rule. -/
def unexpected (tag : Bytes) (offset : Nat) : SchemaIssue :=
  { kind := .unexpected, tag := tag, offset := offset, path := path }

/-- A value that is too short or too long. -/
def wrongLength (rule : StructureRule) (tag : Bytes) (offset length : Nat) : SchemaIssue :=
  { kind := .length, tag := tag, offset := offset, path := path, field := rule.entry.name
    length := some ⟨rule.entry.minLength, rule.entry.maxLength, length, rule.entry.lengthMultiple,
      rule.entry.flags⟩ }

/-- A primitive element where a constructed one is required, or the reverse. -/
def wrongKind (rule : StructureRule) (tag : Bytes) (offset : Nat) (constructed : Bool) :
    SchemaIssue :=
  { kind := .kind, tag := tag, offset := offset, path := path, field := rule.entry.name
    form := some (rule.kind, constructed) }

end Issues

/-- The rule of a tag. -/
def StructureSchema.ruleOf (schema : StructureSchema) (tag : Bytes) : Option StructureRule :=
  schema.rules.find? fun rule => rule.entry.tag = tag

/-- Whether a tag is one of the alternatives of a group. -/
def StructureSchema.inGroup (schema : StructureSchema) (group : StructureGroup) (tag : Bytes) :
    Bool :=
  schema.rules.any fun rule => rule.group = group.id && rule.entry.tag = tag

/-- Whether a rule forbids the form of an element. -/
def StructureRule.forbids (rule : StructureRule) (constructed : Bool) : Bool :=
  (rule.kind = .primitive && constructed) || (rule.kind = .constructed && !constructed)

/-- `tlv_read`. -/
def tlvRead (format : Format) (octets : Bytes) : Except Status Decoded :=
  match formatDecode format octets with
  | .ok decoded => .ok decoded
  | .error (status, _) => .error status

/-- The loop of both `check_scope` over the elements of a scope. An element has at least one octet,
so no scope has more elements than octets. -/
def scanScope {σ ε : Type} (format : Format) (ofStatus : Status → ε) (data : Bytes) (ending : Nat)
    (visit : Nat → Decoded → σ → Except ε σ) : Nat → Nat → σ → Except ε σ
  | 0, _, s => .ok s
  | fuel + 1, pos, s =>
    if pos < ending then
      match tlvRead format ((data.take ending).drop pos) with
      | .error status => .error (ofStatus status)
      | .ok decoded =>
        match visit pos decoded s with
        | .error failure => .error failure
        | .ok s => scanScope format ofStatus data ending visit fuel (pos + decoded.source.size) s
    else .ok s

/-- `schema_check_tree`: the input is read to its end. -/
def schemaCheckTree (format : Format) (limits : TreeLimits) (data : Bytes) : Except Status Unit :=
  match treeReaderInit format limits data with
  | .error status => .error status
  | .ok reader => treeReaderVisit format none reader ()

/-- The limits of both validators: their frames are of a fixed number. -/
def schemaLimits (maxDepth maxElements : Nat) : TreeLimits :=
  ⟨schemaMaxDepth, maxDepth, maxElements⟩

section First

/-- A failure of `tlv_schema_validate`: its status, and its violation if there is one. -/
abbrev SchemaFailure := Status × Option SchemaIssue

/-- A failure without a violation. -/
def SchemaFailure.ofStatus (status : Status) : SchemaFailure :=
  (status, none)

/-- `violation`. -/
def violation {α : Type} (issue : SchemaIssue) : Except SchemaFailure α :=
  .error (.schema, some issue)

variable (format : Format) (data : Bytes) (schema : StructureSchema) (path : List Bytes)
  (start ending : Nat)

/-- The loops of `check_scope` in `structure.c` over the occurrences of a rule or of a group. -/
def firstCount (counted : Bytes → Bool) (minOccurs maxOccurs : Nat)
    (duplicate : Bytes → Nat → Nat → SchemaIssue) (missing : Nat → SchemaIssue) :
    Except SchemaFailure Unit := do
  let count ← scanScope format SchemaFailure.ofStatus data ending
    (fun pos decoded count =>
      if counted decoded.tag.bytes then
        if count = maxOccurs then violation (duplicate decoded.tag.bytes pos (count + 1))
        else .ok (count + 1)
      else .ok count) (ending - start) start 0
  if count < minOccurs then violation (missing count) else .ok ()

/-- The occurrences of a rule. -/
def firstRule (rule : StructureRule) : Except SchemaFailure Unit :=
  firstCount format data start ending (fun tag => rule.entry.tag = tag) rule.minOccurs
    rule.maxOccurs (duplicateRule path rule) (missingRule path rule ending)

/-- The occurrences of the alternatives of a group. -/
def firstGroup (group : StructureGroup) : Except SchemaFailure Unit :=
  firstCount format data start ending (schema.inGroup group) group.minOccurs group.maxOccurs
    (duplicateGroup path group) (missingGroup path schema group ending)

/-- An element in the loop of `check_scope` in `structure.c` over the order of the elements. -/
def firstOrderStep (pos : Nat) (decoded : Decoded) (last : Option Nat) :
    Except SchemaFailure (Option Nat) :=
  match schema.rules.findIdx? fun rule => rule.entry.tag = decoded.tag.bytes with
  | none => .ok last
  | some i =>
    if last.any fun lastIndex => i < lastIndex then
      violation (misplaced path schema.rules[i]? decoded.tag.bytes pos)
    else .ok (some i)

/-- The order of the elements. -/
def firstOrder : Except SchemaFailure Unit := do
  let _ ← scanScope format SchemaFailure.ofStatus data ending (firstOrderStep schema path)
    (ending - start) start none
  return ()

/-- `check_scope` of `structure.c`. -/
def firstScope : Except SchemaFailure Unit := do
  schema.rules.forM (firstRule format data path start ending)
  schema.groups.forM (firstGroup format data schema path start ending)
  if schema.order = .sequence then firstOrder format data schema path start ending

/-- The arrays `scopes` and `path` of `validate_input`. -/
structure ScopeStack where
  scopes : Nat → Nat
  path : Nat → Bytes

/-- The tags of the enclosing elements, `path[1]` to `path[depth]`. -/
def ScopeStack.pathTo (stack : ScopeStack) (depth : Nat) : List Bytes :=
  (List.range depth).map fun i => stack.path (i + 1)

/-- The end of the loop body of `validate_input`: what is not modelled is skipped. -/
def firstSkip (item : TreeItem) (next : TreeReader) (stack : ScopeStack) :
    Except SchemaFailure (TreeReader × ScopeStack) :=
  if item.nested then
    match treeReaderSkipItem next with
    | .error status => .error (status, none)
    | .ok next => .ok (next, stack)
  else .ok (next, stack)

/-- The loop body of `validate_input`. -/
def firstBody (schemas : StructureSchemas) (item : TreeItem) (next : TreeReader)
    (stack : ScopeStack) : Except SchemaFailure (TreeReader × ScopeStack) :=
  let current := schemas (stack.scopes item.depth)
  let tag := item.decoded.tag.bytes
  let length := item.decoded.value.bytes.length
  match current.ruleOf tag with
  | none =>
    if current.allowUnknown = false then
      violation (unexpected (stack.pathTo item.depth) tag item.offset)
    else firstSkip item next stack
  | some rule =>
    match schemaValidateLength rule.entry length with
    | .error .schema =>
      violation (wrongLength (stack.pathTo item.depth) rule tag item.offset length)
    | .error status => .error (status, none)
    | .ok () =>
      if rule.forbids item.constructed then
        violation (wrongKind (stack.pathTo item.depth) rule tag item.offset item.constructed)
      else
        match rule.children with
        | none => firstSkip item next stack
        | some children =>
          let start := item.offset + item.decoded.source.value.offset
          let stack := { stack with path := Function.update stack.path (item.depth + 1) tag }
          match firstScope format data (schemas children) (stack.pathTo (item.depth + 1))
              start (start + length) with
          | .error failure => .error failure
          | .ok () =>
            if length ≠ 0 then
              if item.depth = schemaMaxDepth then .error (.limit, none)
              else
                .ok (next, { stack with
                  scopes := Function.update stack.scopes (item.depth + 1) children })
            else firstSkip item next stack

/-- `validate_input`. -/
def validateInput (schemas : StructureSchemas) (root maxDepth maxElements : Nat) :
    Except SchemaFailure Unit :=
  match schemaCheckTree format (schemaLimits maxDepth maxElements) data with
  | .error status => .error (status, none)
  | .ok () =>
    match firstScope format data (schemas root) [] 0 data.length with
    | .error failure => .error failure
    | .ok () =>
      match treeReaderInit format (schemaLimits maxDepth maxElements) data with
      | .error status => .error (status, none)
      | .ok reader =>
        match walkItems format SchemaFailure.ofStatus (firstBody format data schemas)
            (maxElements + 1) reader ⟨fun _ => root, fun _ => []⟩ with
        | .error failure => .error failure
        | .ok _ => .ok ()

/-- `tlv_schema_validate`. -/
def schemaValidate (schemas : StructureSchemas) (root maxDepth maxElements : Nat) :
    Except SchemaFailure Unit :=
  match schemaCheck schemas root with
  | .error status => .error (status, none)
  | .ok () => validateInput format data schemas root maxDepth maxElements

end First

section Report

/-- `tlv_schema_diagnostic_report_t`. -/
structure SchemaReport where
  capacity : Nat
  diagnostics : List SchemaIssue := []
  count : Nat := 0
  deriving Repr, DecidableEq

/-- `add_issue`: a full report only counts. -/
def SchemaReport.add (report : SchemaReport) (issue : SchemaIssue) : SchemaReport :=
  if report.count ≥ report.capacity then { report with count := report.count + 1 }
  else { report with diagnostics := report.diagnostics ++ [issue], count := report.count + 1 }

/-- `tlv_schema_unknown_policy_t`. -/
inductive UnknownPolicy where
  | bySchema
  | allow
  | reject
  deriving Repr, DecidableEq

variable (format : Format) (data : Bytes) (schema : StructureSchema) (path : List Bytes)
  (start ending : Nat)

/-- The loops of `check_scope` in `report.c` over the occurrences of a rule or of a group. -/
def reportCount (counted : Bytes → Bool) (minOccurs maxOccurs : Nat)
    (duplicate : Bytes → Nat → Nat → SchemaIssue) (missing : Nat → SchemaIssue)
    (report : SchemaReport) : Except Status SchemaReport := do
  let (count, report) ← scanScope format id data ending
    (fun pos decoded (s : Nat × SchemaReport) =>
      if counted decoded.tag.bytes then
        if s.1 + 1 > maxOccurs then
          .ok (s.1 + 1, s.2.add (duplicate decoded.tag.bytes pos (s.1 + 1)))
        else .ok (s.1 + 1, s.2)
      else .ok s) (ending - start) start (0, report)
  if count < minOccurs then return report.add (missing count) else return report

/-- The occurrences of a rule. -/
def reportRule (report : SchemaReport) (rule : StructureRule) : Except Status SchemaReport :=
  reportCount format data start ending (fun tag => rule.entry.tag = tag) rule.minOccurs
    rule.maxOccurs (duplicateRule path rule) (missingRule path rule ending) report

/-- The occurrences of the alternatives of a group. -/
def reportGroup (report : SchemaReport) (group : StructureGroup) : Except Status SchemaReport :=
  reportCount format data start ending (schema.inGroup group) group.minOccurs group.maxOccurs
    (duplicateGroup path group) (missingGroup path schema group ending) report

/-- An element in the loop of `check_scope` in `report.c` over the order of the elements. A
misplaced one does not move the last index. -/
def reportOrderStep (pos : Nat) (decoded : Decoded) (s : Option Nat × SchemaReport) :
    Except Status (Option Nat × SchemaReport) :=
  match schema.rules.findIdx? fun rule => rule.entry.tag = decoded.tag.bytes with
  | none => .ok s
  | some i =>
    if s.1.any fun lastIndex => i < lastIndex then
      .ok (s.1, s.2.add (misplaced path schema.rules[i]? decoded.tag.bytes pos))
    else .ok (some i, s.2)

/-- The order of the elements. -/
def reportOrder (report : SchemaReport) : Except Status SchemaReport := do
  let (_, report) ← scanScope format id data ending (reportOrderStep schema path)
    (ending - start) start (none, report)
  return report

/-- `check_scope` of `report.c`. -/
def reportScope (report : SchemaReport) : Except Status SchemaReport := do
  let report ← schema.rules.foldlM (reportRule format data path start ending) report
  let report ← schema.groups.foldlM (reportGroup format data schema path start ending) report
  if schema.order = .sequence then reportOrder format data schema path start ending report
  else return report

/-- `frame_t` of `report.c`, without the extent of its scope. -/
structure ReportFrame where
  schema : Nat
  tag : Bytes

/-- The state of `validate_all`: the array `stack` and the report. -/
structure Collector where
  stack : Nat → ReportFrame
  report : SchemaReport

/-- The tags of the enclosing elements, `frames[1].tag` to `frames[depth].tag`. -/
def Collector.pathTo (c : Collector) (depth : Nat) : List Bytes :=
  (List.range depth).map fun i => (c.stack (i + 1)).tag

/-- `(void)tlv_tree_reader_skip_subtree(&reader)` where the item has a value to skip. -/
def reportSkip (item : TreeItem) (next : TreeReader) : TreeReader :=
  if item.nested then
    match treeReaderSkipItem next with
    | .error _ => next
    | .ok next => next
  else next

/-- Whether a policy rejects a tag without a rule. -/
def UnknownPolicy.rejects (unknown : UnknownPolicy) (current : StructureSchema) : Bool :=
  unknown = .reject || (unknown = .bySchema && !current.allowUnknown)

/-- The loop body of `validate_all`. -/
def reportBody (schemas : StructureSchemas) (unknown : UnknownPolicy) (item : TreeItem)
    (next : TreeReader) (c : Collector) : Except Status (TreeReader × Collector) :=
  let current := schemas (c.stack item.depth).schema
  let tag := item.decoded.tag.bytes
  let length := item.decoded.value.bytes.length
  let path := c.pathTo item.depth
  match current.ruleOf tag with
  | none =>
    let report :=
      if unknown.rejects current then c.report.add (unexpected path tag item.offset)
      else c.report
    .ok (reportSkip item next, { c with report := report })
  | some rule =>
    let report :=
      match schemaValidateLength rule.entry length with
      | .ok () => c.report
      | .error _ => c.report.add (wrongLength path rule tag item.offset length)
    let constructed := format.constructs tag
    let report :=
      if rule.forbids constructed then
        report.add (wrongKind path rule tag item.offset constructed)
      else report
    match rule.children with
    | none => .ok (reportSkip item next, { c with report := report })
    | some children =>
      if rule.forbids constructed then
        .ok (reportSkip item next, { c with report := report })
      else if item.depth = schemaMaxDepth then .error .limit
      else
        let start := item.offset + item.decoded.source.value.offset
        let stack := Function.update c.stack (item.depth + 1) ⟨children, tag⟩
        let inner : Collector := ⟨stack, report⟩
        match reportScope format data (schemas children) (inner.pathTo (item.depth + 1)) start
            (start + length) report with
        | .error status => .error status
        | .ok report => .ok (next, ⟨stack, report⟩)

/-- `validate_all`: the report so far, or why the input was given up. -/
def validateAll (schemas : StructureSchemas) (root maxDepth maxElements : Nat)
    (unknown : UnknownPolicy) (report : SchemaReport) : Except Status SchemaReport :=
  match schemaCheckTree format (schemaLimits maxDepth maxElements) data with
  | .error status => .error status
  | .ok () =>
    match reportScope format data (schemas root) [] 0 data.length report with
    | .error status => .error status
    | .ok report =>
      match treeReaderInit format (schemaLimits maxDepth maxElements) data with
      | .error status => .error status
      | .ok reader =>
        match walkItems format id (reportBody format data schemas unknown)
            (maxElements + 1) reader ⟨fun _ => ⟨root, []⟩, report⟩ with
        | .error status => .error status
        | .ok c => .ok c.report

/-- `tlv_schema_validate_all_diag` on a report of some capacity, with the report it leaves. -/
def schemaValidateAll (schemas : StructureSchemas) (root maxDepth maxElements : Nat)
    (unknown : UnknownPolicy) (capacity : Nat) : Except Status Unit × SchemaReport :=
  let empty : SchemaReport := { capacity := capacity }
  match schemaCheck schemas root with
  | .error status => (.error status, empty)
  | .ok () =>
    match validateAll format data schemas root maxDepth maxElements unknown empty with
    | .error status => (.error status, empty)
    | .ok report => (if report.count ≠ 0 then .error .schema else .ok (), report)

end Report

end OpenTlv
