import OpenTlv.Asn1.Framing
import OpenTlv.Lib.Findings
import OpenTlv.Reader.Visiting
import OpenTlv.Schema.Structure

/-!
# The two structural validators

`Parse.issues` lists the violations of a parse against a table, in the order in which both
validators meet them. The validator of `structure.c` returns the first of them, the one of
`report.c` records all. They differ in one place: below `TLV_SCHEMA_MAX_DEPTH` open elements the
collecting validator gives up at a container with a child table, the other one only if the
container is to be entered, and there only empty ones can stand.
-/

namespace OpenTlv

section Tables

variable {schemas : StructureSchemas}

/-- What a table owes that passes `check_table`. -/
structure StructureSchema.Sound (schema : StructureSchema) : Prop where
  lengths : ∀ rule ∈ schema.rules, rule.entry.minLength ≤ rule.entry.maxLength
  containers : ∀ rule ∈ schema.rules, rule.children.isSome → rule.kind = .constructed

/-- Checked rules have a length range, and children only where constructed. -/
theorem check_rules_sound {schema : StructureSchema} {passed rules : List StructureRule}
    (h : checkRules schema passed rules = .ok ()) :
    ∀ rule ∈ rules, rule.entry.minLength ≤ rule.entry.maxLength ∧
      (rule.children.isSome → rule.kind = .constructed) := by
  induction rules generalizing passed with
  | nil => exact fun rule hmem => by cases hmem
  | cons first rest ih =>
    unfold checkRules at h
    obtain ⟨hrule, h⟩ := guard_ok.mp h
    obtain ⟨-, h⟩ := guard_ok.mp h
    intro rule hmem
    cases hmem with
    | head =>
      refine ⟨?_, fun hchildren => ?_⟩
      · by_contra hlength
        exact hrule (.inr (.inl (by omega)))
      · by_contra hkind
        exact hrule (.inr (.inr (.inr (.inl ⟨hchildren, hkind⟩))))
    | tail _ hmem => exact ih h rule hmem

theorem check_table_sound {schema : StructureSchema} (h : checkTable schema = .ok ()) :
    schema.Sound := by
  unfold checkTable at h
  obtain ⟨_, hgroups, h⟩ := bind_ok.mp h
  have hrules := check_rules_sound h
  exact ⟨fun rule hmem => (hrules rule hmem).1, fun rule hmem => (hrules rule hmem).2⟩

/-- Queueing keeps the queue, within its capacity, and queues the tables of all children. -/
theorem add_tables_ok {rules : List StructureRule} {tables queued : List Nat}
    (h : addTables rules tables = .ok queued) (hroom : tables.length ≤ schemaMaxTables) :
    (∃ added, queued = tables ++ added) ∧ queued.length ≤ schemaMaxTables ∧
      ∀ rule ∈ rules, ∀ child, rule.children = some child → child ∈ queued := by
  induction rules generalizing tables with
  | nil =>
    cases h
    exact ⟨⟨[], (List.append_nil _).symm⟩, hroom, fun rule hmem => by cases hmem⟩
  | cons first rest ih =>
    unfold addTables at h
    cases hchildren : first.children with
    | none =>
      rw [hchildren] at h
      obtain ⟨hqueue, hlength, hrest⟩ := ih h hroom
      refine ⟨hqueue, hlength, fun rule hmem child hchild => ?_⟩
      cases hmem with
      | head =>
        rw [hchildren] at hchild
        cases hchild
      | tail _ hmem => exact hrest rule hmem child hchild
    | some known =>
      rw [hchildren] at h
      dsimp only at h
      split at h
      · rename_i hknown
        obtain ⟨⟨added, rfl⟩, hlength, hrest⟩ := ih h hroom
        refine ⟨⟨added, rfl⟩, hlength, fun rule hmem child hchild => ?_⟩
        cases hmem with
        | head =>
          rw [hchildren] at hchild
          cases hchild
          exact List.mem_append_left _ hknown
        | tail _ hmem => exact hrest rule hmem child hchild
      · split at h
        · cases h
        · rename_i hfull
          have hroom' : (tables ++ [known]).length ≤ schemaMaxTables := by
            rw [List.length_append, List.length_singleton]
            omega
          obtain ⟨⟨added, rfl⟩, hlength, hrest⟩ := ih h hroom'
          refine ⟨⟨[known] ++ added, List.append_assoc _ _ _⟩, hlength,
            fun rule hmem child hchild => ?_⟩
          cases hmem with
          | head =>
            rw [hchildren] at hchild
            cases hchild
            simp
          | tail _ hmem => exact hrest rule hmem child hchild

/-- Some tables that are sound and refer to each other only. -/
structure SoundTables (schemas : StructureSchemas) (tables : List Nat) : Prop where
  sound : ∀ table ∈ tables, (schemas table).Sound
  closed : ∀ table ∈ tables, ∀ rule ∈ (schemas table).rules, ∀ child,
    rule.children = some child → child ∈ tables

/-- Some tables that pass the check and refer to each other only. -/
structure CheckedTables (schemas : StructureSchemas) (tables : List Nat) : Prop where
  checked : ∀ table ∈ tables, checkTable (schemas table) = .ok ()
  closed : ∀ table ∈ tables, ∀ rule ∈ (schemas table).rules, ∀ child,
    rule.children = some child → child ∈ tables

theorem CheckedTables.sound {tables : List Nat} (h : CheckedTables schemas tables) :
    SoundTables schemas tables :=
  ⟨fun table hmem => check_table_sound (h.checked table hmem), h.closed⟩

/-- The loop checks every table that is queued, and queues what they refer to. -/
theorem check_tables_ok {fuel next : Nat} {tables : List Nat}
    (h : checkTables schemas fuel next tables = .ok ()) (hfuel : schemaMaxTables ≤ fuel + next)
    (hroom : tables.length ≤ schemaMaxTables)
    (hchecked : ∀ table ∈ tables.take next, checkTable (schemas table) = .ok ())
    (hclosed : ∀ table ∈ tables.take next, ∀ rule ∈ (schemas table).rules, ∀ child,
      rule.children = some child → child ∈ tables) :
    ∃ added, CheckedTables schemas (tables ++ added) := by
  have hall : tables.length ≤ next → ∃ added, CheckedTables schemas (tables ++ added) := by
    intro hpast
    rw [List.take_of_length_le hpast] at hchecked hclosed
    exact ⟨[], by rw [List.append_nil]; exact hchecked, by rw [List.append_nil]; exact hclosed⟩
  induction fuel generalizing next tables with
  | zero => exact hall (by omega)
  | succ fuel ih =>
    unfold checkTables at h
    cases hnext : tables[next]? with
    | none => exact hall (List.getElem?_eq_none_iff.mp hnext)
    | some current =>
      rw [hnext] at h
      dsimp only at h
      obtain ⟨_, hcheck, h⟩ := bind_ok.mp h
      obtain ⟨queued, hadd, h⟩ := bind_ok.mp h
      obtain ⟨⟨added, rfl⟩, hlength, hchildren⟩ := add_tables_ok hadd hroom
      have hless : next < tables.length := (List.getElem?_eq_some_iff.mp hnext).1
      have htake : (tables ++ added).take (next + 1) = tables.take next ++ [current] := by
        rw [List.take_append_of_le_length (by omega), List.take_add_one, hnext]
        rfl
      have hmore : (∀ table ∈ (tables ++ added).take (next + 1),
          checkTable (schemas table) = .ok ()) ∧
          ∀ table ∈ (tables ++ added).take (next + 1),
            ∀ rule ∈ (schemas table).rules, ∀ child,
              rule.children = some child → child ∈ tables ++ added := by
        rw [htake]
        refine ⟨fun table hmem => ?_, fun table hmem rule hrule child hchild => ?_⟩
        · rcases List.mem_append.mp hmem with hmem | hmem
          · exact hchecked table hmem
          · rw [List.mem_singleton.mp hmem]
            exact hcheck
        · rcases List.mem_append.mp hmem with hmem | hmem
          · exact List.mem_append_left _ (hclosed table hmem rule hrule child hchild)
          · rw [List.mem_singleton.mp hmem] at hrule
            exact hchildren rule hrule child hchild
      obtain ⟨others, htables⟩ := ih h (by omega) hlength hmore.1 hmore.2
        fun hpast => by
          rw [List.take_of_length_le (by omega)] at hmore
          exact ⟨[], by rw [List.append_nil]; exact hmore.1,
            by rw [List.append_nil]; exact hmore.2⟩
      exact ⟨added ++ others, by rw [← List.append_assoc]; exact htables⟩

/-- A definition that passes the check consists of tables that pass it. -/
theorem schema_check_tables {root : Nat} (h : schemaCheck schemas root = .ok ()) :
    ∃ tables, root ∈ tables ∧ CheckedTables schemas tables := by
  obtain ⟨added, htables⟩ := check_tables_ok h (by omega)
    (by simp [schemaMaxTables])
    (fun table hmem => by cases hmem) (fun table hmem => by cases hmem)
  exact ⟨[root] ++ added, List.mem_append_left _ (List.mem_singleton.mpr rfl), htables⟩

/-- A definition that passes the check consists of sound tables. -/
theorem schema_check_sound {root : Nat} (h : schemaCheck schemas root = .ok ()) :
    ∃ tables, root ∈ tables ∧ SoundTables schemas tables := by
  obtain ⟨tables, hroot, htables⟩ := schema_check_tables h
  exact ⟨tables, hroot, htables.sound⟩

end Tables

section Scopes

/-- The elements of a parse, without those inside of them. -/
def Parse.siblings : Parse → List (Nat × Decoded)
  | .done => []
  | .failed _ => []
  | .element offset decoded next => (offset, decoded) :: next.siblings
  | .group offset decoded _ next => (offset, decoded) :: next.siblings

variable {σ ε : Type} {format : Format} {limits : TreeLimits} {whole : Bytes}
  {ofStatus : Status → ε} {visit : Nat → Decoded → σ → Except ε σ}

/-- One turn of the loop over the elements of a scope. -/
theorem scan_scope_turn {fuel pos ending : Nat} {decoded : Decoded} {s : σ} (hpos : pos < ending)
    (hdecode : formatDecode format ((whole.take ending).drop pos) = .ok decoded) :
    scanScope format ofStatus whole ending visit (fuel + 1) pos s =
      (visit pos decoded s).bind
        (scanScope format ofStatus whole ending visit fuel (pos + decoded.source.size)) := by
  have hread : tlvRead format ((whole.take ending).drop pos) = .ok decoded := by
    unfold tlvRead
    rw [hdecode]
  show (if pos < ending then _ else _) = _
  rw [if_pos hpos, hread]
  dsimp only
  cases visit pos decoded s with
  | error failure => rfl
  | ok after => rfl

/-- No element is empty. -/
theorem format_decode_size_pos {data : Bytes} {decoded : Decoded}
    (h : formatDecode format data = .ok decoded) : 0 < decoded.source.size := by
  obtain ⟨decode, -, -, -, hvalid⟩ := format_decode_eq_ok h
  simp only [decodedValid, Bool.and_eq_true, decide_eq_true_eq] at hvalid
  omega

/-- The loop over a scope visits the elements of its parse. -/
theorem scan_scope_parse {budget depth offset ending fuel : Nat} {octets : Bytes} {parse : Parse}
    (h : Parses format limits budget depth offset octets parse) (hfailure : parse.failure = none)
    (hoctets : octets = (whole.take ending).drop offset) (hend : ending ≤ whole.length)
    (hpos : offset ≤ ending) (hfuel : ending - offset ≤ fuel) (s : σ) :
    scanScope format ofStatus whole ending visit fuel offset s =
      parse.siblings.foldlM (fun s element => visit element.1 element.2 s) s := by
  -- A turn reads one element whether it is a group or not, and goes on behind it.
  have hturn : ∀ {offset fuel : Nat} {octets : Bytes} {decoded : Decoded} {next : Parse} {s : σ},
      octets ≠ [] → formatDecode format octets = .ok decoded →
      octets = (whole.take ending).drop offset → offset ≤ ending → ending - offset ≤ fuel →
      (∀ {fuel : Nat} {after : σ},
        octets.drop decoded.source.size = (whole.take ending).drop (offset + decoded.source.size) →
        offset + decoded.source.size ≤ ending → ending - (offset + decoded.source.size) ≤ fuel →
        scanScope format ofStatus whole ending visit fuel (offset + decoded.source.size) after =
          next.siblings.foldlM (fun s element => visit element.1 element.2 s) after) →
      scanScope format ofStatus whole ending visit fuel offset s =
        ((offset, decoded) :: next.siblings).foldlM
          (fun s element => visit element.1 element.2 s) s := by
    intro offset fuel octets decoded next s hnil hdecode hoctets hpos hfuel hnext
    have hahead : offset < ending := @scope_ahead whole [⟨ending, 0⟩] offset octets hend hoctets hnil
    have hsome := format_decode_size_pos hdecode
    rw [hoctets] at hdecode
    have hsize : offset + decoded.source.size ≤ ending :=
      (@decode_in_scope format whole [⟨ending, 0⟩] offset decoded hdecode hend hpos).1
    obtain ⟨fuel, rfl⟩ : ∃ left, fuel = left + 1 := ⟨fuel - 1, by omega⟩
    rw [scan_scope_turn hahead hdecode, List.foldlM_cons]
    refine congrArg (Except.bind (visit offset decoded s)) (funext fun after => ?_)
    refine hnext ?_ hsize (by omega)
    rw [hoctets, List.drop_drop]
  induction h generalizing fuel s with
  | done budget depth offset =>
    have hlength := congrArg List.length hoctets
    rw [List.length_nil, List.length_drop, List.length_take] at hlength
    cases fuel with
    | zero => rfl
    | succ fuel =>
      show (if offset < ending then _ else Except.ok s) = _
      rw [if_neg (by omega)]
      rfl
  | limit depth offset octets hnil => cases hfailure
  | failed budget depth offset octets status detail hnil hdecode => cases hfailure
  | barrier budget depth offset octets decoded status hnil hdecode hconstructs hcontent hbar =>
    cases hfailure
  | inside budget depth offset octets decoded inner status hnil hdecode hconstructs hcontent hbar
      _ hinner ih =>
      have hboth : inner.failure.or (some status) = none := hfailure
      rw [hinner] at hboth
      cases hboth
  | element budget depth offset octets decoded next hnil hdecode hconstructs _ ih =>
    exact hturn hnil hdecode hoctets hpos hfuel fun hrest hsize hleft =>
      ih hfailure hrest hsize hleft _
  | empty budget depth offset octets decoded next hnil hdecode hconstructs hcontent _ ih =>
    exact hturn hnil hdecode hoctets hpos hfuel fun hrest hsize hleft =>
      ih hfailure hrest hsize hleft _
  | group budget depth offset octets decoded inner next hnil hdecode hconstructs hcontent hbar
      hparses hinner _ _ ihnext =>
      have hnext : next.failure = none := by
        have hboth : inner.failure.or next.failure = none := hfailure
        rw [hinner] at hboth
        exact hboth
      exact hturn hnil hdecode hoctets hpos hfuel fun hrest hsize hleft =>
        ihnext hnext hrest hsize hleft _

end Scopes

section Findings

variable (path : List Bytes) (ending : Nat)

/-- What one element finds for a count that is limited. -/
def countStep (counted : Bytes → Bool) (maxOccurs : Nat)
    (duplicate : Bytes → Nat → Nat → SchemaIssue) (element : Nat × Decoded) (count : Nat) :
    Nat × List SchemaIssue :=
  if counted element.2.tag.bytes then
    (count + 1,
      if count + 1 > maxOccurs then [duplicate element.2.tag.bytes element.1 (count + 1)] else [])
  else (count, [])

/-- The violations of the bounds on a count. -/
def countIssues (counted : Bytes → Bool) (minOccurs maxOccurs : Nat)
    (duplicate : Bytes → Nat → Nat → SchemaIssue) (missing : Nat → SchemaIssue)
    (siblings : List (Nat × Decoded)) : List SchemaIssue :=
  (collect (countStep counted maxOccurs duplicate) siblings 0).2 ++
    if (collect (countStep counted maxOccurs duplicate) siblings 0).1 < minOccurs then
      [missing (collect (countStep counted maxOccurs duplicate) siblings 0).1]
    else []

/-- The violations of the bounds of a rule. -/
def ruleIssues (siblings : List (Nat × Decoded)) (rule : StructureRule) : List SchemaIssue :=
  countIssues (fun tag => rule.entry.tag = tag) rule.minOccurs rule.maxOccurs
    (duplicateRule path rule) (missingRule path rule ending) siblings

/-- The violations of the bounds of a group. -/
def groupIssues (schema : StructureSchema) (siblings : List (Nat × Decoded))
    (group : StructureGroup) : List SchemaIssue :=
  countIssues (schema.inGroup group) group.minOccurs group.maxOccurs (duplicateGroup path group)
    (missingGroup path schema group ending) siblings

/-- What one element finds for the order of the rules. -/
def orderStep (schema : StructureSchema) (element : Nat × Decoded) (last : Option Nat) :
    Option Nat × List SchemaIssue :=
  match schema.rules.findIdx? fun rule => rule.entry.tag = element.2.tag.bytes with
  | none => (last, [])
  | some i =>
    if last.any fun lastIndex => i < lastIndex then
      (last, [misplaced path schema.rules[i]? element.2.tag.bytes element.1])
    else (some i, [])

/-- The violations of a scope as a whole. -/
def scopeIssues (schema : StructureSchema) (siblings : List (Nat × Decoded)) :
    List SchemaIssue :=
  schema.rules.flatMap (ruleIssues path ending siblings) ++
    (schema.groups.flatMap (groupIssues path ending schema siblings) ++
      if schema.order = .sequence then (collect (orderStep path schema) siblings none).2 else [])

/-- How a violation fails the validator that stops. -/
def SchemaFailure.ofIssue (issue : SchemaIssue) : SchemaFailure :=
  (.schema, some issue)

/-- The loops over a scope see the elements of a list. -/
def ScopeReads (format : Format) (data : Bytes) (start ending : Nat)
    (siblings : List (Nat × Decoded)) : Prop :=
  ∀ (σ ε : Type) (ofStatus : Status → ε) (visit : Nat → Decoded → σ → Except ε σ) (s : σ),
    scanScope format ofStatus data ending visit (ending - start) start s =
      siblings.foldlM (fun s element => visit element.1 element.2 s) s

variable {path ending} {format : Format} {data : Bytes} {start : Nat}
  {siblings : List (Nat × Decoded)} {schema : StructureSchema}
  (hreads : ScopeReads format data start ending siblings)
include hreads

/-- A count that stops at the first violation. -/
theorem first_count (counted : Bytes → Bool) (minOccurs maxOccurs : Nat)
    (duplicate : Bytes → Nat → Nat → SchemaIssue) (missing : Nat → SchemaIssue) :
    firstCount format data start ending counted minOccurs maxOccurs duplicate missing =
      stopAtFirst SchemaFailure.ofIssue
        ((), countIssues counted minOccurs maxOccurs duplicate missing siblings) := by
  have hstop := foldlM_stop SchemaFailure.ofIssue (countStep counted maxOccurs duplicate)
    (fun count element =>
      if counted element.2.tag.bytes then
        if count = maxOccurs then
          violation (duplicate element.2.tag.bytes element.1 (count + 1))
        else .ok (count + 1)
      else .ok count) (fun count => count ≤ maxOccurs) ?_ ?_ siblings 0 (Nat.zero_le _)
  · unfold firstCount
    rw [hreads, hstop]
    show (stopAtFirst _ (collect _ siblings 0)).bind _ = _
    cases hfound : collect (countStep counted maxOccurs duplicate) siblings 0 with
    | mk count found =>
      unfold countIssues
      rw [hfound]
      refine stop_bind ?_
      dsimp only
      split <;> rfl
  · intro element count hcount
    unfold countStep
    split
    · by_cases hfull : count = maxOccurs
      · rw [if_pos hfull, if_pos (by omega)]
        rfl
      · rw [if_neg hfull, if_neg (by omega)]
        rfl
    · rfl
  · intro element count hcount hnone
    unfold countStep at hnone ⊢
    split
    · rename_i hcounted
      rw [if_pos hcounted] at hnone
      dsimp only at hnone ⊢
      split at hnone
      · cases hnone
      · omega
    · exact hcount

/-- A count that collects its violations. -/
theorem report_count (counted : Bytes → Bool) (minOccurs maxOccurs : Nat)
    (duplicate : Bytes → Nat → Nat → SchemaIssue) (missing : Nat → SchemaIssue)
    (report : SchemaReport) :
    reportCount format data start ending counted minOccurs maxOccurs duplicate missing report =
      .ok ((countIssues counted minOccurs maxOccurs duplicate missing siblings).foldl
        SchemaReport.add report) := by
  have hall := foldlM_collect (ε := Status) SchemaReport.add
    (countStep counted maxOccurs duplicate) (fun s element =>
      if counted element.2.tag.bytes then
        if s.1 + 1 > maxOccurs then
          .ok (s.1 + 1, s.2.add (duplicate element.2.tag.bytes element.1 (s.1 + 1)))
        else .ok (s.1 + 1, s.2)
      else .ok s) ?_ siblings 0 report
  · unfold reportCount countIssues
    rw [hreads, hall]
    rw [List.foldl_append]
    dsimp only [bind, Except.bind]
    split <;> rfl
  · intro element count record
    unfold countStep
    dsimp only
    split
    · split <;> rfl
    · rfl

theorem first_order :
    firstOrder format data schema path start ending =
      stopAtFirst SchemaFailure.ofIssue ((), (collect (orderStep path schema) siblings none).2) := by
  have hstop := foldlM_stop SchemaFailure.ofIssue (orderStep path schema)
    (fun last element => firstOrderStep schema path element.1 element.2 last) (fun _ => True) ?_
    (fun _ _ _ _ => trivial) siblings none trivial
  · unfold firstOrder
    rw [hreads, hstop]
    cases hfound : collect (orderStep path schema) siblings none with
    | mk last found =>
      cases found with
      | nil => rfl
      | cons issue more => rfl
  · intro element last _
    unfold firstOrderStep orderStep
    cases schema.rules.findIdx? fun rule => rule.entry.tag = element.2.tag.bytes with
    | none => rfl
    | some i =>
      dsimp only
      split <;> rfl

theorem report_order (report : SchemaReport) :
    reportOrder format data schema path start ending report =
      .ok ((collect (orderStep path schema) siblings none).2.foldl SchemaReport.add report) := by
  have hall := foldlM_collect (ε := Status) SchemaReport.add (orderStep path schema)
    (fun s element => reportOrderStep schema path element.1 element.2 s) ?_ siblings none report
  · unfold reportOrder
    rw [hreads, hall]
    rfl
  · intro element last record
    unfold reportOrderStep orderStep
    cases schema.rules.findIdx? fun rule => rule.entry.tag = element.2.tag.bytes with
    | none => rfl
    | some i =>
      dsimp only
      split <;> rfl

/-- The validator that stops finds the first violation of a scope. -/
theorem first_scope :
    firstScope format data schema path start ending =
      stopAtFirst SchemaFailure.ofIssue ((), scopeIssues path ending schema siblings) := by
  have hrules := forM_stop SchemaFailure.ofIssue (firstRule format data path start ending)
    (ruleIssues path ending siblings) (fun rule => first_count hreads _ _ _ _ _) schema.rules
  have hgroups := forM_stop SchemaFailure.ofIssue
    (firstGroup format data schema path start ending) (groupIssues path ending schema siblings)
    (fun group => first_count hreads _ _ _ _ _) schema.groups
  have hlast : (if schema.order = .sequence then firstOrder format data schema path start ending
      else .ok ()) = stopAtFirst SchemaFailure.ofIssue
        ((), if schema.order = .sequence then (collect (orderStep path schema) siblings none).2
          else []) := by
    split
    · exact first_order hreads
    · rfl
  show Except.bind (schema.rules.forM _) (fun _ => Except.bind (schema.groups.forM _) fun _ =>
    if schema.order = .sequence then firstOrder format data schema path start ending
    else .ok ()) = _
  rw [hrules, hgroups, hlast]
  unfold scopeIssues
  exact stop_bind (stop_bind rfl)

/-- The validator that collects records all violations of a scope. -/
theorem report_scope (report : SchemaReport) :
    reportScope format data schema path start ending report =
      .ok ((scopeIssues path ending schema siblings).foldl SchemaReport.add report) := by
  have hrules := foldlM_record SchemaReport.add (reportRule format data path start ending)
    (ruleIssues path ending siblings) (fun rule report => report_count hreads _ _ _ _ _ report)
    schema.rules report
  have hgroups := fun report => foldlM_record SchemaReport.add
    (reportGroup format data schema path start ending) (groupIssues path ending schema siblings)
    (fun group report => report_count hreads _ _ _ _ _ report) schema.groups report
  unfold reportScope scopeIssues
  rw [hrules, List.foldl_append, List.foldl_append]
  dsimp only [bind, Except.bind]
  rw [hgroups]
  dsimp only
  split
  · exact report_order hreads _
  · rfl

end Findings

section Issues

/-- The violations of the rule of an element by the element itself. -/
def itemIssues (path : List Bytes) (rule : StructureRule) (tag : Bytes) (offset length : Nat)
    (constructed : Bool) : List SchemaIssue :=
  (match schemaValidateLength rule.entry length with
    | .ok () => []
    | .error _ => [wrongLength path rule tag offset length]) ++
    if rule.forbids constructed then [wrongKind path rule tag offset constructed] else []

/-- The violation of an element without a rule. -/
def unknownIssues (path : List Bytes) (schema : StructureSchema) (tag : Bytes) (offset : Nat) :
    List SchemaIssue :=
  if schema.allowUnknown = false then [unexpected path tag offset] else []

variable (schemas : StructureSchemas)

/-- The violations of a parse against a table, without those of its scope as a whole. -/
def Parse.issues : Parse → Nat → List Bytes → List SchemaIssue
  | .done, _, _ => []
  | .failed _, _, _ => []
  | .element offset decoded next, table, path =>
    (match (schemas table).ruleOf decoded.tag.bytes with
      | none => unknownIssues path (schemas table) decoded.tag.bytes offset
      | some rule =>
        itemIssues path rule decoded.tag.bytes offset decoded.value.bytes.length false) ++
      next.issues table path
  | .group offset decoded inner next, table, path =>
    (match (schemas table).ruleOf decoded.tag.bytes with
      | none => unknownIssues path (schemas table) decoded.tag.bytes offset
      | some rule =>
        itemIssues path rule decoded.tag.bytes offset decoded.value.bytes.length true ++
          match rule.children with
          | none => []
          | some children =>
            scopeIssues (path ++ [decoded.tag.bytes]) (decoded.valueEnd offset)
              (schemas children) inner.siblings ++
            inner.issues children (path ++ [decoded.tag.bytes])) ++
      next.issues table path

/-- Whether a container with a child table lies below `TLV_SCHEMA_MAX_DEPTH` elements that all have
a child table. The frames of the readers leave only empty containers there. -/
def Parse.modelledTooDeep : Parse → Nat → Nat → Bool
  | .done, _, _ => false
  | .failed _, _, _ => false
  | .element _ _ next, table, depth => next.modelledTooDeep table depth
  | .group _ decoded inner next, table, depth =>
    (match ((schemas table).ruleOf decoded.tag.bytes).bind (·.children) with
      | none => false
      | some children =>
        depth = schemaMaxDepth || inner.modelledTooDeep children (depth + 1)) ||
      next.modelledTooDeep table depth

end Issues

section Groups

variable {format : Format} {whole : Bytes}

section Value

variable {octets : Bytes} {offset ending : Nat} {decoded : Decoded}
  (hdecode : formatDecode format octets = .ok decoded)
  (hoctets : octets = (whole.take ending).drop offset) (hend : ending ≤ whole.length)
  (hpos : offset ≤ ending)
include hdecode hoctets hend hpos

/-- Where an element of a scope and its value lie. -/
theorem value_in_window :
    offset + decoded.source.size ≤ ending ∧
      decoded.valueEnd offset ≤ offset + decoded.source.size ∧
      decoded.value.bytes.length = decoded.source.value.size ∧
      decoded.content octets =
        (whole.take (decoded.valueEnd offset)).drop (offset + decoded.source.value.offset) := by
  rw [hoctets] at hdecode ⊢
  obtain ⟨hsize, hvalue, hlength⟩ :=
    @decode_in_scope format whole [⟨ending, 0⟩] offset decoded hdecode hend hpos
  have hsize : offset + decoded.source.size ≤ ending := hsize
  exact ⟨hsize, hvalue, hlength,
    @scope_rest_content whole [⟨ending, 0⟩] offset 0 decoded (hvalue.trans hsize)⟩

end Value

/-- The loops over the value of a group see what its parse has. -/
theorem value_reads {limits : TreeLimits} {budget depth offset ending : Nat} {octets : Bytes}
    {decoded : Decoded} {inner : Parse}
    (hdecode : formatDecode format octets = .ok decoded)
    (hoctets : octets = (whole.take ending).drop offset) (hend : ending ≤ whole.length)
    (hpos : offset ≤ ending)
    (h : Parses format limits budget (depth + 1) (offset + decoded.source.value.offset)
      (decoded.content octets) inner) (hfailure : inner.failure = none) :
    ScopeReads format whole (offset + decoded.source.value.offset) (decoded.valueEnd offset)
      inner.siblings := by
  obtain ⟨hsize, hvalue, -, hcontent⟩ := value_in_window hdecode hoctets hend hpos
  intro σ ε ofStatus visit s
  refine scan_scope_parse h hfailure hcontent (by omega) ?_ (Nat.le_refl _) s
  unfold Decoded.valueEnd
  omega

/-- A group of a scope that is read to its end. -/
structure GroupRead (format : Format) (whole : Bytes) (depth offset : Nat) (decoded : Decoded)
    (inner : Parse) : Prop where
  constructs : format.constructs decoded.tag.bytes = true
  reads : ScopeReads format whole (offset + decoded.source.value.offset)
    (decoded.valueEnd offset) inner.siblings
  length : decoded.value.bytes.length = decoded.source.value.size
  deep : decoded.value.bytes.length ≠ 0 → depth ≠ schemaMaxDepth
  empty : ¬ decoded.value.bytes.length ≠ 0 → inner = .done

/-- The induction over the scopes of an input that is read to its end. -/
theorem Parses.scopes {limits : TreeLimits} (motive : Nat → Parse → Prop)
    (hcapacity : limits.capacity = schemaMaxDepth) (hdone : ∀ depth, motive depth .done)
    (helement : ∀ {depth offset : Nat} {decoded : Decoded} {next : Parse},
      format.constructs decoded.tag.bytes = false → motive depth next →
      motive depth (.element offset decoded next))
    (hgroup : ∀ {depth offset : Nat} {decoded : Decoded} {inner next : Parse},
      GroupRead format whole depth offset decoded inner → motive (depth + 1) inner →
      motive depth next → motive depth (.group offset decoded inner next))
    {budget depth offset ending : Nat} {octets : Bytes} {parse : Parse}
    (h : Parses format limits budget depth offset octets parse) (hfailure : parse.failure = none)
    (hoctets : octets = (whole.take ending).drop offset) (hend : ending ≤ whole.length)
    (hpos : offset ≤ ending) : motive depth parse := by
  induction h generalizing ending with
  | done budget depth offset => exact hdone depth
  | limit depth offset octets hnil => cases hfailure
  | failed budget depth offset octets status detail hnil hdecode => cases hfailure
  | barrier budget depth offset octets decoded status hnil hdecode hconstructs hcontent hbar =>
    cases hfailure
  | inside budget depth offset octets decoded inner status hnil hdecode hconstructs hcontent hbar
      _ hinner ih =>
      have hboth : inner.failure.or (some status) = none := hfailure
      rw [hinner] at hboth
      cases hboth
  | element budget depth offset octets decoded next hnil hdecode hconstructs _ ih =>
    obtain ⟨hsize, -, -, -⟩ := value_in_window hdecode hoctets hend hpos
    refine helement hconstructs (ih hfailure ?_ hend hsize)
    rw [hoctets, List.drop_drop]
  | empty budget depth offset octets decoded next hnil hdecode hconstructs hcontent _ ih =>
    obtain ⟨hsize, hvalue, hlength, hwindow⟩ := value_in_window hdecode hoctets hend hpos
    have hzero : decoded.value.bytes.length = 0 := by
      have hextent := congrArg List.length hwindow
      rw [hcontent, List.length_nil, List.length_drop, List.length_take] at hextent
      unfold Decoded.valueEnd at hvalue hextent
      omega
    have hparses : Parses format limits budget (depth + 1) (offset + decoded.source.value.offset)
        (decoded.content octets) .done := by
      rw [hcontent]
      exact .done _ _ _
    refine hgroup ⟨hconstructs, value_reads hdecode hoctets hend hpos hparses rfl, hlength,
      fun h => absurd hzero h, fun _ => rfl⟩ (hdone _) (ih hfailure ?_ hend hsize)
    rw [hoctets, List.drop_drop]
  | group budget depth offset octets decoded inner next hnil hdecode hconstructs hcontent hbar
      hparses hinner _ ihinner ihnext =>
      obtain ⟨hsize, hvalue, hlength, hwindow⟩ := value_in_window hdecode hoctets hend hpos
      have hnext : next.failure = none := by
        have hboth : inner.failure.or next.failure = none := hfailure
        rw [hinner] at hboth
        exact hboth
      have hdeep : depth ≠ schemaMaxDepth := by
        intro hdepth
        unfold TreeLimits.barrier at hbar
        split at hbar
        · cases hbar
        · rw [if_pos (hdepth.trans hcapacity.symm)] at hbar
          cases hbar
      have hsome : decoded.value.bytes.length ≠ 0 := by
        intro hzero
        apply hcontent
        unfold Decoded.content
        rw [← hlength, hzero, List.take_zero]
      refine hgroup ⟨hconstructs, value_reads hdecode hoctets hend hpos hparses hinner, hlength,
        fun _ => hdeep, fun h => absurd hsome h⟩ ?_ (ihnext hnext ?_ hend hsize)
      · refine ihinner hinner hwindow (by omega) ?_
        unfold Decoded.valueEnd
        omega
      · rw [hoctets, List.drop_drop]

end Groups

section FirstWalk

variable {format : Format} {whole : Bytes} {schemas : StructureSchemas} {tables : List Nat}

/-- The loop body of `validate_input` as a visit. -/
def firstVisit (format : Format) (data : Bytes) (schemas : StructureSchemas) (item : TreeItem)
    (stack : ScopeStack) : Except SchemaFailure (Bool × ScopeStack) :=
  let current := schemas (stack.scopes item.depth)
  let tag := item.decoded.tag.bytes
  let length := item.decoded.value.bytes.length
  match current.ruleOf tag with
  | none =>
    if current.allowUnknown = false then
      violation (unexpected (stack.pathTo item.depth) tag item.offset)
    else .ok (false, stack)
  | some rule =>
    match schemaValidateLength rule.entry length with
    | .error .schema =>
      violation (wrongLength (stack.pathTo item.depth) rule tag item.offset length)
    | .error status => .error (status, none)
    | .ok () =>
      if rule.forbids item.constructed then
        violation (wrongKind (stack.pathTo item.depth) rule tag item.offset item.constructed)
      else
        match rule.children with
        | none => .ok (false, stack)
        | some children =>
          let start := item.offset + item.decoded.source.value.offset
          let stack := { stack with path := Function.update stack.path (item.depth + 1) tag }
          match firstScope format data (schemas children) (stack.pathTo (item.depth + 1))
              start (start + length) with
          | .error failure => .error failure
          | .ok () =>
            if length ≠ 0 then
              if item.depth = schemaMaxDepth then .error (.limit, none)
              else
                .ok (true, { stack with
                  scopes := Function.update stack.scopes (item.depth + 1) children })
            else .ok (false, stack)

/-- The body is the visit, and skips what the visit does not enter. -/
theorem first_body_eq (item : TreeItem) (next : TreeReader) (stack : ScopeStack) :
    firstBody format whole schemas item next stack =
      (firstVisit format whole schemas item stack).bind fun visited =>
        if visited.1 then .ok (next, visited.2) else firstSkip item next visited.2 := by
  unfold firstBody firstVisit
  dsimp only
  cases (schemas (stack.scopes item.depth)).ruleOf item.decoded.tag.bytes with
  | none =>
    dsimp only
    split <;> rfl
  | some rule =>
    dsimp only
    cases schemaValidateLength rule.entry item.decoded.value.bytes.length with
    | error status => cases status <;> rfl
    | ok _ =>
      dsimp only
      split
      · rfl
      · cases rule.children with
        | none => rfl
        | some children =>
          dsimp only
          cases firstScope format whole (schemas children) _ _ _ with
          | error failure => rfl
          | ok _ =>
            dsimp only
            split
            · split <;> rfl
            · rfl

theorem first_follows :
    Follows (firstBody format whole schemas) (firstVisit format whole schemas) := by
  constructor
  · intro item reader stack failure h
    rw [first_body_eq, h]
    rfl
  · intro item reader stack enters after h hgoes
    rw [first_body_eq, h]
    show (if enters then _ else firstSkip item reader after) = _
    cases enters with
    | true => rfl
    | false =>
      have hflat : item.nested = false := by simpa using hgoes
      show firstSkip item reader after = _
      unfold firstSkip
      rw [if_neg (by simp [hflat])]
  · intro item reader skipped stack after h hnested hskip
    rw [first_body_eq, h]
    show firstSkip item reader after = _
    unfold firstSkip
    rw [if_pos hnested, hskip]

/-- Two stacks with the same scopes down to some depth. -/
def ScopeStack.SameTo (depth : Nat) (a b : ScopeStack) : Prop :=
  ∀ i ≤ depth, a.scopes i = b.scopes i ∧ a.path i = b.path i

theorem ScopeStack.SameTo.path {depth : Nat} {a b : ScopeStack} (h : a.SameTo depth b) :
    a.pathTo depth = b.pathTo depth := by
  unfold ScopeStack.pathTo
  refine List.map_congr_left fun i hi => ?_
  exact (h (i + 1) (List.mem_range.mp hi)).2

/-- The path into an element. -/
theorem path_to_update (stack : ScopeStack) (depth : Nat) (tag : Bytes) (scopes : Nat → Nat) :
    ScopeStack.pathTo ⟨scopes, Function.update stack.path (depth + 1) tag⟩ (depth + 1) =
      stack.pathTo depth ++ [tag] := by
  unfold ScopeStack.pathTo
  rw [List.range_succ, List.map_append]
  refine congrArg₂ (· ++ ·) (List.map_congr_left fun i hi => ?_) ?_
  · have hless := List.mem_range.mp hi
    exact Function.update_of_ne (by omega) _ _
  · simp

theorem walk_element {σ ε : Type} {visit : TreeItem → σ → Except ε (Bool × σ)}
    (depth offset : Nat) (decoded : Decoded) (next : Parse) (s : σ) :
    (Parse.element offset decoded next).walk visit depth s =
      (visit ⟨decoded, depth, offset, false⟩ s).bind fun visited =>
        next.walk visit depth visited.2 := by
  conv => lhs; unfold Parse.walk
  cases visit ⟨decoded, depth, offset, false⟩ s with
  | error failure => rfl
  | ok visited => rfl

theorem walk_group {σ ε : Type} {visit : TreeItem → σ → Except ε (Bool × σ)}
    (depth offset : Nat) (decoded : Decoded) (inner next : Parse) (s : σ) :
    (Parse.group offset decoded inner next).walk visit depth s =
      (visit ⟨decoded, depth, offset, true⟩ s).bind fun visited =>
        (if visited.1 then inner.walk visit (depth + 1) visited.2 else .ok visited.2).bind
          (next.walk visit depth) := by
  conv => lhs; unfold Parse.walk
  cases visit ⟨decoded, depth, offset, true⟩ s with
  | error failure => rfl
  | ok visited =>
    obtain ⟨enters, after⟩ := visited
    cases enters with
    | false => rfl
    | true =>
      simp only [Except.bind, if_true]
      cases inner.walk visit (depth + 1) after with
      | error failure => rfl
      | ok behind => rfl

/-- Under a sound rule a length is right or a violation. -/
theorem validate_length_sound {entry : SchemaEntry} (h : entry.minLength ≤ entry.maxLength)
    (length : Nat) : schemaValidateLength entry length = .ok () ∨
      schemaValidateLength entry length = .error .schema := by
  unfold schemaValidateLength
  rw [if_neg (by omega)]
  split
  · exact .inr rfl
  · exact .inl rfl

theorem rule_of_mem {schema : StructureSchema} {tag : Bytes} {rule : StructureRule}
    (h : schema.ruleOf tag = some rule) : rule ∈ schema.rules :=
  List.mem_of_find?_eq_some h

/-- What the visit finds at a primitive element. -/
def elementFound (schema : StructureSchema) (path : List Bytes) (offset : Nat)
    (decoded : Decoded) : List SchemaIssue :=
  match schema.ruleOf decoded.tag.bytes with
  | none => unknownIssues path schema decoded.tag.bytes offset
  | some rule => itemIssues path rule decoded.tag.bytes offset decoded.value.bytes.length false

/-- What the visit finds at a group, with the scope of its value. -/
def groupFound (schemas : StructureSchemas) (schema : StructureSchema) (path : List Bytes)
    (offset : Nat) (decoded : Decoded) (siblings : List (Nat × Decoded)) : List SchemaIssue :=
  match schema.ruleOf decoded.tag.bytes with
  | none => unknownIssues path schema decoded.tag.bytes offset
  | some rule =>
    itemIssues path rule decoded.tag.bytes offset decoded.value.bytes.length true ++
      match rule.children with
      | none => []
      | some children =>
        scopeIssues (path ++ [decoded.tag.bytes]) (decoded.valueEnd offset)
          (schemas children) siblings

/-- The child table of an element. -/
def StructureSchema.childrenOf (schema : StructureSchema) (tag : Bytes) : Option Nat :=
  (schema.ruleOf tag).bind (·.children)

/-- The stack of `validate_input` behind a group, and whether the group is entered. -/
def ScopeStack.entered (stack : ScopeStack) (depth : Nat) (decoded : Decoded) :
    Option Nat → Bool × ScopeStack
  | none => (false, stack)
  | some children =>
    if decoded.value.bytes.length ≠ 0 then
      (true, ⟨Function.update stack.scopes (depth + 1) children,
        Function.update stack.path (depth + 1) decoded.tag.bytes⟩)
    else
      (false, ⟨stack.scopes, Function.update stack.path (depth + 1) decoded.tag.bytes⟩)

theorem entered_nested {stack : ScopeStack} {depth : Nat} {decoded : Decoded} {children : Nat}
    (h : decoded.value.bytes.length ≠ 0) :
    stack.entered depth decoded (some children) =
      (true, ⟨Function.update stack.scopes (depth + 1) children,
        Function.update stack.path (depth + 1) decoded.tag.bytes⟩) :=
  if_pos h

theorem entered_empty {stack : ScopeStack} {depth : Nat} {decoded : Decoded} {children : Nat}
    (h : ¬ decoded.value.bytes.length ≠ 0) :
    stack.entered depth decoded (some children) =
      (false, ⟨stack.scopes, Function.update stack.path (depth + 1) decoded.tag.bytes⟩) :=
  if_neg h

theorem entered_same (stack : ScopeStack) (depth : Nat) (decoded : Decoded)
    (children : Option Nat) : (stack.entered depth decoded children).2.SameTo depth stack := by
  intro i hi
  have hne : i ≠ depth + 1 := by omega
  cases children with
  | none => exact ⟨rfl, rfl⟩
  | some children =>
    by_cases hsome : decoded.value.bytes.length ≠ 0
    · rw [entered_nested hsome]
      exact ⟨Function.update_of_ne hne _ _, Function.update_of_ne hne _ _⟩
    · rw [entered_empty hsome]
      exact ⟨rfl, Function.update_of_ne hne _ _⟩

section Visits

variable {table depth offset : Nat} {decoded : Decoded} {stack : ScopeStack}
  (hsound : (schemas table).Sound) (hscope : stack.scopes depth = table)
include hsound hscope

theorem first_visit_element :
    firstVisit format whole schemas ⟨decoded, depth, offset, false⟩ stack =
      stopAtFirst SchemaFailure.ofIssue
        ((false, stack), elementFound (schemas table) (stack.pathTo depth) offset decoded) := by
  unfold firstVisit elementFound
  dsimp only
  rw [hscope]
  cases hrule : (schemas table).ruleOf decoded.tag.bytes with
  | none =>
    dsimp only [unknownIssues]
    split <;> rfl
  | some rule =>
    have hmem := rule_of_mem hrule
    dsimp only [itemIssues]
    rcases validate_length_sound (hsound.lengths rule hmem) decoded.value.bytes.length with
      hlength | hlength
    · rw [hlength]
      dsimp only
      by_cases hforbids : rule.forbids false = true
      · rw [if_pos hforbids, if_pos hforbids]
        rfl
      · rw [if_neg hforbids, if_neg hforbids]
        cases hchildren : rule.children with
        | none => rfl
        | some children =>
          have hkind := hsound.containers rule hmem (by rw [hchildren]; rfl)
          exact absurd (by simp [StructureRule.forbids, hkind]) hforbids
    · rw [hlength]
      rfl

/-- The first failure of a container is its first issue. -/
theorem first_visit_group {siblings : List (Nat × Decoded)}
    (hreads : ScopeReads format whole (offset + decoded.source.value.offset)
      (decoded.valueEnd offset) siblings)
    (hlength : decoded.value.bytes.length = decoded.source.value.size)
    (hdepth : decoded.value.bytes.length ≠ 0 → depth ≠ schemaMaxDepth) :
    firstVisit format whole schemas ⟨decoded, depth, offset, true⟩ stack =
      stopAtFirst SchemaFailure.ofIssue
        (stack.entered depth decoded ((schemas table).childrenOf decoded.tag.bytes),
          groupFound schemas (schemas table) (stack.pathTo depth) offset decoded siblings) := by
  unfold firstVisit groupFound StructureSchema.childrenOf
  dsimp only
  rw [hscope]
  cases hrule : (schemas table).ruleOf decoded.tag.bytes with
  | none =>
    dsimp only [unknownIssues]
    split <;> rfl
  | some rule =>
    have hmem := rule_of_mem hrule
    dsimp only [itemIssues, Option.bind]
    rcases validate_length_sound (hsound.lengths rule hmem) decoded.value.bytes.length with
      hvalid | hvalid
    · rw [hvalid]
      dsimp only
      by_cases hforbids : rule.forbids true = true
      · rw [if_pos hforbids, if_pos hforbids]
        rfl
      · rw [if_neg hforbids, if_neg hforbids]
        cases hchildren : rule.children with
        | none => rfl
        | some children =>
          dsimp only
          have hending : offset + decoded.source.value.offset + decoded.value.bytes.length =
              decoded.valueEnd offset := by
            rw [hlength]
            rfl
          rw [hending, path_to_update, first_scope hreads]
          cases scopeIssues (stack.pathTo depth ++ [decoded.tag.bytes])
            (decoded.valueEnd offset) (schemas children) siblings with
          | nil =>
            show (if decoded.value.bytes.length ≠ 0 then _ else _) = _
            by_cases hsome : decoded.value.bytes.length ≠ 0
            · rw [if_pos hsome, if_neg (hdepth hsome), entered_nested hsome]
              rfl
            · rw [if_neg hsome, entered_empty hsome]
              rfl
          | cons issue more => rfl
    · rw [hvalid]
      rfl

end Visits

/-- What is found inside of a group. -/
def innerIssues (schemas : StructureSchemas) (inner : Parse) (path : List Bytes) (tag : Bytes) :
    Option Nat → List SchemaIssue
  | none => []
  | some children => inner.issues schemas children (path ++ [tag])

theorem issues_group (offset : Nat) (decoded : Decoded) (inner next : Parse) (table : Nat)
    (path : List Bytes) :
    (Parse.group offset decoded inner next).issues schemas table path =
      groupFound schemas (schemas table) path offset decoded inner.siblings ++
        (innerIssues schemas inner path decoded.tag.bytes
          ((schemas table).childrenOf decoded.tag.bytes) ++ next.issues schemas table path) := by
  unfold groupFound StructureSchema.childrenOf
  conv => lhs; unfold Parse.issues
  cases (schemas table).ruleOf decoded.tag.bytes with
  | none => rfl
  | some rule =>
    dsimp only [Option.bind]
    cases rule.children with
    | none =>
      dsimp only
      rw [List.append_nil]
      rfl
    | some children =>
      dsimp only [innerIssues]
      simp only [List.append_assoc]

/-- The validator that stops walks to the first violation of a parse. -/
def FirstWalks (format : Format) (whole : Bytes) (schemas : StructureSchemas) (tables : List Nat)
    (depth : Nat) (parse : Parse) : Prop :=
  ∀ stack : ScopeStack, stack.scopes depth ∈ tables →
    ∃ after : ScopeStack, after.SameTo depth stack ∧
      parse.walk (firstVisit format whole schemas) depth stack =
        stopAtFirst SchemaFailure.ofIssue
          (after, parse.issues schemas (stack.scopes depth) (stack.pathTo depth))

theorem children_of_mem {table children : Nat} {tag : Bytes} (htables : SoundTables schemas tables)
    (hmem : table ∈ tables) (h : (schemas table).childrenOf tag = some children) :
    children ∈ tables := by
  unfold StructureSchema.childrenOf at h
  cases hrule : (schemas table).ruleOf tag with
  | none =>
    rw [hrule] at h
    cases h
  | some rule =>
    rw [hrule] at h
    exact htables.closed _ hmem rule (rule_of_mem hrule) children h

theorem ScopeStack.SameTo.trans {depth : Nat} {a b c : ScopeStack} (h : a.SameTo depth b)
    (h' : b.SameTo depth c) : a.SameTo depth c :=
  fun i hi => ⟨(h i hi).1.trans (h' i hi).1, (h i hi).2.trans (h' i hi).2⟩

section FirstWalks

variable {depth offset : Nat} {decoded : Decoded} {inner next : Parse}

/-- A value is walked under the child table, or not at all. -/
theorem FirstWalks.value (htables : SoundTables schemas tables) {stack : ScopeStack}
    (hmem : stack.scopes depth ∈ tables)
    (hempty : ¬ decoded.value.bytes.length ≠ 0 → inner = .done)
    (hinner : FirstWalks format whole schemas tables (depth + 1) inner) :
    let children := (schemas (stack.scopes depth)).childrenOf decoded.tag.bytes
    ∃ after : ScopeStack, after.SameTo depth stack ∧
      (if (stack.entered depth decoded children).1 then
        inner.walk (firstVisit format whole schemas) (depth + 1)
          (stack.entered depth decoded children).2
      else .ok (stack.entered depth decoded children).2) =
        stopAtFirst SchemaFailure.ofIssue
          (after, innerIssues schemas inner (stack.pathTo depth) decoded.tag.bytes children) := by
  intro children
  have hsame := entered_same stack depth decoded children
  cases hchildren : children with
  | none => exact ⟨stack, fun i _ => ⟨rfl, rfl⟩, rfl⟩
  | some table =>
    rw [hchildren] at hsame
    by_cases hsome : decoded.value.bytes.length ≠ 0
    · rw [entered_nested hsome] at hsame ⊢
      have htable := children_of_mem htables hmem hchildren
      obtain ⟨after, hafter, hwalk⟩ := hinner
        ⟨Function.update stack.scopes (depth + 1) table,
          Function.update stack.path (depth + 1) decoded.tag.bytes⟩ (by simpa using htable)
      refine ⟨after, ScopeStack.SameTo.trans (fun i hi => hafter i (by omega)) hsame, ?_⟩
      rw [if_pos rfl, hwalk, path_to_update]
      simp [innerIssues]
    · rw [entered_empty hsome] at hsame ⊢
      refine ⟨_, hsame, ?_⟩
      rw [hempty hsome]
      rfl

/-- A group is its visit, the walk of its value and the walk behind it. -/
theorem FirstWalks.group (htables : SoundTables schemas tables)
    (hgroup : GroupRead format whole depth offset decoded inner)
    (hinner : FirstWalks format whole schemas tables (depth + 1) inner)
    (hnext : FirstWalks format whole schemas tables depth next) :
    FirstWalks format whole schemas tables depth (.group offset decoded inner next) := by
  intro stack hmem
  have hvisit := @first_visit_group format whole schemas _ depth offset decoded stack
    (htables.sound _ hmem) rfl _ hgroup.reads hgroup.length hgroup.deep
  obtain ⟨middle, hmiddle, hvalue⟩ := FirstWalks.value htables hmem hgroup.empty hinner
  have hscope : middle.scopes depth = stack.scopes depth := (hmiddle depth (Nat.le_refl _)).1
  obtain ⟨after, hafter, hnext⟩ := hnext middle (hscope ▸ hmem)
  rw [hscope, hmiddle.path] at hnext
  refine ⟨after, hafter.trans hmiddle, ?_⟩
  rw [walk_group, hvisit, issues_group]
  exact stop_bind (by rw [hvalue]; exact stop_bind hnext)

theorem FirstWalks.element (htables : SoundTables schemas tables)
    (hnext : FirstWalks format whole schemas tables depth next) :
    FirstWalks format whole schemas tables depth (.element offset decoded next) := by
  intro stack hmem
  obtain ⟨after, hafter, hnext⟩ := hnext stack hmem
  refine ⟨after, hafter, ?_⟩
  rw [walk_element, first_visit_element (htables.sound _ hmem) rfl]
  exact stop_bind hnext

end FirstWalks

/-- The validator that stops finds the first violation. -/
theorem first_walks {limits : TreeLimits} (htables : SoundTables schemas tables)
    (hcapacity : limits.capacity = schemaMaxDepth) {budget depth offset ending : Nat}
    {octets : Bytes} {parse : Parse}
    (h : Parses format limits budget depth offset octets parse) (hfailure : parse.failure = none)
    (hoctets : octets = (whole.take ending).drop offset) (hend : ending ≤ whole.length)
    (hpos : offset ≤ ending) : FirstWalks format whole schemas tables depth parse := by
  refine h.scopes (FirstWalks format whole schemas tables) hcapacity
    (fun depth stack _ => ⟨stack, fun i _ => ⟨rfl, rfl⟩, rfl⟩)
    (fun _ hnext => .element htables hnext)
    (fun hgroup hinner hnext => .group htables hgroup hinner hnext) hfailure hoctets hend hpos

end FirstWalk

section ReportWalk

variable {format : Format} {whole : Bytes} {schemas : StructureSchemas} {tables : List Nat}

/-- The loop body of `validate_all` as a visit. -/
def reportVisit (format : Format) (data : Bytes) (schemas : StructureSchemas)
    (unknown : UnknownPolicy) (item : TreeItem) (c : Collector) :
    Except Status (Bool × Collector) :=
  let current := schemas (c.stack item.depth).schema
  let tag := item.decoded.tag.bytes
  let length := item.decoded.value.bytes.length
  let path := c.pathTo item.depth
  match current.ruleOf tag with
  | none =>
    let report :=
      if unknown.rejects current then c.report.add (unexpected path tag item.offset)
      else c.report
    .ok (false, { c with report := report })
  | some rule =>
    let report :=
      match schemaValidateLength rule.entry length with
      | .ok () => c.report
      | .error _ => c.report.add (wrongLength path rule tag item.offset length)
    let constructed := format.constructs tag
    let report :=
      if rule.forbids constructed then
        report.add (wrongKind path rule tag item.offset constructed)
      else report
    match rule.children with
    | none => .ok (false, { c with report := report })
    | some children =>
      if rule.forbids constructed then .ok (false, { c with report := report })
      else if item.depth = schemaMaxDepth then .error .limit
      else
        let start := item.offset + item.decoded.source.value.offset
        let stack := Function.update c.stack (item.depth + 1) ⟨children, tag⟩
        let inner : Collector := ⟨stack, report⟩
        match reportScope format data (schemas children) (inner.pathTo (item.depth + 1)) start
            (start + length) report with
        | .error status => .error status
        | .ok report => .ok (true, ⟨stack, report⟩)

theorem report_body_eq (unknown : UnknownPolicy) (item : TreeItem) (next : TreeReader)
    (c : Collector) :
    reportBody format whole schemas unknown item next c =
      (reportVisit format whole schemas unknown item c).map fun visited =>
        (if visited.1 then next else reportSkip item next, visited.2) := by
  unfold reportBody reportVisit
  dsimp only
  cases (schemas (c.stack item.depth).schema).ruleOf item.decoded.tag.bytes with
  | none => rfl
  | some rule =>
    dsimp only
    cases rule.children with
    | none => rfl
    | some children =>
      dsimp only
      split
      · rfl
      · split
        · rfl
        · cases reportScope format whole (schemas children) _ _ _ _ with
          | error status => rfl
          | ok report => rfl

theorem report_follows (unknown : UnknownPolicy) :
    Follows (reportBody format whole schemas unknown)
      (reportVisit format whole schemas unknown) := by
  constructor
  · intro item reader c failure h
    rw [report_body_eq, h]
    rfl
  · intro item reader c enters after h hgoes
    rw [report_body_eq, h]
    cases enters with
    | true => rfl
    | false =>
      have hflat : item.nested = false := by simpa using hgoes
      show Except.ok (reportSkip item reader, after) = _
      unfold reportSkip
      rw [if_neg (by simp [hflat])]
  · intro item reader skipped c after h hnested hskip
    rw [report_body_eq, h]
    show Except.ok (reportSkip item reader, after) = _
    unfold reportSkip
    rw [if_pos hnested, hskip]

/-- The path into an element. -/
theorem collector_path_update (c : Collector) (depth children : Nat) (tag : Bytes)
    (report : SchemaReport) :
    Collector.pathTo ⟨Function.update c.stack (depth + 1) ⟨children, tag⟩, report⟩ (depth + 1) =
      c.pathTo depth ++ [tag] := by
  unfold Collector.pathTo
  rw [List.range_succ, List.map_append]
  refine congrArg₂ (· ++ ·) (List.map_congr_left fun i hi => ?_) ?_
  · have hless := List.mem_range.mp hi
    exact congrArg ReportFrame.tag (Function.update_of_ne (by omega) _ _)
  · simp

/-- Two stacks with the same frames down to some depth. -/
def SameFrames (depth : Nat) (a b : Nat → ReportFrame) : Prop :=
  ∀ i ≤ depth, a i = b i

theorem SameFrames.path {depth : Nat} {a b : Nat → ReportFrame} (h : SameFrames depth a b)
    (report report' : SchemaReport) :
    Collector.pathTo ⟨a, report⟩ depth = Collector.pathTo ⟨b, report'⟩ depth := by
  refine List.map_congr_left fun i hi => ?_
  exact congrArg ReportFrame.tag (h (i + 1) (List.mem_range.mp hi))

theorem unknown_issues_add (schema : StructureSchema) (path : List Bytes) (tag : Bytes)
    (offset : Nat) (report : SchemaReport) :
    (if UnknownPolicy.bySchema.rejects schema then report.add (unexpected path tag offset)
      else report) = (unknownIssues path schema tag offset).foldl SchemaReport.add report := by
  unfold unknownIssues UnknownPolicy.rejects
  cases schema.allowUnknown with
  | true => rfl
  | false => rfl

theorem item_issues_add (rule : StructureRule) (path : List Bytes) (tag : Bytes)
    (offset length : Nat) (constructed : Bool) (report : SchemaReport) :
    (if rule.forbids constructed then
      SchemaReport.add (match schemaValidateLength rule.entry length with
        | .ok () => report
        | .error _ => report.add (wrongLength path rule tag offset length))
        (wrongKind path rule tag offset constructed)
    else match schemaValidateLength rule.entry length with
      | .ok () => report
      | .error _ => report.add (wrongLength path rule tag offset length)) =
      (itemIssues path rule tag offset length constructed).foldl SchemaReport.add report := by
  unfold itemIssues
  rw [List.foldl_append]
  cases schemaValidateLength rule.entry length with
  | ok _ => split <;> rfl
  | error status => split <;> rfl

section Visits

variable {depth offset : Nat} {decoded : Decoded} {c : Collector}
  (hsound : (schemas (c.stack depth).schema).Sound)
include hsound

theorem report_visit_element (hconstructs : format.constructs decoded.tag.bytes = false) :
    reportVisit format whole schemas .bySchema ⟨decoded, depth, offset, false⟩ c =
      .ok (false, ⟨c.stack, (elementFound (schemas (c.stack depth).schema) (c.pathTo depth) offset
        decoded).foldl SchemaReport.add c.report⟩) := by
  unfold reportVisit elementFound
  dsimp only
  cases hrule : (schemas (c.stack depth).schema).ruleOf decoded.tag.bytes with
  | none =>
    dsimp only
    rw [unknown_issues_add]
  | some rule =>
    dsimp only
    rw [hconstructs, item_issues_add]
    cases hchildren : rule.children with
    | none => rfl
    | some children =>
      have hkind := hsound.containers rule (rule_of_mem hrule) (by rw [hchildren]; rfl)
      dsimp only
      rw [if_pos (by simp [StructureRule.forbids, hkind])]

/-- The report of a container lists its issues. -/
theorem report_visit_group {inner : Parse}
    (hgroup : GroupRead format whole depth offset decoded inner) :
    reportVisit format whole schemas .bySchema ⟨decoded, depth, offset, true⟩ c =
      let report := (groupFound schemas (schemas (c.stack depth).schema) (c.pathTo depth) offset
        decoded inner.siblings).foldl SchemaReport.add c.report
      match (schemas (c.stack depth).schema).childrenOf decoded.tag.bytes with
      | none => .ok (false, ⟨c.stack, report⟩)
      | some children =>
        if depth = schemaMaxDepth then .error .limit
        else
          .ok (true, ⟨Function.update c.stack (depth + 1) ⟨children, decoded.tag.bytes⟩,
            report⟩) := by
  unfold reportVisit groupFound StructureSchema.childrenOf
  dsimp only
  cases hrule : (schemas (c.stack depth).schema).ruleOf decoded.tag.bytes with
  | none =>
    dsimp only
    rw [unknown_issues_add]
    rfl
  | some rule =>
    dsimp only [Option.bind]
    rw [hgroup.constructs, item_issues_add]
    cases hchildren : rule.children with
    | none =>
      dsimp only
      rw [List.append_nil]
    | some children =>
      have hkind := hsound.containers rule (rule_of_mem hrule) (by rw [hchildren]; rfl)
      dsimp only
      rw [if_neg (by simp [StructureRule.forbids, hkind])]
      by_cases hdepth : depth = schemaMaxDepth
      · rw [if_pos hdepth, if_pos hdepth]
      · have hending : offset + decoded.source.value.offset + decoded.value.bytes.length =
            decoded.valueEnd offset := by
          rw [hgroup.length]
          rfl
        rw [if_neg hdepth, if_neg hdepth, hending, collector_path_update,
          report_scope hgroup.reads, List.foldl_append]

end Visits

/-- The outcome of a walk that may have met a container with a child table too deep. -/
def unlessDeep (deep : Bool) (c : Collector) : Except Status Collector :=
  if deep then .error .limit else .ok c

/-- The validator that collects records all violations of a parse, unless a container with a child
table lies too deep. -/
def ReportWalks (format : Format) (whole : Bytes) (schemas : StructureSchemas) (tables : List Nat)
    (depth : Nat) (parse : Parse) : Prop :=
  ∀ c : Collector, (c.stack depth).schema ∈ tables →
    ∃ stack, SameFrames depth stack c.stack ∧
      parse.walk (reportVisit format whole schemas .bySchema) depth c =
        unlessDeep (parse.modelledTooDeep schemas (c.stack depth).schema depth)
          ⟨stack, (parse.issues schemas (c.stack depth).schema (c.pathTo depth)).foldl
            SchemaReport.add c.report⟩

section ReportWalks

variable {depth offset : Nat} {decoded : Decoded} {inner next : Parse}

theorem ReportWalks.element (htables : SoundTables schemas tables)
    (hconstructs : format.constructs decoded.tag.bytes = false)
    (hnext : ReportWalks format whole schemas tables depth next) :
    ReportWalks format whole schemas tables depth (.element offset decoded next) := by
  intro c hmem
  obtain ⟨stack, hstack, hwalk⟩ := hnext ⟨c.stack, (elementFound (schemas (c.stack depth).schema)
    (c.pathTo depth) offset decoded).foldl SchemaReport.add c.report⟩ hmem
  have hissues : (Parse.element offset decoded next).issues schemas (c.stack depth).schema
      (c.pathTo depth) = elementFound (schemas (c.stack depth).schema) (c.pathTo depth) offset
        decoded ++ next.issues schemas (c.stack depth).schema (c.pathTo depth) := rfl
  refine ⟨stack, hstack, ?_⟩
  rw [walk_element, report_visit_element (htables.sound _ hmem) hconstructs, hissues,
    List.foldl_append]
  exact hwalk

theorem too_deep_group (offset table : Nat) :
    (Parse.group offset decoded inner next).modelledTooDeep schemas table depth =
      ((match (schemas table).childrenOf decoded.tag.bytes with
        | none => false
        | some children =>
          decide (depth = schemaMaxDepth) || inner.modelledTooDeep schemas children (depth + 1)) ||
        next.modelledTooDeep schemas table depth) :=
  rfl

/-- A value is walked under its child table. -/
theorem ReportWalks.value {c : Collector} {children : Nat} {tag : Bytes}
    (hchildren : children ∈ tables) (report : SchemaReport)
    (hinner : ReportWalks format whole schemas tables (depth + 1) inner) :
    ∃ stack, SameFrames depth stack c.stack ∧
      inner.walk (reportVisit format whole schemas .bySchema) (depth + 1)
          ⟨Function.update c.stack (depth + 1) ⟨children, tag⟩, report⟩ =
        unlessDeep (inner.modelledTooDeep schemas children (depth + 1))
          ⟨stack, (inner.issues schemas children (c.pathTo depth ++ [tag])).foldl
            SchemaReport.add report⟩ := by
  obtain ⟨stack, hstack, hwalk⟩ := hinner
    ⟨Function.update c.stack (depth + 1) ⟨children, tag⟩, report⟩ (by simpa using hchildren)
  rw [collector_path_update] at hwalk
  dsimp only at hwalk
  rw [Function.update_self] at hwalk
  refine ⟨stack, fun i hi => ?_, hwalk⟩
  exact (hstack i (by omega)).trans (Function.update_of_ne (by omega) _ _)

/-- A group is its visit, the walk of its value and the walk behind it. -/
theorem ReportWalks.group (htables : SoundTables schemas tables)
    (hgroup : GroupRead format whole depth offset decoded inner)
    (hinner : ReportWalks format whole schemas tables (depth + 1) inner)
    (hnext : ReportWalks format whole schemas tables depth next) :
    ReportWalks format whole schemas tables depth (.group offset decoded inner next) := by
  intro c hmem
  have hvisit := @report_visit_group format whole schemas depth offset decoded c
    (htables.sound _ hmem) inner hgroup
  rw [walk_group, hvisit, too_deep_group, issues_group, List.foldl_append, List.foldl_append]
  generalize (groupFound schemas (schemas (c.stack depth).schema) (c.pathTo depth) offset decoded
    inner.siblings).foldl SchemaReport.add c.report = report
  dsimp only
  cases hchildren : (schemas (c.stack depth).schema).childrenOf decoded.tag.bytes with
  | none =>
    obtain ⟨stack, hstack, hwalk⟩ := hnext ⟨c.stack, report⟩ hmem
    exact ⟨stack, hstack, hwalk⟩
  | some children =>
    by_cases hdepth : depth = schemaMaxDepth
    · refine ⟨c.stack, fun i _ => rfl, ?_⟩
      dsimp only
      rw [if_pos hdepth, decide_eq_true hdepth]
      rfl
    · obtain ⟨middle, hmiddle, hvalue⟩ := @ReportWalks.value format whole schemas tables depth
        inner c children decoded.tag.bytes (children_of_mem htables hmem hchildren) report hinner
      dsimp only
      rw [if_neg hdepth, decide_eq_false hdepth]
      show ∃ stack, SameFrames depth stack c.stack ∧
        (inner.walk (reportVisit format whole schemas .bySchema) (depth + 1) _).bind
          (next.walk (reportVisit format whole schemas .bySchema) depth) = _
      rw [hvalue]
      cases inner.modelledTooDeep schemas children (depth + 1) with
      | true => exact ⟨c.stack, fun i _ => rfl, rfl⟩
      | false =>
        have hframe := hmiddle depth (Nat.le_refl _)
        obtain ⟨stack, hstack, hwalk⟩ := hnext ⟨middle, (inner.issues schemas children
          (c.pathTo depth ++ [decoded.tag.bytes])).foldl SchemaReport.add report⟩
          (by show (middle depth).schema ∈ tables; rw [hframe]; exact hmem)
        rw [hmiddle.path _ c.report] at hwalk
        dsimp only at hwalk
        rw [hframe] at hwalk
        exact ⟨stack, fun i hi => (hstack i hi).trans (hmiddle i hi), hwalk⟩

end ReportWalks

/-- The validator that collects finds all violations. -/
theorem report_walks {limits : TreeLimits} (htables : SoundTables schemas tables)
    (hcapacity : limits.capacity = schemaMaxDepth) {budget depth offset ending : Nat}
    {octets : Bytes} {parse : Parse}
    (h : Parses format limits budget depth offset octets parse) (hfailure : parse.failure = none)
    (hoctets : octets = (whole.take ending).drop offset) (hend : ending ≤ whole.length)
    (hpos : offset ≤ ending) : ReportWalks format whole schemas tables depth parse := by
  refine h.scopes (ReportWalks format whole schemas tables) hcapacity
    (fun depth c _ => ⟨c.stack, fun i _ => rfl, rfl⟩)
    (fun hconstructs hnext => .element htables hconstructs hnext)
    (fun hgroup hinner hnext => .group htables hgroup hinner hnext) hfailure hoctets hend hpos

end ReportWalk

section Validators

variable {format : Format} {data : Bytes} {schemas : StructureSchemas} {root : Nat}
  {maxDepth maxElements : Nat}

/-- A report has the first violations, and counts all. -/
theorem report_holds {report : SchemaReport} {before : List SchemaIssue}
    (hdiagnostics : report.diagnostics = before.take report.capacity)
    (hcount : report.count = before.length) (issues : List SchemaIssue) :
    issues.foldl SchemaReport.add report =
      { capacity := report.capacity
        diagnostics := (before ++ issues).take report.capacity
        count := (before ++ issues).length } := by
  induction issues generalizing report before with
  | nil =>
    rw [List.append_nil, ← hdiagnostics, ← hcount]
    rfl
  | cons issue rest ih =>
    have hadd : (report.add issue).diagnostics = (before ++ [issue]).take report.capacity ∧
        (report.add issue).count = (before ++ [issue]).length ∧
        (report.add issue).capacity = report.capacity := by
      unfold SchemaReport.add
      split
      · rename_i hfull
        refine ⟨?_, by rw [List.length_append, hcount]; rfl, rfl⟩
        rw [List.take_append_of_le_length (by omega)]
        exact hdiagnostics
      · rename_i hroom
        refine ⟨?_, by rw [List.length_append, hcount]; rfl, rfl⟩
        have htake : before.take report.capacity = before :=
          List.take_of_length_le (by omega)
        rw [htake] at hdiagnostics
        rw [List.take_of_length_le (by rw [List.length_append, List.length_singleton]; omega)]
        exact congrArg (· ++ [issue]) hdiagnostics
    obtain ⟨hdiagnostics, hcount, hcapacity⟩ := hadd
    rw [List.foldl_cons, ih (hcapacity ▸ hdiagnostics) hcount, hcapacity, List.append_assoc]
    rfl

/-- What the validators find in an input. -/
def schemaIssues (schemas : StructureSchemas) (root : Nat) (parse : Parse) (size : Nat) :
    List SchemaIssue :=
  scopeIssues [] size (schemas root) parse.siblings ++ parse.issues schemas root []

theorem tree_reader_init_standing (hformat : format.decode.isSome) (limits : TreeLimits) :
    treeReaderInit format limits data = .ok (.standing limits data [] 0 0 {}) := by
  unfold treeReaderInit readerInit
  rw [if_neg (by simp [Option.isSome_iff_ne_none.mp hformat])]
  rfl

/-- Both validators read the input to its end first. -/
theorem schema_check_tree_eq (hformat : format.decode.isSome) (hdata : data.length ≤ sizeMax)
    (limits : TreeLimits) :
    schemaCheckTree format limits data =
      match (parseSequence format limits limits.maxElements 0 0 data).failure with
      | none => .ok ()
      | some status => .error status := by
  unfold schemaCheckTree
  rw [tree_reader_init_standing hformat]
  exact tree_reader_visit_parse hformat hdata

section Read

variable (hcheck : schemaCheck schemas root = .ok ()) (hformat : format.decode.isSome)
  (hdata : data.length ≤ sizeMax)
  (hfailure : (parseSequence format (schemaLimits maxDepth maxElements) maxElements 0 0
    data).failure = none)

omit hcheck in
include hformat hdata hfailure in
theorem schema_check_tree_ok :
    schemaCheckTree format (schemaLimits maxDepth maxElements) data = .ok () := by
  rw [schema_check_tree_eq hformat hdata]
  show (match (parseSequence format (schemaLimits maxDepth maxElements) maxElements 0 0
    data).failure with
    | none => Except.ok ()
    | some status => .error status) = _
  rw [hfailure]

include hfailure in
theorem root_reads : ScopeReads format data 0 data.length
    (parseSequence format (schemaLimits maxDepth maxElements) maxElements 0 0 data).siblings := by
  intro σ ε ofStatus visit s
  refine scan_scope_parse (parse_sequence_parses _ _ _ _ _ _) hfailure ?_ (Nat.le_refl _)
    (Nat.zero_le _) (Nat.le_refl _) s
  rw [List.take_length, List.drop_zero]

include hcheck hformat hdata hfailure

/-- On an input that can be read, the validator that stops returns the first violation. -/
theorem schema_validate_eq :
    schemaValidate format data schemas root maxDepth maxElements =
      stopAtFirst SchemaFailure.ofIssue ((), schemaIssues schemas root
        (parseSequence format (schemaLimits maxDepth maxElements) maxElements 0 0 data)
        data.length) := by
  obtain ⟨tables, hroot, htables⟩ := schema_check_sound hcheck
  have hparses := parse_sequence_parses format (schemaLimits maxDepth maxElements) maxElements 0 0
    data
  obtain ⟨after, -, hwalk⟩ := first_walks htables rfl hparses hfailure
    (by rw [List.take_length, List.drop_zero]) (Nat.le_refl _) (Nat.zero_le _)
    ⟨fun _ => root, fun _ => []⟩ hroot
  have hloop : walkItems format SchemaFailure.ofStatus (firstBody format data schemas)
      (maxElements + 1) (.standing (schemaLimits maxDepth maxElements) data [] 0 0 {})
      ⟨fun _ => root, fun _ => []⟩ =
      (parseSequence format (schemaLimits maxDepth maxElements) maxElements 0 0 data).walk
        (firstVisit format data schemas) 0 ⟨fun _ => root, fun _ => []⟩ :=
    walk_items_parse first_follows hformat hdata hfailure
  unfold schemaValidate validateInput
  rw [hcheck]
  dsimp only
  rw [schema_check_tree_ok hformat hdata hfailure, first_scope (root_reads hfailure),
    tree_reader_init_standing hformat]
  unfold schemaIssues
  cases scopeIssues [] data.length (schemas root)
    (parseSequence format (schemaLimits maxDepth maxElements) maxElements 0 0 data).siblings with
  | cons issue more => rfl
  | nil =>
    rw [List.nil_append]
    dsimp only
    rw [hloop, hwalk, show ScopeStack.pathTo ⟨fun _ => root, fun _ => []⟩ 0 = [] from rfl]
    dsimp only
    cases (parseSequence format (schemaLimits maxDepth maxElements) maxElements 0 0 data).issues
      schemas root [] with
    | nil => rfl
    | cons issue more => rfl

/-- On an input that can be read, the validator that collects has all violations, unless it gives
up at a container that lies too deep. -/
theorem schema_validate_all_eq (capacity : Nat) :
    let parse := parseSequence format (schemaLimits maxDepth maxElements) maxElements 0 0 data
    let issues := schemaIssues schemas root parse data.length
    schemaValidateAll format data schemas root maxDepth maxElements .bySchema capacity =
      if parse.modelledTooDeep schemas root 0 then (.error .limit, { capacity := capacity })
      else
        (if issues.length ≠ 0 then .error .schema else .ok (),
          { capacity := capacity, diagnostics := issues.take capacity
            count := issues.length }) := by
  intro parse issues
  obtain ⟨tables, hroot, htables⟩ := schema_check_sound hcheck
  have hparses := parse_sequence_parses format (schemaLimits maxDepth maxElements) maxElements 0 0
    data
  obtain ⟨stack, -, hwalk⟩ := report_walks htables rfl hparses hfailure
    (by rw [List.take_length, List.drop_zero]) (Nat.le_refl _) (Nat.zero_le _)
    ⟨fun _ => ⟨root, []⟩, (scopeIssues [] data.length (schemas root) parse.siblings).foldl
      SchemaReport.add { capacity := capacity }⟩ hroot
  have hloop : walkItems format id (reportBody format data schemas .bySchema)
      (maxElements + 1) (.standing (schemaLimits maxDepth maxElements) data [] 0 0 {})
      ⟨fun _ => ⟨root, []⟩, (scopeIssues [] data.length (schemas root) parse.siblings).foldl
        SchemaReport.add { capacity := capacity }⟩ =
      parse.walk (reportVisit format data schemas .bySchema) 0
        ⟨fun _ => ⟨root, []⟩, (scopeIssues [] data.length (schemas root) parse.siblings).foldl
          SchemaReport.add { capacity := capacity }⟩ :=
    walk_items_parse (report_follows .bySchema) hformat hdata hfailure
  have hreport : (parse.issues schemas root []).foldl SchemaReport.add
      ((scopeIssues [] data.length (schemas root) parse.siblings).foldl SchemaReport.add
        { capacity := capacity }) =
      { capacity := capacity, diagnostics := issues.take capacity, count := issues.length } := by
    rw [← List.foldl_append]
    exact @report_holds { capacity := capacity } [] List.take_nil.symm rfl issues
  have hwalked : parse.walk (reportVisit format data schemas .bySchema) 0
      ⟨fun _ => ⟨root, []⟩, (scopeIssues [] data.length (schemas root) parse.siblings).foldl
        SchemaReport.add { capacity := capacity }⟩ =
      unlessDeep (parse.modelledTooDeep schemas root 0)
        ⟨stack, (parse.issues schemas root []).foldl SchemaReport.add
          ((scopeIssues [] data.length (schemas root) parse.siblings).foldl SchemaReport.add
            { capacity := capacity })⟩ := hwalk
  have hall : validateAll format data schemas root maxDepth maxElements .bySchema
      { capacity := capacity } =
      if parse.modelledTooDeep schemas root 0 then .error .limit
      else .ok { capacity := capacity, diagnostics := issues.take capacity
                 count := issues.length } := by
    unfold validateAll
    rw [schema_check_tree_ok hformat hdata hfailure, report_scope (root_reads hfailure),
      tree_reader_init_standing hformat]
    dsimp only
    rw [hloop, hwalked, hreport]
    cases parse.modelledTooDeep schemas root 0 with
    | true => rfl
    | false => rfl
  unfold schemaValidateAll
  rw [hcheck]
  dsimp only
  rw [hall]
  cases parse.modelledTooDeep schemas root 0 with
  | true => rfl
  | false => rfl

end Read

/-- The validators agree on an input: they accept the same, reject the same, and the violation
that the one returns is among those that the other collects. -/
def ValidatorsAgree (format : Format) (data : Bytes) (schemas : StructureSchemas)
    (root maxDepth maxElements capacity : Nat) : Prop :=
  let first := schemaValidate format data schemas root maxDepth maxElements
  let all := schemaValidateAll format data schemas root maxDepth maxElements .bySchema capacity
  (first = .ok () ↔ all.1 = .ok ()) ∧
    ((∃ issue, first = .error (.schema, issue)) ↔ all.1 = .error .schema) ∧
    ∀ issue, first = .error (.schema, some issue) → all.2.count ≤ capacity →
      issue ∈ all.2.diagnostics

/-- An input that cannot be read is rejected by both in the same way. -/
theorem validators_agree_unread {status : Status} (hcheck : schemaCheck schemas root = .ok ())
    (h : schemaCheckTree format (schemaLimits maxDepth maxElements) data = .error status)
    (capacity : Nat) : ValidatorsAgree format data schemas root maxDepth maxElements capacity := by
  have hfirst : schemaValidate format data schemas root maxDepth maxElements =
      .error (status, none) := by
    unfold schemaValidate validateInput
    rw [hcheck]
    dsimp only
    rw [h]
  have hall : schemaValidateAll format data schemas root maxDepth maxElements .bySchema capacity =
      (.error status, { capacity := capacity }) := by
    unfold schemaValidateAll validateAll
    rw [hcheck]
    dsimp only
    rw [h]
  unfold ValidatorsAgree
  rw [hfirst, hall]
  refine ⟨⟨(fun h => by cases h), (fun h => by cases h)⟩, ⟨?_, ?_⟩, ?_⟩
  · intro hschema
    obtain ⟨issue, hschema⟩ := hschema
    cases hschema
    rfl
  · intro hschema
    cases hschema
    exact ⟨none, rfl⟩
  · intro issue hschema
    cases hschema

/-- Without a decoder only the empty input has a parse that does not fail. -/
theorem unreadable_parse (hformat : format.decode = none) (limits : TreeLimits) (budget : Nat)
    (h : (parseSequence format limits budget 0 0 data).failure = none) :
    parseSequence format limits budget 0 0 data = .done := by
  by_cases hdata : data = []
  · rw [hdata, parse_sequence_nil]
  · exfalso
    cases budget with
    | zero =>
      rw [parse_sequence_zero hdata] at h
      cases h
    | succ budget =>
      have hdecode : formatDecode format data = .error (.nullArg, {}) := by
        unfold formatDecode
        rw [hformat]
      rw [parse_sequence_succ hdata, hdecode] at h
      cases h

/-- On an input that can be read they agree unless the collecting one gives up. -/
theorem validators_agree_read (hcheck : schemaCheck schemas root = .ok ())
    (hformat : format.decode.isSome) (hdata : data.length ≤ sizeMax)
    (hfailure : (parseSequence format (schemaLimits maxDepth maxElements) maxElements 0 0
      data).failure = none) (capacity : Nat) :
    ValidatorsAgree format data schemas root maxDepth maxElements capacity ↔
      (parseSequence format (schemaLimits maxDepth maxElements) maxElements 0 0
        data).modelledTooDeep schemas root 0 = false := by
  have hfirst := schema_validate_eq hcheck hformat hdata hfailure
  have hall := schema_validate_all_eq hcheck hformat hdata hfailure capacity
  unfold ValidatorsAgree
  rw [hfirst, hall]
  cases (parseSequence format (schemaLimits maxDepth maxElements) maxElements 0 0
    data).modelledTooDeep schemas root 0 with
  | true =>
    cases schemaIssues schemas root (parseSequence format (schemaLimits maxDepth maxElements)
      maxElements 0 0 data) data.length with
    | nil =>
      refine ⟨fun h => ?_, fun h => by cases h⟩
      cases h.1.mp rfl
    | cons issue more =>
      refine ⟨fun h => ?_, fun h => by cases h⟩
      cases h.2.1.mp ⟨some issue, rfl⟩
  | false =>
    refine ⟨fun _ => rfl, fun _ => ?_⟩
    cases schemaIssues schemas root (parseSequence format (schemaLimits maxDepth maxElements)
      maxElements 0 0 data) data.length with
    | nil =>
      refine ⟨⟨fun _ => rfl, fun _ => rfl⟩, ⟨?_, (fun h => by cases h)⟩, ?_⟩
      · intro h
        obtain ⟨issue, h⟩ := h
        cases h
      · intro issue h
        cases h
    | cons issue more =>
      refine ⟨⟨(fun h => by cases h), (fun h => by cases h)⟩,
        ⟨fun _ => rfl, fun _ => ⟨some issue, rfl⟩⟩, ?_⟩
      intro found h hcount
      cases h
      show issue ∈ (issue :: more).take capacity
      rw [List.take_of_length_le hcount]
      exact List.mem_cons_self

/-- The validators agree exactly on the inputs that cannot be read, or have no container with a
child table below `TLV_SCHEMA_MAX_DEPTH` others: there the collecting one gives up. -/
theorem schema_validators_agree_iff (hcheck : schemaCheck schemas root = .ok ())
    (hdata : data.length ≤ sizeMax) (maxDepth maxElements capacity : Nat) :
    ValidatorsAgree format data schemas root maxDepth maxElements capacity ↔
      ((parseSequence format (schemaLimits maxDepth maxElements) maxElements 0 0 data).failure =
          none →
        (parseSequence format (schemaLimits maxDepth maxElements) maxElements 0 0
          data).modelledTooDeep schemas root 0 = false) := by
  cases hformat : format.decode with
  | none =>
    have hinit : schemaCheckTree format (schemaLimits maxDepth maxElements) data =
        .error .nullArg := by
      unfold schemaCheckTree treeReaderInit readerInit
      rw [if_pos (by simp [hformat])]
      rfl
    refine ⟨fun _ hfailure => ?_, fun _ => validators_agree_unread hcheck hinit capacity⟩
    rw [unreadable_parse hformat _ _ hfailure]
    rfl
  | some decode =>
    have hsome : format.decode.isSome = true := by rw [hformat]; rfl
    cases hfailure : (parseSequence format (schemaLimits maxDepth maxElements) maxElements 0 0
        data).failure with
    | some status =>
      have htree : schemaCheckTree format (schemaLimits maxDepth maxElements) data =
          .error status := by
        rw [schema_check_tree_eq hsome hdata]
        show (match (parseSequence format (schemaLimits maxDepth maxElements) maxElements 0 0
          data).failure with
          | none => Except.ok ()
          | some status => .error status) = _
        rw [hfailure]
      exact ⟨(fun _ h => by cases h), fun _ => validators_agree_unread hcheck htree capacity⟩
    | none =>
      rw [validators_agree_read hcheck hsome hdata hfailure]
      exact ⟨fun h _ => h, fun h => h rfl⟩

/-- One table of one optional constructed element that holds the same again. -/
def nestedSchema : StructureSchemas := fun _ =>
  { rules := [{ entry := { tag := [0x30] }, kind := .constructed, children := some 0 }] }

/-- Some elements, each the value of the one before, in short lengths. -/
def nestedOctets : Nat → Bytes
  | 0 => [0x30, 0x00]
  | depth + 1 => [0x30, UInt8.ofNat (2 * (depth + 1))] ++ nestedOctets depth

/-- Below 64 nested elements stands an empty one: the collecting validator gives up there. -/
theorem schema_validators_disagree :
    ¬ ValidatorsAgree formatBer ([0x30, 0x81, 0x80] ++ nestedOctets 63) nestedSchema 0 64 100 8 := by
  have hfirst : schemaValidate formatBer ([0x30, 0x81, 0x80] ++ nestedOctets 63) nestedSchema 0 64
      100 = .ok () := by
    decide +kernel
  have hall : (schemaValidateAll formatBer ([0x30, 0x81, 0x80] ++ nestedOctets 63) nestedSchema 0
      64 100 .bySchema 8).1 = .error .limit := by
    decide +kernel
  intro hagree
  have hok := hagree.1.mp hfirst
  rw [hall] at hok
  cases hok

theorem schema_validators_agree_nested :
    schemaCheck nestedSchema 0 = .ok () ∧ (nestedOctets 1).length ≤ sizeMax ∧
      ValidatorsAgree formatBer (nestedOctets 1) nestedSchema 0 64 100 8 := by
  refine ⟨by decide, by decide, ?_⟩
  refine (schema_validators_agree_iff (by decide) (by decide) 64 100 8).mpr fun _ => ?_
  decide +kernel

end Validators

end OpenTlv
