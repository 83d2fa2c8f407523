import OpenTlv.Schema.Agreement

/-!
# What the structural validator decides

The meaning of a schema, stated on the elements that an input parses into: a scope is a sequence
of elements with a table, and each element that the table gives children opens the scope of its
value. `schema_validate_decides` says that `tlv_schema_validate` accepts exactly the inputs all of
whose scopes are admitted by their tables, however the tables refer to each other.
-/

namespace OpenTlv

section Meaning

/-- An element of a scope, with the elements of its value if it is constructed. -/
structure Member where
  decoded : Decoded
  inner : Option Parse

def Member.tag (element : Member) : Bytes :=
  element.decoded.tag.bytes

/-- The elements of a scope in their order. -/
def Parse.members : Parse → List Member
  | .done => []
  | .failed _ => []
  | .element _ decoded next => ⟨decoded, none⟩ :: next.members
  | .group _ decoded inner next => ⟨decoded, some inner⟩ :: next.members

/-- How many elements of a scope have a tag of some kind. -/
def Parse.occurs (scope : Parse) (counted : Bytes → Bool) : Nat :=
  scope.members.countP fun element => counted element.tag

/-- A length is inside its bounds, an end of them where only these are allowed, and a multiple
where one is required. -/
structure SchemaEntry.Admits (entry : SchemaEntry) (length : Nat) : Prop where
  least : entry.minLength ≤ length
  most : length ≤ entry.maxLength
  endpoint : entry.flags &&& schemaLengthEndpoints ≠ 0 →
    length = entry.minLength ∨ length = entry.maxLength
  multiple : entry.lengthMultiple ≠ 0 → entry.lengthMultiple ∣ length

/-- An element has a length and a kind that its rule admits. -/
structure StructureRule.Admits (rule : StructureRule) (element : Member) : Prop where
  length : rule.entry.Admits element.decoded.value.bytes.length
  primitive : rule.kind = .primitive → element.inner = none
  constructed : rule.kind = .constructed → element.inner ≠ none

/-- An element follows its rule, or has none where the table allows that. -/
structure StructureSchema.Fits (schema : StructureSchema) (element : Member) : Prop where
  admitted : ∀ rule ∈ schema.rules, rule.entry.tag = element.tag → rule.Admits element
  known : schema.allowUnknown = false → ∃ rule ∈ schema.rules, rule.entry.tag = element.tag

/-- A scope has its elements as often and in the order as its table requires. -/
structure StructureSchema.Arranges (schema : StructureSchema) (scope : Parse) : Prop where
  rules : ∀ rule ∈ schema.rules,
    rule.minOccurs ≤ scope.occurs (fun tag => rule.entry.tag = tag) ∧
      scope.occurs (fun tag => rule.entry.tag = tag) ≤ rule.maxOccurs
  groups : ∀ group ∈ schema.groups,
    group.minOccurs ≤ scope.occurs (schema.inGroup group) ∧
      scope.occurs (schema.inGroup group) ≤ group.maxOccurs
  order : schema.order = .sequence → scope.members.Pairwise fun first second =>
    ∀ (i j : Nat) (rule other : StructureRule), schema.rules[i]? = some rule →
      rule.entry.tag = first.tag → schema.rules[j]? = some other →
      other.entry.tag = second.tag → i ≤ j

/-- A table admits a scope. -/
structure StructureSchema.Admits (schema : StructureSchema) (scope : Parse) : Prop extends
    schema.Arranges scope where
  elements : ∀ element ∈ scope.members, schema.Fits element

/-- The modelled scopes with their tables: the top level, and the value of each element of such a
scope whose rule has children. -/
inductive ModelledScope (schemas : StructureSchemas) (root : Nat) (input : Parse) :
    Nat → Parse → Prop where
  | top : ModelledScope schemas root input root input
  | children {table child : Nat} {scope inner : Parse} {decoded : Decoded}
      {rule : StructureRule} :
      ModelledScope schemas root input table scope → ⟨decoded, some inner⟩ ∈ scope.members →
      rule ∈ (schemas table).rules → rule.entry.tag = decoded.tag.bytes →
      rule.children = some child → ModelledScope schemas root input child inner

end Meaning

section Distinct

variable {schema : StructureSchema}

/-- The rules of a table that passes the check have different tags. -/
theorem check_rules_distinct {passed rules : List StructureRule}
    (h : checkRules schema passed rules = .ok ()) :
    (∀ rule ∈ rules, ∀ other ∈ passed, rule.entry.tag ≠ other.entry.tag) ∧
      rules.Pairwise fun a b => a.entry.tag ≠ b.entry.tag := by
  induction rules generalizing passed with
  | nil => exact ⟨fun rule hmem => (by cases hmem), List.Pairwise.nil⟩
  | cons first rest ih =>
    unfold checkRules at h
    split at h
    · cases h
    · split at h
      · cases h
      next hfresh =>
        obtain ⟨hpassed, hpairs⟩ := ih h
        have hfirst : ∀ other ∈ passed, first.entry.tag ≠ other.entry.tag := by
          intro other hother hsame
          exact hfresh (List.any_eq_true.mpr ⟨other, hother, decide_eq_true hsame⟩)
        refine ⟨fun rule hmem other hother => ?_, List.Pairwise.cons (fun rule hmem => ?_) hpairs⟩
        · cases hmem with
          | head => exact hfirst other hother
          | tail _ hmem => exact hpassed rule hmem other (List.mem_append_left _ hother)
        · exact (hpassed rule hmem first (List.mem_append_right _ List.mem_cons_self)).symm

theorem check_table_distinct (h : checkTable schema = .ok ()) :
    schema.rules.Pairwise fun a b => a.entry.tag ≠ b.entry.tag := by
  unfold checkTable at h
  obtain ⟨_, hgroups, h⟩ := bind_ok.mp h
  exact (check_rules_distinct h).2

variable (hdistinct : schema.rules.Pairwise fun a b => a.entry.tag ≠ b.entry.tag)
include hdistinct

/-- Two rules of one tag stand at one index. -/
theorem rule_index_unique {i j : Nat} {rule other : StructureRule}
    (hrule : schema.rules[i]? = some rule) (hother : schema.rules[j]? = some other)
    (hsame : rule.entry.tag = other.entry.tag) : i = j := by
  obtain ⟨hi, hrule⟩ := List.getElem?_eq_some_iff.mp hrule
  obtain ⟨hj, hother⟩ := List.getElem?_eq_some_iff.mp hother
  have hpairs := List.pairwise_iff_getElem.mp hdistinct
  by_contra hne
  rcases Nat.lt_or_gt_of_ne hne with hless | hless
  · have hdiffer := hpairs i j hi hj hless
    rw [hrule, hother] at hdiffer
    exact hdiffer hsame
  · have hdiffer := hpairs j i hj hi hless
    rw [hrule, hother] at hdiffer
    exact hdiffer hsame.symm

/-- The rule of a tag is the one rule that has it. -/
theorem rule_of_eq_some {tag : Bytes} {rule : StructureRule} :
    schema.ruleOf tag = some rule ↔ rule ∈ schema.rules ∧ rule.entry.tag = tag := by
  constructor
  · intro h
    exact ⟨rule_of_mem h, by simpa using List.find?_some h⟩
  · rintro ⟨hmem, htag⟩
    cases hfound : schema.ruleOf tag with
    | none =>
      have hnone := List.find?_eq_none.mp hfound rule hmem
      exact absurd (decide_eq_true htag) hnone
    | some other =>
      have hother : other.entry.tag = tag := by simpa using List.find?_some hfound
      obtain ⟨i, hi⟩ := List.mem_iff_getElem?.mp hmem
      obtain ⟨j, hj⟩ := List.mem_iff_getElem?.mp (rule_of_mem hfound)
      obtain rfl := rule_index_unique hdistinct hi hj (htag.trans hother.symm)
      rw [hi] at hj
      exact hj.symm

/-- The index of a tag is the one where its rule stands. -/
theorem rule_index_eq_some {tag : Bytes} {i : Nat} :
    (schema.rules.findIdx? fun rule => rule.entry.tag = tag) = some i ↔
      ∃ rule, schema.rules[i]? = some rule ∧ rule.entry.tag = tag := by
  constructor
  · intro h
    obtain ⟨hless, hhere, -⟩ := List.findIdx?_eq_some_iff_getElem.mp h
    exact ⟨schema.rules[i], List.getElem?_eq_getElem hless, by simpa using hhere⟩
  · rintro ⟨rule, hrule, htag⟩
    cases hfound : schema.rules.findIdx? fun rule => rule.entry.tag = tag with
    | none =>
      have hnone := List.findIdx?_eq_none_iff.mp hfound rule (List.mem_of_getElem? hrule)
      exact absurd htag (by simpa using hnone)
    | some j =>
      obtain ⟨hless, hhere, -⟩ := List.findIdx?_eq_some_iff_getElem.mp hfound
      have hother : schema.rules[j].entry.tag = tag := by simpa using hhere
      rw [rule_index_unique hdistinct hrule (List.getElem?_eq_getElem hless)
        (htag.trans hother.symm)]

end Distinct

section Scope

variable {path : List Bytes} {ending : Nat} {schema : StructureSchema} {scope : Parse}

/-- The two lists of a scope have the same elements. -/
theorem siblings_decoded (scope : Parse) :
    scope.siblings.map (·.2) = scope.members.map (·.decoded) := by
  induction scope with
  | done => rfl
  | failed status => rfl
  | element offset decoded next ih => exact congrArg (decoded :: ·) ih
  | group offset decoded inner next _ ih => exact congrArg (decoded :: ·) ih

theorem siblings_count (counted : Bytes → Bool) :
    scope.siblings.countP (fun element => counted element.2.tag.bytes) = scope.occurs counted := by
  have hboth := congrArg (List.countP fun decoded : Decoded => counted decoded.tag.bytes)
    (siblings_decoded scope)
  rw [List.countP_map, List.countP_map] at hboth
  exact hboth

section Count

variable {counted : Bytes → Bool} {maxOccurs : Nat} {duplicate : Bytes → Nat → Nat → SchemaIssue}

theorem count_step_counted {element : Nat × Decoded} (count : Nat)
    (h : counted element.2.tag.bytes = true) :
    countStep counted maxOccurs duplicate element count =
      (count + 1,
        if count + 1 > maxOccurs then [duplicate element.2.tag.bytes element.1 (count + 1)]
        else []) :=
  if_pos h

theorem count_step_passed {element : Nat × Decoded} (count : Nat)
    (h : ¬ counted element.2.tag.bytes = true) :
    countStep counted maxOccurs duplicate element count = (count, []) :=
  if_neg h

/-- A count counts. -/
theorem collect_count (siblings : List (Nat × Decoded)) (count : Nat) :
    (collect (countStep counted maxOccurs duplicate) siblings count).1 =
      count + siblings.countP fun element => counted element.2.tag.bytes := by
  induction siblings generalizing count with
  | nil => rfl
  | cons element rest ih =>
    rw [collect_cons, List.countP_cons]
    dsimp only
    by_cases hcounted : counted element.2.tag.bytes = true
    · rw [count_step_counted count hcounted, if_pos hcounted, ih]
      omega
    · rw [count_step_passed count hcounted, if_neg hcounted]
      exact ih count

/-- A count finds nothing exactly when it stays within its limit. -/
theorem collect_count_nil (siblings : List (Nat × Decoded)) {count : Nat}
    (hcount : count ≤ maxOccurs) :
    (collect (countStep counted maxOccurs duplicate) siblings count).2 = [] ↔
      count + siblings.countP (fun element => counted element.2.tag.bytes) ≤ maxOccurs := by
  induction siblings generalizing count with
  | nil => exact ⟨fun _ => hcount, fun _ => rfl⟩
  | cons element rest ih =>
    rw [collect_cons, List.countP_cons, List.append_eq_nil_iff]
    by_cases hcounted : counted element.2.tag.bytes = true
    · rw [count_step_counted count hcounted, if_pos hcounted]
      by_cases hfull : count + 1 > maxOccurs
      · rw [if_pos hfull]
        constructor
        · rintro ⟨hnone, -⟩
          cases hnone
        · intro hfits
          omega
      · rw [if_neg hfull, ih (by omega)]
        constructor
        · rintro ⟨-, hfits⟩
          omega
        · intro hfits
          exact ⟨rfl, by omega⟩
    · rw [count_step_passed count hcounted, if_neg hcounted]
      exact (and_iff_right rfl).trans (ih hcount)

end Count

/-- A count is without violations exactly within its bounds. -/
theorem count_issues_nil {counted : Bytes → Bool} {minOccurs maxOccurs : Nat}
    {duplicate : Bytes → Nat → Nat → SchemaIssue} {missing : Nat → SchemaIssue} :
    countIssues counted minOccurs maxOccurs duplicate missing scope.siblings = [] ↔
      minOccurs ≤ scope.occurs counted ∧ scope.occurs counted ≤ maxOccurs := by
  have hcount := @collect_count counted maxOccurs duplicate scope.siblings 0
  have hfound := @collect_count_nil counted maxOccurs duplicate scope.siblings 0 (Nat.zero_le _)
  rw [Nat.zero_add, siblings_count] at hcount hfound
  unfold countIssues
  rw [List.append_eq_nil_iff, hfound, hcount]
  split
  next hless =>
    constructor
    · rintro ⟨-, hmissing⟩
      cases hmissing
    · rintro ⟨hleast, -⟩
      omega
  next hleast =>
    constructor
    · rintro ⟨hmost, -⟩
      exact ⟨by omega, hmost⟩
    · rintro ⟨-, hmost⟩
      exact ⟨hmost, rfl⟩

/-- The index of the rule of a tag. -/
def StructureSchema.indexOf (schema : StructureSchema) (tag : Bytes) : Option Nat :=
  schema.rules.findIdx? fun rule => rule.entry.tag = tag

/-- The indices of the rules that the elements have. -/
def ruleIndices (schema : StructureSchema) (siblings : List (Nat × Decoded)) : List Nat :=
  siblings.filterMap fun element => schema.indexOf element.2.tag.bytes

theorem order_step_none {element : Nat × Decoded} (last : Option Nat)
    (h : schema.indexOf element.2.tag.bytes = none) :
    orderStep path schema element last = (last, []) := by
  unfold StructureSchema.indexOf at h
  unfold orderStep
  rw [h]

theorem order_step_some {element : Nat × Decoded} {i : Nat} (last : Option Nat)
    (h : schema.indexOf element.2.tag.bytes = some i) :
    orderStep path schema element last =
      if last.any fun lastIndex => i < lastIndex then
        (last, [misplaced path schema.rules[i]? element.2.tag.bytes element.1])
      else (some i, []) := by
  unfold StructureSchema.indexOf at h
  unfold orderStep
  rw [h]

/-- The order is without violations exactly when the indices do not decrease. -/
theorem collect_order (siblings : List (Nat × Decoded)) (last : Option Nat) :
    (collect (orderStep path schema) siblings last).2 = [] ↔
      (∀ lastIndex ∈ last, ∀ i ∈ ruleIndices schema siblings, lastIndex ≤ i) ∧
        (ruleIndices schema siblings).Pairwise (· ≤ ·) := by
  induction siblings generalizing last with
  | nil => exact ⟨fun _ => ⟨fun _ _ _ h => (by cases h), List.Pairwise.nil⟩, fun _ => rfl⟩
  | cons element rest ih =>
    rw [collect_cons, List.append_eq_nil_iff]
    cases hindex : schema.indexOf element.2.tag.bytes with
    | none =>
      have hindices : ruleIndices schema (element :: rest) = ruleIndices schema rest :=
        List.filterMap_cons_none hindex
      rw [hindices, order_step_none last hindex]
      exact (and_iff_right rfl).trans (ih last)
    | some i =>
      have hindices : ruleIndices schema (element :: rest) = i :: ruleIndices schema rest :=
        List.filterMap_cons_some hindex
      rw [hindices, order_step_some last hindex, List.pairwise_cons]
      by_cases hbefore : (last.any fun lastIndex => i < lastIndex) = true
      · rw [if_pos hbefore]
        constructor
        · rintro ⟨hnone, -⟩
          cases hnone
        · rintro ⟨hlast, -⟩
          obtain ⟨lastIndex, hmem, hless⟩ := (Option.any_eq_true _ _).mp hbefore
          have hbounded := hlast lastIndex hmem i List.mem_cons_self
          exact absurd (of_decide_eq_true hless) (by omega)
      · rw [if_neg hbefore, ih]
        have hlast : ∀ lastIndex ∈ last, lastIndex ≤ i := by
          intro lastIndex hmem
          by_contra hless
          exact hbefore ((Option.any_eq_true _ _).mpr
            ⟨lastIndex, hmem, decide_eq_true (by omega)⟩)
        constructor
        · rintro ⟨-, hbehind, hpairs⟩
          refine ⟨fun lastIndex hmem j hj => ?_, hbehind i rfl, hpairs⟩
          cases hj with
          | head => exact hlast lastIndex hmem
          | tail _ hj => exact Nat.le_trans (hlast lastIndex hmem) (hbehind i rfl j hj)
        · rintro ⟨-, hbehind, hpairs⟩
          refine ⟨rfl, fun lastIndex hmem => ?_, hpairs⟩
          cases hmem
          exact hbehind

/-- The indices do not decrease exactly when the rules of the elements do not. -/
theorem rule_indices_pairwise
    (hdistinct : schema.rules.Pairwise fun a b => a.entry.tag ≠ b.entry.tag) :
    (ruleIndices schema scope.siblings).Pairwise (· ≤ ·) ↔
      scope.members.Pairwise fun first second =>
        ∀ (i j : Nat) (rule other : StructureRule), schema.rules[i]? = some rule →
          rule.entry.tag = first.tag → schema.rules[j]? = some other →
          other.entry.tag = second.tag → i ≤ j := by
  have hindices : ruleIndices schema scope.siblings =
      scope.members.filterMap fun element => schema.indexOf element.tag := by
    have hboth := congrArg (List.filterMap fun decoded : Decoded =>
      schema.indexOf decoded.tag.bytes) (siblings_decoded scope)
    rw [List.filterMap_map, List.filterMap_map] at hboth
    exact hboth
  rw [hindices, List.pairwise_filterMap]
  refine List.Pairwise.iff fun first second => ⟨?_, ?_⟩
  · intro h i j rule other hrule hfirst hother hsecond
    exact h i ((rule_index_eq_some hdistinct).mpr ⟨rule, hrule, hfirst⟩) j
      ((rule_index_eq_some hdistinct).mpr ⟨other, hother, hsecond⟩)
  · intro h i hi j hj
    obtain ⟨rule, hrule, hfirst⟩ := (rule_index_eq_some hdistinct).mp hi
    obtain ⟨other, hother, hsecond⟩ := (rule_index_eq_some hdistinct).mp hj
    exact h i j rule other hrule hfirst hother hsecond

/-- A scope is without violations as a whole exactly when its table arranges it. -/
theorem scope_issues_nil
    (hdistinct : schema.rules.Pairwise fun a b => a.entry.tag ≠ b.entry.tag) :
    scopeIssues path ending schema scope.siblings = [] ↔ schema.Arranges scope := by
  have hrules : schema.rules.flatMap (ruleIssues path ending scope.siblings) = [] ↔
      ∀ rule ∈ schema.rules, rule.minOccurs ≤ scope.occurs (fun tag => rule.entry.tag = tag) ∧
        scope.occurs (fun tag => rule.entry.tag = tag) ≤ rule.maxOccurs := by
    rw [List.flatMap_eq_nil_iff]
    exact forall₂_congr fun rule _ => count_issues_nil
  have hgroups : schema.groups.flatMap (groupIssues path ending schema scope.siblings) = [] ↔
      ∀ group ∈ schema.groups, group.minOccurs ≤ scope.occurs (schema.inGroup group) ∧
        scope.occurs (schema.inGroup group) ≤ group.maxOccurs := by
    rw [List.flatMap_eq_nil_iff]
    exact forall₂_congr fun group _ => count_issues_nil
  have horder : (if schema.order = .sequence then
      (collect (orderStep path schema) scope.siblings none).2 else []) = [] ↔
      (schema.order = .sequence → (ruleIndices schema scope.siblings).Pairwise (· ≤ ·)) := by
    split
    next hsequence =>
      rw [collect_order]
      exact ⟨fun h _ => h.2, fun h => ⟨fun _ hmem => (by cases hmem), h hsequence⟩⟩
    next hany => exact ⟨fun _ h => absurd h hany, fun _ => rfl⟩
  unfold scopeIssues
  rw [List.append_eq_nil_iff, List.append_eq_nil_iff, hrules, hgroups, horder,
    rule_indices_pairwise hdistinct]
  exact ⟨fun h => ⟨h.1, h.2.1, h.2.2⟩, fun h => ⟨h.rules, h.groups, h.order⟩⟩

end Scope

section Elements

variable {path : List Bytes} {schema : StructureSchema}

/-- Under a sound entry a length is right exactly when the entry admits it. -/
theorem validate_length_iff {entry : SchemaEntry} (h : entry.minLength ≤ entry.maxLength)
    (length : Nat) : schemaValidateLength entry length = .ok () ↔ entry.Admits length := by
  unfold schemaValidateLength
  rw [if_neg (by omega)]
  constructor
  · intro hvalid
    split at hvalid
    · cases hvalid
    next hright =>
      simp only [not_or, not_and] at hright
      obtain ⟨hleast, hmost, hendpoint, hmultiple⟩ := hright
      refine ⟨by omega, by omega, fun hflag => ?_, fun hset => ?_⟩
      · by_cases hmin : length = entry.minLength
        · exact .inl hmin
        · exact .inr (not_not.mp (hendpoint hflag hmin))
      · exact Nat.dvd_of_mod_eq_zero (not_not.mp (hmultiple hset))
  · rintro ⟨hleast, hmost, hendpoint, hmultiple⟩
    rw [if_neg]
    rintro (hless | hmore | ⟨hflag, hmin, hmax⟩ | ⟨hset, hrest⟩)
    · omega
    · omega
    · rcases hendpoint hflag with hend | hend
      · exact hmin hend
      · exact hmax hend
    · exact hrest (Nat.mod_eq_zero_of_dvd (hmultiple hset))

/-- A length is without a violation exactly when its rule admits it. -/
theorem length_issues_nil {rule : StructureRule}
    (h : rule.entry.minLength ≤ rule.entry.maxLength) (tag : Bytes) (offset length : Nat) :
    (match schemaValidateLength rule.entry length with
      | .ok () => []
      | .error _ => [wrongLength path rule tag offset length]) = [] ↔ rule.entry.Admits length := by
  rw [← validate_length_iff h]
  cases schemaValidateLength rule.entry length with
  | ok _ => exact ⟨fun _ => rfl, fun _ => rfl⟩
  | error status => exact ⟨fun h => (by cases h), fun h => (by cases h)⟩

/-- An element is without violations exactly when its rule admits it. -/
theorem item_issues_nil {rule : StructureRule} (h : rule.entry.minLength ≤ rule.entry.maxLength)
    (tag : Bytes) (offset : Nat) (element : Member) :
    itemIssues path rule tag offset element.decoded.value.bytes.length element.inner.isSome = [] ↔
      rule.Admits element := by
  have hkind : (if rule.forbids element.inner.isSome then
      [wrongKind path rule tag offset element.inner.isSome] else []) = [] ↔
      (rule.kind = .primitive → element.inner = none) ∧
        (rule.kind = .constructed → element.inner ≠ none) := by
    unfold StructureRule.forbids
    cases rule.kind with
    | any => simp
    | primitive => cases element.inner <;> simp
    | constructed => cases element.inner <;> simp
  unfold itemIssues
  rw [List.append_eq_nil_iff]
  refine (and_congr (length_issues_nil h _ _ _) hkind).trans ?_
  exact ⟨fun h => ⟨h.1, h.2.1, h.2.2⟩, fun h => ⟨h.length, h.primitive, h.constructed⟩⟩

variable (hlengths : ∀ rule ∈ schema.rules, rule.entry.minLength ≤ rule.entry.maxLength)
  (hdistinct : schema.rules.Pairwise fun a b => a.entry.tag ≠ b.entry.tag)
include hlengths hdistinct

/-- What the visit finds by an element itself is nothing exactly when the element fits. -/
theorem element_issues_nil (offset : Nat) (element : Member) :
    (match schema.ruleOf element.tag with
      | none => unknownIssues path schema element.tag offset
      | some rule =>
        itemIssues path rule element.tag offset element.decoded.value.bytes.length
          element.inner.isSome) = [] ↔ schema.Fits element := by
  cases hrule : schema.ruleOf element.tag with
  | none =>
    have hnone : ∀ rule ∈ schema.rules, rule.entry.tag ≠ element.tag := by
      intro rule hmem htag
      have hsome := (rule_of_eq_some hdistinct).mpr ⟨hmem, htag⟩
      rw [hrule] at hsome
      cases hsome
    unfold unknownIssues
    dsimp only
    split
    next hclosed =>
      constructor
      · intro h
        cases h
      · intro h
        obtain ⟨rule, hmem, htag⟩ := h.known hclosed
        exact absurd htag (hnone rule hmem)
    next hopen =>
      exact ⟨fun _ => ⟨fun rule hmem htag => absurd htag (hnone rule hmem),
        fun hclosed => absurd hclosed hopen⟩, fun _ => rfl⟩
  | some rule =>
    obtain ⟨hmem, htag⟩ := (rule_of_eq_some hdistinct).mp hrule
    dsimp only
    rw [item_issues_nil (hlengths rule hmem)]
    constructor
    · intro hadmits
      refine ⟨fun other hother hsame => ?_, fun _ => ⟨rule, hmem, htag⟩⟩
      have hsome := (rule_of_eq_some hdistinct).mpr ⟨hother, hsame⟩
      rw [hrule] at hsome
      cases hsome
      exact hadmits
    · intro hfits
      exact hfits.admitted rule hmem htag

end Elements

section Decides

variable {schemas : StructureSchemas} {tables : List Nat}

theorem members_inner_lt {scope inner : Parse} {decoded : Decoded}
    (h : ⟨decoded, some inner⟩ ∈ scope.members) : sizeOf inner < sizeOf scope := by
  induction scope with
  | done => cases h
  | failed status => cases h
  | element offset other next ih =>
    cases h with
    | tail _ h =>
      have hless := ih h
      simp only [Parse.element.sizeOf_spec]
      omega
  | group offset other value next _ ih =>
    simp only [Parse.group.sizeOf_spec]
    cases h with
    | head => omega
    | tail _ h =>
      have hless := ih h
      omega

/-- A scope inside the value of an element is one of the scope of the element. -/
theorem ModelledScope.inside {table child other : Nat} {scope inner deeper : Parse}
    {decoded : Decoded} {rule : StructureRule} (hmem : ⟨decoded, some inner⟩ ∈ scope.members)
    (hrule : rule ∈ (schemas table).rules) (htag : rule.entry.tag = decoded.tag.bytes)
    (hchild : rule.children = some child)
    (h : ModelledScope schemas child inner other deeper) :
    ModelledScope schemas table scope other deeper := by
  induction h with
  | top => exact .children .top hmem hrule htag hchild
  | children _ hmem hrule htag hchild ih => exact .children ih hmem hrule htag hchild

/-- What an element of a scope owes below the scope as a whole. -/
def Member.Clean (schemas : StructureSchemas) (table : Nat) (path : List Bytes)
    (element : Member) : Prop :=
  (schemas table).Fits element ∧
    ∀ inner, element.inner = some inner → ∀ rule ∈ (schemas table).rules,
      rule.entry.tag = element.tag → ∀ child, rule.children = some child →
        (schemas child).Arranges inner ∧
          inner.issues schemas child (path ++ [element.tag]) = []

variable (htables : CheckedTables schemas tables)
include htables

/-- A container is without violations exactly when it is clean. -/
theorem group_issues_nil {table : Nat} (htable : table ∈ tables) (path : List Bytes)
    (offset : Nat) (decoded : Decoded) (inner : Parse) :
    (match (schemas table).ruleOf decoded.tag.bytes with
      | none => unknownIssues path (schemas table) decoded.tag.bytes offset
      | some rule =>
        itemIssues path rule decoded.tag.bytes offset decoded.value.bytes.length true ++
          match rule.children with
          | none => []
          | some children =>
            scopeIssues (path ++ [decoded.tag.bytes]) (decoded.valueEnd offset)
              (schemas children) inner.siblings ++
            inner.issues schemas children (path ++ [decoded.tag.bytes])) = [] ↔
      Member.Clean schemas table path ⟨decoded, some inner⟩ := by
  have hlengths := (htables.sound.sound table htable).lengths
  have hdistinct := check_table_distinct (htables.checked table htable)
  have hhere := @element_issues_nil path (schemas table) hlengths hdistinct offset
    ⟨decoded, some inner⟩
  change (match (schemas table).ruleOf decoded.tag.bytes with
    | none => unknownIssues path (schemas table) decoded.tag.bytes offset
    | some rule =>
      itemIssues path rule decoded.tag.bytes offset decoded.value.bytes.length true) = [] ↔
    (schemas table).Fits ⟨decoded, some inner⟩ at hhere
  cases hrule : (schemas table).ruleOf decoded.tag.bytes with
  | none =>
    rw [hrule] at hhere
    refine hhere.trans ⟨fun h => ⟨h, ?_⟩, And.left⟩
    intro _ _ rule hmem htag
    have hsome := (rule_of_eq_some hdistinct).mpr ⟨hmem, htag⟩
    rw [show (schemas table).ruleOf (Member.tag ⟨decoded, some inner⟩) = none from hrule]
      at hsome
    cases hsome
  | some rule =>
    obtain ⟨hmem, htag⟩ := (rule_of_eq_some hdistinct).mp hrule
    rw [hrule] at hhere
    refine List.append_eq_nil_iff.trans (and_congr hhere ?_)
    have honly : ∀ other ∈ (schemas table).rules,
        other.entry.tag = Member.tag ⟨decoded, some inner⟩ → other = rule := by
      intro other hother hsame
      have hsome := (rule_of_eq_some hdistinct).mpr ⟨hother, hsame⟩
      exact Option.some.inj (hsome.symm.trans hrule)
    cases hchildren : rule.children with
    | none =>
      refine ⟨fun _ _ _ other hother hsame child hchild => ?_, fun _ => rfl⟩
      rw [honly other hother hsame, hchildren] at hchild
      cases hchild
    | some children =>
      have hknown := htables.closed table htable rule hmem children hchildren
      have hscope := @scope_issues_nil (path ++ [decoded.tag.bytes])
        (decoded.valueEnd offset) (schemas children) inner
        (check_table_distinct (htables.checked children hknown))
      refine (List.append_eq_nil_iff.trans (and_congr hscope Iff.rfl)).trans ?_
      constructor
      · intro h _ hinner other hother hsame child hchild
        cases hinner
        rw [honly other hother hsame, hchildren] at hchild
        cases hchild
        exact h
      · intro h
        exact h inner rfl rule hmem htag children hchildren

/-- The violations below a scope are those of its elements and of their values. -/
theorem issues_nil (scope : Parse) {table : Nat} (htable : table ∈ tables) (path : List Bytes) :
    scope.issues schemas table path = [] ↔
      ∀ element ∈ scope.members, element.Clean schemas table path := by
  have hlengths := (htables.sound.sound table htable).lengths
  have hdistinct := check_table_distinct (htables.checked table htable)
  induction scope with
  | done => exact ⟨fun _ element hmem => (by cases hmem), fun _ => rfl⟩
  | failed status => exact ⟨fun _ element hmem => (by cases hmem), fun _ => rfl⟩
  | element offset decoded next ih =>
    have hhere := @element_issues_nil path (schemas table) hlengths hdistinct offset
      ⟨decoded, none⟩
    have hclean : Member.Clean schemas table path ⟨decoded, none⟩ ↔
        (schemas table).Fits ⟨decoded, none⟩ :=
      ⟨And.left, fun h => ⟨h, fun inner hinner => (by cases hinner)⟩⟩
    exact List.append_eq_nil_iff.trans ((and_congr (hhere.trans hclean.symm) ih).trans
      List.forall_mem_cons.symm)
  | group offset decoded inner next _ ih =>
    exact List.append_eq_nil_iff.trans
      ((and_congr (group_issues_nil htables htable path offset decoded inner) ih).trans
        List.forall_mem_cons.symm)

/-- The modelled scopes of a parse without violations are admitted. -/
theorem modelled_scope_admits {root table : Nat} {input scope : Parse} (hroot : root ∈ tables)
    (harranges : (schemas root).Arranges input) (hnone : input.issues schemas root [] = [])
    (h : ModelledScope schemas root input table scope) :
    table ∈ tables ∧ (schemas table).Admits scope ∧
      ∃ path : List Bytes, scope.issues schemas table path = [] := by
  have hadmits : ∀ {table scope path}, table ∈ tables → (schemas table).Arranges scope →
      scope.issues schemas table path = [] → (schemas table).Admits scope := by
    intro table scope path htable hscope hissues
    exact ⟨hscope, fun element hmem => ((issues_nil htables scope htable path).mp hissues _ hmem).1⟩
  induction h with
  | top => exact ⟨hroot, hadmits hroot harranges hnone, [], hnone⟩
  | children _ hmem hrule htag hchild ih =>
    obtain ⟨htable, -, path, hissues⟩ := ih
    obtain ⟨-, hvalue⟩ := (issues_nil htables _ htable path).mp hissues _ hmem
    obtain ⟨hscope, hdeeper⟩ := hvalue _ rfl _ hrule htag _ hchild
    have hknown := htables.closed _ htable _ hrule _ hchild
    exact ⟨hknown, hadmits hknown hscope hdeeper, _, hdeeper⟩

/-- A parse all of whose modelled scopes are admitted is without violations. -/
theorem issues_of_admitted (input : Parse) {root : Nat} (hroot : root ∈ tables)
    (hadmits : ∀ table scope, ModelledScope schemas root input table scope →
      (schemas table).Admits scope) (path : List Bytes) :
    input.issues schemas root path = [] := by
  refine (issues_nil htables input hroot path).mpr fun element hmem =>
    ⟨(hadmits root input .top).elements element hmem, ?_⟩
  intro inner hinner rule hrule htag child hchild
  obtain ⟨decoded, value⟩ := element
  obtain rfl : value = some inner := hinner
  have hsmaller := members_inner_lt hmem
  have hbelow := fun table scope (h : ModelledScope schemas child inner table scope) =>
    hadmits table scope (h.inside hmem hrule htag hchild)
  exact ⟨(hbelow child inner .top).toArranges,
    issues_of_admitted inner (htables.closed root hroot rule hrule child hchild) hbelow _⟩
termination_by sizeOf input

omit htables in
/-- The validator decides the schema. On an input that can be read within its limits it accepts
exactly if every modelled scope is admitted by its table. -/
theorem schema_validate_decides {format : Format} {data : Bytes} {root maxDepth maxElements : Nat}
    (hcheck : schemaCheck schemas root = .ok ()) (hformat : format.decode.isSome)
    (hdata : data.length ≤ sizeMax)
    (hparse : (parseSequence format (schemaLimits maxDepth maxElements) maxElements 0 0
      data).failure = none) :
    schemaValidate format data schemas root maxDepth maxElements = .ok () ↔
      ∀ table scope, ModelledScope schemas root
        (parseSequence format (schemaLimits maxDepth maxElements) maxElements 0 0 data)
        table scope → (schemas table).Admits scope := by
  obtain ⟨tables, hroot, htables⟩ := schema_check_tables hcheck
  rw [schema_validate_eq hcheck hformat hdata hparse]
  generalize parseSequence format (schemaLimits maxDepth maxElements) maxElements 0 0 data = input
  have hscope := @scope_issues_nil [] data.length (schemas root) input
    (check_table_distinct (htables.checked root hroot))
  have hnil : stopAtFirst SchemaFailure.ofIssue ((), schemaIssues schemas root input data.length) =
      .ok () ↔ schemaIssues schemas root input data.length = [] := by
    cases schemaIssues schemas root input data.length with
    | nil => exact ⟨fun _ => rfl, fun _ => rfl⟩
    | cons issue more => exact ⟨fun h => (by cases h), fun h => (by cases h)⟩
  rw [hnil]
  unfold schemaIssues
  rw [List.append_eq_nil_iff, hscope]
  constructor
  · rintro ⟨harranges, hissues⟩ table scope h
    exact (modelled_scope_admits htables hroot harranges hissues h).2.1
  · intro hadmits
    exact ⟨(hadmits root input .top).toArranges, issues_of_admitted htables input hroot hadmits []⟩

end Decides

/-- Two nested elements, each of the one optional rule, are accepted: their scopes are admitted. -/
theorem schema_validate_decides_nested :
    schemaValidate formatBer (nestedOctets 1) nestedSchema 0 64 100 = .ok () ∧
      ∀ table scope, ModelledScope nestedSchema 0
        (parseSequence formatBer (schemaLimits 64 100) 100 0 0 (nestedOctets 1)) table scope →
          (nestedSchema table).Admits scope := by
  have haccepted : schemaValidate formatBer (nestedOctets 1) nestedSchema 0 64 100 = .ok () := by
    decide +kernel
  exact ⟨haccepted, (schema_validate_decides (by decide) rfl (by decide) (by decide +kernel)).mp
    haccepted⟩

end OpenTlv
