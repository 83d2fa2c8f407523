import OpenTlv.Asn1.Stability

/-!
# The grammar of BER contents

What `tlv_ber_scan_contents_diag` accepts. `BerContents` is the grammar: a sequence of elements,
of which the constructed ones hold contents again, with a bound on the scopes that are open at
once. `Finishes` reads a stack of open scopes as the contents that are still due, and one step
of the scan keeps exactly that, so a scan succeeds on the contents and on nothing else.
-/

namespace OpenTlv

section Grammar

/-- Octets that are an identifier. -/
def BerTag (tag : Bytes) : Prop :=
  berReadTag tag = ⟨.ok ⟨tag, some 0⟩, tag.length⟩

/-- Octets that are a definite length. -/
def BerLength (octets : Bytes) (length : Nat) : Prop :=
  berReadLength octets = ⟨.ok length, octets.length⟩

/-- `BerContents scopes octets` says that the octets are a sequence of elements in which at most
`scopes` scopes are open at once. -/
inductive BerContents : Nat → Bytes → Prop where
  | nil {scopes : Nat} : BerContents scopes []
  | primitive {scopes : Nat} {tag octets value rest : Bytes} :
      BerTag tag → asn1IsConstructed tag = false → BerLength octets value.length →
      BerContents scopes rest → BerContents scopes (tag ++ octets ++ value ++ rest)
  | definite {scopes : Nat} {tag octets contents rest : Bytes} :
      BerTag tag → asn1IsConstructed tag = true → BerLength octets contents.length →
      BerContents scopes contents → BerContents (scopes + 1) rest →
      BerContents (scopes + 1) (tag ++ octets ++ contents ++ rest)
  | indefinite {scopes : Nat} {tag contents rest : Bytes} :
      BerTag tag → asn1IsConstructed tag = true → BerContents scopes contents →
      BerContents (scopes + 1) rest →
      BerContents (scopes + 1) (tag ++ [berIndefinite] ++ contents ++ [0, 0] ++ rest)

variable {data tag octets : Bytes}

/-- An identifier is read in front of any octets. -/
theorem BerTag.append (h : BerTag tag) (rest : Bytes) :
    berReadTag (tag ++ rest) = ⟨.ok ⟨tag, some 0⟩, tag.length⟩ := by
  have houtcome : (berReadTag tag).outcome = .ok ⟨tag, some 0⟩ := by rw [h]
  obtain ⟨hok, hconsumed⟩ := ber_read_tag_stable.append_ok houtcome rest
  rw [h] at hconsumed
  cases hread : berReadTag (tag ++ rest) with
  | mk outcome consumed =>
    rw [hread] at hok hconsumed
    exact congrArg₂ FieldRead.mk hok hconsumed

/-- An identifier has octets, and the first of them is not zero. -/
theorem BerTag.head (h : BerTag tag) : ∃ first rest, tag = first :: rest ∧ first ≠ 0 := by
  cases tag with
  | nil =>
    have hpositive := ber_read_tag_positive (by rw [h] : (berReadTag []).outcome = _)
    rw [h] at hpositive
    exact absurd hpositive (Nat.lt_irrefl 0)
  | cons first rest =>
    refine ⟨first, rest, rfl, ?_⟩
    rintro rfl
    unfold BerTag berReadTag at h
    rw [if_pos (.inl rfl)] at h
    cases h

/-- What is read as an identifier is one. -/
theorem ber_tag_of_read {span : Span} (h : (berReadTag data).outcome = .ok span) :
    BerTag (data.take (berReadTag data).consumed) ∧
      span.bytes = data.take (berReadTag data).consumed ∧
      (berReadTag data).consumed ≤ data.length := by
  unfold berReadTag at h ⊢
  split at h
  · cases h
  next hreserved =>
    rw [if_neg hreserved]
    obtain ⟨hpositive, hwithin, hspan⟩ := variable_identifier_within h
    cases hread : variableIdentifierRead berIdentifier data with
    | mk outcome consumed =>
      rw [hread] at h hpositive hwithin hspan
      dsimp only at h hpositive hwithin hspan ⊢
      subst h
      have htake := variable_identifier_read_take hread
      have hlength : (data.take consumed).length = consumed := by
        rw [List.length_take, Nat.min_eq_left hwithin]
      have hhead : (data.take consumed).head? = data.head? := by
        rw [List.head?_take, if_neg (by omega)]
      refine ⟨?_, by rw [hspan], hwithin⟩
      unfold BerTag berReadTag
      rw [hhead, if_neg hreserved, htake, hlength, hspan]

/-- A length is read in front of any octets. -/
theorem BerLength.append {length : Nat} (h : BerLength octets length) (rest : Bytes) :
    berReadLength (octets ++ rest) = ⟨.ok length, octets.length⟩ := by
  have houtcome : (berReadLength octets).outcome = .ok length := by rw [h]
  obtain ⟨hok, hconsumed⟩ := ber_read_length_stable.append_ok houtcome rest
  rw [h] at hconsumed
  cases hread : berReadLength (octets ++ rest) with
  | mk outcome consumed =>
    rw [hread] at hok hconsumed
    exact congrArg₂ FieldRead.mk hok hconsumed

/-- A length has octets, and the first of them is not the one of indefinite length. -/
theorem BerLength.head {length : Nat} (h : BerLength octets length) :
    ∃ first rest, octets = first :: rest ∧ first ≠ berIndefinite := by
  cases octets with
  | nil => cases h
  | cons first rest =>
    refine ⟨first, rest, rfl, ?_⟩
    rintro rfl
    cases h

/-- What is read as a length is one. -/
theorem ber_length_of_read {length : Nat} (h : (berReadLength data).outcome = .ok length) :
    BerLength (data.take (berReadLength data).consumed) length ∧
      (berReadLength data).consumed ≤ data.length := by
  have hwithin := ber_read_length_stable.within data length h
  cases hread : berReadLength data with
  | mk outcome consumed =>
    rw [hread] at h hwithin
    dsimp only at h hwithin ⊢
    subst h
    refine ⟨?_, hwithin⟩
    have htake := variable_length_read_take hread
    unfold BerLength
    rw [List.length_take, Nat.min_eq_left hwithin]
    exact htake

/-- Contents that are not empty start with an octet other than zero. -/
theorem BerContents.head {scopes : Nat} {contents : Bytes} (h : BerContents scopes contents)
    (hne : contents ≠ []) : ∃ first rest, contents = first :: rest ∧ first ≠ 0 := by
  cases h with
  | nil => exact absurd rfl hne
  | primitive htag _ _ _ =>
    obtain ⟨first, rest, rfl, hfirst⟩ := htag.head
    exact ⟨first, _, rfl, hfirst⟩
  | definite htag _ _ _ _ =>
    obtain ⟨first, rest, rfl, hfirst⟩ := htag.head
    exact ⟨first, _, rfl, hfirst⟩
  | indefinite htag _ _ _ =>
    obtain ⟨first, rest, rfl, hfirst⟩ := htag.head
    exact ⟨first, _, rfl, hfirst⟩

end Grammar

section Windows

variable {data : Bytes} {scope : Scope} {pos : Nat}

/-- What is left of a scope from a position on. -/
def Scope.window (data : Bytes) (scope : Scope) (pos : Nat) : Bytes :=
  (data.take scope.ending).drop pos

theorem window_eq : (data.take scope.ending).drop pos = scope.window data pos := rfl

theorem window_drop (n : Nat) : (scope.window data pos).drop n = scope.window data (pos + n) := by
  unfold Scope.window
  rw [List.drop_drop]

theorem window_length (h : scope.ending ≤ data.length) :
    (scope.window data pos).length = scope.ending - pos :=
  slice_length h

theorem window_getElem? {n : Nat} (h : pos + n < scope.ending) :
    data[pos + n]? = (scope.window data pos)[n]? := by
  unfold Scope.window
  rw [List.getElem?_drop, List.getElem?_take_of_lt h]

/-- The window of a scope that ends inside another one. -/
theorem window_take {inner : Scope} {length : Nat} (hending : inner.ending = pos + length)
    (h : inner.ending ≤ scope.ending) :
    inner.window data pos = (scope.window data pos).take length := by
  unfold Scope.window
  rw [List.drop_take, List.drop_take, List.take_take, hending, Nat.add_sub_cancel_left]
  congr 1
  omega

end Windows

section Headers

variable {data : Bytes} {s s' : Scan} {scope : Scope} {outer : List Scope}

/-- The octets of a length in front of `body`, and the length that they give. An element of
indefinite length has the whole body. -/
def BerExtent (tag octets body : Bytes) (length : Nat) (indefinite : Bool) : Prop :=
  if indefinite = true then
    octets = [berIndefinite] ∧ asn1IsConstructed tag = true ∧ length = body.length
  else BerLength octets length ∧ length ≤ body.length

/-- The header of an element in front of `body`, and the length that it gives. -/
structure BerHeader (tag octets body : Bytes) (length : Nat) (indefinite : Bool) : Prop where
  identifier : BerTag tag
  octets : BerExtent tag octets body length indefinite

theorem ber_extent_indefinite {tag octets body : Bytes} {length : Nat} :
    BerExtent tag octets body length true ↔
      octets = [berIndefinite] ∧ asn1IsConstructed tag = true ∧ length = body.length := by
  rw [BerExtent, if_pos rfl]

theorem ber_extent_definite {tag octets body : Bytes} {length : Nat} :
    BerExtent tag octets body length false ↔ BerLength octets length ∧ length ≤ body.length := by
  rw [BerExtent, if_neg Bool.false_ne_true]

/-- A length field has at least one octet. -/
theorem ber_extent_positive {tag octets body : Bytes} {length : Nat} {indefinite : Bool}
    (h : BerExtent tag octets body length indefinite) : 0 < octets.length := by
  cases indefinite with
  | true =>
    rw [ber_extent_indefinite] at h
    rw [h.1, List.length_singleton]
    exact Nat.one_pos
  | false =>
    rw [ber_extent_definite] at h
    obtain ⟨first, rest, rfl, -⟩ := h.1.head
    exact Nat.succ_pos _

/-- Where a failure lies does not matter to a step that succeeds. -/
theorem scan_enter_region {pos length : Nat} {constructed indefinite : Bool} {region other : Region}
    (h : scanEnter s scope pos length constructed indefinite region = .ok s') :
    scanEnter s scope pos length constructed indefinite other = .ok s' := by
  unfold scanEnter at h ⊢
  split at h
  next hconstructed =>
    rw [if_pos hconstructed]
    obtain ⟨hroom, h⟩ := guard_ok.mp h
    rw [if_neg hroom]
    exact h
  next hprimitive =>
    rw [if_neg hprimitive]
    exact h

/-- A length that is read lies in front of the rest of the scope. -/
theorem scan_length_ok {tag : Bytes} {pos : Nat} (hending : scope.ending ≤ data.length)
    (hpos : pos < scope.ending) (h : scanLength data s scope tag pos = .ok s') :
    ∃ octets body length indefinite region, scope.window data pos = octets ++ body ∧
      BerExtent tag octets body length indefinite ∧
      scanEnter s scope (pos + octets.length) length (asn1IsConstructed tag) indefinite region =
        .ok s' := by
  have hwindow := @window_length data scope pos hending
  unfold scanLength at h
  rw [@window_eq data scope pos] at h
  dsimp only at h
  have hfirst := @window_getElem? data scope pos 0 hpos
  rw [Nat.add_zero] at hfirst
  split at h
  next hindefinite =>
    obtain ⟨hconstructed, h⟩ := guard_ok.mp h
    rw [hfirst] at hindefinite
    have hsplit : scope.window data pos = berIndefinite :: (scope.window data pos).drop 1 := by
      obtain ⟨hless, hvalue⟩ := List.getElem?_eq_some_iff.mp hindefinite
      rw [← hvalue, ← List.drop_eq_getElem_cons hless, List.drop_zero]
    have hbody : ((scope.window data pos).drop 1).length = scope.ending - (pos + 1) := by
      rw [List.length_drop]
      omega
    refine ⟨[berIndefinite], _, ((scope.window data pos).drop 1).length, true, .length, hsplit, ?_,
      ?_⟩
    · rw [ber_extent_indefinite]
      exact ⟨rfl, by simpa using hconstructed, rfl⟩
    · rw [hbody]
      exact h
  next hdefinite =>
    cases hcount : (berReadLength (scope.window data pos)).outcome with
    | error status =>
      rw [hcount] at h
      cases h
    | ok length =>
      rw [hcount] at h
      obtain ⟨hoctets, hwithin⟩ := ber_length_of_read hcount
      generalize (berReadLength (scope.window data pos)).consumed = more at hoctets hwithin h
      dsimp only at h
      obtain ⟨hfits, h⟩ := guard_ok.mp h
      have hmore : ((scope.window data pos).take more).length = more := by
        rw [List.length_take, Nat.min_eq_left hwithin]
      refine ⟨_, _, length, false, .value, (List.take_append_drop more _).symm, ?_, ?_⟩
      · rw [ber_extent_definite]
        refine ⟨hoctets, ?_⟩
        rw [List.length_drop]
        omega
      · rw [hmore]
        exact h

/-- A length in front of the rest of the scope is read. -/
theorem scan_length_of {tag octets body : Bytes} {pos length : Nat} {indefinite : Bool}
    {region : Region} (hending : scope.ending ≤ data.length)
    (hsplit : scope.window data pos = octets ++ body)
    (hextent : BerExtent tag octets body length indefinite)
    (h : scanEnter s scope (pos + octets.length) length (asn1IsConstructed tag) indefinite region =
      .ok s') :
    scanLength data s scope tag pos = .ok s' := by
  have hsize := congrArg List.length hsplit
  rw [window_length hending, List.length_append] at hsize
  unfold scanLength
  rw [@window_eq data scope pos]
  dsimp only
  cases indefinite with
  | true =>
    rw [ber_extent_indefinite] at hextent
    obtain ⟨rfl, hconstructed, rfl⟩ := hextent
    rw [List.length_singleton] at hsize h
    have hfirst := @window_getElem? data scope pos 0 (by omega)
    rw [Nat.add_zero, hsplit, List.singleton_append, List.getElem?_cons_zero] at hfirst
    have hbody : scope.ending - (pos + 1) = body.length := by omega
    rw [if_pos hfirst, hconstructed, if_neg (by simp), hbody]
    rw [hconstructed] at h
    exact scan_enter_region h
  | false =>
    rw [ber_extent_definite] at hextent
    obtain ⟨hcount, hfits⟩ := hextent
    obtain ⟨first, rest, rfl, hdefinite⟩ := hcount.head
    rw [List.length_cons] at hsize
    have hfirst := @window_getElem? data scope pos 0 (by omega)
    rw [Nat.add_zero, hsplit, List.cons_append, List.getElem?_cons_zero] at hfirst
    rw [if_neg (by rw [hfirst]; simpa using hdefinite), hsplit, hcount.append body]
    dsimp only
    rw [List.length_cons, if_neg (by omega)]
    exact scan_enter_region h

/-- A step in front of an element reads its header and enters it, and only that succeeds. -/
theorem scan_tag_iff (h : s.Inside data) (hscopes : s.scopes = scope :: outer) :
    scanTag data s scope = .ok s' ↔
      ∃ tag octets body length indefinite region,
        scope.window data s.pos = tag ++ octets ++ body ∧
        BerHeader tag octets body length indefinite ∧
        scanEnter s scope (s.pos + tag.length + octets.length) length (asn1IsConstructed tag)
          indefinite region = .ok s' := by
  have hmem : scope ∈ s.scopes := by
    rw [hscopes]
    exact List.mem_cons_self
  have hpos := h.pos scope hmem
  have hending := h.ending scope hmem
  have hwindow := @window_length data scope s.pos hending
  unfold scanTag
  rw [@window_eq data scope s.pos]
  constructor
  · intro hstep
    dsimp only at hstep
    cases htag : (berReadTag (scope.window data s.pos)).outcome with
    | error status =>
      rw [htag] at hstep
      cases hstep
    | ok span =>
      rw [htag] at hstep
      obtain ⟨hvalid, hbytes, hinside⟩ := ber_tag_of_read htag
      generalize (berReadTag (scope.window data s.pos)).consumed = used
        at hvalid hbytes hinside hstep
      dsimp only at hstep
      have hlength : ((scope.window data s.pos).take used).length = used := by
        rw [List.length_take, Nat.min_eq_left hinside]
      obtain ⟨hmore, hstep⟩ := guard_ok.mp hstep
      rw [hbytes] at hstep
      obtain ⟨octets, body, length, indefinite, region, hsplit, hextent, henter⟩ :=
        scan_length_ok hending (by omega) hstep
      refine ⟨_, octets, body, length, indefinite, region, ?_, ⟨hvalid, hextent⟩, ?_⟩
      · rw [List.append_assoc, ← hsplit, ← window_drop, List.take_append_drop]
      · rw [hlength]
        exact henter
  · rintro ⟨tag, octets, body, length, indefinite, region, hsplit, hheader, henter⟩
    obtain ⟨hvalid, hextent⟩ := hheader
    have hread := hvalid.append (octets ++ body)
    rw [← List.append_assoc, ← hsplit] at hread
    have hbehind : scope.window data (s.pos + tag.length) = octets ++ body := by
      rw [← window_drop, hsplit, List.append_assoc, List.drop_left]
    have hsize := congrArg List.length hsplit
    rw [List.length_append, List.length_append] at hsize
    have hoctets := ber_extent_positive hextent
    rw [hread]
    dsimp only
    rw [if_neg (by omega)]
    exact scan_length_of hending hbehind hextent henter

end Headers

section Stack

variable {data : Bytes} {result : Nat × Nat} {s s' : Scan} {scope : Scope} {outer : List Scope}

/-- The contents that a scope still has at the start of a window, and the size of what closes
it. -/
def Closes (scope : Scope) (window contents : Bytes) (consumed : Nat) : Prop :=
  if scope.terminated = true then
    consumed = berEocSize ∧ ∃ rest, window = contents ++ 0 :: 0 :: rest
  else consumed = 0 ∧ window = contents

/-- Each open scope, the innermost first, has its contents and its end from `pos` on, and the
outermost one gives the result. -/
def Finishes (data : Bytes) (result : Nat × Nat) : List Scope → Nat → Prop
  | [], _ => False
  | scope :: outer, pos =>
    ∃ contents consumed, BerContents (berMaxDepth - (outer.length + 1)) contents ∧
      Closes scope (scope.window data pos) contents consumed ∧
      if outer = [] then result = (pos + contents.length, pos + contents.length + consumed)
      else Finishes data result outer (pos + contents.length + consumed)

/-- What a state of the scan comes to. -/
def Scan.Yields (data : Bytes) (result : Nat × Nat) (s : Scan) : Prop :=
  match s.found with
  | some found => found = result
  | none => Finishes data result s.scopes s.pos

/-- The invariant of the scan. -/
structure Scan.Good (data : Bytes) (s : Scan) : Prop where
  inside : s.Inside data
  depth : s.scopes.length ≤ berMaxDepth
  live : s.found = none → s.scopes ≠ []

/-- Octets before the contents' end can be taken off both sides. -/
theorem Closes.front {window front contents : Bytes} {consumed : Nat}
    (h : Closes scope window (front ++ contents) consumed) :
    ∃ behind, window = front ++ behind ∧ Closes scope behind contents consumed := by
  unfold Closes at h ⊢
  split at h
  next hterminated =>
    obtain ⟨hconsumed, rest, hwindow⟩ := h
    refine ⟨contents ++ 0 :: 0 :: rest, by rw [hwindow, List.append_assoc], ?_⟩
    rw [if_pos hterminated]
    exact ⟨hconsumed, rest, rfl⟩
  next hterminated =>
    obtain ⟨hconsumed, hwindow⟩ := h
    refine ⟨contents, hwindow, ?_⟩
    rw [if_neg hterminated]
    exact ⟨hconsumed, rfl⟩

/-- Octets put before the window belong to the contents. -/
theorem Closes.prepend {window contents : Bytes} {consumed : Nat}
    (h : Closes scope window contents consumed) (front : Bytes) :
    Closes scope (front ++ window) (front ++ contents) consumed := by
  unfold Closes at h ⊢
  split at h
  next hterminated =>
    obtain ⟨hconsumed, rest, rfl⟩ := h
    rw [if_pos hterminated]
    exact ⟨hconsumed, rest, (List.append_assoc _ _ _).symm⟩
  next hterminated =>
    obtain ⟨hconsumed, rfl⟩ := h
    rw [if_neg hterminated]
    exact ⟨hconsumed, rfl⟩

/-- A scope that closes here leaves the outer ones. -/
theorem close_yields (hfound : s.found = none) (consumed : Nat) :
    (s.close outer consumed).Yields data result ↔
      if outer = [] then result = (s.pos, s.pos + consumed)
      else Finishes data result outer (s.pos + consumed) := by
  unfold Scan.close
  by_cases hlast : outer = []
  · rw [if_pos hlast, if_pos hlast]
    exact eq_comm
  · rw [if_neg hlast, if_neg hlast]
    unfold Scan.Yields
    rw [hfound]

/-- At the end of its window a scope has no contents left. -/
theorem finishes_at_end (hwindow : scope.window data s.pos = []) :
    Finishes data result (scope :: outer) s.pos ↔ scope.terminated = false ∧
      if outer = [] then result = (s.pos, s.pos + 0)
      else Finishes data result outer (s.pos + 0) := by
  constructor
  · rintro ⟨contents, consumed, -, hcloses, hnext⟩
    unfold Closes at hcloses
    split at hcloses
    next hterminated =>
      obtain ⟨-, rest, hsplit⟩ := hcloses
      rw [hwindow] at hsplit
      simp at hsplit
    next hterminated =>
      obtain ⟨rfl, hsplit⟩ := hcloses
      rw [hwindow] at hsplit
      subst hsplit
      exact ⟨by simpa using hterminated, hnext⟩
  · rintro ⟨hterminated, hnext⟩
    refine ⟨[], 0, .nil, ?_, hnext⟩
    unfold Closes
    rw [if_neg (by simp [hterminated])]
    exact ⟨rfl, hwindow⟩

/-- In front of a zero octet only the end of contents is left. -/
theorem finishes_at_zero {rest : Bytes} (hwindow : scope.window data s.pos = 0 :: rest) :
    Finishes data result (scope :: outer) s.pos ↔
      scope.terminated = true ∧ rest.head? = some 0 ∧
        if outer = [] then result = (s.pos, s.pos + berEocSize)
        else Finishes data result outer (s.pos + berEocSize) := by
  constructor
  · rintro ⟨contents, consumed, hcontents, hcloses, hnext⟩
    have hempty : contents = [] := by
      by_contra hne
      obtain ⟨first, more, rfl, hfirst⟩ := hcontents.head hne
      obtain ⟨behind, hsplit, -⟩ := @Closes.front _ _ [first] more _ hcloses
      rw [hwindow] at hsplit
      exact hfirst (List.cons.inj hsplit).1.symm
    subst hempty
    unfold Closes at hcloses
    split at hcloses
    next hterminated =>
      obtain ⟨rfl, more, hsplit⟩ := hcloses
      rw [hwindow] at hsplit
      obtain ⟨-, rfl⟩ := List.cons.inj hsplit
      exact ⟨hterminated, rfl, hnext⟩
    next hterminated =>
      rw [hwindow] at hcloses
      cases hcloses.2
  · rintro ⟨hterminated, hsecond, hnext⟩
    obtain ⟨more, rfl⟩ := List.head?_eq_some_iff.mp hsecond
    refine ⟨[], berEocSize, .nil, ?_, hnext⟩
    unfold Closes
    rw [if_pos hterminated]
    exact ⟨rfl, more, hwindow⟩

/-- The window of a scope behind a front of it. -/
theorem window_behind {pos : Nat} {front behind : Bytes}
    (h : scope.window data pos = front ++ behind) :
    scope.window data (pos + front.length) = behind := by
  rw [← window_drop, h, List.drop_left]

/-- A scope finishes behind the front of its contents. -/
theorem finishes_behind {pos consumed : Nat} {front more behind : Bytes}
    (hsplit : scope.window data pos = front ++ behind)
    (hmore : BerContents (berMaxDepth - (outer.length + 1)) more)
    (hcloses : Closes scope behind more consumed)
    (hnext : if outer = [] then
        result = (pos + (front ++ more).length, pos + (front ++ more).length + consumed)
      else Finishes data result outer (pos + (front ++ more).length + consumed)) :
    Finishes data result (scope :: outer) (pos + front.length) := by
  refine ⟨more, consumed, hmore, ?_, ?_⟩
  · rw [window_behind hsplit]
    exact hcloses
  · rw [List.length_append, ← Nat.add_assoc] at hnext
    exact hnext

/-- A scope that finishes behind a front finishes in front of it. -/
theorem finishes_front {pos : Nat} {front behind : Bytes}
    (hsplit : scope.window data pos = front ++ behind)
    (hfront : ∀ more, BerContents (berMaxDepth - (outer.length + 1)) more →
      BerContents (berMaxDepth - (outer.length + 1)) (front ++ more))
    (h : Finishes data result (scope :: outer) (pos + front.length)) :
    Finishes data result (scope :: outer) pos := by
  obtain ⟨more, consumed, hmore, hcloses, hnext⟩ := h
  rw [window_behind hsplit] at hcloses
  refine ⟨front ++ more, consumed, hfront more hmore, ?_, ?_⟩
  · rw [hsplit]
    exact hcloses.prepend front
  · rw [List.length_append, ← Nat.add_assoc]
    exact hnext

/-- In front of an element, a scope that finishes has a header that the scan takes. -/
theorem finishes_scans (h : s.Good data) (hfound : s.found = none)
    (hscopes : s.scopes = scope :: outer) {first : UInt8} {rest : Bytes}
    (hwindow : scope.window data s.pos = first :: rest) (hfirst : first ≠ 0)
    (hfinishes : Finishes data result (scope :: outer) s.pos) :
    ∃ s', scanTag data s scope = .ok s' ∧ s'.Yields data result := by
  have hmem : scope ∈ s.scopes := by
    rw [hscopes]
    exact List.mem_cons_self
  have hending := h.inside.ending scope hmem
  have hdepth := h.depth
  rw [hscopes, List.length_cons] at hdepth
  have hsize := @window_length data scope s.pos hending
  have hposition := h.inside.pos scope hmem
  obtain ⟨contents, consumed, hcontents, hcloses, hnext⟩ := hfinishes
  have hne : contents ≠ [] := by
    rintro rfl
    unfold Closes at hcloses
    split at hcloses
    · obtain ⟨-, more, hsplit⟩ := hcloses
      rw [hwindow] at hsplit
      exact hfirst (List.cons.inj hsplit).1
    · rw [hwindow] at hcloses
      cases hcloses.2
  generalize hbudget : berMaxDepth - (outer.length + 1) = budget at hcontents
  -- the first element of the contents gives the header
  cases hcontents with
  | nil => exact absurd rfl hne
  | @primitive _ tag octets value more htag hform hlength hmore =>
    obtain ⟨behind, hsplit, hbehind⟩ := hcloses.front
    have hheader : BerHeader tag octets (value ++ behind) value.length false :=
      ⟨htag, ber_extent_definite.mpr ⟨hlength, by simp⟩⟩
    refine ⟨{ s with pos := s.pos + tag.length + octets.length + value.length },
      (scan_tag_iff h.inside hscopes).mpr ⟨tag, octets, value ++ behind, value.length, false,
        .value, by rw [hsplit]; simp only [List.append_assoc], hheader, ?_⟩, ?_⟩
    · unfold scanEnter
      rw [if_neg (by simp [hform])]
    · have hplace : s.pos + tag.length + octets.length + value.length =
          s.pos + (tag ++ octets ++ value).length := by
        simp only [List.length_append, Nat.add_assoc]
      show Scan.Yields data result _
      unfold Scan.Yields
      dsimp only
      rw [hfound, hscopes, hplace]
      exact finishes_behind hsplit (hbudget ▸ hmore) hbehind hnext
  | @definite scopes tag octets inner more htag hform hlength hinner hmore =>
    obtain ⟨behind, hsplit, hbehind⟩ := hcloses.front
    have hheader : BerHeader tag octets (inner ++ behind) inner.length false :=
      ⟨htag, ber_extent_definite.mpr ⟨hlength, by simp⟩⟩
    have hsizes := congrArg List.length hsplit
    simp only [List.length_append] at hsizes
    have hopened : scope.window data (s.pos + tag.length + octets.length) =
        inner ++ behind := by
      rw [Nat.add_assoc, ← List.length_append]
      exact window_behind (by rw [hsplit, List.append_assoc])
    refine ⟨{ s with
        pos := s.pos + tag.length + octets.length
        scopes := ⟨s.pos + tag.length + octets.length + inner.length, false,
          scope.bounded || !false⟩ :: s.scopes },
      (scan_tag_iff h.inside hscopes).mpr ⟨tag, octets, inner ++ behind, inner.length, false,
        .value, by rw [hsplit]; simp only [List.append_assoc], hheader, ?_⟩, ?_⟩
    · unfold scanEnter
      rw [if_pos hform, if_neg (by rw [hscopes, List.length_cons]; omega)]
    · have hplace : s.pos + tag.length + octets.length + inner.length + 0 =
          s.pos + (tag ++ octets ++ inner).length := by
        simp only [List.length_append, Nat.add_assoc, Nat.add_zero]
      show Scan.Yields data result _
      unfold Scan.Yields
      dsimp only
      rw [hfound, hscopes]
      refine ⟨inner, 0, ?_, ?_, ?_⟩
      · rw [List.length_cons, show berMaxDepth - (outer.length + 1 + 1) = scopes by omega]
        exact hinner
      · unfold Closes
        rw [if_neg (by simp)]
        refine ⟨rfl, ?_⟩
        rw [@window_take data scope _ _ _ rfl (by dsimp only; omega), hopened,
          List.take_left]
      · rw [if_neg (by simp), hplace]
        exact finishes_behind hsplit (hbudget ▸ hmore) hbehind hnext
  | @indefinite scopes tag inner more htag hform hinner hmore =>
    obtain ⟨behind, hsplit, hbehind⟩ := hcloses.front
    have hheader : BerHeader tag [berIndefinite] (inner ++ [0, 0] ++ behind)
        (inner ++ [0, 0] ++ behind).length true :=
      ⟨htag, ber_extent_indefinite.mpr ⟨rfl, hform, rfl⟩⟩
    have hsizes := congrArg List.length hsplit
    simp only [List.length_append, List.length_cons, List.length_nil] at hsizes
    have hopened : scope.window data (s.pos + tag.length + [berIndefinite].length) =
        inner ++ [0, 0] ++ behind := by
      rw [Nat.add_assoc, ← List.length_append]
      exact window_behind (by rw [hsplit]; simp only [List.append_assoc])
    refine ⟨{ s with
        pos := s.pos + tag.length + [berIndefinite].length
        scopes := ⟨s.pos + tag.length + [berIndefinite].length +
          (inner ++ [0, 0] ++ behind).length, true, scope.bounded || !true⟩ :: s.scopes },
      (scan_tag_iff h.inside hscopes).mpr ⟨tag, [berIndefinite], inner ++ [0, 0] ++ behind,
        (inner ++ [0, 0] ++ behind).length, true, .length,
        by rw [hsplit]; simp only [List.append_assoc], hheader, ?_⟩, ?_⟩
    · unfold scanEnter
      rw [if_pos hform, if_neg (by rw [hscopes, List.length_cons]; omega)]
    · have hplace : s.pos + tag.length + [berIndefinite].length + inner.length + berEocSize =
          s.pos + (tag ++ [berIndefinite] ++ inner ++ [0, 0]).length := by
        simp only [List.length_append, List.length_cons, List.length_nil, berEocSize,
          Nat.add_assoc]
      show Scan.Yields data result _
      unfold Scan.Yields
      dsimp only
      rw [hfound, hscopes]
      refine ⟨inner, berEocSize, ?_, ?_, ?_⟩
      · rw [List.length_cons, show berMaxDepth - (outer.length + 1 + 1) = scopes by omega]
        exact hinner
      · unfold Closes
        rw [if_pos rfl]
        refine ⟨rfl, behind, ?_⟩
        rw [@window_take data scope _ _ _ rfl
          (by simp only [List.length_append, List.length_cons, List.length_nil]; omega),
          hopened, List.take_length, List.append_assoc]
        rfl
      · rw [if_neg (by simp), hplace]
        exact finishes_behind hsplit (hbudget ▸ hmore) hbehind hnext

/-- A header that the scan takes stands in front of an element of the scope. -/
theorem scans_finishes (h : s.Good data) (hfound : s.found = none)
    (hscopes : s.scopes = scope :: outer) (hstep : scanTag data s scope = .ok s')
    (hyields : s'.Yields data result) : Finishes data result (scope :: outer) s.pos := by
  have hmem : scope ∈ s.scopes := by
    rw [hscopes]
    exact List.mem_cons_self
  have hending := h.inside.ending scope hmem
  have hdepth := h.depth
  rw [hscopes, List.length_cons] at hdepth
  have hsize := @window_length data scope s.pos hending
  have hposition := h.inside.pos scope hmem
  obtain ⟨tag, octets, body, length, indefinite, region, hsplit, ⟨htag, hoctets⟩, henter⟩ :=
    (scan_tag_iff h.inside hscopes).mp hstep
  have hopened : scope.window data (s.pos + tag.length + octets.length) = body := by
    rw [Nat.add_assoc, ← List.length_append]
    exact window_behind hsplit
  have hsizes := congrArg List.length hsplit
  simp only [List.length_append] at hsizes
  -- a constructed value opens a scope, a primitive one is passed over
  unfold scanEnter at henter
  split at henter
  next hconstructed =>
    obtain ⟨hroom, henter⟩ := guard_ok.mp henter
    cases henter
    rw [hscopes, List.length_cons] at hroom
    unfold Scan.Yields at hyields
    dsimp only at hyields
    rw [hfound, hscopes] at hyields
    obtain ⟨inner, consumed, hinner, hcloses, hrest⟩ := hyields
    rw [if_neg (by simp)] at hrest
    obtain ⟨budget, hbudget⟩ : ∃ budget, berMaxDepth - (outer.length + 1) = budget + 1 :=
      ⟨berMaxDepth - (outer.length + 2), by omega⟩
    have hless : berMaxDepth - (List.length (scope :: outer) + 1) = budget := by
      rw [List.length_cons]
      omega
    rw [hless] at hinner
    cases indefinite with
    | false =>
      rw [ber_extent_definite] at hoctets
      obtain ⟨hlength, hfits⟩ := hoctets
      unfold Closes at hcloses
      rw [if_neg (by simp)] at hcloses
      obtain ⟨rfl, hcontents⟩ := hcloses
      rw [@window_take data scope _ _ _ rfl (by dsimp only; omega), hopened] at hcontents
      have hinnerLength : inner.length = length := by
        rw [← hcontents, List.length_take, Nat.min_eq_left hfits]
      have hfront : scope.window data s.pos =
          tag ++ octets ++ inner ++ body.drop length := by
        rw [hsplit, ← hcontents, List.append_assoc (tag ++ octets), List.take_append_drop]
      have hplace : s.pos + tag.length + octets.length + inner.length + 0 =
          s.pos + (tag ++ octets ++ inner).length := by
        simp only [List.length_append, Nat.add_assoc, Nat.add_zero]
      rw [hplace] at hrest
      refine finishes_front hfront (fun more hmore => ?_) hrest
      rw [hbudget] at hmore ⊢
      exact .definite htag hconstructed (by rw [hinnerLength]; exact hlength) hinner hmore
    | true =>
      rw [ber_extent_indefinite] at hoctets
      obtain ⟨rfl, -, rfl⟩ := hoctets
      unfold Closes at hcloses
      rw [if_pos rfl] at hcloses
      obtain ⟨rfl, behind, hcontents⟩ := hcloses
      rw [List.length_singleton] at hsizes
      rw [@window_take data scope _ _ _ rfl
        (by rw [List.length_singleton]; dsimp only; omega), hopened, List.take_length]
        at hcontents
      have hfront : scope.window data s.pos =
          tag ++ [berIndefinite] ++ inner ++ [0, 0] ++ behind := by
        rw [hsplit, hcontents]
        simp only [List.append_assoc, List.cons_append, List.nil_append]
      have hplace : s.pos + tag.length + [berIndefinite].length + inner.length +
          berEocSize = s.pos + (tag ++ [berIndefinite] ++ inner ++ [0, 0]).length := by
        simp only [List.length_append, List.length_cons, List.length_nil, berEocSize,
          Nat.add_assoc]
      rw [hplace] at hrest
      refine finishes_front hfront (fun more hmore => ?_) hrest
      rw [hbudget] at hmore ⊢
      exact .indefinite htag hconstructed hinner hmore
  next hprimitive =>
    have hform : asn1IsConstructed tag = false := by simpa using hprimitive
    cases henter
    unfold Scan.Yields at hyields
    dsimp only at hyields
    rw [hfound, hscopes] at hyields
    cases indefinite with
    | true =>
      rw [ber_extent_indefinite, hform] at hoctets
      cases hoctets.2.1
    | false =>
      rw [ber_extent_definite] at hoctets
      obtain ⟨hlength, hfits⟩ := hoctets
      have hvalue : (body.take length).length = length := by
        rw [List.length_take, Nat.min_eq_left hfits]
      have hfront : scope.window data s.pos =
          tag ++ octets ++ body.take length ++ body.drop length := by
        rw [hsplit, List.append_assoc (tag ++ octets), List.take_append_drop]
      have hplace : s.pos + tag.length + octets.length + length =
          s.pos + (tag ++ octets ++ body.take length).length := by
        simp only [List.length_append, hvalue, Nat.add_assoc]
      rw [hplace] at hyields
      exact finishes_front hfront
        (fun more => .primitive htag hform (by rw [hvalue]; exact hlength)) hyields

end Stack

section Scan

variable {data : Bytes} {result : Nat × Nat} {s s' : Scan}

/-- One step keeps what the scan comes to. -/
theorem scan_step_yields (h : s.Good data) (hfound : s.found = none) :
    s.Yields data result ↔ ∃ s', scanStep data s = .ok s' ∧ s'.Yields data result := by
  obtain ⟨scope, outer, hscopes⟩ := List.exists_cons_of_ne_nil (h.live hfound)
  have hmem : scope ∈ s.scopes := by
    rw [hscopes]
    exact List.mem_cons_self
  have hposition := h.inside.pos scope hmem
  have hsize := @window_length data scope s.pos (h.inside.ending scope hmem)
  have hyields : s.Yields data result ↔ Finishes data result (scope :: outer) s.pos := by
    unfold Scan.Yields
    rw [hfound, hscopes]
  rw [hyields]
  unfold scanStep
  rw [hscopes]
  dsimp only
  cases hwindow : scope.window data s.pos with
  | nil =>
    rw [hwindow, List.length_nil] at hsize
    rw [if_pos (by omega), finishes_at_end hwindow, ← close_yields hfound]
    cases hterminated : scope.terminated with
    | true =>
      constructor
      · rintro ⟨hfalse, -⟩
        cases hfalse
      · rintro ⟨s', hstep, -⟩
        cases hstep
    | false =>
      rw [if_neg (show ¬ false = true by simp)]
      constructor
      · rintro ⟨-, hclosed⟩
        exact ⟨_, rfl, hclosed⟩
      · rintro ⟨s', hstep, hclosed⟩
        cases hstep
        exact ⟨rfl, hclosed⟩
  | cons first rest =>
    rw [hwindow, List.length_cons] at hsize
    have hhere := @window_getElem? data scope s.pos 0 (by omega)
    rw [Nat.add_zero, hwindow, List.getElem?_cons_zero] at hhere
    rw [if_neg (by omega), hhere]
    by_cases hfirst : first = 0
    · -- an end of contents, of which the second octet may be missing or another one
      subst hfirst
      rw [if_pos rfl, finishes_at_zero hwindow, ← close_yields hfound]
      by_cases hshort : scope.ending - s.pos < berEocSize
      · rw [if_pos hshort]
        unfold berEocSize at hshort
        have hnone : rest = [] := List.length_eq_zero_iff.mp (by omega)
        subst hnone
        constructor
        · rintro ⟨-, hhead, -⟩
          cases hhead
        · rintro ⟨s', hstep, -⟩
          cases hstep
      · have hsecond := @window_getElem? data scope s.pos 1
          (by unfold berEocSize at hshort; omega)
        rw [hwindow, List.getElem?_cons_succ, ← List.head?_eq_getElem?] at hsecond
        rw [if_neg hshort, hsecond]
        by_cases hzero : rest.head? = some 0
        · rw [if_neg (not_not.mpr hzero)]
          cases hterminated : scope.terminated with
          | false =>
            constructor
            · rintro ⟨hfalse, -⟩
              cases hfalse
            · rintro ⟨s', hstep, -⟩
              cases hstep
          | true =>
            rw [if_neg (show ¬ true = false by simp)]
            constructor
            · rintro ⟨-, -, hclosed⟩
              exact ⟨_, rfl, hclosed⟩
            · rintro ⟨s', hstep, hclosed⟩
              cases hstep
              exact ⟨rfl, hzero, hclosed⟩
        · rw [if_pos hzero]
          constructor
          · rintro ⟨-, hhead, -⟩
            exact absurd hhead hzero
          · rintro ⟨s', hstep, -⟩
            cases hstep
    · rw [if_neg (by simpa using hfirst)]
      constructor
      · exact finishes_scans h hfound hscopes hwindow hfirst
      · rintro ⟨s', hstep, hbehind⟩
        exact scans_finishes h hfound hscopes hstep hbehind

/-- One step keeps the invariant, and less is left to scan. -/
theorem scan_step_good (h : s.Good data) (hfound : s.found = none)
    (hstep : scanStep data s = .ok s') : s'.Good data ∧ s'.rank data < s.rank data := by
  have hmeets := scan_step_meets h.inside (h.live hfound)
  rw [hstep] at hmeets
  obtain ⟨hinside, hrank⟩ := hmeets
  obtain ⟨scope, outer, hscopes⟩ := List.exists_cons_of_ne_nil (h.live hfound)
  have hdepth := h.depth
  have hclosed : ∀ consumed, (s.close outer consumed).scopes.length ≤ berMaxDepth ∧
      ((s.close outer consumed).found = none → (s.close outer consumed).scopes ≠ []) := by
    intro consumed
    rw [hscopes, List.length_cons] at hdepth
    unfold Scan.close
    split
    · exact ⟨Nat.zero_le _, by simp⟩
    next houter => exact ⟨by dsimp only; omega, fun _ => houter⟩
  have hboth : s'.scopes.length ≤ berMaxDepth ∧ (s'.found = none → s'.scopes ≠ []) := by
    unfold scanStep at hstep
    rw [hscopes] at hstep
    dsimp only at hstep
    split at hstep
    · split at hstep
      · cases hstep
      · cases hstep
        exact hclosed 0
    · split at hstep
      · split at hstep
        · cases hstep
        · split at hstep
          · cases hstep
          · split at hstep
            · cases hstep
            · cases hstep
              exact hclosed berEocSize
      · obtain ⟨tag, octets, body, length, indefinite, region, -, -, henter⟩ :=
          (scan_tag_iff h.inside hscopes).mp hstep
        unfold scanEnter at henter
        split at henter
        · split at henter
          · cases henter
          next hroom =>
            cases henter
            exact ⟨by rw [List.length_cons]; omega, by simp⟩
        · cases henter
          exact ⟨hdepth, fun _ => h.live hfound⟩
  exact ⟨⟨hinside, hboth.1, hboth.2⟩, hrank⟩

/-- The scan succeeds on contents with their end, and reports their extent. -/
theorem ber_scan_contents_iff (data : Bytes) (indefinite : Bool) (value consumed : Nat) :
    berScanContents data indefinite = .ok (value, consumed) ↔
      ∃ contents closing, BerContents (berMaxDepth - 1) contents ∧
        Closes ⟨data.length, indefinite, false⟩ data contents closing ∧
        value = contents.length ∧ consumed = contents.length + closing := by
  obtain ⟨start, hstart⟩ : ∃ start : Scan,
      start = { pos := 0, scopes := [⟨data.length, indefinite, false⟩] } := ⟨_, rfl⟩
  have hgood : start.Good data := by
    subst hstart
    exact ⟨⟨by simp, by simp, List.pairwise_singleton _ _⟩, by simp [berMaxDepth], by simp⟩
  have hrank : start.rank data < data.length + 2 := by
    subst hstart
    unfold Scan.rank
    rw [List.length_singleton]
    dsimp only
    omega
  have hrun := @drive_yields Scan _ (Status.callback, {}) (·.found.isSome) (scanStep data)
    (Scan.rank data) (Scan.Good data) (Scan.Yields data (value, consumed))
    (fun x y hx hlive hstep => scan_step_good hx (by simpa using hlive) hstep)
    (fun x hx hlive => scan_step_yields hx (by simpa using hlive)) _ start hgood hrank
  have hwindow : Scope.window data ⟨data.length, indefinite, false⟩ 0 = data := by
    unfold Scope.window
    rw [List.take_length, List.drop_zero]
  have hfinishes : start.Yields data (value, consumed) ↔
      ∃ contents closing, BerContents (berMaxDepth - 1) contents ∧
        Closes ⟨data.length, indefinite, false⟩ data contents closing ∧
        value = contents.length ∧ consumed = contents.length + closing := by
    subst hstart
    unfold Scan.Yields
    simp only [Finishes, List.length_nil, Nat.zero_add, hwindow, if_true, Prod.mk.injEq]
  rw [← hfinishes, hrun, hstart]
  unfold berScanContents
  constructor
  · intro h
    cases hdrive : drive (Status.callback, {}) (·.found.isSome) (scanStep data)
        (data.length + 2) { pos := 0, scopes := [⟨data.length, indefinite, false⟩] } with
    | error failed =>
      rw [hdrive] at h
      cases h
    | ok finish =>
      rw [hdrive] at h
      have hhalted := (@drive_ok_invariant _ _ _ _ _ (fun _ => True)
        (fun _ _ _ _ _ => trivial) _ _ _ trivial hdrive).2
      refine ⟨finish, rfl, hhalted, ?_⟩
      obtain ⟨found, hfound⟩ := Option.isSome_iff_exists.mp hhalted
      change Except.ok (finish.found.getD (0, 0)) = _ at h
      rw [hfound, Option.getD_some] at h
      unfold Scan.Yields
      rw [hfound]
      exact Except.ok.inj h
  · rintro ⟨finish, hdrive, hhalted, hyields⟩
    obtain ⟨found, hfound⟩ := Option.isSome_iff_exists.mp hhalted
    unfold Scan.Yields at hyields
    rw [hfound] at hyields
    rw [hdrive]
    show Except.ok (finish.found.getD (0, 0)) = _
    rw [hfound, Option.getD_some]
    exact congrArg Except.ok hyields

end Scan

end OpenTlv
