import OpenTlv.Asn1.Framing
import OpenTlv.Formats.Stability

/-!
# Prefix-stable ASN.1 decoding

The contents of an indefinite element are scanned with a stack of scopes. A scope without a
definite length around it ends with the input; all others end at a fixed place. So on longer
input a scan goes through the same states, apart from the ends of the unbounded scopes, until
it misses octets.
-/

namespace OpenTlv

variable {same : Status → Status → Prop} [Kindred same]

/-- Screening a tag keeps its reader stable. -/
theorem screened_tag_keeps {allowed : Bytes → Bool} {read : ReadTag} (h : KeepsField same read) :
    KeepsField same (screenedTag allowed read) := by
  constructor
  · intro p q
    have hcases := field_persists_cases (h.persists p q)
    unfold screenedTag
    cases hp : read p with
    | mk short used =>
      cases hq : read (p ++ q) with
      | mk long used' =>
        rw [hp, hq] at hcases
        dsimp only at hcases
        rcases hcases with ⟨tag, rfl, rfl, rfl⟩ | rfl | ⟨status, status', rfl, rfl, hstays⟩
        · exact Persists.refl _
        · exact .inl rfl
        · exact Persists.errors hstays
  · intro data tag hread
    have hwithin := h.within data
    unfold screenedTag at hread ⊢
    cases hdata : read data with
    | mk outcome used =>
      rw [hdata] at hread hwithin
      cases outcome with
      | error status => cases hread
      | ok other =>
        dsimp only at hread hwithin ⊢
        split at hread
        · rename_i hallowed
          rw [if_pos hallowed]
          exact hwithin other rfl
        · cases hread

/-- The BER tag reader is stable under more octets. -/
theorem ber_read_tag_keeps : KeepsField same berReadTag := by
  have hstable : KeepsField same (variableIdentifierRead berIdentifier) :=
    variable_identifier_keeps rfl (.inr (by decide))
  constructor
  · intro p q
    unfold berReadTag
    cases p with
    | nil => 
      rw [if_neg (by simp), FieldRead.result_error rfl]
      exact .inl rfl
    | cons first rest =>
      rw [List.cons_append, List.head?_cons, List.head?_cons, ← List.cons_append]
      split
      · exact Persists.refl _
      · exact hstable.persists _ q
  · intro data tag hread
    unfold berReadTag at hread ⊢
    split at hread
    · cases hread
    · rename_i hreserved
      rw [if_neg hreserved]
      exact hstable.within data tag hread

theorem ber_read_length_keeps : KeepsField same berReadLength :=
  variable_length_keeps rfl

theorem asn1_read_identifier_keeps : KeepsField same asn1ReadIdentifier :=
  screened_tag_keeps (variable_identifier_keeps rfl (.inr (by decide)))

theorem asn1_read_minimal_length_keeps : KeepsField same asn1ReadMinimalLength :=
  variable_length_keeps rfl

theorem ber_read_tag_stable : StableField berReadTag := ber_read_tag_keeps

theorem ber_read_length_stable : StableField berReadLength := ber_read_length_keeps

theorem asn1_read_identifier_stable : StableField asn1ReadIdentifier := asn1_read_identifier_keeps

theorem asn1_read_minimal_length_stable : StableField asn1ReadMinimalLength :=
  asn1_read_minimal_length_keeps

section Scan

variable {data : Bytes} {s : Scan}

/-- The state of a scan lies in its input, and inner scopes lie in outer ones. -/
structure Scan.Inside (data : Bytes) (s : Scan) : Prop where
  pos : ∀ scope ∈ s.scopes, s.pos ≤ scope.ending
  ending : ∀ scope ∈ s.scopes, scope.ending ≤ data.length
  nested : s.scopes.Pairwise fun inner outer => inner.ending ≤ outer.ending

/-- What is left to scan. -/
def Scan.rank (data : Bytes) (s : Scan) : Nat :=
  data.length - s.pos + s.scopes.length

/-- Leaving a scope keeps the scan inside its octets. -/
theorem Scan.Inside.close {scope : Scope} {outer : List Scope} (h : s.Inside data)
    (hscopes : s.scopes = scope :: outer) {consumed : Nat}
    (hconsumed : s.pos + consumed ≤ scope.ending) : (s.close outer consumed).Inside data := by
  obtain ⟨hpos, hending, hnested⟩ := h
  rw [hscopes] at hpos hending hnested
  rw [List.pairwise_cons] at hnested
  unfold Scan.close
  split
  · exact ⟨by simp, by simp, List.Pairwise.nil⟩
  · refine ⟨fun other hother => ?_, fun other hother => hending other (.tail _ hother),
      hnested.2⟩
    have := hnested.1 other hother
    dsimp only
    omega

/-- Leaving a scope lowers the rank. -/
theorem Scan.rank_close {scope : Scope} {outer : List Scope} (hscopes : s.scopes = scope :: outer)
    (consumed : Nat) : (s.close outer consumed).rank data < s.rank data := by
  unfold Scan.close Scan.rank
  rw [hscopes, List.length_cons]
  split
  · rw [List.length_nil]
    dsimp only
    omega
  · dsimp only
    omega

/-- What an iteration leaves: a state in the input with less to scan. -/
def Scan.Lowers (data : Bytes) (s s' : Scan) : Prop :=
  s'.Inside data ∧ s'.rank data < s.rank data

theorem scan_failure_meets {α : Type} {status : Status} {offset : Nat} {region : Region}
    {bounded : Bool} {required : Option Nat} {good : α → Prop} :
    Meets (scanFailure status offset region bounded required) (fun _ => True) good := trivial

/-- Entering a value keeps the scan inside its scope. -/
theorem scan_enter_meets {scope : Scope} {outer : List Scope} (h : s.Inside data)
    (hscopes : s.scopes = scope :: outer) {pos length : Nat} (hlow : s.pos + 2 ≤ pos)
    (hhigh : pos + length ≤ scope.ending) (constructed indefinite : Bool) (region : Region) :
    Meets (scanEnter s scope pos length constructed indefinite region) (fun _ => True)
      (s.Lowers data) := by
  obtain ⟨hpos, hending, hnested⟩ := h
  have hend := hending scope (by rw [hscopes]; exact List.mem_cons_self)
  have houter : ∀ other ∈ s.scopes, scope.ending ≤ other.ending := by
    intro other hother
    rw [hscopes] at hother hnested
    rcases List.mem_cons.mp hother with rfl | hmem
    · exact Nat.le_refl _
    · exact (List.pairwise_cons.mp hnested).1 other hmem
  unfold scanEnter
  split
  · split
    · exact scan_failure_meets
    · refine ⟨⟨?_, ?_, ?_⟩, ?_⟩
      · intro other hother
        rcases List.mem_cons.mp hother with rfl | hmem
        · dsimp only
          omega
        · have := houter other hmem
          dsimp only
          omega
      · intro other hother
        rcases List.mem_cons.mp hother with rfl | hmem
        · dsimp only
          omega
        · exact hending other hmem
      · refine List.pairwise_cons.mpr ⟨fun other hmem => ?_, hnested⟩
        have := houter other hmem
        dsimp only
        omega
      · unfold Scan.rank
        simp only [List.length_cons]
        omega
  · refine ⟨⟨fun other hmem => ?_, hending, hnested⟩, ?_⟩
    · have := houter other hmem
      dsimp only
      omega
    · unfold Scan.rank
      dsimp only
      omega

theorem slice_length {ending pos : Nat} (h : ending ≤ data.length) :
    ((data.take ending).drop pos).length = ending - pos := by
  rw [List.length_drop, List.length_take]
  omega

/-- Reading a length keeps the scan inside and lowers its rank. -/
theorem scan_length_meets {scope : Scope} {outer : List Scope} (h : s.Inside data)
    (hscopes : s.scopes = scope :: outer) {pos : Nat} (hlow : s.pos < pos)
    (hhigh : pos < scope.ending) (tag : Bytes) :
    Meets (scanLength data s scope tag pos) (fun _ => True) (s.Lowers data) := by
  have hend := h.ending scope (by rw [hscopes]; exact List.mem_cons_self)
  unfold scanLength
  dsimp only
  split
  · split
    · exact scan_failure_meets
    · exact scan_enter_meets h hscopes (by omega) (by omega) _ _ _
  · cases houtcome : (berReadLength ((data.take scope.ending).drop pos)).outcome with
    | error status => exact scan_failure_meets
    | ok length =>
      have hwithin := ber_read_length_stable.within _ _ houtcome
      have hpositive : 0 < (berReadLength ((data.take scope.ending).drop pos)).consumed :=
        variable_length_positive houtcome
      rw [slice_length hend] at hwithin
      dsimp only
      split
      · exact scan_failure_meets
      · exact scan_enter_meets h hscopes (by omega) (by omega) _ _ _

theorem ber_read_tag_positive {tag : Span} (h : (berReadTag data).outcome = .ok tag) :
    0 < (berReadTag data).consumed := by
  unfold berReadTag at h ⊢
  split at h
  · cases h
  · rename_i hreserved
    rw [if_neg hreserved]
    exact (variable_identifier_within h).1

/-- Reading a tag keeps the scan inside and lowers its rank. -/
theorem scan_tag_meets {scope : Scope} {outer : List Scope} (h : s.Inside data)
    (hscopes : s.scopes = scope :: outer) :
    Meets (scanTag data s scope) (fun _ => True) (s.Lowers data) := by
  have hend := h.ending scope (by rw [hscopes]; exact List.mem_cons_self)
  have hpos := h.pos scope (by rw [hscopes]; exact List.mem_cons_self)
  unfold scanTag
  dsimp only
  cases houtcome : (berReadTag ((data.take scope.ending).drop s.pos)).outcome with
  | error status => exact scan_failure_meets
  | ok tag =>
    have hwithin := ber_read_tag_stable.within _ _ houtcome
    have hpositive := ber_read_tag_positive houtcome
    rw [slice_length hend] at hwithin
    dsimp only
    split
    · exact scan_failure_meets
    · exact scan_length_meets h hscopes (by omega) (by omega) _

/-- One iteration of a scan that is not over. -/
theorem scan_step_meets (h : s.Inside data) (hlive : s.scopes ≠ []) :
    Meets (scanStep data s) (fun _ => True) (s.Lowers data) := by
  unfold scanStep
  cases hscopes : s.scopes with
  | nil => exact absurd hscopes hlive
  | cons scope outer =>
    have hpos := h.pos scope (by rw [hscopes]; exact List.mem_cons_self)
    dsimp only
    split
    · split
      · exact scan_failure_meets
      · exact ⟨h.close hscopes (by omega), Scan.rank_close hscopes 0⟩
    · split
      · split
        · exact scan_failure_meets
        · rename_i heoc
          split
          · exact scan_failure_meets
          · split
            · exact scan_failure_meets
            · exact ⟨h.close hscopes (by omega), Scan.rank_close hscopes berEocSize⟩
      · exact scan_tag_meets h hscopes

end Scan

section Longer

variable {p q : Bytes} {x y : Scan} {short long : Scope}

/-- A scope of a scan on `p` and the same scope of a scan on `p ++ q`. -/
structure Alike (p q : Bytes) (short long : Scope) : Prop where
  terminated : long.terminated = short.terminated
  bounded : long.bounded = short.bounded
  fixed : short.bounded = true → long.ending = short.ending
  moved : short.bounded = false →
    short.terminated = true ∧ short.ending = p.length ∧ long.ending = (p ++ q).length

/-- The same moment of a scan on `p` and of one on `p ++ q`. -/
structure Together (p q : Bytes) (x y : Scan) : Prop where
  pos : y.pos = x.pos
  found : y.found = x.found
  scopes : List.Forall₂ (Alike p q) x.scopes y.scopes
  live : x.found = none → x.scopes ≠ []

/-- Two failures of a scan at the same place, with one code or without a definite length around
them. -/
theorem scan_failure_persists {related : Scan → Scan → Prop} {status status' : Status}
    {offset offset' : Nat} {region : Region} {bounded : Bool} {required required' : Option Nat}
    (h : status' = status ∨ bounded = false ∧ same status status') :
    PersistsTo Truncates (OnStatus same) related
      (scanFailure status offset region bounded required)
      (scanFailure status' offset' region bounded required') := by
  rcases h with rfl | ⟨rfl, hkind⟩
  · exact (Classical.em _).imp id fun hstays => ⟨_, rfl, Kindred.refl _ hstays⟩
  · refine .inr ⟨_, rfl, ?_⟩
    simpa [OnStatus] using hkind

omit [Kindred same] in
/-- Missing octets without a definite length around them ask for more input. -/
theorem scan_asks {related : Scan → Scan → Prop} {other : FormatResult Scan} {offset : Nat}
    {region : Region} {bounded : Bool} {required : Option Nat} (h : bounded = false) :
    PersistsTo Truncates (OnStatus same) related
      (scanFailure .truncated offset region bounded required) other := by
  subst h
  exact .inl rfl

/-- Two failures of one kind. -/
theorem scan_failure_same {related : Scan → Scan → Prop} {status : Status}
    {offset offset' : Nat} {region : Region} {bounded : Bool} {required required' : Option Nat} :
    PersistsTo Truncates (OnStatus same) related (scanFailure status offset region bounded required)
      (scanFailure status offset' region bounded required') :=
  scan_failure_persists (.inl rfl)

omit [Kindred same] in
/-- A field read inside a scope. -/
theorem slice_cases {α : Type} {read : Bytes → FieldRead α} (hread : KeepsField same read)
    (halike : Alike p q short long) {pos : Nat} (hpos : pos ≤ short.ending)
    (hending : short.ending ≤ p.length) :
    (∃ value, (read ((p.take short.ending).drop pos)).outcome = .ok value ∧
      (read (((p ++ q).take long.ending).drop pos)).outcome = .ok value ∧
      (read (((p ++ q).take long.ending).drop pos)).consumed =
        (read ((p.take short.ending).drop pos)).consumed) ∨
    ∃ status status', (read ((p.take short.ending).drop pos)).outcome = .error status ∧
      (status = .truncated ∧ short.bounded = false ∨
        (read (((p ++ q).take long.ending).drop pos)).outcome = .error status' ∧
          (status' = status ∨ short.bounded = false ∧ same status status')) := by
  cases hbounded : short.bounded with
  | true =>
    rw [halike.fixed hbounded, take_append_front q hending]
    cases houtcome : (read ((p.take short.ending).drop pos)).outcome with
    | ok value => exact .inl ⟨value, rfl, rfl, rfl⟩
    | error status => exact .inr ⟨status, status, rfl, .inr ⟨rfl, .inl rfl⟩⟩
  | false =>
    obtain ⟨-, hshort, hlong⟩ := halike.moved hbounded
    have htake : p.take short.ending = p := by rw [hshort, List.take_length]
    have hslice : ((p ++ q).take long.ending).drop pos = p.drop pos ++ q := by
      rw [hlong, List.take_length, List.drop_append_of_le_length (by omega)]
    rw [htake, hslice]
    rcases field_persists_cases (hread.persists (p.drop pos) q) with hok | hshort |
      ⟨status, status', hfirst, hsecond, hstays⟩
    · exact .inl hok
    · exact .inr ⟨_, .truncated, hshort, .inl ⟨rfl, rfl⟩⟩
    · exact .inr ⟨status, status', hfirst, .inr ⟨hsecond, .inr ⟨rfl, hstays⟩⟩⟩

/-- The octets before an end of the short input are those of the long one. -/
theorem getElem_append_front {pos : Nat} (h : pos < p.length) : (p ++ q)[pos]? = p[pos]? :=
  List.getElem?_append_left h

/-- Scans of a prefix and of the whole leave a scope together. -/
theorem close_together (h : Together p q x y) {outer outer' : List Scope}
    (hx : x.scopes = short :: outer) (hy : y.scopes = long :: outer') (consumed : Nat) :
    Together p q (x.close outer consumed) (y.close outer' consumed) := by
  have hscopes := h.scopes
  rw [hx, hy, List.forall₂_cons] at hscopes
  have hempty : outer = [] ↔ outer' = [] := by
    cases hscopes.2 with
    | nil => simp
    | cons => simp
  by_cases hlast : outer = []
  · have hlast' := hempty.mp hlast
    subst hlast hlast'
    refine ⟨?_, ?_, ?_, ?_⟩
    all_goals simp [Scan.close, h.pos]
  · have hlast' : outer' ≠ [] := fun h => hlast (hempty.mpr h)
    refine ⟨?_, ?_, ?_, ?_⟩
    · simp [Scan.close, hlast, hlast', h.pos]
    · simp [Scan.close, hlast, hlast', h.found]
    · simpa [Scan.close, hlast, hlast'] using hscopes.2
    · simp [Scan.close, hlast]

/-- Scans of a prefix and of the whole enter a value together. -/
theorem scan_enter_together (h : Together p q x y) (halike : Alike p q short long)
    (hlive : x.scopes ≠ []) {pos length length' : Nat} {constructed indefinite : Bool}
    {region : Region} (hlength : indefinite = false → length' = length)
    (hopen : indefinite = true → constructed = true ∧ pos + length = short.ending ∧
      pos + length' = long.ending) :
    PersistsTo Truncates (OnStatus same) (Together p q)
      (scanEnter x short pos length constructed indefinite region)
      (scanEnter y long pos length' constructed indefinite region) := by
  unfold scanEnter
  rw [halike.bounded, ← h.scopes.length_eq]
  split
  · split
    · exact scan_failure_same
    · refine ⟨_, rfl, rfl, h.found, ?_, fun _ => by simp⟩
      refine List.forall₂_cons.mpr ⟨⟨rfl, rfl, fun hbounded => ?_, fun hbounded => ?_⟩, h.scopes⟩
      · cases indefinite with
        | false =>
          dsimp only
          rw [hlength rfl]
        | true =>
          obtain ⟨-, hshort, hlong⟩ := hopen rfl
          have hfixed : short.bounded = true := by simpa using hbounded
          dsimp only
          rw [hshort, hlong, halike.fixed hfixed]
      · cases indefinite with
        | false => simp at hbounded
        | true =>
          obtain ⟨-, hshort, hlong⟩ := hopen rfl
          have hmoved : short.bounded = false := by simpa using hbounded
          obtain ⟨-, hend, hend'⟩ := halike.moved hmoved
          exact ⟨rfl, hshort.trans hend, hlong.trans hend'⟩
  · rename_i hconstructed
    cases indefinite with
    | true => exact absurd (hopen rfl).1 hconstructed
    | false =>
      rw [hlength rfl]
      exact ⟨_, rfl, rfl, h.found, h.scopes, fun _ => hlive⟩

/-- A length is read alike in a prefix and in the whole. -/
theorem scan_length_together (h : Together p q x y) (halike : Alike p q short long)
    (hlive : x.scopes ≠ []) (tag : Bytes) {pos : Nat} (hpos : pos < short.ending)
    (hending : short.ending ≤ p.length) (hlonger : short.ending ≤ long.ending) :
    PersistsTo Truncates (OnStatus same) (Together p q) (scanLength p x short tag pos)
      (scanLength (p ++ q) y long tag pos) := by
  unfold scanLength
  rw [getElem_append_front (show pos < p.length by omega)]
  dsimp only
  split
  · split
    · rw [halike.bounded]
      exact scan_failure_same
    · rename_i hconstructed
      refine scan_enter_together h halike hlive (fun h => by cases h) fun _ => ⟨?_, ?_, ?_⟩
      · simpa using hconstructed
      · omega
      · omega
  · have hread : KeepsField same berReadLength := ber_read_length_keeps
    rcases slice_cases hread halike (Nat.le_of_lt hpos) hending with
      ⟨length, hfirst, hsecond, hconsumed⟩ | ⟨status, status', hfirst, hkind⟩
    · simp only [hfirst, hsecond, hconsumed]
      rw [halike.bounded]
      by_cases hlong : length > short.ending -
          (pos + (berReadLength ((p.take short.ending).drop pos)).consumed)
      · rw [if_pos hlong]
        cases hbounded : short.bounded with
        | false => exact scan_asks rfl
        | true =>
          rw [halike.fixed hbounded, if_pos hlong]
          exact scan_failure_same
      · rw [if_neg hlong, if_neg (by omega)]
        exact scan_enter_together h halike hlive (fun _ => rfl) fun h => by cases h
    · simp only [hfirst]
      rcases hkind with ⟨rfl, hbounded⟩ | ⟨hsecond, hstays⟩
      · exact scan_asks hbounded
      · simp only [hsecond]
        rw [halike.bounded]
        exact scan_failure_persists hstays

/-- A tag is read alike in a prefix and in the whole. -/
theorem scan_tag_together (h : Together p q x y) (halike : Alike p q short long)
    (hlive : x.scopes ≠ []) (hpos : x.pos ≤ short.ending) (hending : short.ending ≤ p.length)
    (hlonger : short.ending ≤ long.ending) :
    PersistsTo Truncates (OnStatus same) (Together p q) (scanTag p x short)
      (scanTag (p ++ q) y long) := by
  unfold scanTag
  rw [h.pos]
  have hread : KeepsField same berReadTag := ber_read_tag_keeps
  rcases slice_cases hread halike hpos hending with
    ⟨tag, hfirst, hsecond, hconsumed⟩ | ⟨status, status', hfirst, hkind⟩
  · have hwithin := ber_read_tag_stable.within _ _ hfirst
    rw [slice_length hending] at hwithin
    simp only [hfirst, hsecond, hconsumed]
    by_cases hlast : x.pos + (berReadTag ((p.take short.ending).drop x.pos)).consumed =
        short.ending
    · rw [if_pos hlast]
      cases hbounded : short.bounded with
      | false => exact scan_asks rfl
      | true =>
        rw [halike.fixed hbounded, if_pos hlast, halike.bounded, hbounded]
        exact scan_failure_same
    · rw [if_neg hlast, if_neg (by omega)]
      exact scan_length_together h halike hlive tag.bytes (by omega) hending hlonger
  · simp only [hfirst]
    rcases hkind with ⟨rfl, hbounded⟩ | ⟨hsecond, hstays⟩
    · exact scan_asks hbounded
    · simp only [hsecond]
      rw [halike.bounded]
      exact scan_failure_persists hstays

/-- One iteration on the short and on the long input. -/
theorem scan_step_together (h : Together p q x y) (hx : x.Inside p)
    (hy : y.Inside (p ++ q)) (hlive : x.scopes ≠ []) :
    PersistsTo Truncates (OnStatus same) (Together p q) (scanStep p x) (scanStep (p ++ q) y) := by
  have hscopes := h.scopes
  unfold scanStep
  cases hxs : x.scopes with
  | nil => exact absurd hxs hlive
  | cons short outer =>
    cases hys : y.scopes with
    | nil =>
      rw [hxs, hys] at hscopes
      cases hscopes
    | cons long outer' =>
      rw [hxs, hys, List.forall₂_cons] at hscopes
      have halike := hscopes.1
      have hpos := hx.pos short (by rw [hxs]; exact List.mem_cons_self)
      have hending := hx.ending short (by rw [hxs]; exact List.mem_cons_self)
      have hending' := hy.ending long (by rw [hys]; exact List.mem_cons_self)
      have hlonger : short.ending ≤ long.ending := by
        cases hbounded : short.bounded with
        | true => rw [halike.fixed hbounded]
        | false =>
          obtain ⟨-, hshort, hlong⟩ := halike.moved hbounded
          rw [hshort, hlong, List.length_append]
          omega
      dsimp only
      rw [h.pos]
      by_cases hlast : x.pos = short.ending
      · rw [if_pos hlast]
        cases hbounded : short.bounded with
        | false =>
          obtain ⟨hterminated, -, -⟩ := halike.moved hbounded
          rw [if_pos hterminated]
          exact scan_asks rfl
        | true =>
          rw [halike.fixed hbounded, if_pos hlast, halike.terminated, halike.bounded,
            hbounded]
          split
          · exact scan_failure_same
          · exact ⟨_, rfl, close_together h hxs hys 0⟩
      · have hlast' : ¬ x.pos = long.ending := by omega
        rw [if_neg hlast, if_neg hlast',
          getElem_append_front (show x.pos < p.length by omega)]
        split
        · by_cases hshort : short.ending - x.pos < berEocSize
          · rw [if_pos hshort]
            cases hbounded : short.bounded with
            | false => exact scan_asks rfl
            | true =>
              rw [halike.fixed hbounded, if_pos hshort, halike.bounded, hbounded]
              exact scan_failure_same
          · have hlong : ¬ long.ending - x.pos < berEocSize := by omega
            have hroom : x.pos + 1 < p.length := by
              unfold berEocSize at hshort
              omega
            rw [if_neg hshort, if_neg hlong, getElem_append_front hroom, halike.bounded,
              halike.terminated]
            split
            · exact scan_failure_same
            · split
              · exact scan_failure_same
              · exact ⟨_, rfl, close_together h hxs hys berEocSize⟩
        · exact scan_tag_together h halike hlive hpos hending hlonger

/-- The whole scan survives more input. -/
theorem ber_scan_contents_persists (p q : Bytes) :
    Persists Truncates (OnStatus same) (berScanContents p true)
      (berScanContents (p ++ q) true) := by
  have hrelated : ∀ x y, (Together p q x y ∧ x.Inside p ∧ y.Inside (p ++ q)) →
      x.found.isSome = false → x.scopes ≠ [] ∧ y.scopes ≠ [] := by
    rintro x y ⟨h, -, -⟩ hfound
    have hlive := h.live (by simpa using hfound)
    refine ⟨hlive, fun hy => ?_⟩
    have hlength := h.scopes.length_eq
    rw [hy, List.length_nil] at hlength
    exact hlive (List.length_eq_zero_iff.mp hlength)
  have hdrive := @drive_persists _ Scan Scan (Status.callback, {}) Truncates (OnStatus same)
    (·.found.isSome) (scanStep p) (Scan.rank p) (·.found.isSome) (scanStep (p ++ q))
    (Scan.rank (p ++ q))
    (fun x y => Together p q x y ∧ x.Inside p ∧ y.Inside (p ++ q)) ?halted ?step ?rank ?rank'
    (p.length + 2) ((p ++ q).length + 2)
    { pos := 0, scopes := [⟨p.length, true, false⟩] }
    { pos := 0, scopes := [⟨(p ++ q).length, true, false⟩] } ?start
    (by simp [Scan.rank]) (by simp [Scan.rank])
  case halted =>
    rintro x y ⟨h, -, -⟩
    rw [h.found]
  case step =>
    rintro x y ⟨h, hx, hy⟩ hfound
    obtain ⟨hlive, hlive'⟩ := hrelated x y ⟨h, hx, hy⟩ hfound
    have hpair : PersistsTo Truncates (OnStatus same) _ _ _ := scan_step_together h hx hy hlive
    have hmeets := scan_step_meets hx hlive
    have hmeets' := scan_step_meets hy hlive'
    cases hstep : scanStep p x with
    | error failed =>
      rw [hstep] at hpair
      exact hpair
    | ok x' =>
      rw [hstep] at hpair hmeets
      obtain ⟨y', hstep', htogether⟩ := hpair
      rw [hstep'] at hmeets'
      exact ⟨y', hstep', htogether, hmeets.1, hmeets'.1⟩
  case rank =>
    rintro x y x' h hfound hstep
    have hmeets := scan_step_meets h.2.1 (hrelated x y h hfound).1
    rw [hstep] at hmeets
    exact hmeets.2
  case rank' =>
    rintro x y y' h hfound hstep
    have hmeets := scan_step_meets h.2.2 (hrelated x y h hfound).2
    rw [hstep] at hmeets
    exact hmeets.2
  case start =>
    refine ⟨⟨rfl, rfl, ?_, by simp⟩, ⟨by simp, by simp, by simp⟩, ⟨by simp, by simp, by simp⟩⟩
    exact List.forall₂_cons.mpr ⟨⟨rfl, rfl, by simp, fun _ => ⟨rfl, rfl, rfl⟩⟩, .nil⟩
  unfold berScanContents
  cases hshort : drive (Status.callback, {}) (·.found.isSome) (scanStep p) (p.length + 2)
      { pos := 0, scopes := [⟨p.length, true, false⟩] } with
  | error failed =>
    rw [hshort] at hdrive
    rcases hdrive with hask | ⟨failed', hlong, hstays⟩
    · exact .inl hask
    · rw [hlong]
      exact .inr ⟨failed', rfl, hstays⟩
  | ok x =>
    rw [hshort] at hdrive
    obtain ⟨y, hlong, htogether, -⟩ := hdrive
    rw [hlong]
    show Except.ok (y.found.getD (0, 0)) = Except.ok (x.found.getD (0, 0))
    rw [htogether.found]

end Longer

section Formats

/-- An indefinite value survives more input. -/
theorem resolve_indefinite_persists (size size' : Nat) (first : UInt8) (rest q : Bytes) :
    Persists Truncates (OnStatus same) (resolveIndefinite size (first :: rest)).result
      (resolveIndefinite size' (first :: (rest ++ q))).result := by
  have hscan : Persists Truncates (OnStatus same) _ _ := ber_scan_contents_persists rest q
  unfold resolveIndefinite
  rw [List.drop_one, List.drop_one, List.tail_cons, List.tail_cons]
  cases hshort : berScanContents rest true with
  | ok found =>
    rw [hshort] at hscan
    have hlong : berScanContents (rest ++ q) true = .ok found := hscan
    rw [hlong]
    exact Persists.refl _
  | error failed =>
    rw [hshort] at hscan
    rcases hscan with hask | ⟨failed', hlong, hstays⟩
    · exact .inl hask
    · rw [hlong]
      exact .inr ⟨_, rfl, hstays⟩

theorem resolve_indefinite_size {size : Nat} {data : Bytes} {bounds : Nat × Nat}
    (h : (resolveIndefinite size data).outcome = .ok bounds) :
    (resolveIndefinite size data).lengthSize = 1 := by
  unfold resolveIndefinite at h ⊢
  split at h
  · cases h
  · rfl

theorem resolve_definite_persists {short long : FieldRead Nat}
    (h : Persists (· = Status.truncated) same short.result long.result) :
    Persists Truncates (OnStatus same) (resolveDefinite short).result
      (resolveDefinite long).result := by
  unfold resolveDefinite Resolution.result
  rcases field_persists_cases h with ⟨length, hshort, hlong, hconsumed⟩ | hshort |
    ⟨status, status', hshort, hlong, hstays⟩
  · rw [hshort, hlong, hconsumed]
    exact Persists.refl _
  · rw [hshort]
    exact .inl rfl
  · rw [hshort, hlong]
    exact .inr ⟨_, rfl, hstays⟩

theorem resolve_definite_within {field : FieldRead Nat} {bounds : Nat × Nat} {size : Nat}
    (hwithin : ∀ length, field.outcome = .ok length → field.consumed ≤ size)
    (h : (resolveDefinite field).outcome = .ok bounds) :
    (resolveDefinite field).lengthSize ≤ size := by
  unfold resolveDefinite at h ⊢
  cases houtcome : field.outcome with
  | error status =>
    rw [houtcome] at h
    cases h
  | ok length => exact hwithin length houtcome

/-- BER value bounds are stable under more octets. -/
theorem ber_resolve_keeps : KeepsResolve same berReadValueBounds := by
  constructor
  · intro tag p q
    unfold berReadValueBounds
    cases p with
    | nil =>
      rw [if_neg (show ¬ ([] : Bytes).head? = some berIndefinite by simp)]
      exact .inl rfl
    | cons first rest =>
      rw [List.cons_append, List.head?_cons, List.head?_cons]
      split
      · split
        · exact Persists.refl _
        · exact resolve_indefinite_persists 1 1 first rest q
      · exact resolve_definite_persists (ber_read_length_keeps.persists _ q)
  · intro tag data bounds h
    unfold berReadValueBounds at h ⊢
    split at h
    · rename_i hfirst
      rw [if_pos hfirst]
      split at h
      · cases h
      · rename_i hconstructed
        rw [if_neg hconstructed, resolve_indefinite_size h]
        cases data with
        | nil => cases hfirst
        | cons first rest => simp
    · rename_i hfirst
      rw [if_neg hfirst]
      exact resolve_definite_within (fun _ => ber_read_length_stable.within data _) h

/-- CER value bounds are stable under more octets. -/
theorem cer_resolve_keeps : KeepsResolve same cerReadValueBounds := by
  constructor
  · intro tag p q
    unfold cerReadValueBounds
    cases p with
    | nil => exact .inl rfl
    | cons first rest =>
      rw [List.cons_append, if_neg (List.cons_ne_nil _ _), if_neg (List.cons_ne_nil _ _),
        List.head?_cons, List.head?_cons]
      split
      · split
        · exact .inr ⟨_, rfl, Kindred.refl _ (by decide)⟩
        · exact resolve_indefinite_persists _ _ first rest q
      · split
        · exact .inr ⟨_, rfl, Kindred.refl _ (by decide)⟩
        · have hread : KeepsField same asn1ReadMinimalLength := asn1_read_minimal_length_keeps
          have hcases := field_persists_cases (hread.persists (first :: rest) q)
          rw [List.cons_append] at hcases
          cases hp : asn1ReadMinimalLength (first :: rest) with
          | mk short used =>
            cases hq : asn1ReadMinimalLength (first :: (rest ++ q)) with
            | mk long used' =>
              rw [hp, hq] at hcases
              dsimp only at hcases
              rcases hcases with ⟨length, rfl, rfl, rfl⟩ | rfl |
                ⟨status, status', rfl, rfl, hstays⟩
              · exact Persists.refl _
              · exact .inl rfl
              · exact .inr ⟨_, rfl, hstays⟩
  · intro tag data bounds h
    have hwithin := asn1_read_minimal_length_stable.within data
    unfold cerReadValueBounds at h ⊢
    split at h
    · cases h
    · rename_i hdata
      rw [if_neg hdata]
      split at h
      · rename_i hfirst
        rw [if_pos hfirst]
        split at h
        · cases h
        · rename_i hconstructed
          rw [if_neg hconstructed, resolve_indefinite_size h]
          exact List.length_pos_iff.mpr hdata
      · rename_i hfirst
        rw [if_neg hfirst]
        split at h
        · cases h
        · rename_i hconstructed
          rw [if_neg hconstructed]
          cases hread : asn1ReadMinimalLength data with
          | mk outcome used =>
            rw [hread] at h hwithin
            cases outcome with
            | error status => cases h
            | ok length => exact hwithin length rfl

theorem ber_fields_keeps : KeepsFields same berFields :=
  ⟨ber_read_tag_keeps, ber_read_length_keeps, fun _ h => by cases h; exact ber_resolve_keeps⟩

theorem der_fields_keeps : KeepsFields same derFields :=
  ⟨screened_tag_keeps asn1_read_identifier_keeps, asn1_read_minimal_length_keeps,
    fun _ h => by cases h⟩

theorem cer_fields_keeps : KeepsFields same cerFields :=
  ⟨asn1_read_identifier_keeps, asn1_read_minimal_length_keeps,
    fun _ h => by cases h; exact cer_resolve_keeps⟩

/-- The formats that the library provides. -/
inductive LibraryFormat : Format → Prop where
  | ber : LibraryFormat formatBer
  | der : LibraryFormat formatDer
  | cer : LibraryFormat formatCer
  | configured {configuration : Configuration} {format : Format}
      (h : configuration.init = .ok format) : LibraryFormat format
  | packed {layout : PackedLayout} (h : packedLayoutValidate layout = .ok ()) :
      LibraryFormat (packedFormat layout)

theorem ber_decode_keeps : ∃ decode, formatBer.decode = some decode ∧ KeepsDecode same decode :=
  ⟨_, rfl, fields_decode_keeps ber_fields_keeps⟩

theorem der_decode_keeps : ∃ decode, formatDer.decode = some decode ∧ KeepsDecode same decode :=
  ⟨_, rfl, fields_decode_keeps der_fields_keeps⟩

theorem cer_decode_keeps : ∃ decode, formatCer.decode = some decode ∧ KeepsDecode same decode :=
  ⟨_, rfl, fields_decode_keeps cer_fields_keeps⟩

/-- Every format of the library is stable under more octets. -/
theorem library_format_stable {format : Format} (h : LibraryFormat format) :
    ∃ decode, format.decode = some decode ∧ KeepsDecode StaysFailed decode := by
  cases h with
  | ber => exact ber_decode_keeps
  | der => exact der_decode_keeps
  | cer => exact cer_decode_keeps
  | configured hinit =>
    exact configuration_decode_keeps (fun _ _ => .inl (by simp [StaysFailed])) hinit
  | packed hvalid => exact ⟨_, rfl, packed_decode_keeps hvalid⟩

/-- A decoded element stays the same when octets follow, and a failure that is not a
truncation stays one. -/
theorem decode_prefix_stable {format : Format} (h : LibraryFormat format) {p : Bytes}
    (hp : p ≠ []) (q : Bytes) :
    (∀ decoded, formatDecode format p = .ok decoded →
      formatDecode format (p ++ q) = .ok decoded) ∧
    ∀ status detail, formatDecode format p = .error (status, detail) → status ≠ .truncated →
      ∃ status' detail', formatDecode format (p ++ q) = .error (status', detail') ∧
        status' ≠ .truncated := by
  obtain ⟨decode, hdecode, hstable⟩ := library_format_stable h
  have hpersists := format_decode_persists hdecode hstable hp q
  constructor
  · intro decoded hshort
    rw [hshort] at hpersists
    exact hpersists
  · intro status detail hshort hstatus
    rw [hshort] at hpersists
    rcases hpersists with hask | ⟨⟨status', detail'⟩, hlong, hstays⟩
    · exact absurd hask hstatus
    · exact ⟨status', detail', hlong, hstays⟩

/-- An indefinite BER sequence, and an identifier that stays malformed. -/
theorem decode_prefix_stable_ber :
    (∃ decoded, formatDecode formatBer [0x30, 0x80, 0x02, 0x01, 0x05, 0x00, 0x00] = .ok decoded ∧
      formatDecode formatBer ([0x30, 0x80, 0x02, 0x01, 0x05, 0x00, 0x00] ++ [0xFF]) =
        .ok decoded) ∧
    ∃ status detail, formatDecode formatBer ([0x00] ++ [0x01]) = .error (status, detail) ∧
      status ≠ .truncated := by
  refine ⟨⟨_, rfl, ?_⟩, ?_⟩
  · exact (decode_prefix_stable .ber (by decide) [0xFF]).1 _ rfl
  · obtain ⟨status, detail, hlong, hstays⟩ :=
      (decode_prefix_stable .ber (p := [0x00]) (by decide) [0x01]).2 .invalidTag _ rfl (by decide)
    exact ⟨status, detail, hlong, hstays⟩

end Formats

end OpenTlv
