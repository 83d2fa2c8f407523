import OpenTlv.Query.Path

/-!
# The text of a path and its storage

`Spells` is the grammar of the path language, and `Stores` says what the storage of some tags looks
like. The parser accepts the texts of the grammar whose tags fit, and no others. What the formatter
writes reads back.
-/

namespace OpenTlv.Query

section Storage

/-- Where some tags end, of which the first starts at `start`. -/
def tagEnds (start : Nat) : List Bytes → List Nat
  | [] => []
  | tag :: rest => (start + tag.length) :: tagEnds (start + tag.length) rest

theorem tag_ends_length (start : Nat) (tags : List Bytes) :
    (tagEnds start tags).length = tags.length := by
  induction tags generalizing start with
  | nil => rfl
  | cons tag rest ih => rw [tagEnds, List.length_cons, ih, List.length_cons]

theorem tag_ends_append (start : Nat) (tags : List Bytes) (tag : Bytes) :
    tagEnds start (tags ++ [tag]) =
      tagEnds start tags ++ [start + tags.flatten.length + tag.length] := by
  induction tags generalizing start with
  | nil => rfl
  | cons first rest ih =>
    rw [List.cons_append, tagEnds, ih, tagEnds, List.flatten_cons, List.length_append,
      List.cons_append]
    congr 3
    omega

/-- The storage of some tags. What they do not take is zero. -/
structure PathData.Stores (data : PathData) (tags : List Bytes) : Prop where
  count : data.count = tags.length
  bytes : data.bytes = tags.flatten ++ List.replicate (pathMaxBytes - tags.flatten.length) 0
  ends : data.ends = tagEnds 0 tags ++ List.replicate (pathMaxSteps - tags.length) 0

/-- The tags that a path may have. -/
structure FitsPath (tags : List Bytes) : Prop where
  steps : tags.length ≤ pathMaxSteps
  bytes : tags.flatten.length ≤ pathMaxBytes

variable {data data' : PathData} {tags : List Bytes}

theorem FitsPath.front {more : List Bytes} (h : FitsPath (tags ++ more)) : FitsPath tags where
  steps := by
    have hsteps := h.steps
    rw [List.length_append] at hsteps
    omega
  bytes := by
    have hbytes := h.bytes
    rw [List.flatten_append, List.length_append] at hbytes
    omega

theorem PathData.Stores.fits (h : data.Stores tags) : FitsPath tags where
  steps := by
    have hlength := congrArg List.length h.ends
    rw [data.ends_length, List.length_append, List.length_replicate, tag_ends_length] at hlength
    omega
  bytes := by
    have hlength := congrArg List.length h.bytes
    rw [data.bytes_length, List.length_append, List.length_replicate] at hlength
    omega

/-- Tags that fit have one storage. -/
theorem FitsPath.stored (h : FitsPath tags) : ∃ data : PathData, data.Stores tags := by
  have hsteps := h.steps
  have hbytes := h.bytes
  refine ⟨⟨_, _, _, ?_, ?_⟩, rfl, rfl, rfl⟩
  · rw [List.length_append, List.length_replicate]
    omega
  · rw [List.length_append, List.length_replicate, tag_ends_length]
    omega

theorem PathData.Stores.unique (h : data.Stores tags) (h' : data'.Stores tags) : data = data' := by
  have hbytes := h.bytes.trans h'.bytes.symm
  have hends := h.ends.trans h'.ends.symm
  have hcount := h.count.trans h'.count.symm
  cases data
  cases data'
  dsimp only at hbytes hends hcount
  subst hbytes hends hcount
  rfl

/-- The tags of the parser so far. -/
structure PathParse.Holds (parsed : PathParse) (tags : List Bytes) : Prop where
  stores : parsed.data.Stores tags
  used : parsed.used = tags.flatten.length

variable {parsed parsed' : PathParse}

theorem PathParse.Holds.unique (h : parsed.Holds tags) (h' : parsed'.Holds tags) :
    parsed = parsed' := by
  have hdata := h.stores.unique h'.stores
  have hused := h.used.trans h'.used.symm
  cases parsed
  cases parsed'
  dsimp only at hdata hused
  subst hdata hused
  rfl

theorem push_holds {tag : Bytes} (h : parsed.Holds tags)
    (hroom : parsed.used + tag.length ≤ pathMaxBytes) (hcount : parsed.data.count < pathMaxSteps) :
    (parsed.push tag hroom).Holds (tags ++ [tag]) := by
  have hcounted := h.stores.count
  refine ⟨⟨?_, ?_, ?_⟩, ?_⟩
  · show parsed.data.count + 1 = _
    rw [hcounted, List.length_append, List.length_singleton]
  · show Octets.store parsed.data.bytes parsed.used tag = _
    rw [h.stores.bytes, h.used, Octets.store, List.take_left, List.drop_append,
      List.flatten_append]
    simp [Nat.sub_sub]
  · show parsed.data.ends.set parsed.data.count (parsed.used + tag.length) = _
    obtain ⟨left, hleft⟩ : ∃ left, pathMaxSteps - tags.length = left + 1 :=
      ⟨pathMaxSteps - tags.length - 1, by omega⟩
    have hrest : pathMaxSteps - (tags ++ [tag]).length = left := by
      rw [List.length_append, List.length_singleton]
      omega
    rw [h.stores.ends, hrest, hleft, hcounted, h.used, tag_ends_append,
      List.set_append_right _ _ (by rw [tag_ends_length]), tag_ends_length, Nat.sub_self,
      List.replicate_succ, List.set_cons_zero, List.append_assoc]
    simp
  · show parsed.used + tag.length = _
    rw [h.used, List.flatten_append, List.length_append]
    simp

end Storage

section Grammar

/-- Digits that spell a tag. -/
structure IsTag (digits : Bytes) : Prop where
  pairs : ¬ (digits.length = 0 ∨ digits.length % 2 ≠ 0)
  hex : ∀ c ∈ digits, (queryHex c).isSome

/-- The grammar of the path language: tags with a slash between each two of them. -/
inductive Spells : Bytes → List Bytes → Prop
  | last {digits : Bytes} (h : IsTag digits) : Spells digits [hexOctets digits]
  | cons {digits text : Bytes} {tags : List Bytes} (h : IsTag digits) (hrest : Spells text tags) :
      Spells (digits ++ ascii '/' :: text) (hexOctets digits :: tags)

theorem slash_not_hex : queryHex (ascii '/') = none := by decide

theorem hex_not_slash {c : UInt8} (h : (queryHex c).isSome) : c ≠ ascii '/' := by
  rintro rfl
  rw [slash_not_hex] at h
  cases h

/-- The digits in front of the first slash. -/
theorem take_digits {digits rest : Bytes} (h : ∀ c ∈ digits, (queryHex c).isSome) :
    (digits ++ rest).takeWhile (· ≠ ascii '/') = digits ++ rest.takeWhile (· ≠ ascii '/') ∧
      (digits ++ rest).dropWhile (· ≠ ascii '/') = rest.dropWhile (· ≠ ascii '/') := by
  have hall : ∀ c ∈ digits, decide (c ≠ ascii '/') = true := fun c hc =>
    decide_eq_true (hex_not_slash (h c hc))
  exact ⟨List.takeWhile_append_of_pos hall, List.dropWhile_append_of_pos hall⟩

variable {digits rest text : Bytes} {tags : List Bytes}

theorem spells_end (h : ∀ c ∈ digits, (queryHex c).isSome) :
    Spells digits tags ↔ IsTag digits ∧ tags = [hexOctets digits] := by
  constructor
  · intro hspells
    have htake := (@take_digits digits [] h).2
    rw [List.append_nil] at htake
    cases hspells with
    | last htag => exact ⟨htag, rfl⟩
    | @cons front text tags htag hrest =>
      exact absurd (h _ (List.mem_append_right _ List.mem_cons_self))
        (by rw [slash_not_hex]; decide)
  · rintro ⟨htag, rfl⟩
    exact .last htag

theorem spells_slash (h : ∀ c ∈ digits, (queryHex c).isSome) :
    Spells (digits ++ ascii '/' :: rest) tags ↔
      IsTag digits ∧ ∃ more, tags = hexOctets digits :: more ∧ Spells rest more := by
  constructor
  · intro hspells
    generalize htext : digits ++ ascii '/' :: rest = text at hspells
    cases hspells with
    | last htag =>
      have hmem : ascii '/' ∈ text := htext ▸ List.mem_append_right _ List.mem_cons_self
      exact absurd (htag.hex _ hmem) (by rw [slash_not_hex]; decide)
    | @cons front behind tags htag hrest =>
      have htake := congrArg (List.takeWhile (· ≠ ascii '/')) htext
      have hdrop := congrArg (List.dropWhile (· ≠ ascii '/')) htext
      rw [(take_digits h).1, (take_digits htag.hex).1] at htake
      rw [(take_digits h).2, (take_digits htag.hex).2] at hdrop
      simp only [ne_eq, not_true_eq_false, decide_false, Bool.false_eq_true, not_false_eq_true,
        List.takeWhile_cons_of_neg, List.dropWhile_cons_of_neg, List.append_nil] at htake hdrop
      injection hdrop with _ hrest'
      subst htake hrest'
      exact ⟨htag, _, rfl, hrest⟩
  · rintro ⟨htag, more, rfl, hrest⟩
    exact .cons htag hrest

/-- Nothing but digits and slashes stands in a path. -/
theorem spells_chars (h : Spells text tags) :
    ∀ c ∈ text, (queryHex c).isSome ∨ c = ascii '/' := by
  induction h with
  | last htag => exact fun c hc => .inl (htag.hex c hc)
  | cons htag _ ih =>
    intro c hc
    rcases List.mem_append.mp hc with hc | hc
    · exact .inl (htag.hex c hc)
    · rcases List.mem_cons.mp hc with rfl | hc
      · exact .inr rfl
      · exact ih c hc

/-- A text has two digits for each octet and a slash between each two tags. -/
theorem spells_length (h : Spells text tags) :
    text.length + 1 = 2 * tags.flatten.length + tags.length := by
  have hdigits : ∀ {digits : Bytes}, IsTag digits →
      digits.length = 2 * (hexOctets digits).length := by
    intro digits htag
    have hpairs := htag.pairs
    rw [hex_octets_half]
    omega
  induction h with
  | last htag =>
    rw [hdigits htag]
    simp
  | cons htag _ ih =>
    rw [List.length_append, List.length_cons, hdigits htag, List.flatten_cons, List.length_append,
      List.length_cons]
    omega

end Grammar

section Parse

variable {parsed parsed' : PathParse} {tags : List Bytes} {start : Nat} {digits : Bytes}

theorem step_sound (h : parsed.Holds tags) (hhex : ∀ c ∈ digits, (queryHex c).isSome)
    (hstep : parsed.step start digits = .ok parsed') :
    IsTag digits ∧ parsed'.Holds (tags ++ [hexOctets digits]) := by
  unfold PathParse.step at hstep
  split at hstep
  · cases hstep
  next hpairs =>
    split at hstep
    · cases hstep
    next hcount =>
      split at hstep
      · cases hstep
      next hroom =>
        cases hstep
        have hfits := h.stores.fits.steps
        have hcounted := h.stores.count
        exact ⟨⟨hpairs, hhex⟩, push_holds h _ (by omega)⟩

theorem step_complete (h : parsed.Holds tags) (htag : IsTag digits)
    (hfits : FitsPath (tags ++ [hexOctets digits])) :
    ∃ parsed', parsed.step start digits = .ok parsed' ∧
      parsed'.Holds (tags ++ [hexOctets digits]) := by
  have hsteps := hfits.steps
  have hbytes := hfits.bytes
  have hcounted := h.stores.count
  rw [List.length_append, List.length_singleton] at hsteps
  rw [List.flatten_append, List.length_append, ← h.used, List.flatten_singleton,
    hex_octets_half] at hbytes
  have hcount : ¬ parsed.data.count = pathMaxSteps := by omega
  have hroom : ¬ digits.length / 2 > pathMaxBytes - parsed.used := by omega
  refine ⟨_, ?_, push_holds h (path_fits htag.pairs hroom) (by omega)⟩
  rw [PathParse.step, dif_neg htag.pairs, if_neg hcount, dif_neg hroom]

/-- The loops of the parser accept what the grammar spells where it fits. The induction is on the
text that is left. -/
theorem parse_path_iff (rest : Bytes) :
    ∀ (parsed : PathParse) (tags : List Bytes) (start : Nat) (digits : Bytes), parsed.Holds tags →
      (∀ c ∈ digits, (queryHex c).isSome) →
      (parsePath parsed start digits rest = .ok parsed' ↔
        ∃ more, Spells (digits ++ rest) more ∧ parsed'.Holds (tags ++ more)) := by
  induction rest with
  | nil =>
    intro parsed tags start digits h hhex
    rw [parsePath, List.append_nil]
    constructor
    · intro hstep
      obtain ⟨htag, hholds⟩ := step_sound h hhex hstep
      exact ⟨_, .last htag, hholds⟩
    · rintro ⟨more, hspells, hholds⟩
      obtain ⟨htag, rfl⟩ := (spells_end hhex).mp hspells
      obtain ⟨next, hstep, hnext⟩ := @step_complete _ _ start _ h htag hholds.stores.fits
      rw [hstep, hnext.unique hholds]
  | cons c rest ih =>
    intro parsed tags start digits h hhex
    unfold parsePath
    by_cases hslash : c = ascii '/'
    · rw [if_pos hslash]
      subst hslash
      constructor
      · intro hparse
        cases hstep : parsed.step start digits with
        | error failure =>
          rw [hstep] at hparse
          cases hparse
        | ok next =>
          rw [hstep] at hparse
          obtain ⟨htag, hnext⟩ := step_sound h hhex hstep
          obtain ⟨more, hspells, hholds⟩ := (ih next _ _ [] hnext (by simp)).mp hparse
          rw [List.append_assoc] at hholds
          exact ⟨_, .cons htag hspells, hholds⟩
      · rintro ⟨more, hspells, hholds⟩
        obtain ⟨htag, more, rfl, hrest⟩ := (spells_slash hhex).mp hspells
        rw [List.append_cons] at hholds
        obtain ⟨next, hstep, hnext⟩ := @step_complete _ _ start _ h htag
          hholds.stores.fits.front
        rw [hstep]
        exact (ih next _ _ [] hnext (by simp)).mpr ⟨more, hrest, hholds⟩
    · rw [if_neg hslash]
      by_cases hc : (queryHex c).isSome
      · rw [if_neg (by rw [Option.isNone_eq_false_iff.mpr hc]; exact Bool.false_ne_true),
          ih parsed tags start (digits ++ [c]) h (by
            rw [List.forall_mem_append]
            exact ⟨hhex, by simpa using hc⟩), List.append_assoc, List.singleton_append]
      · rw [if_pos (Option.isNone_iff_eq_none.mpr (Option.not_isSome_iff_eq_none.mp hc))]
        refine ⟨(fun hparse => by cases hparse), ?_⟩
        rintro ⟨more, hspells, -⟩
        exact absurd ((spells_chars hspells c (List.mem_append_right _
          List.mem_cons_self)).resolve_right hslash) hc

theorem parser_starts : ({} : PathParse).Holds [] :=
  ⟨⟨rfl, rfl, rfl⟩, rfl⟩

theorem spells_parsed {text : Bytes} {data : PathData} (h : Spells text tags)
    (hstores : data.Stores tags) : queryParse text = .ok data := by
  rw [queryParse, (@parse_path_iff ⟨data, tags.flatten.length⟩ text _ _ 0 [] parser_starts
    (by simp)).mpr ⟨tags, h, hstores, rfl⟩]
  rfl

/-- The parser accepts what the grammar spells where it fits, and stores the tags. -/
theorem query_parse_exact (text : Bytes) (data : PathData) :
    queryParse text = .ok data ↔ ∃ tags, Spells text tags ∧ data.Stores tags := by
  constructor
  · intro hparse
    unfold queryParse at hparse
    obtain ⟨parsed, hrun, hparse⟩ := bind_ok.mp hparse
    cases hparse
    obtain ⟨tags, hspells, hholds⟩ :=
      (@parse_path_iff parsed text _ _ 0 [] parser_starts (by simp)).mp hrun
    exact ⟨tags, hspells, hholds.stores⟩
  · rintro ⟨tags, hspells, hstores⟩
    exact spells_parsed hspells hstores

end Parse

section Tags

/-- The tags of a path. -/
def PathData.tags (data : PathData) : List Bytes :=
  (List.range data.count).map data.tag

/-- The steps that are counted are the tags of a valid path, and none of any other. -/
theorem query_steps (data : PathData) : (List.range (queryCount data)).map (queryStep data) =
    if data.valid then data.tags else [] := by
  unfold queryCount
  by_cases hvalid : data.valid = true
  · rw [if_pos hvalid, if_pos hvalid]
    refine List.map_congr_left fun index hindex => ?_
    have hlt := List.mem_range.mp hindex
    unfold queryStep
    rw [if_neg (by simp only [hvalid, Bool.true_eq_false, false_or]; omega)]
  · rw [if_neg hvalid, if_neg hvalid]
    rfl

theorem valid_ends {start : Nat} {ends : List Nat} (h : validEnds start ends = true) :
    ∀ i ending, ends[i]? = some ending →
      (if i = 0 then start else ends.getD (i - 1) 0) < ending ∧ ending ≤ pathMaxBytes := by
  induction ends generalizing start with
  | nil => simp
  | cons first rest ih =>
    intro i ending hi
    simp only [validEnds, Bool.and_eq_true, Bool.not_eq_true', Bool.or_eq_false_iff,
      decide_eq_false_iff_not] at h
    obtain ⟨⟨hlow, hhigh⟩, hrest⟩ := h
    cases i with
    | zero =>
      obtain rfl : first = ending := by simpa using hi
      rw [if_pos rfl]
      omega
    | succ i =>
      rw [List.getElem?_cons_succ] at hi
      have hnext := ih hrest i ending hi
      rw [if_neg (Nat.succ_ne_zero i)]
      cases i with
      | zero => exact hnext
      | succ i => exact hnext

variable {data : PathData} {tags : List Bytes}

/-- What a check of the storage ensures: the tags are not empty and lie inside of it. -/
theorem valid_bounds (h : data.valid = true) :
    0 < data.count ∧ data.count ≤ pathMaxSteps ∧ ∀ i < data.count,
      data.start i < data.ends.getD i 0 ∧ data.ends.getD i 0 ≤ pathMaxBytes := by
  simp only [PathData.valid, Bool.and_eq_true, Bool.not_eq_true', Bool.or_eq_false_iff,
    decide_eq_false_iff_not] at h
  obtain ⟨⟨hzero, hmany⟩, hends⟩ := h
  refine ⟨by omega, by omega, fun i hi => ?_⟩
  have hlength := data.ends_length
  have hget : (data.ends.take data.count)[i]? = some (data.ends.getD i 0) := by
    rw [List.getElem?_take_of_lt hi, List.getD_eq_getElem?_getD,
      List.getElem?_eq_getElem (by omega), Option.getD_some]
  have hbounds := valid_ends hends i _ hget
  unfold PathData.start
  cases i with
  | zero => exact hbounds
  | succ i =>
    rw [if_neg (Nat.succ_ne_zero i)] at hbounds ⊢
    rw [Nat.add_sub_cancel, List.getD_eq_getElem?_getD, List.getElem?_take_of_lt (by omega),
      ← List.getD_eq_getElem?_getD] at hbounds
    rw [Nat.add_sub_cancel]
    exact hbounds

theorem start_succ (i : Nat) : data.start (i + 1) = data.ends.getD i 0 :=
  rfl

theorem valid_tag_length (h : data.valid = true) {i : Nat} (hi : i < data.count) :
    (data.tag i).length = data.start (i + 1) - data.start i ∧
      data.start i < data.start (i + 1) ∧ data.start (i + 1) ≤ pathMaxBytes := by
  obtain ⟨hlow, hhigh⟩ := (valid_bounds h).2.2 i hi
  have hlength := data.bytes_length
  rw [start_succ]
  refine ⟨?_, hlow, hhigh⟩
  rw [PathData.tag, List.length_take, List.length_drop]
  omega

theorem tag_ends_get {start i : Nat} (hi : i < tags.length) :
    (tagEnds start tags)[i]? = some (start + (tags.take (i + 1)).flatten.length) := by
  induction tags generalizing start i with
  | nil => simp at hi
  | cons tag rest ih =>
    cases i with
    | zero => simp [tagEnds]
    | succ i =>
      rw [tagEnds, List.getElem?_cons_succ, ih (by simpa using hi), List.take_succ_cons,
        List.flatten_cons, List.length_append, Nat.add_assoc]

theorem stores_start (h : data.Stores tags) {i : Nat} (hi : i ≤ tags.length) :
    data.start i = (tags.take i).flatten.length := by
  cases i with
  | zero => rfl
  | succ i =>
    rw [start_succ, h.ends, List.getD_eq_getElem?_getD,
      List.getElem?_append_left (by rw [tag_ends_length]; omega), tag_ends_get (by omega)]
    simp

theorem stores_tag (h : data.Stores tags) {i : Nat} (hi : i < tags.length) :
    data.tag i = tags[i] := by
  have hend := stores_start h (Nat.succ_le_of_lt hi)
  rw [Nat.succ_eq_add_one, start_succ] at hend
  have hsplit : tags.flatten = (tags.take i).flatten ++ (tags[i] ++ (tags.drop (i + 1)).flatten) := by
    rw [← List.flatten_cons, ← List.drop_eq_getElem_cons hi, ← List.flatten_append,
      List.take_append_drop]
  have htake : (tags.take (i + 1)).flatten.length = (tags.take i).flatten.length + tags[i].length := by
    rw [List.take_add_one, List.getElem?_eq_getElem hi, List.flatten_append, List.length_append]
    simp
  rw [PathData.tag, hend, stores_start h hi.le, h.bytes, hsplit, htake, Nat.add_sub_cancel_left,
    List.append_assoc, List.drop_left, List.append_assoc, List.take_left]

theorem stores_tags (h : data.Stores tags) : data.tags = tags := by
  refine List.ext_getElem (by rw [PathData.tags, List.length_map, List.length_range, h.count])
    fun i hleft hright => ?_
  simp only [PathData.tags, List.getElem_map, List.getElem_range]
  exact stores_tag h hright

theorem tag_ends_valid {start : Nat} (hne : ∀ tag ∈ tags, tag ≠ [])
    (hfits : start + tags.flatten.length ≤ pathMaxBytes) :
    validEnds start (tagEnds start tags) = true := by
  induction tags generalizing start with
  | nil => rfl
  | cons tag rest ih =>
    rw [List.flatten_cons, List.length_append] at hfits
    have htag := List.length_pos_iff.mpr (hne tag List.mem_cons_self)
    have hrest := @ih (start + tag.length) (fun other h => hne other (List.mem_cons_of_mem _ h))
      (by omega)
    simp only [tagEnds, validEnds, hrest, Bool.and_true, Bool.not_eq_true', Bool.or_eq_false_iff,
      decide_eq_false_iff_not]
    omega

theorem stores_valid (h : data.Stores tags) (hnil : tags ≠ []) (hne : ∀ tag ∈ tags, tag ≠ []) :
    data.valid = true := by
  have hfits := h.fits
  have hcount := h.count
  have hpos := List.length_pos_iff.mpr hnil
  have hsteps := hfits.steps
  have htake : data.ends.take data.count = tagEnds 0 tags := by
    rw [h.ends, hcount, List.take_append_of_le_length (by rw [tag_ends_length]),
      List.take_of_length_le (by rw [tag_ends_length])]
  rw [PathData.valid, htake, tag_ends_valid hne (by rw [Nat.zero_add]; exact hfits.bytes)]
  simp only [Bool.and_true, Bool.not_eq_true', Bool.or_eq_false_iff, decide_eq_false_iff_not]
  omega

theorem spells_tags {text : Bytes} (h : Spells text tags) :
    tags ≠ [] ∧ ∀ tag ∈ tags, tag ≠ [] := by
  have hpair : ∀ {digits : Bytes}, IsTag digits → hexOctets digits ≠ [] := by
    intro digits htag hnil
    have hlength := congrArg List.length hnil
    rw [hex_octets_half, List.length_nil] at hlength
    have hpairs := htag.pairs
    omega
  induction h with
  | last htag => exact ⟨by simp, by simpa using hpair htag⟩
  | cons htag _ ih => exact ⟨by simp, by simpa using ⟨hpair htag, ih.2⟩⟩

end Tags

section Format

variable {data : PathData}

/-- The two digits of an octet spell it, and neither is a terminator. -/
theorem digit_pair (octet : UInt8) :
    (queryHex (upperDigit (octet >>> 4))).isSome ∧ (queryHex (upperDigit (octet &&& 15))).isSome ∧
      UInt8.ofNat ((queryHex (upperDigit (octet >>> 4))).getD 0 * 16 +
        (queryHex (upperDigit (octet &&& 15))).getD 0) = octet := by
  have hall : ∀ n : Fin 256, (queryHex (upperDigit (UInt8.ofNat n >>> 4))).isSome ∧
      (queryHex (upperDigit (UInt8.ofNat n &&& 15))).isSome ∧
      UInt8.ofNat ((queryHex (upperDigit (UInt8.ofNat n >>> 4))).getD 0 * 16 +
        (queryHex (upperDigit (UInt8.ofNat n &&& 15))).getD 0) = UInt8.ofNat n := by
    decide +kernel
  obtain ⟨n, rfl⟩ : ∃ n : Fin 256, octet = UInt8.ofNat n :=
    ⟨⟨octet.toNat, octet.toNat_lt⟩, by simp⟩
  exact hall n

theorem tag_text_octets (tag : Bytes) : hexOctets (tagText tag) = tag := by
  induction tag with
  | nil => rfl
  | cons octet rest ih =>
    show hexOctets (upperDigit (octet >>> 4) :: upperDigit (octet &&& 15) :: tagText rest) = _
    rw [hexOctets, ih, (digit_pair octet).2.2]

/-- A tag is written as two digits for each octet. -/
theorem tag_text_length (tag : Bytes) : (tagText tag).length = 2 * tag.length := by
  induction tag with
  | nil => rfl
  | cons octet rest ih =>
    show (tagText rest).length + 1 + 1 = _
    rw [ih, List.length_cons]
    omega

theorem tag_text_is_tag {tag : Bytes} (h : tag ≠ []) : IsTag (tagText tag) where
  pairs := by
    have hpos := List.length_pos_iff.mpr h
    rw [tag_text_length]
    omega
  hex c hc := by
    obtain ⟨octet, -, hmem⟩ := List.mem_flatMap.mp hc
    have hpair := digit_pair octet
    rcases List.mem_cons.mp hmem with rfl | hmem
    · exact hpair.1
    · rw [List.mem_singleton.mp hmem]
      exact hpair.2.1

/-- From a tag on, the formatter writes a text that spells the tags. -/
theorem steps_text_spells (steps : Nat) :
    ∀ index, (∀ i, index ≤ i → i ≤ index + steps → data.tag i ≠ []) →
      ∃ text, stepsText data index (steps + 1) =
          (if index = 0 then [] else [ascii '/']) ++ text ∧
        Spells text ((List.range' index (steps + 1)).map data.tag) := by
  induction steps with
  | zero =>
    intro index hne
    refine ⟨tagText (data.tag index), ?_, ?_⟩
    · rw [stepsText, stepsText, List.append_nil]
    · have hspells := Spells.last (tag_text_is_tag (hne index (Nat.le_refl _) (Nat.le_refl _)))
      rw [tag_text_octets] at hspells
      exact hspells
  | succ steps ih =>
    intro index hne
    obtain ⟨text, htext, hspells⟩ := ih (index + 1) fun i hlow hhigh =>
      hne i (by omega) (by omega)
    rw [if_neg (Nat.succ_ne_zero index)] at htext
    refine ⟨tagText (data.tag index) ++ ascii '/' :: text, ?_, ?_⟩
    · rw [stepsText, htext, List.append_assoc, List.singleton_append]
    · have htag := tag_text_is_tag (hne index (Nat.le_refl _) (Nat.le_add_right _ _))
      have hcons := Spells.cons htag hspells
      rw [tag_text_octets] at hcons
      rw [List.range'_succ, List.map_cons]
      exact hcons

/-- The text of a path. -/
def PathData.text (data : PathData) : Bytes :=
  stepsText data 0 data.count

theorem path_text_spells (h : data.valid = true) : Spells data.text data.tags := by
  obtain ⟨hpos, -, hbounds⟩ := valid_bounds h
  obtain ⟨steps, hcount⟩ : ∃ steps, data.count = steps + 1 := ⟨data.count - 1, by omega⟩
  have hne : ∀ i, 0 ≤ i → i ≤ 0 + steps → data.tag i ≠ [] := by
    intro i _ hi hnil
    obtain ⟨hlength, hlt, -⟩ := valid_tag_length h (by omega : i < data.count)
    rw [hnil, List.length_nil] at hlength
    omega
  obtain ⟨text, htext, hspells⟩ := steps_text_spells steps 0 hne
  rw [PathData.text, PathData.tags, hcount, htext, List.range_eq_range']
  exact hspells

theorem tags_flatten_length (h : data.valid = true) (steps : Nat) :
    ∀ index, index + steps ≤ data.count →
      ((List.range' index steps).map data.tag).flatten.length + data.start index =
        data.start (index + steps) := by
  induction steps with
  | zero => exact fun index _ => by simp
  | succ steps ih =>
    intro index hindex
    have hrest := ih (index + 1) (by omega)
    obtain ⟨htag, hlt, -⟩ := valid_tag_length h (by omega : index < data.count)
    rw [Nat.add_right_comm, Nat.add_assoc] at hrest
    rw [List.range'_succ, List.map_cons, List.flatten_cons, List.length_append, htag]
    omega

/-- The tags take what lies in front of the last end. -/
theorem tags_end (h : data.valid = true) :
    data.tags.flatten.length = data.ends.getD (data.count - 1) 0 := by
  obtain ⟨last, hcount⟩ : ∃ last, data.count = last + 1 :=
    ⟨data.count - 1, by have hpos := (valid_bounds h).1; omega⟩
  have hlength := tags_flatten_length h data.count 0 (by omega)
  rw [Nat.zero_add, ← List.range_eq_range', hcount, start_succ] at hlength
  rw [PathData.tags, hcount, Nat.add_sub_cancel]
  exact hlength

theorem valid_tags_fit (h : data.valid = true) : FitsPath data.tags where
  steps := by
    rw [PathData.tags, List.length_map, List.length_range]
    exact (valid_bounds h).2.1
  bytes := by
    obtain ⟨hpos, -, hbounds⟩ := valid_bounds h
    rw [tags_end h]
    exact (hbounds _ (by omega)).2

theorem path_text_length (h : data.valid = true) :
    data.text.length = 2 * data.ends.getD (data.count - 1) 0 + data.count - 1 := by
  have hlength := spells_length (path_text_spells h)
  rw [tags_end h, PathData.tags, List.length_map, List.length_range] at hlength
  omega

/-- A text that the formatter writes ends at its terminator. -/
theorem text_terminated (h : data.valid = true) (rest : Bytes) :
    (data.text ++ 0 :: rest).takeWhile (· ≠ 0) = data.text := by
  have hchars : ∀ c ∈ data.text, decide (c ≠ 0) = true := by
    intro c hc
    refine decide_eq_true fun hzero => ?_
    rcases spells_chars (path_text_spells h) c hc with hhex | hslash
    · rw [hzero] at hhex
      exact absurd hhex (by decide)
    · rw [hzero] at hslash
      exact absurd hslash (by decide)
  rw [List.takeWhile_append_of_pos hchars, List.takeWhile_cons_of_neg (by simp), List.append_nil]

/-- A path is formatted into a text with a terminator where the room is enough for it, and this text
reads back with the same tags. Without room enough the output stays; the size that is required is
known in either case. -/
theorem query_format_reads_back (h : data.valid = true) :
    (∀ output, queryFormat data output =
      output.elim ⟨.ok (), some (data.text.length + 1), none⟩ fun room =>
        if room.length ≤ data.text.length then
          ⟨.error .bufferTooShort, some (data.text.length + 1), some room⟩
        else
          ⟨.ok (), some (data.text.length + 1),
            some (data.text ++ 0 :: room.drop (data.text.length + 1))⟩) ∧
      ∀ rest, ∃ data', queryParseText (data.text ++ 0 :: rest) = .ok data' ∧ data'.valid = true ∧
        data'.tags = data.tags := by
  have hspells := path_text_spells h
  refine ⟨fun output => ?_, fun rest => ?_⟩
  · have hstored : ∀ room, Octets.store room 0 (stepsText data 0 data.count ++ [0]) =
        data.text ++ 0 :: room.drop (data.text.length + 1) := by
      intro room
      rw [Octets.store, List.take_zero, List.nil_append, Nat.zero_add, List.length_append,
        List.append_assoc]
      rfl
    unfold queryFormat
    rw [if_neg (by simp [h])]
    dsimp only
    rw [← path_text_length h]
    cases output with
    | none => rfl
    | some room =>
      dsimp only [Option.elim]
      rw [hstored]
  · obtain ⟨data', hstores⟩ := (valid_tags_fit h).stored
    obtain ⟨hnil, hne⟩ := spells_tags hspells
    refine ⟨data', ?_, stores_valid hstores hnil hne, stores_tags hstores⟩
    rw [queryParseText, text_terminated h]
    exact spells_parsed hspells hstores

/-- The storage of a parsed text. -/
def storedPath (text : String) : PathData :=
  (queryParse (asciiText text)).toOption.getD PathData.zero

/-- A path is written in capitals and reads back with the same tags. -/
theorem query_format_reads_back_nested :
    (storedPath "6f/A5/9f02").valid = true ∧
      queryFormat (storedPath "6f/A5/9f02") (some (List.replicate 12 7)) =
        ⟨.ok (), some 11, some (asciiText "6F/A5/9F02" ++ [0, 7])⟩ ∧
      ∃ data, queryParseText (asciiText "6F/A5/9F02" ++ [0, 7]) = .ok data ∧ data.valid = true ∧
        data.tags = [[0x6F], [0xA5], [0x9F, 0x02]] := by
  have hvalid : (storedPath "6f/A5/9f02").valid = true := by decide +kernel
  have htext : (storedPath "6f/A5/9f02").text = asciiText "6F/A5/9F02" := by decide +kernel
  have htags : (storedPath "6f/A5/9f02").tags = [[0x6F], [0xA5], [0x9F, 0x02]] := by decide +kernel
  have hformat := (query_format_reads_back hvalid).1 (some (List.replicate 12 7))
  have hback := (query_format_reads_back hvalid).2 [7]
  rw [htext] at hformat hback
  rw [htags] at hback
  exact ⟨hvalid, hformat.trans (by decide +kernel), hback⟩

end Format

end OpenTlv.Query
