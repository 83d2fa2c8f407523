import OpenTlv.Asn1.BerGrammar
import OpenTlv.Builtins.Dol

/-!
# What data object lists are filled with

One entry fills its own segment, and the loop fills segment after segment. The reading loop with
the listing visitor walks the same entries, so both are followed in one induction on the steps,
with the entries handled so far as the common state.
-/

namespace OpenTlv

section Entry

variable {σ : Type} {entry : DolEntry} {index : Nat} {resolve : DolResolver σ}
  {limits : DolLimits} {data : Bytes} {segment dolOffset : Nat} {s : σ}

/-- The two fillings around a value, and the value between them. -/
theorem store_around {before value after : Bytes}
    (hroom : segment + (before ++ (value ++ after)).length ≤ data.length) :
    ∃ filled, (do
      let data ← Guarded.put data segment before
      Guarded.put data (segment + before.length + value.length) after :
        DolResult Bytes) = .ok filled ∧
      (value = [] → filled = Octets.store data segment (before ++ (value ++ after))) ∧
      (Guarded.put filled (segment + before.length) value : DolResult Bytes) =
        .ok (Octets.store data segment (before ++ (value ++ after))) := by
  simp only [List.length_append] at hroom
  have hfirst : segment + before.length ≤ data.length := by omega
  have hfirstLength := @Octets.store_length data before segment hfirst
  have hsecond : segment + before.length + value.length + after.length ≤
      (Octets.store data segment before).length := by omega
  have hsecondLength := Octets.store_length hsecond
  refine ⟨Octets.store (Octets.store data segment before)
    (segment + before.length + value.length) after, ?_, ?_, ?_⟩
  · rw [Guarded.put_of_le hfirst]
    exact Guarded.put_of_le hsecond
  · intro hnil
    rw [hnil, List.nil_append, List.length_nil, Nat.add_zero]
    exact Guarded.store_after (by omega)
  · rw [Guarded.put_of_le (by omega), Guarded.store_before (by omega),
      Guarded.store_after (by omega)]

/-- A segment with room for the value is the value between two paddings. -/
theorem dol_segment_of_le {value : Bytes} {format : DolFormat} {requested : Nat}
    (hfits : value.length ≤ requested) :
    dolSegment requested (some (value, format)) =
      List.replicate (if format = .numeric then requested - value.length else 0) 0 ++
        (value ++ List.replicate (requested - value.length -
          if format = .numeric then requested - value.length else 0) 0) := by
  cases format with
  | binary => simp [dolSegment, hfits]
  | numeric => simp [dolSegment, hfits]
  | unknown => simp [dolSegment, hfits]

/-- A segment without room for the value is a part of it. -/
theorem dol_segment_of_gt {value : Bytes} {format : DolFormat} {requested : Nat}
    (hlong : ¬ value.length ≤ requested) :
    dolSegment requested (some (value, format)) =
      (value.drop (if format = .numeric then value.length - requested else 0)).take requested := by
  have htake : (value.drop (value.length - requested)).length = requested := by
    rw [List.length_drop]
    omega
  cases format with
  | binary => simp [dolSegment, hlong]
  | numeric => simp [dolSegment, hlong, List.take_of_length_le (le_of_eq htake)]
  | unknown => simp [dolSegment, hlong]

/-- A present value goes between its paddings or is cut, unless a code stops the entry. -/
theorem produce_value_cases {values : DolValues} {value : Bytes} {format : DolFormat}
    {answer : DolAnswer} {next : σ} (hconsistent : resolve.Consistent values)
    (hvalue : values entry index = some (value, format))
    (hroom : segment + entry.requestedLength ≤ data.length)
    (hprobe : resolve ⟨entry, index, 0, none⟩ s = (.ok answer, next)) :
    (produceEntry entry index resolve limits data segment dolOffset s).1 =
        .ok (Octets.store data segment
          (dolSegment entry.requestedLength (some (value, format)))) ∨
      ∃ code, (produceEntry entry index resolve limits data segment dolOffset s).1 =
        .error (.code code) := by
  have hlength := dol_segment_length entry.requestedLength (some (value, format))
  obtain ⟨habsent, havailable, hformat⟩ :=
    hconsistent.present entry index s answer value format hvalue (by rw [hprobe])
  unfold produceEntry
  rw [hprobe]
  simp only [habsent, Bool.false_eq_true, if_false, havailable, hformat]
  by_cases hlimit : value.length > limits.maxValueLength
  · rw [if_pos hlimit]
    exact .inr ⟨_, rfl⟩
  by_cases hunknown : format ≠ .binary ∧ format ≠ .numeric
  · rw [if_neg hlimit, if_pos hunknown]
    exact .inr ⟨_, rfl⟩
  rw [if_neg hlimit, if_neg hunknown]
  by_cases hfits : value.length ≤ entry.requestedLength
  · have hsegment := @dol_segment_of_le value format _ hfits
    obtain ⟨padded, hpadded, hempty, hput⟩ := @store_around data segment
      (List.replicate (if format = .numeric then entry.requestedLength - value.length else 0) 0)
      value (List.replicate (entry.requestedLength - value.length -
        if format = .numeric then entry.requestedLength - value.length else 0) 0)
      (by rw [← hsegment, hlength]; exact hroom)
    rw [List.length_replicate] at hpadded hput
    rw [← hsegment] at hempty hput
    rw [if_pos hfits, hpadded]
    by_cases hnonempty : value.length ≠ 0
    · simp only [if_pos hnonempty]
      cases hproduce : resolve ⟨entry, index, 0, some (segment +
          (if format = .numeric then entry.requestedLength - value.length else 0),
            value.length)⟩ next with
      | mk reply last =>
        cases reply with
        | error status => exact .inr ⟨_, rfl⟩
        | ok produced =>
          have hbytes := hconsistent.produced entry index 0 _ value.length next produced
            value format hvalue (by omega) (by rw [hproduce])
          rw [List.drop_zero, List.take_length] at hbytes
          refine .inl ?_
          simp only [hbytes, hput]
    · simp only [if_neg hnonempty]
      rw [← hempty (by simpa using hnonempty)]
      exact .inl rfl
  · simp only [if_neg hfits]
    cases hproduce : resolve ⟨entry, index,
        (if format = .numeric then value.length - entry.requestedLength else 0),
        some (segment, entry.requestedLength)⟩ next with
    | mk reply last =>
      cases reply with
      | error status => exact .inr ⟨_, rfl⟩
      | ok produced =>
        have hskip : (if format = .numeric then value.length - entry.requestedLength else 0) +
            entry.requestedLength ≤ value.length := by
          split <;> omega
        have hbytes := hconsistent.produced entry index _ segment _ next produced value format
          hvalue hskip (by rw [hproduce])
        have hput := @Guarded.put_of_le (Status × Option Nat) data
          (dolSegment entry.requestedLength (some (value, format))) segment
          (by rw [hlength]; exact hroom)
        rw [← dol_segment_of_gt hfits] at hbytes
        refine .inl ?_
        simp only [hbytes, hput]

/-- An entry fills its segment, unless a code stops it. -/
theorem produce_entry_cases {values : DolValues} (hconsistent : resolve.Consistent values)
    (hroom : segment + entry.requestedLength ≤ data.length) :
    (produceEntry entry index resolve limits data segment dolOffset s).1 =
        .ok (Octets.store data segment
          (dolSegment entry.requestedLength (values entry index))) ∨
      ∃ code, (produceEntry entry index resolve limits data segment dolOffset s).1 =
        .error (.code code) := by
  cases hprobe : resolve ⟨entry, index, 0, none⟩ s with
  | mk reply next =>
    cases reply with
    | error status =>
      unfold produceEntry
      rw [hprobe]
      exact .inr ⟨_, rfl⟩
    | ok answer =>
      cases hvalue : values entry index with
      | none =>
        have habsent := hconsistent.absent entry index s answer hvalue (by rw [hprobe])
        unfold produceEntry
        rw [hprobe]
        simp only [habsent, if_true]
        exact .inl (Guarded.put_of_le (by simpa using hroom))
      | some found => exact produce_value_cases hconsistent hvalue hroom hprobe

/-- A query that stays inside the segment of its entry. -/
def DolQuery.Inside (query : DolQuery) (entry : DolEntry) (index segment : Nat) : Prop :=
  query.entry = entry ∧ query.index = index ∧
    ∀ start capacity, query.destination = some (start, capacity) →
      segment ≤ start ∧ start + capacity ≤ segment + entry.requestedLength

/-- A resolver that writes down what it is asked. -/
def DolResolver.recorded (resolve : DolResolver σ) : DolResolver (σ × List DolQuery) :=
  fun query context =>
    ((resolve query context.1).1, ((resolve query context.1).2, context.2 ++ [query]))

/-- The queries of an entry stay inside its segment. -/
theorem produce_entry_queries (resolve : DolResolver σ) (log : List DolQuery) :
    ∀ query ∈ (produceEntry entry index resolve.recorded limits data segment dolOffset
      (s, log)).2.2, query ∈ log ∨ query.Inside entry index segment := by
  have hprobe : DolQuery.Inside ⟨entry, index, 0, none⟩ entry index segment :=
    ⟨rfl, rfl, fun start capacity h => by cases h⟩
  have hsecond : ∀ skip start capacity, segment ≤ start →
      start + capacity ≤ segment + entry.requestedLength →
      DolQuery.Inside ⟨entry, index, skip, some (start, capacity)⟩ entry index segment := by
    intro skip start capacity hlow hhigh
    refine ⟨rfl, rfl, fun start' capacity' h => ?_⟩
    cases h
    exact ⟨hlow, hhigh⟩
  have hone : ∀ query ∈ log ++ [⟨entry, index, 0, none⟩],
      query ∈ log ∨ query.Inside entry index segment := by
    intro query hquery
    rcases List.mem_append.mp hquery with hold | hnew
    · exact .inl hold
    · rw [List.mem_singleton.mp hnew]
      exact .inr hprobe
  have htwo : ∀ skip start capacity, segment ≤ start →
      start + capacity ≤ segment + entry.requestedLength →
      ∀ query ∈ log ++ [⟨entry, index, 0, none⟩] ++
          [⟨entry, index, skip, some (start, capacity)⟩],
        query ∈ log ∨ query.Inside entry index segment := by
    intro skip start capacity hlow hhigh query hquery
    rcases List.mem_append.mp hquery with hold | hnew
    · exact hone query hold
    · rw [List.mem_singleton.mp hnew]
      exact .inr (hsecond skip start capacity hlow hhigh)
  intro query hquery
  unfold produceEntry DolResolver.recorded at hquery
  dsimp only at hquery
  -- the first query asks for the size, the second for the value
  cases hreply : (resolve ⟨entry, index, 0, none⟩ s).1 with
  | error status =>
    rw [hreply] at hquery
    exact hone query hquery
  | ok answer =>
    rw [hreply] at hquery
    dsimp only at hquery
    by_cases habsent : answer.absent = true
    · rw [if_pos habsent] at hquery
      exact hone query hquery
    by_cases hlimit : answer.availableLength > limits.maxValueLength
    · rw [if_neg habsent, if_pos hlimit] at hquery
      exact hone query hquery
    by_cases hunknown : answer.format ≠ .binary ∧ answer.format ≠ .numeric
    · rw [if_neg habsent, if_neg hlimit, if_pos hunknown] at hquery
      exact hone query hquery
    rw [if_neg habsent, if_neg hlimit, if_neg hunknown] at hquery
    by_cases hfits : answer.availableLength ≤ entry.requestedLength
    · rw [if_pos hfits] at hquery
      have hleading : (if answer.format = .numeric then
          entry.requestedLength - answer.availableLength else 0) ≤
          entry.requestedLength - answer.availableLength := by
        split <;> omega
      split at hquery
      · exact hone query hquery
      · split at hquery
        · refine htwo 0 (segment + if answer.format = .numeric then
            entry.requestedLength - answer.availableLength else 0)
            answer.availableLength (by omega) (by omega) query ?_
          split at hquery
          · next hmatch =>
            obtain ⟨_, rfl⟩ := Prod.mk.inj hmatch
            exact hquery
          · next hmatch =>
            obtain ⟨_, rfl⟩ := Prod.mk.inj hmatch
            exact hquery
        · exact hone query hquery
    · rw [if_neg hfits] at hquery
      refine htwo (if answer.format = .numeric then
        answer.availableLength - entry.requestedLength else 0) segment entry.requestedLength
        (le_refl _) (le_refl _) query ?_
      split at hquery
      · next hmatch =>
        obtain ⟨_, rfl⟩ := Prod.mk.inj hmatch
        exact hquery
      · next hmatch =>
        obtain ⟨_, rfl⟩ := Prod.mk.inj hmatch
        exact hquery

/-- Writing down the queries does not change what an entry does. -/
theorem produce_entry_recorded (resolve : DolResolver σ) (log : List DolQuery) :
    (produceEntry entry index resolve.recorded limits data segment dolOffset (s, log)).1 =
        (produceEntry entry index resolve limits data segment dolOffset s).1 ∧
      (produceEntry entry index resolve.recorded limits data segment dolOffset (s, log)).2.1 =
        (produceEntry entry index resolve limits data segment dolOffset s).2 := by
  unfold produceEntry DolResolver.recorded
  dsimp only
  cases hprobe : resolve ⟨entry, index, 0, none⟩ s with
  | mk reply next =>
    cases reply with
    | error status => exact ⟨rfl, rfl⟩
    | ok answer =>
      dsimp only
      by_cases habsent : answer.absent = true
      · simp only [if_pos habsent, and_self]
      by_cases hlimit : answer.availableLength > limits.maxValueLength
      · simp only [if_neg habsent, if_pos hlimit, and_self]
      by_cases hunknown : answer.format ≠ .binary ∧ answer.format ≠ .numeric
      · simp only [if_neg habsent, if_neg hlimit, if_pos hunknown, and_self]
      simp only [if_neg habsent, if_neg hlimit, if_neg hunknown]
      by_cases hfits : answer.availableLength ≤ entry.requestedLength
      · simp only [if_pos hfits]
        split
        · exact ⟨rfl, rfl⟩
        · by_cases hnonempty : answer.availableLength ≠ 0
          · simp only [if_pos hnonempty]
            cases resolve ⟨entry, index, 0, some (segment + (if answer.format = .numeric then
                entry.requestedLength - answer.availableLength else 0),
                answer.availableLength)⟩ next with
            | mk reply last => cases reply <;> exact ⟨rfl, rfl⟩
          · simp only [if_neg hnonempty, and_self]
      · simp only [if_neg hfits]
        cases resolve ⟨entry, index, (if answer.format = .numeric then
            answer.availableLength - entry.requestedLength else 0),
            some (segment, entry.requestedLength)⟩ next with
        | mk reply last => cases reply <;> exact ⟨rfl, rfl⟩

end Entry

section Loop

variable {σ : Type} {dol : Bytes} {limits : DolLimits} {resolve : DolResolver σ}

/-- An entry is read inside the list. -/
theorem read_entry_bounds {offset used : Nat} {entry : DolEntry} (hoffset : offset ≤ dol.length)
    (h : readEntry dol offset = .ok (entry, used)) :
    0 < used ∧ offset + used ≤ dol.length := by
  unfold readEntry at h
  cases hread : berReadTag (dol.drop offset) with
  | mk outcome consumed =>
    rw [hread] at h
    cases outcome with
    | error status => cases h
    | ok tag =>
      have hbounds := (@ber_tag_of_read (dol.drop offset) tag (by rw [hread])).2.2
      rw [hread, List.length_drop] at hbounds
      dsimp only at h hbounds
      by_cases hend : offset + consumed = dol.length
      · rw [if_pos hend] at h
        cases h
      · rw [if_neg hend] at h
        have hused : used = consumed + 1 := by
          obtain ⟨requested, hoctet, h⟩ := bind_ok.mp h
          exact (congrArg Prod.snd (Except.ok.inj h)).symm
        omega

/-- No read of an entry leaves the list. -/
theorem read_entry_ne_fault {offset : Nat} (hoffset : offset ≤ dol.length) :
    readEntry dol offset ≠ .error .fault := by
  unfold readEntry
  cases hread : berReadTag (dol.drop offset) with
  | mk outcome consumed =>
    cases outcome with
    | error status => exact fun h => by cases h
    | ok tag =>
      have hbounds := (@ber_tag_of_read (dol.drop offset) tag (by rw [hread])).2.2
      rw [hread, List.length_drop] at hbounds
      dsimp only at hbounds ⊢
      by_cases hend : offset + consumed = dol.length
      · rw [if_pos hend]
        exact fun h => by cases h
      · rw [if_neg hend]
        have hindex : offset + consumed < dol.length := by omega
        have hoctet : (Guarded.octet dol (offset + consumed) : DolResult UInt8) =
            .ok dol[offset + consumed] := by
          unfold Guarded.octet
          rw [List.getElem?_eq_getElem hindex]
        rw [hoctet]
        exact fun h => by cases h

/-- What one entry adds to the listing. -/
theorem list_step {steps offset count : Nat} {entry : DolEntry} {used : Nat}
    {entries : List DolEntry} (hoffset : offset < dol.length) (hcount : count ≠ limits.maxEntries)
    (hread : readEntry dol offset = .ok (entry, used)) :
    dolReadLoop dol limits listEntry (steps + 1) offset count entries =
      dolReadLoop dol limits listEntry steps (offset + used) (count + 1) (entries ++ [entry]) := by
  rw [dolReadLoop, if_pos hoffset, if_neg hcount, hread]
  rfl

/-- Listing keeps the entries listed so far. -/
theorem list_extends (steps offset count : Nat) (entries : List DolEntry) :
    ∃ more,
      (dolReadLoop dol limits listEntry steps offset count entries).2 = entries ++ more := by
  induction steps generalizing offset count entries with
  | zero => exact ⟨[], (List.append_nil _).symm⟩
  | succ steps ih =>
    by_cases hoffset : offset < dol.length
    · by_cases hcount : count = limits.maxEntries
      · rw [dolReadLoop, if_pos hoffset, if_pos hcount]
        exact ⟨[], (List.append_nil _).symm⟩
      · cases hread : readEntry dol offset with
        | error stop =>
          rw [dolReadLoop, if_pos hoffset, if_neg hcount, hread]
          exact ⟨[], (List.append_nil _).symm⟩
        | ok read =>
          obtain ⟨entry, used⟩ := read
          obtain ⟨more, hmore⟩ := ih (offset + used) (count + 1) (entries ++ [entry])
          rw [list_step hoffset hcount hread]
          exact ⟨entry :: more, by rw [hmore, List.append_assoc]; rfl⟩
    · rw [dolReadLoop, if_neg hoffset]
      exact ⟨[], (List.append_nil _).symm⟩

/-- A size query is the sum over the listing. -/
theorem write_measures (steps offset : Nat) (entries : List DolEntry) (s : σ) :
    (dolWriteLoop dol limits resolve steps offset entries.length (dolSize entries) none s).1 =
      (dolReadLoop dol limits listEntry steps offset entries.length entries).1.map fun _ =>
        (dolSize (dolReadLoop dol limits listEntry steps offset entries.length entries).2,
          none) := by
  induction steps generalizing offset entries with
  | zero => rfl
  | succ steps ih =>
    by_cases hoffset : offset < dol.length
    · by_cases hcount : entries.length = limits.maxEntries
      · rw [dolWriteLoop, dolReadLoop, if_pos hoffset, if_pos hoffset, if_pos hcount,
          if_pos hcount]
        rfl
      · cases hread : readEntry dol offset with
        | error stop =>
          rw [dolWriteLoop, dolReadLoop, if_pos hoffset, if_pos hoffset, if_neg hcount,
            if_neg hcount, hread]
          rfl
        | ok read =>
          obtain ⟨entry, used⟩ := read
          have hrest := ih (offset + used) (entries ++ [entry])
          rw [List.length_append, List.length_singleton, dol_size_append] at hrest
          rw [list_step hoffset hcount hread, dolWriteLoop, if_pos hoffset, if_neg hcount,
            hread]
          exact hrest
    · rw [dolWriteLoop, dolReadLoop, if_neg hoffset, if_neg hoffset]
      rfl

/-- A writing loop that succeeds fills the segments of the listing one behind the other. -/
theorem write_fills {values : DolValues} (hconsistent : resolve.Consistent values)
    {destination : Bytes} {written : Nat} {result : Option Bytes} (steps offset : Nat)
    (entries : List DolEntry) (s : σ) (hroom : dolSize entries ≤ destination.length)
    (h : (dolWriteLoop dol limits resolve steps offset entries.length (dolSize entries)
      (some (Octets.store destination 0 (dolData values entries))) s).1 =
        .ok (written, result)) :
    ∃ all,
      dolReadLoop dol limits listEntry steps offset entries.length entries = (.ok (), all) ∧
      written = dolSize all ∧ dolSize all ≤ destination.length ∧
      result = some (Octets.store destination 0 (dolData values all)) := by
  have hdata := dol_data_length values entries
  have hstored := @Octets.store_length destination (dolData values entries) 0 (by omega)
  induction steps generalizing offset entries s with
  | zero => cases h
  | succ steps ih =>
    by_cases hoffset : offset < dol.length
    · by_cases hcount : entries.length = limits.maxEntries
      · rw [dolWriteLoop, if_pos hoffset, if_pos hcount] at h
        cases h
      · cases hread : readEntry dol offset with
        | error stop =>
          rw [dolWriteLoop, if_pos hoffset, if_neg hcount, hread] at h
          cases h
        | ok read =>
          obtain ⟨entry, used⟩ := read
          rw [dolWriteLoop, if_pos hoffset, if_neg hcount, hread] at h
          dsimp only at h
          by_cases hshort : dolSize entries + entry.requestedLength >
              (Octets.store destination 0 (dolData values entries)).length
          · rw [if_pos hshort] at h
            cases h
          · rw [if_neg hshort] at h
            rw [hstored] at hshort
            have hproduced := @produce_entry_cases σ entry entries.length resolve limits
              (Octets.store destination 0 (dolData values entries)) (dolSize entries) offset s
              values hconsistent (by omega)
            cases hrun : produceEntry entry entries.length resolve limits
                (Octets.store destination 0 (dolData values entries)) (dolSize entries)
                offset s with
            | mk outcome next =>
              rw [hrun] at h hproduced
              obtain hproduced | ⟨code, hproduced⟩ := hproduced
              · have houtcome : outcome = .ok (Octets.store destination 0
                    (dolData values (entries ++ [entry]))) := by
                  have hafter := @Guarded.store_after destination
                    (dolData values entries) (dolSegment entry.requestedLength
                      (values entry entries.length)) 0 (Nat.zero_le _)
                  rw [Nat.zero_add, hdata] at hafter
                  rw [dol_data_append, ← hafter]
                  exact hproduced
                have hlength := dol_data_length values (entries ++ [entry])
                have hsize := dol_size_append entries entry
                subst outcome
                have hrest := ih (offset + used) (entries ++ [entry]) next (by omega)
                rw [List.length_append, List.length_singleton, hsize] at hrest
                rw [list_step hoffset hcount hread]
                exact hrest h (by omega) (Octets.store_length (by omega))
              · rw [show outcome = _ from hproduced] at h
                cases h
    · rw [dolWriteLoop, if_neg hoffset] at h
      obtain ⟨rfl, rfl⟩ := Prod.mk.inj (Except.ok.inj h)
      rw [dolReadLoop, if_neg hoffset]
      exact ⟨entries, rfl, rfl, hroom, rfl⟩

/-- A writing loop with a consistent resolver stays inside its storage. -/
theorem write_ne_fault {values : DolValues} (hconsistent : resolve.Consistent values)
    (steps offset count total : Nat) (data : Option Bytes) (s : σ)
    (hoffset : offset ≤ dol.length) (hsteps : dol.length < offset + steps) :
    (dolWriteLoop dol limits resolve steps offset count total data s).1 ≠ .error .fault := by
  induction steps generalizing offset count total data s with
  | zero => omega
  | succ steps ih =>
    by_cases hinside : offset < dol.length
    · by_cases hcount : count = limits.maxEntries
      · rw [dolWriteLoop, if_pos hinside, if_pos hcount]
        exact fun h => by cases h
      · cases hread : readEntry dol offset with
        | error stop =>
          have hstop := @read_entry_ne_fault dol offset hoffset
          rw [dolWriteLoop, if_pos hinside, if_neg hcount, hread]
          intro h
          obtain rfl := Except.error.inj h
          exact hstop hread
        | ok read =>
          obtain ⟨entry, used⟩ := read
          have hbounds := read_entry_bounds hoffset hread
          rw [dolWriteLoop, if_pos hinside, if_neg hcount, hread]
          cases data with
          | none => exact ih _ _ _ _ _ hbounds.2 (by omega)
          | some data =>
            dsimp only
            by_cases hshort : total + entry.requestedLength > data.length
            · rw [if_pos hshort]
              exact fun h => by cases h
            · have hproduced := @produce_entry_cases σ entry count resolve limits data total
                offset s values hconsistent (by omega)
              rw [if_neg hshort]
              cases hrun : produceEntry entry count resolve limits data total offset s with
              | mk outcome next =>
                rw [hrun] at hproduced
                obtain hproduced | ⟨code, hproduced⟩ := hproduced
                · rw [show outcome = _ from hproduced]
                  exact ih _ _ _ _ _ hbounds.2 (by omega)
                · rw [show outcome = _ from hproduced]
                  exact fun h => by cases h
    · rw [dolWriteLoop, if_neg hinside]
      exact fun h => by cases h

/-- A query inside the segment of its entry in the output of a listing. -/
def DolQuery.InSegment (query : DolQuery) (entries : List DolEntry) : Prop :=
  entries[query.index]? = some query.entry ∧
    ∀ start capacity, query.destination = some (start, capacity) →
      dolSize (entries.take query.index) ≤ start ∧
        start + capacity ≤ dolSize (entries.take query.index) + query.entry.requestedLength

/-- More entries behind do not move the segments of a listing. -/
theorem in_segment_append {query : DolQuery} {entries : List DolEntry} (more : List DolEntry)
    (h : query.InSegment entries) : query.InSegment (entries ++ more) := by
  have hindex : query.index < entries.length := by
    by_contra hout
    have hentry := h.1
    rw [List.getElem?_eq_none (by omega)] at hentry
    cases hentry
  refine ⟨?_, ?_⟩
  · rw [List.getElem?_append_left hindex]
    exact h.1
  · rw [List.take_append_of_le_length (by omega)]
    exact h.2

/-- The queries of the next entry of a listing. -/
theorem inside_in_segment {query : DolQuery} {entries : List DolEntry} {entry : DolEntry}
    (h : query.Inside entry entries.length (dolSize entries)) :
    query.InSegment (entries ++ [entry]) := by
  obtain ⟨hentry, hindex, hdestination⟩ := h
  refine ⟨?_, ?_⟩
  · rw [hindex, hentry]
    simp
  · rw [hindex, hentry, List.take_left' rfl]
    exact hdestination

/-- Every query of a writing loop stays inside the segment of its entry, and writing the queries
down does not change what the loop does. -/
theorem write_queries (resolve : DolResolver σ) (steps offset : Nat) (entries : List DolEntry)
    (data : Option Bytes) (s : σ) (log : List DolQuery)
    (hlog : ∀ query ∈ log, query.InSegment entries) :
    (dolWriteLoop dol limits resolve.recorded steps offset entries.length (dolSize entries) data
        (s, log)).1 =
        (dolWriteLoop dol limits resolve steps offset entries.length (dolSize entries)
          data s).1 ∧
      ∀ query ∈ (dolWriteLoop dol limits resolve.recorded steps offset entries.length
          (dolSize entries) data (s, log)).2.2,
        query.InSegment
          (dolReadLoop dol limits listEntry steps offset entries.length entries).2 := by
  -- Where the loop ends, the listing has no fewer entries than the queries know.
  have hdone : ∀ steps, ∀ query ∈ log, query.InSegment
      (dolReadLoop dol limits listEntry steps offset entries.length entries).2 := by
    intro steps query hquery
    obtain ⟨more, hmore⟩ := @list_extends dol limits steps offset entries.length entries
    rw [hmore]
    exact in_segment_append more (hlog query hquery)
  induction steps generalizing offset entries data s log with
  | zero => exact ⟨rfl, hdone 0⟩
  | succ steps ih =>
    have hnow := hdone (steps + 1)
    by_cases hoffset : offset < dol.length
    · by_cases hcount : entries.length = limits.maxEntries
      · rw [dolWriteLoop, dolWriteLoop, if_pos hoffset, if_pos hcount, if_pos hoffset,
          if_pos hcount]
        exact ⟨rfl, hnow⟩
      · cases hread : readEntry dol offset with
        | error stop =>
          rw [dolWriteLoop, dolWriteLoop, if_pos hoffset, if_neg hcount, if_pos hoffset,
            if_neg hcount, hread]
          exact ⟨rfl, hnow⟩
        | ok read =>
          obtain ⟨entry, used⟩ := read
          have hextend : ∀ log : List DolQuery,
              (∀ query ∈ log, query.InSegment (entries ++ [entry])) →
              ∀ steps, ∀ query ∈ log, query.InSegment
                (dolReadLoop dol limits listEntry steps (offset + used)
                  (entries ++ [entry]).length (entries ++ [entry])).2 := by
            intro log hlog steps query hquery
            obtain ⟨more, hmore⟩ := @list_extends dol limits steps (offset + used)
              (entries ++ [entry]).length (entries ++ [entry])
            rw [hmore]
            exact in_segment_append more (hlog query hquery)
          have hnext : ∀ (data : Option Bytes) (s : σ) (log : List DolQuery),
              (∀ query ∈ log, query.InSegment (entries ++ [entry])) → _ :=
            fun data s log hlog => ih (offset + used) (entries ++ [entry]) data s log hlog
              (hextend log hlog)
          simp only [List.length_append, List.length_singleton, dol_size_append] at hnext
          rw [list_step hoffset hcount hread, dolWriteLoop, dolWriteLoop, if_pos hoffset,
            if_neg hcount, if_pos hoffset, if_neg hcount, hread]
          cases data with
          | none =>
            exact hnext none s log fun query hquery =>
              in_segment_append [entry] (hlog query hquery)
          | some data =>
            dsimp only
            by_cases hshort : dolSize entries + entry.requestedLength > data.length
            · rw [if_pos hshort, if_pos hshort]
              refine ⟨rfl, fun query hquery => ?_⟩
              have hlisted := hnow query hquery
              rwa [list_step hoffset hcount hread] at hlisted
            · rw [if_neg hshort, if_neg hshort]
              have hsame := @produce_entry_recorded σ entry entries.length limits data
                (dolSize entries) offset s resolve log
              have hqueries := @produce_entry_queries σ entry entries.length limits data
                (dolSize entries) offset s resolve log
              cases hrun : produceEntry entry entries.length resolve.recorded limits data
                  (dolSize entries) offset (s, log) with
              | mk outcome context =>
                cases hplain : produceEntry entry entries.length resolve limits data
                    (dolSize entries) offset s with
                | mk plain next =>
                  rw [hrun] at hqueries hsame
                  rw [hplain] at hsame
                  obtain ⟨hone, htwo⟩ := hsame
                  have hcontext : context = (next, context.2) := Prod.ext htwo rfl
                  have hnew : ∀ query ∈ context.2,
                      query.InSegment (entries ++ [entry]) := by
                    intro query hquery
                    obtain hold | hinside := hqueries query hquery
                    · exact in_segment_append [entry] (hlog query hold)
                    · exact inside_in_segment hinside
                  obtain rfl : outcome = plain := hone
                  cases outcome with
                  | error stop =>
                    refine ⟨rfl, fun query hquery => ?_⟩
                    have := hextend _ hnew steps query hquery
                    rwa [List.length_append, List.length_singleton] at this
                  | ok filled =>
                    dsimp only
                    rw [hcontext]
                    exact hnext (some filled) next context.2 hnew
    · rw [dolWriteLoop, dolWriteLoop, if_neg hoffset, if_neg hoffset]
      exact ⟨rfl, hnow⟩

end Loop

/-- Data object lists are filled segment by segment. -/
theorem dol_write_segments {σ : Type} (dol : Bytes) (limits : DolLimits)
    (resolve : DolResolver σ) (destination : Bytes) (s : σ) :
    (∀ (values : DolValues) (written : Nat) (result : Option Bytes),
      resolve.Consistent values →
      (dolWrite dol (some destination) limits resolve s).1 = .ok (written, result) →
        ∃ entries, dolListed dol limits = (.ok (), entries) ∧
          written = dolSize entries ∧ written ≤ destination.length ∧
          result = some (Octets.store destination 0 (dolData values entries)) ∧
          (dolWrite dol none limits resolve s).1 = .ok (written, none)) ∧
    (∀ values : DolValues, resolve.Consistent values →
      (dolWrite dol (some destination) limits resolve s).1 ≠ .error .fault) ∧
    (dolWrite dol (some destination) limits resolve.recorded (s, [])).1 =
      (dolWrite dol (some destination) limits resolve s).1 ∧
    ∀ query ∈ (dolWrite dol (some destination) limits resolve.recorded (s, [])).2.2,
      query.InSegment (dolListed dol limits).2 := by
  have hqueries := @write_queries σ dol limits resolve (dol.length + 1) 0 [] (some destination) s
    [] (fun query hquery => by cases hquery)
  unfold dolWrite dolListed dolRead
  by_cases hlimit : limits.maxValueLength > dolMaxValueLength
  · rw [if_pos hlimit, if_pos hlimit, if_pos hlimit]
    refine ⟨?_, ?_, rfl, ?_⟩
    · intro values written result _ h
      cases h
    · exact fun values _ h => by cases h
    · intro query hquery
      cases hquery
  · simp only [if_neg hlimit]
    refine ⟨?_, ?_, hqueries⟩
    · intro values written result hconsistent h
      obtain ⟨entries, hlisted, hwritten, hroom, hresult⟩ :=
        @write_fills σ dol limits resolve values hconsistent destination written result
          (dol.length + 1) 0 [] s (Nat.zero_le _) (by
            rw [show dolData values [] = [] from rfl, Guarded.store_nil]
            exact h)
      have hmeasure := @write_measures σ dol limits resolve (dol.length + 1) 0 [] s
      rw [hlisted] at hmeasure
      refine ⟨entries, hlisted, hwritten, by omega, hresult, ?_⟩
      rw [hwritten]
      exact hmeasure
    · intro values hconsistent
      exact write_ne_fault hconsistent _ _ _ _ _ _ (Nat.zero_le _) (by omega)

/-- The resolver that answers by given values. -/
def DolResolver.ofValues (values : DolValues) : DolResolver Unit := fun query s =>
  match values query.entry query.index with
  | none => (.ok { absent := true }, s)
  | some (value, format) =>
    let bytes := match query.destination with
      | none => []
      | some (_, capacity) => (value.drop query.skip).take capacity
    (.ok { availableLength := value.length, format := format, bytes := bytes }, s)

/-- A resolver over fixed values is consistent. -/
theorem of_values_consistent (values : DolValues) :
    (DolResolver.ofValues values).Consistent values := by
  refine ⟨?_, ?_, ?_⟩
  · intro entry index s answer hvalue h
    simp only [DolResolver.ofValues, hvalue] at h
    rw [← Except.ok.inj h]
  · intro entry index s answer value format hvalue h
    simp only [DolResolver.ofValues, hvalue] at h
    rw [← Except.ok.inj h]
    exact ⟨rfl, rfl, rfl⟩
  · intro entry index skip start capacity s answer value format hvalue _ h
    simp only [DolResolver.ofValues, hvalue] at h
    rw [← Except.ok.inj h]

/-- A short numeric value and an absent one. -/
def dolDate : DolValues := fun entry _ =>
  if entry.tag = [0x9A] then some ([0x26], .numeric) else none

/-- The numeric value is filled up on the left, the absent one with zeros. -/
theorem dol_write_segments_date :
    (dolWrite [0x9A, 3, 0x95, 2] (some [1, 1, 1, 1, 1]) dolDefaultLimits
        (DolResolver.ofValues dolDate) ()).1 = .ok (5, some [0, 0, 0x26, 0, 0]) ∧
      ∃ entries, dolListed [0x9A, 3, 0x95, 2] dolDefaultLimits = (.ok (), entries) ∧
        dolData dolDate entries = [0, 0, 0x26, 0, 0] := by
  have hrun : (dolWrite [0x9A, 3, 0x95, 2] (some [1, 1, 1, 1, 1]) dolDefaultLimits
      (DolResolver.ofValues dolDate) ()).1 = .ok (5, some [0, 0, 0x26, 0, 0]) := by decide
  obtain ⟨hwrite, -⟩ := dol_write_segments [0x9A, 3, 0x95, 2] dolDefaultLimits
    (DolResolver.ofValues dolDate) [1, 1, 1, 1, 1] ()
  obtain ⟨entries, hlisted, hwritten, -, hresult, -⟩ := hwrite _ _ _
    (of_values_consistent _) hrun
  refine ⟨hrun, entries, hlisted, ?_⟩
  have hstore := Option.some.inj hresult
  rw [Guarded.store_front, dol_data_length, ← hwritten] at hstore
  simpa using hstore.symm

end OpenTlv
