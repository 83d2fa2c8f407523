import OpenTlv.Query.Analyzer
import OpenTlv.Query.ParserFits

/-!
# The analyzer stays in the payload

An instruction copies at most the payload that its token pays for, and only once. Before
instruction `k` is analyzed, the payload that is used and what the instructions from `k` on may
still need are together within the total. Every access of `analyze` is to an operand that lies
before its instruction, or to a constant that was copied before.
-/

namespace OpenTlv.Query

/-- A constant is copied to the payload. -/
def Op.isConstant (op : Op) : Bool :=
  op = .bytes || op = .string

/-- The instructions and the payload between two turns of a loop of `analyze`. -/
structure Analysis.Fits (count maxTag total k : Nat) (s : Analysis) : Prop where
  size : s.nodes.size = count
  linked : AllLinked s.nodes.items
  constants : ∀ n ∈ s.nodes.items, n.op.isConstant = true →
    n.dataOffset + n.dataSize ≤ s.payload.size
  room : s.payload.size + roomOf maxTag (s.nodes.items.drop k) ≤ total
  area : total ≤ s.payload.capacity

/-- What is left where `analyze` fails. -/
def Analysis.Failed (count : Nat) (e : Stop) (s : Analysis) : Prop :=
  Reported e ∧ s.nodes.size = count ∧ AllLinked s.nodes.items

variable {count maxTag total k i : Nat} {s s' : Analysis} {n : Instruction} {text : Bytes}
  {o : CompileOptions}

theorem Analysis.Fits.failed {e : Stop} (h : s.Fits count maxTag total k) (he : Reported e) :
    s.Failed count e :=
  ⟨he, h.size, h.linked⟩

theorem word32_le (n : Nat) : word32 n ≤ n :=
  Nat.mod_le _ _

section Steps

/-- What the steps of the analyzer lead to. -/
abbrev Steps {α : Type} (count : Nat) (step : Analyzer α) (s : Analysis)
    (good : α → Analysis → Prop) : Prop :=
  InPlace.Leads step s (fun e s' => s'.Failed count e) good

theorem get_steps : Steps count get s fun a s' => a = s ∧ s' = s :=
  ⟨rfl, rfl⟩

/-- A node below the count is read without a fault. -/
theorem node_at_steps (h : s.Fits count maxTag total k) (hi : i < count) :
    Steps count (nodeAt i) s fun n s' => s' = s ∧ s.nodes.items[i]? = some n := by
  have hlt : i < s.nodes.size := by rw [h.size]; exact hi
  unfold nodeAt
  refine get_steps.bind fun a s' ha => ?_
  obtain ⟨rfl, rfl⟩ := ha
  unfold within
  rw [Stack.read_of_lt hlt]
  exact ⟨rfl, List.getElem?_eq_getElem hlt⟩

theorem within_steps {α : Type} {found : Option α} {a : α} (h : found = some a) :
    Steps count (within found) s fun b s' => b = a ∧ s' = s := by
  rw [h]
  exact ⟨rfl, rfl⟩

theorem linked_steps {link : Option Nat} {j : Nat} (h : s.Fits count maxTag total k)
    (hlink : link = some j) (hj : j < count) :
    Steps count (linked link) s fun n s' => s' = s ∧ s.nodes.items[j]? = some n := by
  unfold linked
  refine (within_steps hlink).bind fun a s' ha => ?_
  obtain ⟨rfl, rfl⟩ := ha
  exact node_at_steps h hj

theorem only_if_steps {holds : Bool} {step : Analyzer Unit} {good : Unit → Analysis → Prop}
    (hyes : holds = true → Steps count step s good) (hno : holds = false → good () s) :
    Steps count (onlyIf holds step) s good := by
  cases holds with
  | true => exact hyes rfl
  | false => exact hno rfl

theorem only_if_fits {holds : Bool} {step : Analyzer Unit} (h : s.Fits count maxTag total k)
    (hstep : holds = true → Steps count step s fun _ s' => s'.Fits count maxTag total k) :
    Steps count (onlyIf holds step) s fun _ s' => s'.Fits count maxTag total k :=
  only_if_steps hstep fun _ => h

theorem fail_node_steps {α : Type} {good : α → Analysis → Prop} {status : Status}
    {kind : ErrorKind} {expected : String} (h : s.Fits count maxTag total k) :
    Steps count (failNode n status kind expected) s good :=
  h.failed ⟨⟨_, rfl⟩, trivial⟩

theorem fail_limit_steps {α : Type} {good : α → Analysis → Prop} {name : String}
    {configured start stop : Nat} (h : s.Fits count maxTag total k) :
    Steps count (throw (limitedAt name configured start stop)) s good :=
  h.failed (reported_limit _ _ _ _)

theorem require_steps {holds : Bool} {fail : Analyzer Unit}
    (hfail : ∀ good, Steps count fail s good) :
    Steps count (require holds fail) s fun _ s' => s' = s ∧ holds = true := by
  cases holds with
  | true => exact ⟨rfl, rfl⟩
  | false => exact hfail _

theorem set_level_steps (level : Level) (h : s.Fits count maxTag total k) :
    Steps count (setLevel level) s fun _ s' => s'.Fits count maxTag total k :=
  { h with }

theorem payload_offset_steps :
    Steps count payloadOffset s fun offset s' => s' = s ∧ offset ≤ s.payload.size :=
  ⟨rfl, word32_le _⟩

/-- A change of an instruction that keeps its operands, its constant and the room for it. -/
theorem Analysis.Fits.changed {f : Instruction → Instruction} (h : s.Fits count maxTag total k)
    (hn : s.nodes.items[i]? = some n) (hlinked : Linked i (f n))
    (hconstant : (f n).op.isConstant = true →
      (f n).dataOffset + (f n).dataSize ≤ s.payload.size)
    (hroom : k ≤ i → payloadRoom maxTag (f n) ≤ payloadRoom maxTag n) :
    ({ s with nodes := s.nodes.changed i f } : Analysis).Fits count maxTag total k := by
  refine { h with
    size := (Stack.size_changed ..).trans h.size
    linked := h.linked.modify fun m hm => ?_
    constants := fun m hm hop => ?_
    room := ?_ }
  · cases hn.symm.trans hm
    exact hlinked
  · obtain ⟨j, hj⟩ := List.mem_iff_getElem?.mp hm
    rw [show ({ s with nodes := s.nodes.changed i f } : Analysis).nodes.items =
      s.nodes.items.modify i f from rfl, List.getElem?_modify] at hj
    obtain ⟨m', hm', rfl⟩ := Option.map_eq_some_iff.mp hj
    split at hop
    next heq =>
      subst heq
      cases hn.symm.trans hm'
      rw [if_pos rfl]
      exact hconstant hop
    next hne =>
      rw [if_neg hne]
      exact h.constants m' (List.mem_of_getElem? hm') hop
  · have hmodify := @room_of_modify maxTag f s.nodes.items i k fun hk m hm => by
      cases hn.symm.trans hm
      exact hroom hk
    have := h.room
    show s.payload.size + roomOf maxTag ((s.nodes.items.modify i f).drop k) ≤ total
    omega

theorem change_steps {f : Instruction → Instruction} (h : s.Fits count maxTag total k)
    (hi : i < count) : Steps count (change i f) s fun _ s' =>
      s' = { s with nodes := s.nodes.changed i f } := by
  have hlt : i < s.nodes.size := by rw [h.size]; exact hi
  unfold change
  refine get_steps.bind fun a s' ha => ?_
  obtain ⟨rfl, rfl⟩ := ha
  unfold within
  rw [Stack.update_of_lt f hlt]
  rfl

/-- Octets are copied where there is room for them. -/
theorem emit_steps (more : Nat) {bytes : Bytes} (h : s.Fits count maxTag total k)
    (hroom : total + bytes.length ≤ more) (harea : more ≤ s.payload.capacity) :
    Steps count (emit bytes) s fun _ s' => s'.Fits count maxTag more k ∧ s'.nodes = s.nodes ∧
      s'.payload.capacity = s.payload.capacity ∧
        s'.payload.size = s.payload.size + bytes.length := by
  have hused := h.room
  obtain ⟨payload, hpayload, hitems, hcapacity⟩ :=
    @Stack.append_of_le _ s.payload bytes (by omega)
  have hsize : payload.size = s.payload.size + bytes.length := by
    unfold Stack.size
    rw [hitems, List.length_append]
  unfold emit
  refine get_steps.bind fun a s' ha => ?_
  obtain ⟨rfl, rfl⟩ := ha
  unfold within
  rw [hpayload]
  refine ⟨⟨h.size, h.linked, fun n hn hop => ?_, ?_, ?_⟩, rfl, hcapacity, hsize⟩
  · have := h.constants n hn hop
    show n.dataOffset + n.dataSize ≤ payload.size
    omega
  · show payload.size + roomOf maxTag (s'.nodes.items.drop k) ≤ more
    omega
  · show more ≤ payload.capacity
    omega

/-- What an instruction may copy is set apart from what the later ones need. -/
theorem Analysis.Fits.spend (h : s.Fits count maxTag total i) (hn : s.nodes.items[i]? = some n) :
    payloadRoom maxTag n ≤ total ∧ s.Fits count maxTag (total - payloadRoom maxTag n) (i + 1) := by
  obtain ⟨hi, rfl⟩ := List.getElem?_eq_some_iff.mp hn
  have hdrop : roomOf maxTag (s.nodes.items.drop i) =
      payloadRoom maxTag s.nodes.items[i] + roomOf maxTag (s.nodes.items.drop (i + 1)) := by
    rw [List.drop_eq_getElem_cons hi]
    exact List.sum_cons
  have hroom := h.room
  have harea := h.area
  exact ⟨by omega, { h with room := by omega, area := by omega }⟩

theorem Analysis.Fits.next (h : s.Fits count maxTag total i) (hi : i < count) :
    s.Fits count maxTag total (i + 1) := by
  have hlt : i < s.nodes.size := by rw [h.size]; exact hi
  obtain ⟨-, hspent⟩ := h.spend (List.getElem?_eq_getElem hlt)
  have := hspent.room
  exact { hspent with room := by omega, area := h.area }

/-- The arguments of a call lie before it. -/
theorem call_walk_steps (h : s.Fits count maxTag total k) (hi : i ≤ count) (budget : Nat)
    (link : Option Nat) (found : List Nat) (hlink : ∀ l, link = some l → l < i)
    (hfound : ∀ a ∈ found, a < i) :
    Steps count (callWalk budget link found) s fun result s' => s' = s ∧
      ∀ arguments, result = some arguments → ∀ a ∈ arguments, a < i := by
  induction budget generalizing link found with
  | zero =>
    cases link with
    | none => exact ⟨rfl, fun arguments hresult => by cases hresult; exact hfound⟩
    | some cursor =>
      have hcursor := hlink cursor rfl
      unfold callWalk
      refine (node_at_steps h (by omega)).bind fun n s' hn => ?_
      obtain ⟨rfl, hn⟩ := hn
      split
      · exact ⟨rfl, fun arguments hresult => by cases hresult⟩
      · refine ⟨rfl, fun arguments hresult a ha => ?_⟩
        cases hresult
        rcases List.mem_cons.mp ha with rfl | ha
        · exact hcursor
        · exact hfound a ha
  | succ budget ih =>
    cases link with
    | none => exact ⟨rfl, fun arguments hresult => by cases hresult; exact hfound⟩
    | some cursor =>
      have hcursor := hlink cursor rfl
      unfold callWalk
      refine (node_at_steps h (by omega)).bind fun n s' hn => ?_
      obtain ⟨rfl, hn⟩ := hn
      have hlinked := h.linked cursor n hn
      split
      next hargs =>
        obtain ⟨-, hright⟩ := hlinked.operands (.inr hargs)
        obtain ⟨right, hright⟩ := Option.isSome_iff_exists.mp hright
        refine (within_steps hright).bind fun a s' ha => ?_
        obtain ⟨rfl, rfl⟩ := ha
        refine ih n.left (a :: found) (fun l hl => ?_) fun b hb => ?_
        · have := hlinked.left l hl
          omega
        · rcases List.mem_cons.mp hb with rfl | hb
          · have := hlinked.right b hright
            omega
          · exact hfound b hb
      next =>
        refine ⟨rfl, fun arguments hresult a ha => ?_⟩
        cases hresult
        rcases List.mem_cons.mp ha with rfl | ha
        · exact hcursor
        · exact hfound a ha

theorem call_args_steps (h : s.Fits count maxTag total k) (hi : i ≤ count)
    (hn : Linked i n) :
    Steps count (callArgs n) s fun result s' => s' = s ∧
      ∀ arguments, result = some arguments → ∀ a ∈ arguments, a < i :=
  call_walk_steps h hi 2 n.left [] hn.left fun _ ha => absurd ha List.not_mem_nil

/-- A leaf is marked as another kind of leaf without a constant. -/
theorem Analysis.Fits.marked {f : Instruction → Instruction} (h : s.Fits count maxTag total k)
    (hn : s.nodes.items[i]? = some n) (hleft : (f n).left = n.left) (hright : (f n).right = n.right)
    (hop : (f n).op = .literal ∨ (f n).op = .bool) :
    ({ s with nodes := s.nodes.changed i f } : Analysis).Fits count maxTag total k := by
  have hlinked := h.linked i n hn
  refine h.changed hn ⟨fun l hl => hlinked.left l (hleft ▸ hl),
    fun r hr => hlinked.right r (hright ▸ hr), fun hop' => ?_⟩ (fun hop' => ?_) fun _ => ?_
  · rcases hop with hop | hop <;> rw [hop] at hop' <;> simp [Op.isOperator] at hop'
  · rcases hop with hop | hop <;> rw [hop] at hop' <;> cases hop'
  · unfold payloadRoom
    rcases hop with hop | hop <;> rw [hop] <;> exact Nat.zero_le _

theorem mark_decimal_steps {anchor : Option Nat} (h : s.Fits count maxTag total k)
    (hi : i < count) : Steps count (markDecimal text i anchor) s fun _ s' =>
      s'.Fits count maxTag total k := by
  unfold markDecimal
  refine (node_at_steps h hi).bind fun n s' hn => ?_
  obtain ⟨rfl, hn⟩ := hn
  refine only_if_fits h fun _ => ?_
  refine (change_steps h hi).mono fun _ s' hs' => ?_
  subst hs'
  exact h.marked hn rfl rfl (.inl rfl)

theorem comparison_operator {op : Op} (h : op.isComparison = true) : op.isOperator = true := by
  cases op <;> simp [Op.isComparison, Op.isOperator] at h ⊢

/-- A link of an instruction is followed to mark its operand. -/
theorem mark_linked_steps {link anchor : Option Nat} (h : s.Fits count maxTag total k)
    (hsome : link.isSome = true) (hlt : ∀ l, link = some l → l < count) :
    Steps count (do markDecimal text (← within link) anchor) s fun _ s' =>
      s'.Fits count maxTag total k := by
  obtain ⟨l, hl⟩ := Option.isSome_iff_exists.mp hsome
  refine (within_steps hl).bind fun a s' ha => ?_
  obtain ⟨rfl, rfl⟩ := ha
  exact mark_decimal_steps h (hlt a hl)

/-- The first loop keeps everything in place. -/
theorem mark_node_steps (h : s.Fits count maxTag total k) (hi : i < count) :
    Steps count (markNode text i) s fun _ s' => s'.Fits count maxTag total k := by
  unfold markNode
  refine (node_at_steps h hi).bind fun n s' hn => ?_
  obtain ⟨rfl, hn⟩ := hn
  have hlinked := h.linked i n hn
  have hleft : ∀ l, n.left = some l → l < count := fun l hl => (hlinked.left l hl).trans hi
  have hright : ∀ r, n.right = some r → r < count := fun r hr => (hlinked.right r hr).trans hi
  refine (only_if_fits h fun hop => ?_).bind fun _ s₁ h₁ => ?_
  · obtain ⟨hl, hr⟩ := hlinked.operands (.inl (comparison_operator hop))
    unfold markComparison
    obtain ⟨l, hleft'⟩ := Option.isSome_iff_exists.mp hl
    refine (within_steps hleft').bind fun a s₁ ha => ?_
    obtain ⟨rfl, rfl⟩ := ha
    refine (mark_decimal_steps h (hleft a hleft')).bind fun _ s₂ h₂ => ?_
    exact mark_linked_steps h₂ hr hright
  refine (only_if_fits h₁ fun hop => ?_).bind fun _ s₂ h₂ => ?_
  · have hfilter : n.op = .filter := of_decide_eq_true hop
    obtain ⟨-, hr⟩ := hlinked.operands (.inl (by rw [hfilter]; rfl))
    exact mark_linked_steps h₁ hr hright
  refine (only_if_fits h₂ fun _ => ?_).bind fun _ s₃ h₃ => ?_
  · unfold markArguments
    refine (call_args_steps h₂ hi.le hlinked).bind fun result s₃ hresult => ?_
    obtain ⟨rfl, harguments⟩ := hresult
    cases result with
    | none => exact fail_node_steps h₂
    | some arguments =>
      exact InPlace.leads_forM _ _ (fun a ha s hs => mark_decimal_steps hs
        ((harguments arguments rfl a (List.mem_of_mem_tail ha)).trans hi)) h₂
  · refine only_if_fits h₃ fun _ => ?_
    unfold markTruth
    split
    · exact h₃
    · refine (change_steps h₃ hi).mono fun _ s' hs' => ?_
      subst hs'
      have hlt : i < s₃.nodes.size := by rw [h₃.size]; exact hi
      exact h₃.marked (List.getElem?_eq_getElem hlt) rfl rfl (.inr rfl)

end Steps

end OpenTlv.Query
