import OpenTlv.Query.Calls
import OpenTlv.Query.Composition

/-!
# The retained machine computes the denotation

Every instruction of an accepted plan that is an expression keeps its contract, by induction
along the backward links. The dispatch loop on a fresh root frame therefore ends with the meaning
of the root, or with a failure that the library reports.
-/

namespace OpenTlv.Query

variable {s : Session} {forest : Forest Item}

/-- Every expression of the plan keeps its contract. -/
theorem evaluates (h : s.Ready forest) {i : Nat} (hi : i < s.program.count)
    (hop : (s.program.get i).op ≠ .args) : Evaluates s forest i := by
  induction i using Nat.strong_induction_on with
  | _ i ih =>
    have hfacts := h.accepted.facts hi
    have htypes := h.accepted.types hi
    have hright : ∀ r, (s.program.get i).right = some r → Evaluates s forest r := by
      intro r hr
      have hlt := hfacts.right r hr
      exact ih r hlt (by omega) (htypes.right r hr)
    have hleft : (s.program.get i).op ≠ .call →
        ∀ l, (s.program.get i).left = some l → Evaluates s forest l := by
      intro hcall l hl
      have hlt := hfacts.left l hl
      exact ih l hlt (by omega) (htypes.left hcall hop l hl)
    cases hcase : (s.program.get i).op
    case test => exact evaluates_test h hi hcase
    case root => exact evaluates_root h hi (.inl hcase)
    case self => exact evaluates_root h hi (.inr hcase)
    case metadata => exact evaluates_metadata h hi hcase
    case literal => exact evaluates_literal h hi hcase
    case bytes => exact evaluates_bytes h hi hcase
    case string => exact evaluates_string h hi hcase
    case variableRef => exact evaluates_variable h hi hcase
    case bool => exact evaluates_bool h hi hcase
    case call =>
      exact evaluates_call h hi hcase fun a ha hne => ih a ha (by omega) hne
    case args => exact absurd hcase hop
    case child | desc | filter =>
      exact evaluates_composition h hi (by simp [hcase]) (hleft (by simp [hcase])) hright
    case union | intersect | except =>
      exact evaluates_set_operation h hi (by rw [hcase]; rfl) (hleft (by simp [hcase])) hright
    case eq | ne | lt | le | gt | ge =>
      exact evaluates_comparison h hi (by rw [hcase]; rfl) (hleft (by simp [hcase])) hright
    case and | or =>
      exact evaluates_logic h hi (by simp [hcase]) (hleft (by simp [hcase])) hright

/-- The dispatch loop ends with the meaning of the root instruction. -/
theorem retained_loop_spec (h : s.Ready forest) {c : Nat} (hc : s.Live c) :
    ∃ cost, ∀ vm, vm.Fits s → vm.frames.cell 0 = freshFrame s s.program.root c 1 1 →
      Meets (retainedLoop s vm)
        (Reports (vm.meter.left < cost ∨ s.meaning forest s.program.root c 1 1 = none)) fun vm' =>
          vm'.Fits s ∧ Spent cost vm.meter vm'.meter ∧
            ∃ d, s.meaning forest s.program.root c 1 1 = some d ∧
              d.kind = (s.program.get s.program.root).type ∧
              (vm'.frames.cell 0).Holds s forest d := by
  have hroot := h.accepted.root_lt
  obtain ⟨cost, hrun⟩ := evaluates h hroot h.accepted.root_op c 1 1 hc
  refine ⟨cost, fun vm hfits hframe => ?_⟩
  have hruns := hrun vm 0 hfits (by omega) hframe
  have hmeets := Settles.meets hruns (fun y hy => by rw [hy.1]; rfl)
    (show vm.meter.left < vm.meter.left + 1 by omega)
  unfold retainedLoop
  refine hmeets.bind (fun e he => he) ?_
  rintro ⟨vm', next⟩ ⟨-, hfollows, d, hmeaning, hkind, hholds⟩
  exact ⟨hfollows.fits, hfollows.spent, d, hmeaning, hkind, hholds⟩

end OpenTlv.Query
