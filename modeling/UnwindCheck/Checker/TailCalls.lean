import UnwindCheck.Checker.Paths

/-! An indirect tail call against a direct one and a `ret`. `IsExitState` and `CheckExitState` code the
return convention separately, the first without the return-address slot. -/
namespace UnwindCheck
variable {δ : Type} [Offset δ]

/-- In an FDE with a canonical first row, an indirect jump is blessed where a direct jump out and a
`ret` would be found clean, and nowhere else. -/
structure ExitsHeldAlike (state : AbsState δ) : Prop where
  tailCall : ∀ pc, isExitState state = true ↔ checkExitState true pc state true = []
  ret : ∀ pc, isExitState state = true ↔ checkExitState true pc state false = []
  indirect : ∀ (env : Env δ) (insn : Instruction), env.exitOf insn state = .indirect →
    (env.exitReports true insn state = [] ↔ checkExitState true insn.address state true = [])

theorem isExitState_iff {state : AbsState δ} : isExitState state = true ↔
    state.gpr kDWARFRsp = .cfaRel (Offset.ofInt (-8)) ∧ ∀ r ∈ kCalleeSaved, state.gpr r = .origReg r := by
  simp only [isExitState, Bool.and_eq_true, List.all_eq_true, AbsVal.isCFARel_iff, AbsVal.isOrigReg_iff]

/-- What the pass finds at an unresolved indirect jump. -/
theorem Env.exitReports_indirect {env : Env δ} {insn : Instruction} {state : AbsState δ}
    (h : env.exitOf insn state = .indirect) :
    env.exitReports true insn state = [] ↔ isExitState state = true := by
  unfold exitReports crossTargets
  rw [h]
  by_cases hexit : isExitState state = true
  · simp [hexit]
  · simp [hexit]

/-- The two conventions agree unless rsp and the callee-saved registers are back and the slot the
function returns through is not. -/
theorem exitsHeldAlike_iff (state : AbsState δ) :
    ExitsHeldAlike state ↔
      state.gpr kDWARFRsp ≠ .cfaRel (Offset.ofInt (-8)) ∨
        (∃ r ∈ kCalleeSaved, state.gpr r ≠ .origReg r) ∨
        state.slot (Offset.ofInt (-8)) = .origReg kDWARFRip := by
  constructor
  · intro h
    by_contra hcond
    push Not at hcond
    obtain ⟨hrsp, hsaved, hra⟩ := hcond
    have hclean := (h.tailCall 0).mp (isExitState_iff.mpr ⟨hrsp, hsaved⟩)
    exact hra (checkExitState_eq_nil.mp hclean).ra
  · intro hcond
    have hiff : isExitState state = true ↔ state.Restored := by
      rw [isExitState_iff]
      constructor
      · rintro ⟨hrsp, hsaved⟩
        rcases hcond with hoff | ⟨r, hr, hlost⟩ | hra
        · exact absurd hrsp hoff
        · exact absurd (hsaved r hr) hlost
        · exact ⟨hrsp, hsaved, hra⟩
      · exact fun h => ⟨h.rsp, h.saved⟩
    have hexit : ∀ pc isTailCall,
        isExitState state = true ↔ checkExitState true pc state isTailCall = [] := fun pc isTailCall =>
      hiff.trans checkExitState_eq_nil.symm
    exact ⟨fun pc => hexit pc true, fun pc => hexit pc false,
      fun env insn hind => (Env.exitReports_indirect hind).trans (hexit insn.address true)⟩

/-- The entry state after the return address on the stack was overwritten: `IsExitState` accepts it,
and a direct tail call gets the finding that the slot holds something else. -/
theorem overwritten_return_address_blessed :
    isExitState ((AbsState.entry : AbsState Int64).setSlot (-8) .other) = true ∧
      checkExitState true 0x1000 ((AbsState.entry : AbsState Int64).setSlot (-8) .other) true =
        [⟨.mismatch, 0x1000, "tail call with return address slot at [CFA-8] holding an unrelated value " ++
          "(overwritten)"⟩] ∧
      ¬ ExitsHeldAlike ((AbsState.entry : AbsState Int64).setSlot (-8) .other) := by
  have hexit : isExitState ((AbsState.entry : AbsState Int64).setSlot (-8) .other) = true := by
    decide +kernel
  have hfound : checkExitState true 0x1000 ((AbsState.entry : AbsState Int64).setSlot (-8) .other) true =
      [⟨.mismatch, 0x1000, "tail call with return address slot at [CFA-8] holding an unrelated value " ++
        "(overwritten)"⟩] := by
    decide +kernel
  refine ⟨hexit, hfound, fun h => ?_⟩
  have hclean := (h.tailCall 0x1000).mp hexit
  rw [hfound] at hclean
  cases hclean

end UnwindCheck
