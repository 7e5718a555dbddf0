import UnwindCheck.Checker.Coverage

/-! What a run with guessing may forgive: the findings of the plain run behind REVIEW-LIGHT. -/
namespace UnwindCheck
variable {δ : Type} [Offset δ]

section Address
variable {r : Report} {pc : Word} {state : AbsState δ}

theorem RowChecker.pc_of_mem_compareValue {rc : RowChecker} {v expected : AbsVal δ}
    {unknown wrong : String} (h : r ∈ rc.compareValue v expected unknown wrong) : r.pc = rc.pc := by
  unfold compareValue at h
  split_ifs at h
  · rw [List.mem_singleton.mp h]
    rfl
  · rw [List.mem_singleton.mp h]
    rfl
  · cases h

theorem RowChecker.pc_of_mem_checkReg {rc : RowChecker} {q : Fin 17} {rule : RegRule δ}
    (h : r ∈ rc.checkReg q rule state) : r.pc = rc.pc := by
  cases rule with
  | undefined => cases h
  | unset =>
    unfold checkReg at h
    dsimp only at h
    split_ifs at h
    · exact rc.pc_of_mem_compareValue h
    · cases h
  | sameValue | atCFAOffset offset | valOffset offset | inRegister q' =>
    exact rc.pc_of_mem_compareValue h
  | expression | valExpression =>
    rw [List.mem_singleton.mp h]
    rfl

/-- Every finding about a row is filed under the address it was asked for. -/
theorem RowChecker.pc_of_mem_check {rc : RowChecker} {row : CFIRow δ} (h : r ∈ rc.check row state) :
    r.pc = rc.pc := by
  rcases List.mem_append.mp h with h | h
  · unfold checkCFA at h
    split at h
    · rw [List.mem_singleton.mp h]
      rfl
    · rw [List.mem_singleton.mp h]
      rfl
    · split at h
      · split_ifs at h
        · rw [List.mem_singleton.mp h]
          rfl
        · cases h
      · rw [List.mem_singleton.mp h]
        rfl
  · obtain ⟨q, -, h⟩ := List.mem_flatMap.mp h
    exact rc.pc_of_mem_checkReg h

theorem pc_of_mem_checkExitState {isCanonicalEntry isTailCall : Bool}
    (h : r ∈ checkExitState isCanonicalEntry pc state isTailCall) : r.pc = pc := by
  unfold checkExitState at h
  extract_lets context rsp atEntry delta rspReports savedReports ra raReports at h
  have hrsp : ∀ r ∈ rspReports, r.pc = pc := by
    intro r hr
    dsimp only [rspReports] at hr
    clear_value atEntry delta rsp
    split at hr
    · rw [List.mem_singleton.mp hr]
    · rw [List.mem_singleton.mp hr]
    · split_ifs at hr
      · cases hr
      · rw [List.mem_singleton.mp hr]
      · rw [List.mem_singleton.mp hr]
  have hsaved : ∀ r ∈ savedReports, r.pc = pc := by
    intro r hr
    obtain ⟨q, -, hr⟩ := List.mem_flatMap.mp hr
    dsimp only at hr
    split_ifs at hr
    · rw [List.mem_singleton.mp hr]
    · rw [List.mem_singleton.mp hr]
    · cases hr
  have hra : ∀ r ∈ raReports, r.pc = pc := by
    intro r hr
    dsimp only [raReports] at hr
    split_ifs at hr
    · rw [List.mem_singleton.mp hr]
    · rw [List.mem_singleton.mp hr]
    · cases hr
  split_ifs at h
  · rw [List.mem_singleton.mp h]
  · exact hrsp r h
  · rcases List.mem_append.mp h with h | h
    · rcases List.mem_append.mp h with h | h
      · exact hrsp r h
      · exact hsaved r h
    · exact hra r h

namespace Env
variable {env : Env δ} {insn : Instruction} {isCanonicalEntry : Bool}

theorem pc_of_mem_checkOutEdge {target : Word}
    (h : r ∈ env.checkOutEdge isCanonicalEntry insn state target) : r.pc = insn.address := by
  unfold checkOutEdge checkCrossFDEEdge at h
  cases hrow : env.crossRow insn.address target with
  | some e =>
    rw [hrow] at h
    have hpc : e.1.pc = insn.address := by
      unfold crossRow at hrow
      split at hrow
      · cases hrow
      · obtain ⟨row, -, rfl⟩ := Option.map_eq_some_iff.mp hrow
        rfl
    exact (e.1.pc_of_mem_check h).trans hpc
  | none =>
    rw [hrow] at h
    change r ∈ env.uncoveredTarget isCanonicalEntry insn state target at h
    unfold uncoveredTarget at h
    split at h
    · rw [List.mem_singleton.mp h]
    · rw [List.mem_singleton.mp h]
    · exact pc_of_mem_checkExitState h

theorem pc_of_mem_exitReports (h : r ∈ env.exitReports isCanonicalEntry insn state) :
    r.pc = insn.address := by
  rcases List.mem_append.mp h with h | h
  · obtain ⟨target, -, h⟩ := List.mem_flatMap.mp h
    exact pc_of_mem_checkOutEdge h
  · split at h
    · rw [List.mem_singleton.mp h]
    · exact pc_of_mem_checkExitState h
    · split_ifs at h
      · cases h
      · rw [List.mem_singleton.mp h]
    · cases h

theorem pc_of_mem_rowReports {w : Walk δ} (h : r ∈ env.rowReports w pc state) : r.pc = pc := by
  unfold rowReports at h
  split at h
  · rw [List.mem_singleton.mp h]
  · rcases List.mem_append.mp h with h | h
    · exact RowChecker.pc_of_mem_check h
    · unfold conflictReports at h
      obtain ⟨c, -, hc⟩ := List.mem_filterMap.mp h
      split_ifs at hc
      rw [← Option.some.inj hc]

/-- Everything pass two says about an instruction is filed under its address. -/
theorem pc_of_mem_verifyAt {w : Walk δ} (h : r ∈ env.verifyAt isCanonicalEntry w pc state) :
    r.pc = pc := by
  unfold verifyAt at h
  cases hd : env.decodeAt pc with
  | none =>
    simp only [hd] at h
    rw [List.mem_singleton.mp h]
  | some insn =>
    simp only [hd] at h
    have haddr : insn.address = pc := Zydis.decode_address hd
    by_cases hend : env.cfi.pcEnd < insn.next
    · rw [if_pos hend] at h
      rw [List.mem_singleton.mp h]
    · rw [if_neg hend] at h
      rcases List.mem_append.mp h with h | h
      · rcases List.mem_append.mp h with h | h
        · exact pc_of_mem_rowReports h
        · split_ifs at h
          · cases h
          · rw [List.mem_singleton.mp h]
      · exact (pc_of_mem_exitReports h).trans haddr

end Env

end Address

namespace Env
variable (env : Env δ)

/-- The environment of the retry. -/
def guess : Env δ := { env with guessing := true }

/-- The retry has at `pc` the state and the path conflicts the plain run had. -/
def SameAt (row : CFIRow δ) (pc : Word) (st : AbsState δ) : Prop :=
  (env.guess.settle row).inStates[pc]? = some st ∧
    (env.guess.settle row).joinConflicts[pc]? = (env.settle row).joinConflicts[pc]?

variable {env} {row : CFIRow δ} {pc jump : Word} {st : AbsState δ} {insn : Instruction} {r : Report}

theorem exitOf_guess (h : env.isUnboundedJump st insn = false) :
    env.guess.exitOf insn st = env.exitOf insn st := by
  unfold exitOf
  unfold isUnboundedJump at h
  have hz : env.guess.z = env.z := rfl
  rw [hz]
  dsimp only at h ⊢
  cases hj : (transfer env.z insn st).1.jumpTable with
  | some table => rfl
  | none =>
    cases hu : (transfer env.z insn st).1.unboundedJumpTarget with
    | some addr => simp [hj, hu] at h
    | none => rfl

/-- Guessing makes no difference to the exits of any other instruction. -/
theorem exitReports_guess (h : env.isUnboundedJump st insn = false) (isCanonicalEntry : Bool) :
    env.guess.exitReports isCanonicalEntry insn st = env.exitReports isCanonicalEntry insn st := by
  have htargets : env.guess.crossTargets insn st = env.crossTargets insn st := by
    unfold crossTargets
    rw [exitOf_guess h]
    rfl
  have hedge (target : Word) : env.guess.checkOutEdge isCanonicalEntry insn st target =
      env.checkOutEdge isCanonicalEntry insn st target := by
    unfold checkOutEdge uncoveredTarget
    rw [exitOf_guess h]
    rfl
  unfold exitReports
  rw [htargets, exitOf_guess h, funext hedge]

/-- Without guessing, the jump itself is all there is to say about its exits. -/
theorem exitReports_unbounded (hg : env.guessing = false) (h : env.isUnboundedJump st insn = true)
    (isCanonicalEntry : Bool) : env.exitReports isCanonicalEntry insn st =
      [⟨.review, insn.address, kUnresolvedIndirectJumpMsg⟩] := by
  have hexit : env.exitOf insn st = .unresolved := by
    unfold isUnboundedJump at h
    unfold exitOf
    dsimp only at h ⊢
    cases hj : (transfer env.z insn st).1.jumpTable with
    | some table => simp [hj] at h
    | none =>
      cases hu : (transfer env.z insn st).1.unboundedJumpTarget with
      | none => simp [hj, hu] at h
      | some addr => simp [hg]
  unfold exitReports crossTargets
  rw [hexit]
  rfl

/-- Where the retry is silent with the same knowledge, the plain run only names an unbounded
jump. -/
theorem mem_verifyAt_of_silent (hg : env.guessing = false) {w w' : Walk δ} {isCanonicalEntry : Bool}
    (hsilent : env.guess.verifyAt isCanonicalEntry w' pc st = [])
    (hconflicts : w'.joinConflicts[pc]? = w.joinConflicts[pc]?)
    (h : r ∈ env.verifyAt isCanonicalEntry w pc st) :
    r = ⟨.review, pc, kUnresolvedIndirectJumpMsg⟩ ∧
      ∃ insn, env.decodeAt pc = some insn ∧ ¬ env.cfi.pcEnd < insn.next ∧
        env.isUnboundedJump st insn = true := by
  have hdecode : env.guess.decodeAt pc = env.decodeAt pc := rfl
  have hrows : env.guess.rowReports w' pc st = env.rowReports w pc st := by
    unfold rowReports conflictReports
    rw [hconflicts]
    rfl
  unfold verifyAt at h hsilent
  rw [hdecode, hrows] at hsilent
  cases hd : env.decodeAt pc with
  | none => simp [hd] at hsilent
  | some insn =>
    simp only [hd] at h hsilent
    by_cases hend : env.cfi.pcEnd < insn.next
    · have hend' : env.guess.cfi.pcEnd < insn.next := hend
      simp [hend'] at hsilent
    · have hend' : ¬ env.guess.cfi.pcEnd < insn.next := hend
      rw [if_neg hend'] at hsilent
      rw [if_neg hend] at h
      obtain ⟨hfirst, hexit⟩ := List.append_eq_nil_iff.mp hsilent
      rcases List.mem_append.mp h with h | h
      · have hz : env.guess.z = env.z := rfl
        rw [hz] at hfirst
        rw [hfirst] at h
        cases h
      · cases hu : env.isUnboundedJump st insn with
        | false =>
          rw [exitReports_guess hu] at hexit
          rw [hexit] at h
          cases h
        | true =>
          rw [exitReports_unbounded hg hu, Zydis.decode_address hd] at h
          exact ⟨List.mem_singleton.mp h, insn, rfl, hend, hu⟩

/-- The one unbounded jump of a run is where it is said to be. -/
theorem eq_of_guessableJumpPc {w : Walk δ} (hjump : env.guessableJumpPc w = some jump)
    (hst : w.inStates[pc]? = some st) (hd : env.decodeAt pc = some insn)
    (hend : ¬ env.cfi.pcEnd < insn.next) (hu : env.isUnboundedJump st insn = true) : pc = jump := by
  have hchecked : (insn, st) ∈ env.checkedInsns w := by
    refine List.mem_filterMap.mpr ⟨(pc, st), ?_, ?_⟩
    · exact Std.ExtTreeMap.mem_toList_iff_getElem?_eq_some.mpr hst
    · simp [hd, hend]
  have hmem : (insn, st) ∈ (env.checkedInsns w).filter fun e => env.isUnboundedJump e.2 e.1 :=
    List.mem_filter.mpr ⟨hchecked, hu⟩
  unfold guessableJumpPc at hjump
  split at hjump
  · rename_i e he
    rw [he] at hmem
    obtain rfl : (insn, st) = e := List.mem_singleton.mp hmem
    rw [← Option.some.inj hjump]
    exact (Zydis.decode_address hd).symm
  · cases hjump

end Env

section Light
variable {options : FDECheckerOptions δ} {cfi : CFI δ} {atFunctionEntry : Bool}

end Light

end UnwindCheck
