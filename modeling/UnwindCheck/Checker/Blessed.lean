import UnwindCheck.Checker.Run
import UnwindCheck.Checker.Invariant

/-! What a blessed verdict says about the run behind it: no call of `Add` anywhere, hence no cap,
no seeded landing pad, and a silent second pass over a settled walk. -/
namespace UnwindCheck
variable {δ : Type} [Offset δ]

/-- The first row says there is nothing to unwind to, which blesses the FDE unseen. -/
def CFI.raUndefined (cfi : CFI δ) : Bool :=
  (cfi.rowAt cfi.pcBegin).any fun row => row.regs 16 = .undefined

/-- What pass one of `Check` leaves behind, nothing where `Check` does not walk at all. -/
def settledWalk (options : FDECheckerOptions δ) (cfi : CFI δ) (guessing : Bool) : Walk δ :=
  match cfi.rowAt cfi.pcBegin with
  | some row =>
    if row.regs 16 = .undefined then Walk.init else (Env.of options cfi guessing).settle row
  | none => Walk.init

theorem settledWalk_eq {options : FDECheckerOptions δ} {cfi : CFI δ} {guessing : Bool}
    {row : CFIRow δ} (hrow : cfi.rowAt cfi.pcBegin = some row) (hra : row.regs 16 ≠ .undefined) :
    settledWalk options cfi guessing = (Env.of options cfi guessing).settle row := by
  simp [settledWalk, hrow, hra]

/-- Every call of `Propagate` a run of `Check` makes. -/
def propagated (options : FDECheckerOptions δ) (cfi : CFI δ) (guessing : Bool) :
    List (Word × AbsState δ) :=
  match cfi.rowAt cfi.pcBegin with
  | none => []
  | some row => if row.regs 16 = .undefined then [] else (Env.of options cfi guessing).runCalls row

/-- Every address `Drain` pops in a run of `Check`, with the state it finds there. -/
def visited (options : FDECheckerOptions δ) (cfi : CFI δ) (guessing : Bool) :
    List (Word × AbsState δ) :=
  match cfi.rowAt cfi.pcBegin with
  | none => []
  | some row => if row.regs 16 = .undefined then [] else (Env.of options cfi guessing).runPops row

/-- Only a run that walks reaches anything. -/
theorem exists_row_of_reached {options : FDECheckerOptions δ} {cfi : CFI δ} {guessing : Bool}
    {pc : Word} {st : AbsState δ} (h : (settledWalk options cfi guessing).inStates[pc]? = some st) :
    ∃ row, cfi.rowAt cfi.pcBegin = some row ∧ row.regs 16 ≠ .undefined := by
  unfold settledWalk at h
  split at h
  · rename_i row hrow
    split_ifs at h with hra
    · simp [Walk.init] at h
    · exact ⟨row, hrow, hra⟩
  · simp [Walk.init] at h

namespace Env
variable {env : Env δ}

omit [Offset δ] in
theorem mem_distinctLandingPads {lp : Word} (h : lp ∈ env.distinctLandingPads) :
    env.cfi.Covers lp := by
  rw [distinctLandingPads, List.mem_dedup, List.mem_insertionSort, List.mem_map] at h
  obtain ⟨cs, hcs, rfl⟩ := h
  exact env.pads_covered cs hcs

theorem covers_of_mem_unreachedPads {w : Walk δ} {seed : Word × AbsState δ}
    (h : seed ∈ env.unreachedPads w) : env.cfi.Covers seed.1 := by
  obtain ⟨lp, hlp, hseed⟩ := List.mem_filterMap.mp h
  split_ifs at hseed
  obtain ⟨row, -, rfl⟩ := Option.map_eq_some_iff.mp hseed
  exact mem_distinctLandingPads hlp

theorem inv_firstWalk (row : CFIRow δ) (hc : env.cfi.Covers env.cfi.pcBegin) :
    (env.firstWalk row).Inv env none :=
  Walk.Inv.drain ((Walk.inv_init env).propagate hc)

theorem inv_settle (row : CFIRow δ) (hc : env.cfi.Covers env.cfi.pcBegin) :
    (env.settle row).Inv env none := by
  have h := inv_firstWalk row hc
  unfold settle seedUnreachedLandingPads
  dsimp only
  split
  · exact h
  · exact Walk.Inv.drain (h.propagateAll fun _ hm => covers_of_mem_unreachedPads hm)

theorem covers_of_mem_runPops {row : CFIRow δ} (hc : env.cfi.Covers env.cfi.pcBegin)
    {visit : Word × AbsState δ} (h : visit ∈ env.runPops row) : env.cfi.Covers visit.1 := by
  rw [runPops, List.mem_append] at h
  rcases h with h | h
  · exact Walk.covers_of_mem_popsFor ((Walk.inv_init env).propagate hc) h
  · dsimp only at h
    split at h
    · cases h
    · exact Walk.covers_of_mem_popsFor
        ((inv_firstWalk row hc).propagateAll fun _ hm => covers_of_mem_unreachedPads hm) h

theorem grows_firstWalk_settle (env : Env δ) (row : CFIRow δ) : (env.firstWalk row).Grows (env.settle row) := by
  unfold settle seedUnreachedLandingPads
  dsimp only
  split
  · exact .refl _
  · exact (Walk.grows_propagateAll _ _).trans (Walk.grows_drainFor env _ _)

/-- Whatever a run ever propagated to an address lies below the address's settled state. -/
theorem absorbs_settle {row : CFIRow δ} {call : Word × AbsState δ} (h : call ∈ env.runCalls row) :
    (env.settle row).Absorbs call := by
  have hgrow := grows_firstWalk_settle env row
  rw [runCalls, List.mem_cons, List.mem_append, List.mem_flatMap] at h
  rcases h with rfl | h | ⟨visit, hv, hcall⟩
  · exact hgrow.absorbs ((Walk.grows_drainFor env _ _).absorbs (Walk.absorbs_propagate _ _))
  · have hne : (env.unreachedPads (env.firstWalk row)).isEmpty = false :=
      List.isEmpty_eq_false_iff_exists_mem.mpr ⟨call, h⟩
    rw [settle, seedUnreachedLandingPads]
    simp only [hne, Bool.false_eq_true, if_false]
    exact (Walk.grows_drainFor env _ _).absorbs (Walk.absorbs_propagateAll _ h)
  · rw [runPops, List.mem_append] at hv
    rcases hv with hv | hv
    · exact hgrow.absorbs (Walk.absorbs_drainFor hv hcall)
    · rw [settle, seedUnreachedLandingPads]
      dsimp only at hv ⊢
      split at hv
      · cases hv
      · rename_i hne
        rw [if_neg hne]
        exact Walk.absorbs_drainFor hv hcall

/-- Without the cap, nothing is left to do. -/
theorem worklist_settle {row : CFIRow δ} (hcap : (env.settle row).hitCap = false) :
    (env.settle row).worklist = [] := by
  unfold settle seedUnreachedLandingPads at hcap ⊢
  dsimp only at hcap ⊢
  split
  · rename_i he
    rw [if_pos he] at hcap
    exact Walk.worklist_drainFor _ _ hcap
  · rename_i he
    rw [if_neg he] at hcap
    exact Walk.worklist_drainFor _ _ hcap

/-- A run in which nothing was ever reported. -/
structure Silent (env : Env δ) (row : CFIRow δ) : Prop where
  pads : env.unreachedPads (env.firstWalk row) = []
  cap : (env.settle row).hitCap = false
  verify : ∀ (pc : Word) (st : AbsState δ), (env.settle row).inStates[pc]? = some st →
    env.verifyAt row.isCanonicalEntry (env.settle row) pc st = []
  gaps : env.reportCoverageGaps (env.settle row) = []

theorem silent_of_runReports {atFunctionEntry : Bool} {row : CFIRow δ}
    (h : env.runReports atFunctionEntry row = []) : Silent env row := by
  simp only [runReports, List.append_eq_nil_iff] at h
  obtain ⟨⟨⟨⟨⟨-, -⟩, hpads⟩, hcap⟩, hverify⟩, hgaps⟩ := h
  refine ⟨by simpa [unreachedPadReports] using hpads, ?_, ?_, hgaps⟩
  · by_contra hc
    simp [hitCapReports, Bool.not_eq_false _ ▸ hc] at hcap
  · intro pc st hst
    rw [verifyPass, List.flatMap_eq_nil_iff] at hverify
    exact hverify (pc, st) (Std.ExtTreeMap.mem_toList_iff_getElem?_eq_some.mpr hst)

end Env

theorem check_verdict {options : FDECheckerOptions δ} {cfi : CFI δ} {atFunctionEntry guessing : Bool}
    {row : CFIRow δ} (hrow : cfi.rowAt cfi.pcBegin = some row) (hra : row.regs 16 ≠ .undefined) :
    (check options cfi atFunctionEntry guessing).verdict =
      sinkVerdict options.maxFindingsPerFde
        ((Env.of options cfi guessing).runReports atFunctionEntry row) := by
  simp only [check, hrow, if_neg hra]
  rfl

/-- A blessed FDE whose first row has a return address comes from a silent run. -/
theorem silent_of_blessed {options : FDECheckerOptions δ} {cfi : CFI δ}
    {atFunctionEntry guessing : Bool} (hra : cfi.raUndefined = false)
    (hb : (check options cfi atFunctionEntry guessing).verdict = .blessed) :
    ∃ row, cfi.rowAt cfi.pcBegin = some row ∧ (Env.of options cfi guessing).Silent row ∧
      settledWalk options cfi guessing = (Env.of options cfi guessing).settle row := by
  cases hrow : cfi.rowAt cfi.pcBegin with
  | none => simp [check, hrow] at hb
  | some row =>
    have hra' : row.regs 16 ≠ .undefined := by simpa [CFI.raUndefined, hrow] using hra
    rw [check_verdict hrow hra', sinkVerdict_blessed] at hb
    exact ⟨row, rfl, Env.silent_of_runReports hb, settledWalk_eq hrow hra'⟩

theorem covers_of_mem_visited {options : FDECheckerOptions δ} {cfi : CFI δ} {guessing : Bool}
    {visit : Word × AbsState δ} (h : visit ∈ visited options cfi guessing) : cfi.Covers visit.1 := by
  unfold visited at h
  cases hrow : cfi.rowAt cfi.pcBegin with
  | none => simp [hrow] at h
  | some row =>
    simp only [hrow] at h
    split_ifs at h
    · cases h
    · have hc : cfi.Covers cfi.pcBegin := cfi.covers_of_rowAt hrow
      have h' : visit ∈ (Env.of options cfi guessing).runPops row := h
      exact Env.covers_of_mem_runPops hc h'

namespace Env
variable {env : Env δ}

/-- Pass two got as far as comparing the instruction's row with its settled state, and the two
agreed. -/
structure Compared (env : Env δ) (w : Walk δ) (pc : Word) (st : AbsState δ)
    (insn : Instruction) (row : CFIRow δ) : Prop where
  reached : w.inStates[pc]? = some st
  decoded : env.decodeAt pc = some insn
  inside : insn.next ≤ env.cfi.pcEnd
  declared : env.cfi.rowAt pc = some row
  agrees : (RowChecker.mk pc "" env.options.checkUnmentionedCalleeSaved).check row st = []

theorem Silent.compared {row : CFIRow δ} (h : Silent env row) {pc : Word} {st : AbsState δ}
    (hst : (env.settle row).inStates[pc]? = some st) :
    ∃ insn r, Compared env (env.settle row) pc st insn r ∧
      env.exitReports row.isCanonicalEntry insn st = [] := by
  have hv := h.verify pc st hst
  unfold verifyAt at hv
  cases hd : env.decodeAt pc with
  | none => simp [hd] at hv
  | some insn =>
    simp only [hd] at hv
    split at hv
    · cases hv
    · rename_i hin
      simp only [List.append_eq_nil_iff] at hv
      obtain ⟨⟨hrow, -⟩, hexit⟩ := hv
      unfold rowReports at hrow
      cases hr : env.cfi.rowAt pc with
      | none => simp [hr] at hrow
      | some r =>
        simp only [hr, List.append_eq_nil_iff] at hrow
        exact ⟨insn, r, ⟨hst, hd, BitVec.not_lt.mp hin, hr, hrow.1⟩, hexit⟩

end Env

end UnwindCheck
