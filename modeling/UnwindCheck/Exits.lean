import UnwindCheck.Insn.Agree
import UnwindCheck.Light.Sweep
import UnwindCheck.Checker.Pruning

/-! Edges that leave the FDE by falling off its end. -/
namespace UnwindCheck
variable {δ : Type} [Offset δ]

section Targets
variable {z : Zydis} {insn : Instruction} {s : AbsState δ}

end Targets

namespace Env
variable {env : Env δ} {pc : Word} {insn : Instruction} {st : AbsState δ}

end Env

/-- A comparison of pass two: the state of the instruction at `pc`, held to what is declared at
`target`, or to the exit convention where nothing is. -/
structure Comparison (δ : Type) [Offset δ] where
  pc : Word
  target : Word
  state : AbsState δ

namespace Env
variable (env : Env δ)

/-- The comparisons in the loop body of `VerifyPass`, apart from that with the row at `pc` itself. -/
def comparisonsAt (pc : Word) (state : AbsState δ) : List (Comparison δ) :=
  match env.decodeAt pc with
  | none => []
  | some insn =>
    if env.cfi.pcEnd < insn.next then []
    else (env.crossTargets insn state).map fun target => ⟨pc, target, state⟩

def comparisons (w : Walk δ) : List (Comparison δ) :=
  w.inStates.toList.flatMap fun e => env.comparisonsAt e.1 e.2

variable {env} {w : Walk δ}

theorem mem_comparisons {c : Comparison δ} (h : c ∈ env.comparisons w) :
    w.inStates[c.pc]? = some c.state ∧ ∃ insn, env.decodeAt c.pc = some insn ∧
      ¬ env.cfi.pcEnd < insn.next ∧ c.target ∈ env.crossTargets insn c.state := by
  obtain ⟨⟨pc, st⟩, he, hc⟩ := List.mem_flatMap.mp h
  have hst := Std.ExtTreeMap.mem_toList_iff_getElem?_eq_some.mp he
  unfold comparisonsAt at hc
  split at hc
  · cases hc
  · rename_i insn hd
    split_ifs at hc with hend
    · cases hc
    · obtain ⟨target, ht, rfl⟩ := List.mem_map.mp hc
      exact ⟨hst, insn, hd, hend, ht⟩

/-- What a comparison finds is reported by the pass. -/
theorem comparison_reported (isCanonicalEntry : Bool) {c : Comparison δ}
    (h : c ∈ env.comparisons w) : ∃ insn, env.decodeAt c.pc = some insn ∧
      env.checkOutEdge isCanonicalEntry insn c.state c.target ⊆ env.verifyPass isCanonicalEntry w := by
  obtain ⟨hst, insn, hd, hend, ht⟩ := mem_comparisons h
  refine ⟨insn, hd, fun r hr => ?_⟩
  refine List.mem_flatMap.mpr ⟨(c.pc, c.state), ?_, ?_⟩
  · exact Std.ExtTreeMap.mem_toList_iff_getElem?_eq_some.mpr hst
  · have hexit : r ∈ env.exitReports isCanonicalEntry insn c.state :=
      List.mem_append_left _ (List.mem_flatMap.mpr ⟨c.target, ht, hr⟩)
    unfold verifyAt
    simp only [hd, if_neg hend]
    exact List.mem_append_right _ hexit

end Env

namespace Light

/-- The rows a visit compares the state with, and where each is declared. -/
def comparisons (options : FDECheckerOptions δ) (cfi : CFI δ) (row : CFIRow δ) (insn : Instruction) :
    List (Word × CFIRow δ) :=
  let (outcome, state) := transfer options.disasm insn (AbsState.seedFromRow row false)
  (match fallThrough cfi row insn outcome with
    | .compare nextRow => [(insn.next, nextRow)]
    | _ => []) ++
  match stepFallThrough cfi row insn outcome state with
  | .proceed _ => (directRow options cfi outcome).toList.map fun e => (e.1, e.2.1)
  | _ => []

/-- What a comparison finds is reported by the visit. -/
theorem comparison_reported {options : FDECheckerOptions δ} {cfi : CFI δ} {row : CFIRow δ}
    {insn : Instruction} {e : Word × CFIRow δ} (h : e ∈ comparisons options cfi row insn)
    {rs : List Report} (hv : visit options cfi row insn = .stop rs ∨
      visit options cfi row insn = .proceed rs) :
    ∃ desc, (checkCFA insn.address e.2.cfa
      (transfer options.disasm insn (AbsState.seedFromRow row false)).2 desc).1 ⊆ rs := by
  unfold comparisons at h
  unfold visit stepDirect at hv
  dsimp only at h hv
  generalize (transfer options.disasm insn (AbsState.seedFromRow row false)).1 = outcome at h hv
  generalize (transfer options.disasm insn (AbsState.seedFromRow row false)).2 = state at h hv ⊢
  rcases List.mem_append.mp h with h | h
  · refine ⟨"", ?_⟩
    cases hf : fallThrough cfi row insn outcome with
    | compare nextRow =>
      rw [hf] at h
      obtain rfl := List.mem_singleton.mp h
      have hstep : stepFallThrough cfi row insn outcome state =
          .ofCheck (checkCFA insn.address nextRow.cfa state "") := by
        unfold stepFallThrough
        rw [hf]
      rw [hstep] at hv
      unfold Step.ofCheck at hv
      split_ifs at hv with hstop
      · simp only [Step.stop.injEq, or_false] at hv
        exact hv ▸ List.Subset.refl _
      · dsimp only at hv
        split at hv
        · simp at hv
        · simp only [Step.stop.injEq, reduceCtorEq, or_false] at hv
          exact hv ▸ List.subset_append_left _ _
        · simp only [Step.proceed.injEq, reduceCtorEq, false_or] at hv
          exact hv ▸ List.subset_append_left _ _
    | nothing | missingRow | exempt | badTransition =>
      rw [hf] at h
      cases h
  · cases hstep : stepFallThrough cfi row insn outcome state with
    | checkFailed | stop =>
      rw [hstep] at h
      cases h
    | proceed rs₁ =>
      rw [hstep] at h hv
      obtain ⟨⟨target, row', desc⟩, hdirect, rfl⟩ := List.mem_map.mp h
      rw [Option.mem_toList] at hdirect
      refine ⟨desc, ?_⟩
      dsimp only at hv ⊢
      rw [hdirect] at hv
      unfold Step.ofCheck at hv
      dsimp only at hv
      split_ifs at hv with hstop
      · simp only [Step.stop.injEq, or_false] at hv
        exact hv ▸ List.subset_append_right _ _
      · simp only [Step.proceed.injEq, false_or] at hv
        exact hv ▸ List.subset_append_right _ _

end Light

namespace Sample

end Sample

namespace Sample

end Sample

end UnwindCheck
