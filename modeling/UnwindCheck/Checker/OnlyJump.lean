import UnwindCheck.Checker.Guessing
import UnwindCheck.Lib.Wording

/-! When the jump is the only thing that is open behind REVIEW-LIGHT: what the plain run must have
found out by itself for its findings to be about the jump and about bytes nobody reached. -/
namespace UnwindCheck
open Lib
variable {δ : Type} [Offset δ]

section Texts
variable {r : Report} {pc : Word} {state : AbsState δ}

namespace RowChecker
variable {rc : RowChecker} (hcontext : rc.edgeContext = "" ∨ Worded rc.edgeContext)
include hcontext

end RowChecker

namespace Env
variable {env : Env δ} {insn : Instruction} {isCanonicalEntry : Bool}

end Env

end Texts

namespace Env
variable {env : Env δ} {row : CFIRow δ} {jump : Word} {r : Report}

/-- Pass two goes over the reached addresses in order. -/
theorem verifyPass_sorted (isCanonicalEntry : Bool) (w : Walk δ) :
    (env.verifyPass isCanonicalEntry w).Pairwise fun r r' => r.pc ≤ r'.pc := by
  unfold verifyPass
  rw [List.pairwise_flatMap]
  constructor
  · intro e he
    refine List.pairwise_of_forall_mem_list fun r hr r' hr' => ?_
    rw [pc_of_mem_verifyAt hr, pc_of_mem_verifyAt hr']
    exact BitVec.le_refl _
  · refine Std.ExtTreeMap.ordered_keys_toList.imp fun {e e'} hlt r hr r' hr' => ?_
    rw [pc_of_mem_verifyAt hr, pc_of_mem_verifyAt hr']
    exact BitVec.le_of_lt (compareOfLessAndEq_eq_lt.mp hlt)

/-- What the plain run must have found out without the guess: every landing pad is one of its calls',
it settles, and where the guessed edges change a state or a conflict, the row, the exits and the
instruction leave nothing open, save for jumps further on that read like the one in question. The gaps
have room beside it in the sink. -/
structure SolePoint (env : Env δ) (row : CFIRow δ) (jump : Word) : Prop where
  pads : env.unreachedPads (env.firstWalk row) = []
  settled : (env.settle row).hitCap = false
  changed : ∀ pc st, (env.settle row).inStates[pc]? = some st → ¬ env.SameAt row pc st →
    ∀ r ∈ env.verifyAt row.isCanonicalEntry (env.settle row) pc st,
      r.message = kUnresolvedIndirectJumpMsg ∧ jump ≤ pc
  room : (FindingSink.messages (⟨.review, jump, kUnresolvedIndirectJumpMsg⟩ ::
    env.reportCoverageGaps (env.settle row))).toFinset.card ≤ env.options.maxFindingsPerFde

/-- The plain run in front of a silent retry has nothing to say about the entry or the LSDA. -/
theorem runReports_of_silent {atFunctionEntry : Bool}
    (hsilent : env.guess.runReports atFunctionEntry row = []) :
    env.runReports atFunctionEntry row = env.unreachedPadReports (env.firstWalk row) ++
      env.hitCapReports (env.settle row) ++ env.verifyPass row.isCanonicalEntry (env.settle row) ++
      env.reportCoverageGaps (env.settle row) := by
  have hstart : checkEntryRow env.cfi atFunctionEntry row = [] ∧
      (setupCallSites env.image env.cfi).2 = [] := by
    simp only [runReports, List.append_eq_nil_iff] at hsilent
    exact hsilent.1.1.1.1
  unfold runReports
  dsimp only
  rw [hstart.1, hstart.2]
  simp only [List.nil_append]

/-- The one unbounded jump is among what pass two reports. -/
theorem jump_mem_verifyPass (hg : env.guessing = false)
    (hjump : env.guessableJumpPc (env.settle row) = some jump) (isCanonicalEntry : Bool) :
    ⟨.review, jump, kUnresolvedIndirectJumpMsg⟩ ∈ env.verifyPass isCanonicalEntry (env.settle row) := by
  unfold guessableJumpPc at hjump
  split at hjump
  · rename_i e he
    rw [← Option.some.inj hjump]
    have hmem : e ∈ (env.checkedInsns (env.settle row)).filter fun e => env.isUnboundedJump e.2 e.1 := by
      rw [he]
      exact List.mem_singleton_self e
    obtain ⟨hchecked, hunbounded⟩ := List.mem_filter.mp hmem
    obtain ⟨⟨pc, st⟩, hst, hbind⟩ := List.mem_filterMap.mp hchecked
    obtain ⟨insn, hd, hinsn⟩ := Option.bind_eq_some_iff.mp hbind
    split_ifs at hinsn with hend
    rw [← Option.some.inj hinsn] at hunbounded ⊢
    refine List.mem_flatMap.mpr ⟨(pc, st), hst, ?_⟩
    unfold verifyAt
    simp only [show env.decodeAt pc = some insn from hd, if_neg hend]
    refine List.mem_append_right _ ?_
    rw [exitReports_unbounded hg hunbounded]
    exact List.mem_singleton_self _
  · cases hjump

/-- Of the reports with one message, the first is that with the least address. -/
theorem pc_le_of_first {xs ys pre post : List Report} {r' : Report}
    (hsorted : xs.Pairwise fun r r' => r.pc ≤ r'.pc) (hsplit : xs ++ ys = pre ++ r :: post)
    (hmem : r' ∈ xs) (hsame : r'.message = r.message) (hfirst : r.message ∉ FindingSink.messages pre) :
    r.pc ≤ r'.pc := by
  have hnot : r' ∉ pre := fun hpre => hfirst (hsame ▸ List.mem_map_of_mem hpre)
  rcases List.append_eq_append_iff.mp hsplit with ⟨mid, rfl, -⟩ | ⟨mid, rfl, hmid⟩
  · exact absurd (List.mem_append_left _ hmem) hnot
  · rcases List.mem_append.mp hmem with hpre | hmem
    · exact absurd hpre hnot
    · cases mid with
      | nil => cases hmem
      | cons x mid =>
        obtain ⟨rfl, -⟩ := List.cons.inj hmid
        rcases List.mem_cons.mp hmem with rfl | hmem
        · exact BitVec.le_refl _
        · have hrest := (List.pairwise_append.mp hsorted).2.1
          exact (List.pairwise_cons.mp hrest).1 r' hmem

section
variable {atFunctionEntry : Bool} (hg : env.guessing = false)
  (hjump : env.guessableJumpPc (env.settle row) = some jump)
  (hsilent : env.guess.runReports atFunctionEntry row = [])
include hg hjump hsilent

/-- Where the plain run knows enough, all that pass two says reads like the jump, and is not about
anything in front of it. -/
theorem SolePoint.verifyPass (h : env.SolePoint row jump)
    (hr : r ∈ env.verifyPass row.isCanonicalEntry (env.settle row)) :
    r.message = kUnresolvedIndirectJumpMsg ∧ jump ≤ r.pc := by
  obtain ⟨⟨pc, st⟩, he, hr⟩ := List.mem_flatMap.mp hr
  have hst : (env.settle row).inStates[pc]? = some st :=
    Std.ExtTreeMap.mem_toList_iff_getElem?_eq_some.mp he
  have hpc : r.pc = pc := pc_of_mem_verifyAt hr
  rw [hpc]
  by_cases hsame : env.SameAt row pc st
  · have hs : env.guess.Silent row := silent_of_runReports hsilent
    obtain ⟨rfl, insn, hd, hend, hu⟩ :=
      mem_verifyAt_of_silent hg (hs.verify pc st hsame.1) hsame.2 hr
    rw [eq_of_guessableJumpPc hjump hst hd hend hu]
    exact ⟨rfl, BitVec.le_refl _⟩
  · exact h.changed pc st hst hsame r hr

omit hg hjump in
/-- Nothing but the jump and the gaps is then reported. -/
theorem SolePoint.runReports (h : env.SolePoint row jump) :
    env.runReports atFunctionEntry row =
      env.verifyPass row.isCanonicalEntry (env.settle row) ++ env.reportCoverageGaps (env.settle row) := by
  have hpads : env.unreachedPadReports (env.firstWalk row) = [] := by
    unfold unreachedPadReports
    rw [h.pads]
    rfl
  have hcap : env.hitCapReports (env.settle row) = [] := by
    unfold hitCapReports
    rw [h.settled]
    rfl
  rw [runReports_of_silent hsilent, hpads, hcap]
  rfl

/-- The sink then has room for all of it. -/
theorem SolePoint.truncated (h : env.SolePoint row jump) :
    ((FindingSink.new env.options.maxFindingsPerFde).addAll
      (env.runReports atFunctionEntry row)).truncated = 0 := by
  rw [FindingSink.truncated_eq_zero_iff, h.runReports hsilent]
  refine le_trans (Finset.card_le_card fun m hm => ?_) h.room
  obtain ⟨r, hr, rfl⟩ := List.mem_map.mp (List.mem_toFinset.mp hm)
  rw [List.mem_toFinset]
  rcases List.mem_append.mp hr with hr | hr
  · rw [(h.verifyPass hg hjump hsilent hr).1]
    exact List.mem_cons_self
  · exact List.mem_cons_of_mem _ (List.mem_map_of_mem hr)

/-- So the findings are the jump's and the gaps'. -/
theorem SolePoint.findings (h : env.SolePoint row jump) {f : Finding}
    (hf : f ∈ ((FindingSink.new env.options.maxFindingsPerFde).addAll
      (env.runReports atFunctionEntry row)).take) (hsev : f.severity = .review) :
    f.Of ⟨.review, jump, kUnresolvedIndirectJumpMsg⟩ ∨
      ∃ g ∈ env.reportCoverageGaps (env.settle row), f.Of g := by
  unfold FindingSink.take at hf
  rw [h.truncated hg hjump hsilent, if_neg (lt_irrefl 0)] at hf
  obtain ⟨pre, r, post, hsplit, hof, hfirst⟩ := FindingSink.first_of_mem_addAll hf
  rw [h.runReports hsilent] at hsplit
  have hr : r ∈ env.verifyPass row.isCanonicalEntry (env.settle row) ++
      env.reportCoverageGaps (env.settle row) := by
    rw [hsplit]
    simp
  rcases List.mem_append.mp hr with hr | hr
  · left
    obtain ⟨hmessage, hle⟩ := h.verifyPass hg hjump hsilent hr
    rw [hof.2.2] at hfirst
    have hge := pc_le_of_first (verifyPass_sorted _ _) hsplit
      (jump_mem_verifyPass hg hjump row.isCanonicalEntry) hmessage.symm hfirst
    exact ⟨hsev, hof.2.1.trans (BitVec.le_antisymm hge hle), hof.2.2.trans hmessage⟩
  · exact Or.inr ⟨r, hr, hof⟩

end

section
variable {cap : ℕ} {rs : List Report} {w : Walk δ}
  (hall : ∀ f ∈ ((FindingSink.new cap).addAll rs).take,
    f.Of ⟨.review, jump, kUnresolvedIndirectJumpMsg⟩ ∨ ∃ g ∈ env.reportCoverageGaps w, f.Of g)
include hall

end

end Env

namespace Sample

/-- The dispatch of a switch through a table, from `lea` to `jmp *%rdx`, with a call and a branch.
The `lea` reaches 0x1f00 + `disp` bytes beyond its end. -/
def dispatch (disp : Byte) : List (List Byte × DecodedInsn) :=
  [([0x48, 0x8d, 0x05, disp, 0x1f, 0, 0], insn 7 .lea .other
      [⟨.register (.gpr64 .rax), 64, true, false⟩,
        ⟨.memory ⟨.rip, .none, 0, Int64.ofNat (0x1f00 + disp.toNat)⟩, 64, false, false⟩]),
    ([0x48, 0x63, 0x14, 0x88], insn 4 .movsxd .other
      [⟨.register (.gpr64 .rdx), 64, true, false⟩,
        ⟨.memory ⟨.gpr64 .rax, .gpr64 .rcx, 4, 0⟩, 32, false, false⟩]),
    ([0x48, 0x01, 0xc2], insn 3 .add .other
      [⟨.register (.gpr64 .rdx), 64, true, false⟩, ⟨.register (.gpr64 .rax), 64, false, false⟩]),
    ([0xff, 0xe2], insn 2 .jmp .uncondBr [⟨.register (.gpr64 .rdx), 64, false, false⟩]),
    ([0xe8, 0xeb, 0x0f, 0, 0], insn 5 .call .other [⟨.immediate 0xfeb, 32, false, false⟩]),
    ([0x74, 0x10], je 0x10)]

/-- `code` at 0x1000 and `data`, not executable, at 0x3000. -/
def dispatchOptions (disp : Byte) (code data : List Byte) (cfi : CFI Int64) :
    FDECheckerOptions Int64 where
  image := ⟨[⟨0x1000, BitVec.ofNat 64 code.length, true⟩, ⟨0x3000, BitVec.ofNat 64 data.length, false⟩],
    fun a => if a < 0x3000 then code.getD (a - 0x1000).toNat 0 else data.getD (a - 0x3000).toNat 0⟩
  disasm := .ofTable (dispatch disp ++ encodings)
  allCfis := [((cfi.pcBegin, cfi.pcEnd), cfi)]

/-- A switch with one case at 0x1010, which makes a call that can throw to 0x1016. -/
def throwing : CFI Int64 := { cfi 23 [row 0x1000 8] with lsdaAddr := 0x3008 }

def throwingOptions : FDECheckerOptions Int64 :=
  dispatchOptions 0xf9
    [0x48, 0x8d, 0x05, 0xf9, 0x1f, 0, 0, 0x48, 0x63, 0x14, 0x88, 0x48, 0x01, 0xc2, 0xff, 0xe2,
      0xe8, 0xeb, 0x0f, 0, 0, 0xc3, 0xcc]
    [0x10, 0xe0, 0xff, 0xff, 0, 0, 0, 0, 0xff, 0xff, 0x01, 0x04, 0x10, 0x05, 0x16, 0] throwing

end Sample

/-- So does the review of a landing pad that was taken on trust, where only the guess reaches it. -/
example : (checkWithGuessing Sample.throwingOptions Sample.throwing true).verdict = .reviewLight ∧
    (Env.of Sample.throwingOptions Sample.throwing false).unreachedPads
      ((Env.of Sample.throwingOptions Sample.throwing false).firstWalk (Sample.row 0x1000 8)) ≠ [] := by
  decide +kernel

end UnwindCheck
