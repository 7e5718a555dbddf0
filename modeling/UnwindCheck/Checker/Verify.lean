import UnwindCheck.Checker.Walk

/-! Pass two: the settled states against the declared rows, the exits of the FDE, and the bytes
nothing reached. -/
namespace UnwindCheck
variable {δ : Type} [Offset δ]

def kUnresolvedIndirectJumpMsg : String :=
  "unresolved indirect jump; jump tables are not resolved in this version, so the code it " ++
    "reaches went unchecked"

/-- One switch table resolved by guessing. -/
structure GuessedJumpTable where
  pc : Word
  tableAddr : Word
  targets : List Word
  deriving DecidableEq, Repr

/-- `CheckExitState` -/
def checkExitState (isCanonicalEntry : Bool) (pc : Word) (state : AbsState δ)
    (isTailCall : Bool) : List Report :=
  let context := if isTailCall then "tail call" else "return"
  let rsp := state.gpr kDWARFRsp
  let atEntry := rsp.isCFARel (Offset.ofInt (-8))
  let rspReports : List Report :=
    match rsp with
    | .top | .bottom => [⟨.review, pc, context ++ " with untracked rsp (" ++ rsp.toString ++ ")"⟩]
    | _ =>
      -- only a CFA-relative value has a delta; the others print the field's default
      let delta := match rsp with
        | .cfaRel d => Offset.toInt d
        | _ => 0
      if atEntry then []
      else if isTailCall then
        [⟨.review, pc, "unconditional jump out of FDE to an address with no covering FDE, with " ++
          "rsp at CFA" ++ showSigned (asInt32 delta) ++ " (should be CFA-8 for a tail call; could " ++
          "be a branch to a noreturn call, or into code with no CFI at all)"⟩]
      else [⟨.mismatch, pc, "return with rsp at CFA" ++ showSigned delta ++ " (should be CFA-8)"⟩]
  let savedReports : List Report := kCalleeSaved.flatMap fun r =>
    let v := state.gpr r
    if v.isUnknown then
      [⟨.review, pc, context ++ " with untracked callee-saved register " ++ dwarfRegName r ++
        " (" ++ v.toString ++ ")"⟩]
    else if !v.isOrigReg r then
      [⟨.mismatch, pc, context ++ " with callee-saved register " ++ dwarfRegName r ++ " holding " ++
        v.toString ++ " (entry value was not restored)"⟩]
    else []
  let raReports : List Report :=
    let ra := state.slot (Offset.ofInt (-8))
    if ra.isUnknown then
      [⟨.review, pc, context ++ " with untracked return address slot at [CFA-8] (" ++
        ra.toString ++ ")"⟩]
    else if !ra.isOrigReg kDWARFRip then
      [⟨.mismatch, pc, context ++ " with return address slot at [CFA-8] holding " ++ ra.toString ++
        " (overwritten)"⟩]
    else []
  if !isCanonicalEntry then
    [⟨.review, pc, context ++ " in an FDE that did not start at a canonical function entry"⟩]
  else if isTailCall && !atEntry then rspReports
  else rspReports ++ savedReports ++ raReports

/-- How an instruction leaves the FDE, in the order `VerifyPass` asks. -/
inductive Exit where
  | stays
  | resolvedTable (targets : List Word)
  | guessedTable (addr : Word) (targets : List Word)
  | unresolved
  | returns
  | jumpsOut (target : Word)
  | indirect
  deriving DecidableEq, Repr

namespace Env
variable (env : Env δ)

/-- The declared row a jump out of the FDE is held to, with the context its findings carry. -/
def crossRow (edgePc target : Word) : Option (RowChecker × CFIRow δ) :=
  match cfiContaining env.options.allCfis target with
  | none => none
  | some targetCfi =>
    (targetCfi.rowAt target).map fun row =>
      (⟨edgePc, "jump to 0x" ++ showHex target ++ " (FDE at 0x" ++ showHex targetCfi.fdeAddr ++ "): ",
        env.options.checkUnmentionedCalleeSaved ||
          (target = targetCfi.pcBegin && row.isCanonicalEntry)⟩, row)

/-- `CheckCrossFDEEdge`; `none` when nothing declares a row at the target. -/
def checkCrossFDEEdge (edgePc target : Word) (state : AbsState δ) : Option (List Report) :=
  (env.crossRow edgePc target).map fun e => e.1.check e.2 state

/-- The chain of conditions at the end of `VerifyPass`'s loop body. -/
def exitOf (insn : Instruction) (state : AbsState δ) : Exit :=
  let outcome := (transfer env.z insn state).1
  match outcome.jumpTable, outcome.unboundedJumpTarget with
  | some (addr, entries), _ =>
    if (env.resolveJumpTable addr entries).isEmpty then .unresolved
    else .resolvedTable (env.resolveJumpTable addr entries)
  | none, some addr =>
    let targets := if env.guessing then env.probeJumpTable addr insn.address state else []
    if targets.isEmpty then .unresolved else .guessedTable addr targets
  | none, none =>
    if outcome.isReturn then .returns
    else match outcome.directTarget with
      | some target =>
        if env.cfi.Covers target then
          if outcome.indirectBranch then .indirect else .stays
        else .jumpsOut target
      | none => if outcome.indirectBranch then .indirect else .stays

/-- Addresses outside the FDE whose declared row the state is compared with. -/
def crossTargets (insn : Instruction) (state : AbsState δ) : List Word :=
  match env.exitOf insn state with
  | .resolvedTable targets | .guessedTable _ targets => targets.filter fun t => !env.cfi.Covers t
  | .jumpsOut target => [target]
  | _ => []

/-- What to say when no row is declared at a target. -/
def uncoveredTarget (isCanonicalEntry : Bool) (insn : Instruction) (state : AbsState δ)
    (target : Word) : List Report :=
  match env.exitOf insn state with
  | .resolvedTable _ =>
    [⟨.review, insn.address, "resolved switch-table entry at 0x" ++ showHex target ++
      " lands outside this FDE's range and no FDE covers it, so there is no declared row to " ++
      "check it against"⟩]
  | .guessedTable _ _ =>
    [⟨.review, insn.address, "guessed switch-table entry at 0x" ++ showHex target ++
      " lands outside this FDE's range and no FDE covers it, so there is no declared row to " ++
      "check it against"⟩]
  | _ => checkExitState isCanonicalEntry insn.address state true

/-- One edge out of the FDE, held to a declared row or to the exit convention. -/
def checkOutEdge (isCanonicalEntry : Bool) (insn : Instruction) (state : AbsState δ)
    (target : Word) : List Report :=
  (env.checkCrossFDEEdge insn.address target state).getD
    (env.uncoveredTarget isCanonicalEntry insn state target)

def exitReports (isCanonicalEntry : Bool) (insn : Instruction) (state : AbsState δ) :
    List Report :=
  (env.crossTargets insn state).flatMap (env.checkOutEdge isCanonicalEntry insn state) ++
    match env.exitOf insn state with
    | .unresolved => [⟨.review, insn.address, kUnresolvedIndirectJumpMsg⟩]
    | .returns => checkExitState isCanonicalEntry insn.address state false
    | .indirect =>
      if isCanonicalEntry && isExitState state then []
      else [⟨.review, insn.address, kUnresolvedIndirectJumpMsg⟩]
    | _ => []

/-- Path conflicts recorded at `pc` that its row depends on. -/
def conflictReports (w : Walk δ) (pc : Word) (row : CFIRow δ) : List Report :=
  ((w.joinConflicts[pc]?).getD []).filterMap fun c =>
    if rowDependsOn row c.component then
      some ⟨.review, pc, "paths into this address disagree: " ++ c.describe ++
        " -- one of them must contradict the single CFI row here, unless one of them is not " ++
        "really reachable"⟩
    else none

/-- The row check at `pc`, with the conflicts its row depends on. -/
def rowReports (w : Walk δ) (pc : Word) (state : AbsState δ) : List Report :=
  match env.cfi.rowAt pc with
  | none => [⟨.review, pc, "no CFI row covers this address"⟩]
  | some row =>
    (RowChecker.mk pc "" env.options.checkUnmentionedCalleeSaved).check row state ++
      conflictReports w pc row

/-- The loop body of `VerifyPass`. -/
def verifyAt (isCanonicalEntry : Bool) (w : Walk δ) (pc : Word) (state : AbsState δ) :
    List Report :=
  match env.decodeAt pc with
  | none => [⟨.review, pc, "cannot decode the instruction at this address"⟩]
  | some insn =>
    if env.cfi.pcEnd < insn.next then
      [⟨.review, pc, "instruction runs past the end of the FDE's PC range"⟩]
    else
      let reason := (transfer env.z insn state).1.reviewReason
      env.rowReports w pc state ++
        (if reason.isEmpty then [] else [⟨.review, pc, reason⟩]) ++
        env.exitReports isCanonicalEntry insn state

/-- `VerifyPass`, over the reached addresses in order. -/
def verifyPass (isCanonicalEntry : Bool) (w : Walk δ) : List Report :=
  w.inStates.toList.flatMap fun e => env.verifyAt isCanonicalEntry w e.1 e.2

/-- One stride of the inner gap loop: where it goes and whether it met only padding. -/
def gapStride (pc : Word) : Word × Bool :=
  match env.decodeAt pc with
  | none => (pc + 1, false)
  | some insn => (insn.next, insn.id = .nop || insn.id = .int3)

/-- The inner loop of `ReportCoverageGaps`: the end of a gap, and whether it is all padding. -/
def gapEnd (w : Walk δ) : (fuel : ℕ) → (pc : Word) → (allPadding : Bool) → Word × Bool
  | 0, pc, allPadding => (pc, allPadding)
  | fuel + 1, pc, allPadding =>
    if pc < env.cfi.pcEnd ∧ w.insnSizes[pc]? = none then
      gapEnd w fuel (env.gapStride pc).1 (allPadding && (env.gapStride pc).2)
    else (pc, allPadding)

def gapReport (start stop : Word) : Report :=
  ⟨.review, start, toString (stop - start).toNat ++ " bytes from here were not reached by the " ++
    "control-flow walk, so their CFI went unchecked (exception landing pads and jump-table " ++
    "targets look like this)"⟩

/-- The outer loop. Both loops move forward by at least one address a stride, so the distance
to the end of the FDE is fuel enough. -/
def scanGaps (w : Walk δ) : (fuel : ℕ) → (pc : Word) → List Report
  | 0, _ => []
  | fuel + 1, pc =>
    if pc < env.cfi.pcEnd then
      match w.insnSizes[pc]? with
      | some size => scanGaps w fuel (pc + BitVec.ofNat 64 size)
      | none =>
        let gap := env.gapEnd w (env.cfi.pcEnd - pc).toNat pc true
        (if gap.2 then [] else [gapReport pc gap.1]) ++ scanGaps w fuel gap.1
    else []

def reportCoverageGaps (w : Walk δ) : List Report :=
  if env.options.reportCoverageGaps then
    env.scanGaps w (env.cfi.pcEnd - env.cfi.pcBegin).toNat env.cfi.pcBegin
  else []

end Env

end UnwindCheck
