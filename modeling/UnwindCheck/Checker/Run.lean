import UnwindCheck.Checker.Verify

/-! One run of the full checker over one FDE, and the retry with guessing. -/
namespace UnwindCheck
variable {δ : Type} [Offset δ]

structure FDEResult where
  fdeAddr : Word
  pcBegin : Word
  pcEnd : Word
  signalFrame : Bool
  verdict : Verdict
  findings : List Finding
  instructionsChecked : ℕ
  guessableJumpPc : Option Word
  guessedJumpTables : List GuessedJumpTable
  deriving DecidableEq, Repr

/-- The result before anything was looked at. -/
def FDEResult.start (cfi : CFI δ) : FDEResult :=
  ⟨cfi.fdeAddr, cfi.pcBegin, cfi.pcEnd, cfi.signalFrame, .blessed, [], 0, none, []⟩

/-- `SetupCallSites`: the sites whose pad is ours, or why the table could not be read. -/
def setupCallSites (image : ELFImage) (cfi : CFI δ) : List LSDACallSite × List Report :=
  if cfi.lsdaAddr = 0 then ([], [])
  else match readLSDACallSites image cfi.lsdaAddr cfi.pcBegin with
    | .error e =>
      ([], [⟨.review, cfi.pcBegin, "failed to parse this FDE's LSDA (.gcc_except_table) at 0x" ++
        showHex16 cfi.lsdaAddr ++ ": " ++ e⟩])
    | .ok sites => (sites.filter fun cs => cfi.Covers cs.landingPad, [])

omit [Offset δ] in
theorem setupCallSites_covers (image : ELFImage) (cfi : CFI δ) :
    ∀ cs ∈ (setupCallSites image cfi).1, cfi.Covers cs.landingPad := by
  intro cs hcs
  unfold setupCallSites at hcs
  split at hcs
  · cases hcs
  · split at hcs
    · cases hcs
    · simpa using (List.mem_filter.mp hcs).2

/-- The environment of one run. -/
def Env.of (options : FDECheckerOptions δ) (cfi : CFI δ) (guessing : Bool) : Env δ :=
  ⟨options, cfi, (setupCallSites options.image cfi).1, guessing, setupCallSites_covers _ _⟩

/-- `CheckEntryRow` -/
def checkEntryRow (cfi : CFI δ) (atFunctionEntry : Bool) (row : CFIRow δ) : List Report :=
  if atFunctionEntry && !row.isCanonicalEntry then
    [⟨.review, cfi.pcBegin, "a function symbol starts here and we expect canonical entry CFI but " ++
      "we got: " ++ row.toString⟩]
  else []

namespace Env
variable (env : Env δ)

/-- Whether an instruction is a table-shaped jump with no declared bound. -/
def isUnboundedJump (state : AbsState δ) (insn : Instruction) : Bool :=
  let outcome := (transfer env.z insn state).1
  outcome.jumpTable.isNone && outcome.unboundedJumpTarget.isSome

/-- Reached instructions that pass two gets as far as looking at. -/
def checkedInsns (w : Walk δ) : List (Instruction × AbsState δ) :=
  w.inStates.toList.filterMap fun e =>
    (env.decodeAt e.1).bind fun insn => if env.cfi.pcEnd < insn.next then none else some (insn, e.2)

/-- The jump guessing could resolve, when there is exactly one. -/
def guessableJumpPc (w : Walk δ) : Option Word :=
  match (env.checkedInsns w).filter fun e => env.isUnboundedJump e.2 e.1 with
  | [e] => some e.1.address
  | _ => none

def guessedJumpTables (w : Walk δ) : List GuessedJumpTable :=
  (env.checkedInsns w).filterMap fun e =>
    match env.exitOf e.1 e.2 with
    | .guessedTable addr targets => some ⟨e.1.address, addr, targets⟩
    | _ => none

def hitCapReports (w : Walk δ) : List Report :=
  if w.hitCap then
    [⟨.review, env.cfi.pcBegin, "analysis gave up after " ++ toString env.options.maxIterations ++
      " dataflow steps"⟩]
  else []

/-- Every `Add` of a run that gets past the first row, in order. -/
def runReports (atFunctionEntry : Bool) (row : CFIRow δ) : List Report :=
  let w := env.settle row
  checkEntryRow env.cfi atFunctionEntry row ++ (setupCallSites env.image env.cfi).2 ++
    env.unreachedPadReports (env.firstWalk row) ++ env.hitCapReports w ++
    env.verifyPass row.isCanonicalEntry w ++ env.reportCoverageGaps w

end Env

/-- `Check`: one fresh `FDEChecker`, run once. -/
def check (options : FDECheckerOptions δ) (cfi : CFI δ) (atFunctionEntry guessing : Bool) :
    FDEResult :=
  let result := FDEResult.start cfi
  let findings := fun rs => ((FindingSink.new options.maxFindingsPerFde).addAll rs).take
  match cfi.rowAt cfi.pcBegin with
  | none =>
    { result with
      verdict := .review
      findings := findings [⟨.review, cfi.pcBegin, "no CFI row covers the start of this FDE"⟩] }
  | some row =>
    if row.regs 16 = .undefined then result
    else
      let env := Env.of options cfi guessing
      let w := env.settle row
      { result with
        verdict := verdictOf (findings (env.runReports atFunctionEntry row))
        findings := findings (env.runReports atFunctionEntry row)
        instructionsChecked := (env.checkedInsns w).length
        guessableJumpPc := env.guessableJumpPc w
        guessedJumpTables := env.guessedJumpTables w }

def checkWithGuessing (options : FDECheckerOptions δ) (cfi : CFI δ) (atFunctionEntry : Bool) :
    FDEResult :=
  let result := check options cfi atFunctionEntry false
  if result.verdict ≠ .review ∨ result.guessableJumpPc = none then result
  else
    let retry := check options cfi atFunctionEntry true
    if retry.verdict ≠ .blessed then result
    else { result with verdict := .reviewLight, guessedJumpTables := retry.guessedJumpTables }

end UnwindCheck
