import UnwindCheck.Checker.Run

/-! The light checker: a straight sweep over the FDE that reseeds the state from the declared row
at every instruction, runs one transfer and looks at the CFA rule of the row it leads to. -/
namespace UnwindCheck
variable {δ : Type} [Offset δ]

namespace Light

/-- The CFA rule could be right about this value. -/
def cfaSatisfiedBy (target : CFARule δ) : AbsVal δ → Bool
  | .cfaRel delta => target.kind = .regOffset ∧ delta + target.offset = Offset.ofInt 0
  | _ => false

/-- `CheckCFA`: what it reports, and whether the CFA can no longer be followed. -/
def checkCFA (pc : Word) (target : CFARule δ) (state : AbsState δ) (edgeDesc : String) :
    List Report × Bool :=
  if target.kind ≠ .regOffset then
    ([⟨.review, pc, edgeDesc ++ "CFA is given by a DWARF expression, or left undeclared, which the " ++
      "light checker does not evaluate; giving up on the rest of this FDE"⟩], true)
  else
    let v := state.reg target.reg
    match v with
    | .cfaRel _ =>
      if cfaSatisfiedBy target v then ([], false)
      else ([⟨.mismatch, pc, edgeDesc ++ "declared CFA is " ++ target.toString ++
        ", but the code leaves " ++ dwarfRegName target.reg ++ " at " ++ v.toString⟩], false)
    | _ =>
      ([⟨.review, pc, edgeDesc ++ "CFA is declared as " ++ target.toString ++ ", but " ++
        dwarfRegName target.reg ++ " holds " ++ v.toString ++ " here, so the rule cannot be " ++
        "verified; giving up on the rest of this FDE"⟩], true)

/-- What a visit does about falling through. -/
inductive FallThrough (δ : Type) where
  | nothing
  | missingRow
  | exempt
  | badTransition
  | compare (row : CFIRow δ)

/-- `pop %rbp`, in its 64-bit spelling. -/
def isPopRbp (insn : Instruction) : Bool :=
  insn.id = .pop && insn.opCount = 1 && (insn.op? 0).any fun op => op.kind = .register (.gpr64 .rbp)

/-- The edge to the next instruction; a call's is not looked at. -/
def fallThrough (cfi : CFI δ) (row : CFIRow δ) (insn : Instruction) (outcome : TransferOutcome) :
    FallThrough δ :=
  if outcome.fallsThrough ∧ ¬ outcome.isCall ∧ insn.next < cfi.pcEnd then
    match cfi.rowAt insn.next with
    | none => .missingRow
    | some nextRow =>
      if row.cfa = .regOffset 6 (Offset.ofInt 16) ∧ nextRow.cfa = .regOffset 7 (Offset.ofInt 8) then
        if isPopRbp insn ∨ insn.id = .leave then .exempt else .badTransition
      else if insn.id = .nop then .exempt
      else .compare nextRow
  else .nothing

/-- The row declared at a direct target, in this FDE or another, with the edge's description. -/
def directRow (options : FDECheckerOptions δ) (cfi : CFI δ) (outcome : TransferOutcome) :
    Option (Word × CFIRow δ × String) := do
  let target ← outcome.directTarget
  let targetCfi ← cfiContaining options.allCfis target
  let row ← targetCfi.rowAt target
  let desc := if targetCfi = cfi then "" else
    "jump to 0x" ++ showHex target ++ " (FDE at 0x" ++ showHex targetCfi.fdeAddr ++ "): "
  return (target, row, desc)

/-- How one visit ends. -/
inductive Step where
  | checkFailed
  | stop (reports : List Report)
  | proceed (reports : List Report)

/-- What `CheckCFA` says decides whether the sweep goes on. -/
def Step.ofCheck (r : List Report × Bool) : Step := if r.2 then .stop r.1 else .proceed r.1

def stepFallThrough (cfi : CFI δ) (row : CFIRow δ) (insn : Instruction) (outcome : TransferOutcome)
    (state : AbsState δ) : Step :=
  match fallThrough cfi row insn outcome with
  | .nothing | .exempt => .proceed []
  | .missingRow => .checkFailed
  | .badTransition =>
    .stop [⟨.review, insn.address,
      "transition to rsp-based CFA is not on pop %rbp or leave instruction"⟩]
  | .compare nextRow => .ofCheck (checkCFA insn.address nextRow.cfa state "")

def stepDirect (options : FDECheckerOptions δ) (cfi : CFI δ) (insn : Instruction)
    (outcome : TransferOutcome) (state : AbsState δ) : Step :=
  match directRow options cfi outcome with
  | none => .proceed []
  | some (_, row, desc) => .ofCheck (checkCFA insn.address row.cfa state desc)

/-- The body of the sweep once the instruction is decoded. -/
def visit (options : FDECheckerOptions δ) (cfi : CFI δ) (row : CFIRow δ) (insn : Instruction) :
    Step :=
  let (outcome, state) := transfer options.disasm insn (AbsState.seedFromRow row false)
  match stepFallThrough cfi row insn outcome state with
  | .checkFailed => .checkFailed
  | .stop rs => .stop rs
  | .proceed rs =>
    match stepDirect options cfi insn outcome state with
    | .checkFailed => .checkFailed
    | .stop rs' => .stop (rs ++ rs')
    | .proceed rs' => .proceed (rs ++ rs')

inductive SweepEnd where
  | finished
  | noRow
  | gaveUp
  | checkFailed
  deriving DecidableEq, Repr

/-- What a sweep did: the instructions it decoded, what it reported, and how it ended. -/
structure Sweep where
  swept : List Instruction
  reports : List Report
  ended : SweepEnd

def decodeAt (options : FDECheckerOptions δ) (cfi : CFI δ) (pc : Word) : Option Instruction :=
  options.disasm.decode (options.image.bytesAt pc (min 16 (cfi.pcEnd - pc).toNat)) pc

/-- The report for bytes that do not decode. -/
def undecodable (options : FDECheckerOptions δ) (cfi : CFI δ) (pc : Word) : Report :=
  ⟨.mismatch, pc, "could not decode instruction at " ++ showHex pc ++ " (buffer size: " ++
    toString (options.image.bytesAt pc (min 16 (cfi.pcEnd - pc).toNat)).length ++ ")"⟩

/-- The loop. An instruction is at least one byte long, so the distance to the end of the FDE is
fuel enough. -/
def sweepFrom (options : FDECheckerOptions δ) (cfi : CFI δ) : (fuel : ℕ) → (pc : Word) → Sweep
  | 0, _ => ⟨[], [], .finished⟩
  | fuel + 1, pc =>
    if pc < cfi.pcEnd then
      match cfi.rowAt pc with
      | none => ⟨[], [], .noRow⟩
      | some row =>
        match decodeAt options cfi pc with
        | none => ⟨[], [undecodable options cfi pc], .gaveUp⟩
        | some insn =>
          match visit options cfi row insn with
          | .checkFailed => ⟨[insn], [], .checkFailed⟩
          | .stop rs => ⟨[insn], rs, .gaveUp⟩
          | .proceed rs =>
            let rest := sweepFrom options cfi fuel insn.next
            ⟨insn :: rest.swept, rs ++ rest.reports, rest.ended⟩
    else ⟨[], [], .finished⟩

def sweep (options : FDECheckerOptions δ) (cfi : CFI δ) : Sweep :=
  sweepFrom options cfi (cfi.pcEnd - cfi.pcBegin).toNat cfi.pcBegin

/-- The two loops over the findings at the end of `LightCheck`. -/
def verdictOf (findings : List Finding) : Verdict :=
  if findings.any (·.severity = .mismatch) then .mismatch
  else if findings.any (·.severity = .review) then .review
  else .blessed

end Light

/-- `LightCheck`; `none` is a failed `CHECK`, which ends the process. -/
def lightCheck (options : FDECheckerOptions δ) (cfi : CFI δ) : Option FDEResult :=
  let result := FDEResult.start cfi
  if (cfi.rowAt cfi.pcBegin).any fun row => row.regs 16 = .undefined then some result
  else
    let sweep := Light.sweep options cfi
    let findings := ((FindingSink.new options.maxFindingsPerFde).addAll sweep.reports).take
    if sweep.ended = .checkFailed then none
    else some { result with
      verdict := Light.verdictOf findings
      findings := findings
      instructionsChecked := sweep.swept.length }

end UnwindCheck
