import UnwindCheck.Insn.Signed
import UnwindCheck.EhFrame.Program
import UnwindCheck.Light.Sweep

/-! Signed overflow across the pipeline: the steps of a run that compute with signed offsets, from the
opcode stream through the table to both checkers, and what keeps each of them in range. -/
namespace UnwindCheck
open Lib

namespace Signed

/-- One iteration of `RunInstructions`; factored offsets are scaled as signed words. -/
def runOp (isCie : Bool) (op : CfaOp) (st : EHReaderState) (b : TableBuilder Int64) :
    Traced (Except String (EHReaderState × TableBuilder Int64)) :=
  match op with
  | .offset reg offset => do
    let scaled ← Traced.mul offset st.dataAlign
    return .ok (st, b.handleOffset reg scaled)
  | .defCfaSf reg offset => do
    let scaled ← Traced.mul offset st.dataAlign
    return .ok (st, b.handleDefCFA reg scaled)
  | .defCfaOffsetSf offset => do
    let scaled ← Traced.mul offset st.dataAlign
    return .ok (st, b.handleDefCFAOffset scaled)
  | .valOffset reg offset => do
    let scaled ← Traced.mul offset st.dataAlign
    return .ok (st, b.handleValOffset reg scaled)
  | op => return UnwindCheck.runOp isCie op st b

/-- `SeedFromRow`: everything but the CFA rule is copied. -/
def seedFromRow (row : CFIRow Int64) (atFunctionEntry : Bool) : Traced State :=
  let s := (List.finRange 17).foldl (AbsState.seedReg row atFunctionEntry)
    { (AbsState.init : State) with gpr := fun r => .origReg r }
  let s := s.putGpr kDWARFRsp .top
  if row.cfa.kind = .regOffset ∧ row.cfa.reg < 16 then do
    let delta ← Traced.neg row.cfa.offset
    return s.putGpr row.cfa.reg (.cfaRel delta)
  else return s

/-- `CFASatisfiedBy` -/
def cfaSatisfiedBy (cfa : CFARule Int64) (v : AbsVal Int64) : Traced Bool :=
  match v with
  | .cfaRel delta => do
    let sum ← Traced.add delta cfa.offset
    return decide (sum = Offset.ofInt 0)
  | _ => return false

/-- `RowChecker::CheckCFA`: the sum is taken again for the message. -/
def checkCFA (rc : RowChecker) (cfa : CFARule Int64) (s : State) : Traced (List Report) :=
  match cfa.kind, s.reg cfa.reg with
  | .regOffset, .cfaRel delta => do
    let sum ← Traced.add delta cfa.offset
    return if sum ≠ Offset.ofInt 0 then [rc.mismatch (RowChecker.cfaMismatch cfa delta)] else []
  | _, _ => return rc.checkCFA cfa s

theorem value_runOp (isCie : Bool) (op : CfaOp) (st : EHReaderState) (b : TableBuilder Int64) :
    (runOp isCie op st b).value = UnwindCheck.runOp isCie op st b := by
  cases op <;> rfl

theorem value_seedFromRow (row : CFIRow Int64) (atFunctionEntry : Bool) :
    (seedFromRow row atFunctionEntry).value = AbsState.seedFromRow row atFunctionEntry := by
  unfold seedFromRow AbsState.seedFromRow
  dsimp only
  by_cases hreg : row.cfa.reg < 16
  · cases hk : row.cfa.kind <;> simp [hreg]
  · cases hk : row.cfa.kind <;> simp [hreg, AbsState.putGpr]

theorem value_cfaSatisfiedBy (cfa : CFARule Int64) (v : AbsVal Int64) :
    (cfaSatisfiedBy cfa v).value = UnwindCheck.cfaSatisfiedBy cfa v := by
  cases v <;> rfl

theorem value_checkCFA (rc : RowChecker) (cfa : CFARule Int64) (s : State) :
    (checkCFA rc cfa s).value = rc.checkCFA cfa s := by
  unfold checkCFA
  split
  · rename_i delta hk hv
    by_cases hsum : delta + cfa.offset = Offset.ofInt 0
    · simp [RowChecker.checkCFA, hk, hv, hsum]
    · simp [RowChecker.checkCFA, hk, hv, hsum]
  · rfl

end Signed

/-- A step of the pipeline that computes with signed offsets. -/
inductive SignedStep where
  | runOp (isCie : Bool) (op : CfaOp) (st : EHReaderState) (b : TableBuilder Int64)
  | seedFromRow (row : CFIRow Int64) (atFunctionEntry : Bool)
  | transfer (insn : Instruction) (s : State)
  | cfaSatisfiedBy (cfa : CFARule Int64) (v : AbsVal Int64)
  | checkCFA (rc : RowChecker) (cfa : CFARule Int64) (s : State)

/-- The operand of an operation that is scaled by the data alignment. -/
def CfaOp.factored : CfaOp → Option Word
  | .offset _ n | .defCfaSf _ n | .defCfaOffsetSf n | .valOffset _ n => some n
  | _ => none

namespace SignedStep
variable (z : Zydis)

/-- The signed operations of a step. -/
def ops : SignedStep → List SignedOp
  | runOp isCie op st b => (Signed.runOp isCie op st b).ops
  | seedFromRow row atFunctionEntry => (Signed.seedFromRow row atFunctionEntry).ops
  | transfer insn s => (Signed.transfer z insn s).ops
  | cfaSatisfiedBy cfa v => (Signed.cfaSatisfiedBy cfa v).ops
  | checkCFA rc cfa s => (Signed.checkCFA rc cfa s).ops

/-- The operands of a step leave room for what it computes. -/
def Fits : SignedStep → Prop
  | runOp _ op st _ =>
    ∀ offset, op.factored = some offset →
      -2 ^ 63 ≤ offset.toInt * st.dataAlign.toInt ∧ offset.toInt * st.dataAlign.toInt < 2 ^ 63
  | seedFromRow row _ =>
    row.cfa.kind = .regOffset → row.cfa.reg < 16 → row.cfa.offset.toInt ≠ -2 ^ 63
  | transfer insn s => Signed.TransferFits z insn s
  | cfaSatisfiedBy cfa v =>
    ∀ delta, v = .cfaRel delta →
      -2 ^ 63 ≤ delta.toInt + cfa.offset.toInt ∧ delta.toInt + cfa.offset.toInt < 2 ^ 63
  | checkCFA _ cfa s =>
    cfa.kind = .regOffset → ∀ delta, s.reg cfa.reg = .cfaRel delta →
      -2 ^ 63 ≤ delta.toInt + cfa.offset.toInt ∧ delta.toInt + cfa.offset.toInt < 2 ^ 63

theorem ops_inRange_iff (step : SignedStep) :
    (∀ op ∈ step.ops z, Representable op.exact) ↔ step.Fits z := by
  cases step with
  | runOp isCie op st b =>
    show (Signed.runOp isCie op st b).InRange ↔ _
    unfold Fits Signed.runOp
    cases op <;> simp [CfaOp.factored, Representable]
  | seedFromRow row atFunctionEntry =>
    show (Signed.seedFromRow row atFunctionEntry).InRange ↔ _
    have hoffset := representable_toInt row.cfa.offset
    unfold Fits Signed.seedFromRow
    dsimp only
    split_ifs with h
    · simp only [h, forall_const, Traced.inRange_bind, Traced.inRange_neg, Traced.inRange_pure_iff, and_true]
      unfold Representable at hoffset ⊢
      omega
    · simp only [Traced.inRange_pure_iff, true_iff]
      exact fun hk hreg => absurd ⟨hk, hreg⟩ h
  | transfer insn s => exact Signed.inRange_transfer
  | cfaSatisfiedBy cfa v =>
    show (Signed.cfaSatisfiedBy cfa v).InRange ↔ _
    unfold Fits Signed.cfaSatisfiedBy
    cases v <;> simp [Representable]
  | checkCFA rc cfa s =>
    show (Signed.checkCFA rc cfa s).InRange ↔ _
    unfold Fits Signed.checkCFA
    cases hk : cfa.kind <;> cases hv : s.reg cfa.reg <;> simp [hk, hv, Representable]

end SignedStep

section Reading

/-- The iterations of `RunInstructions` over one stream, to the first that fails. -/
def streamSteps (isCie : Bool) : List CfaOp → EHReaderState → TableBuilder Int64 → List SignedStep
  | [], _, _ => []
  | op :: ops, st, b =>
    .runOp isCie op st b ::
      match runOp isCie op st b with
      | .ok (st, b) => streamSteps isCie ops st b
      | .error _ => []

/-- The CIE's stream, then the FDE's own. -/
def FDERecord.steps (r : FDERecord) (b : TableBuilder Int64) : List SignedStep :=
  streamSteps true r.cieOps r.state (r.opened b) ++
    match runStream true r.cieOps r.state (r.opened b) with
    | .ok (st, b) => streamSteps false r.fdeOps st (r.resumed b)
    | .error _ => []

/-- Reading the FDE record at `fdeVaddr`. -/
def readSteps (mem : Word → Byte) (fdeVaddr ehFrameStart ehFrameEnd bias : Word) : List SignedStep :=
  match readRecord mem (ehFrameStart + bias, ehFrameEnd + bias) (fdeVaddr + bias) with
  | .ok r => r.steps (TableBuilder.new fdeVaddr bias)
  | .error _ => []

end Reading

namespace Env
variable (env : Env Int64)

/-- The row `ProbeJumpTable` holds a guessed target to. -/
def probedRow (jmpPc target : Word) : Option (RowChecker × CFIRow Int64) :=
  if env.cfi.Covers target then
    (env.cfi.rowAt target).map fun row =>
      (⟨jmpPc, "", env.options.checkUnmentionedCalleeSaved⟩, row)
  else do
    let targetCfi ← cfiContaining env.options.allCfis target
    let row ← targetCfi.rowAt target
    return (⟨jmpPc, "", env.options.checkUnmentionedCalleeSaved ||
      (target = targetCfi.pcBegin && row.isCanonicalEntry)⟩, row)

/-- `RowMatchesCleanly` on each entry of a probed table, to the first that is not accepted. -/
def probeSteps (tableAddr jmpPc : Word) (state : State) : (fuel index : ℕ) → List SignedStep
  | 0, _ => []
  | fuel + 1, index =>
    match env.resolveTableEntry tableAddr index with
    | none => []
    | some target =>
      ((env.probedRow jmpPc target).toList.map fun e => .checkCFA e.1 e.2.cfa state) ++
        if env.probeAccepts jmpPc target state then probeSteps tableAddr jmpPc state fuel (index + 1)
        else []

/-- A jump through a table of undeclared size is probed when guessing. -/
def tableSteps (pc : Word) (outcome : TransferOutcome) (state : State) : List SignedStep :=
  match outcome.jumpTable, outcome.unboundedJumpTarget with
  | none, some addr =>
    if env.guessing then env.probeSteps addr pc state kMaxJumpTableEntries 0 else []
  | _, _ => []

/-- `FallThroughIsReal`: the rule of a new row against the register after and before. -/
def fallThroughSteps (insn : Instruction) (state : State) : List SignedStep :=
  let (outcome, after) := transfer env.z insn state
  if outcome.fallsThrough ∧ insn.next < env.cfi.pcEnd then
    match env.cfi.rowIndexAt insn.next with
    | none => []
    | some i =>
      let here := env.cfi.rowIndexAt insn.address
      let row := env.cfi.rows.get i
      if some i = here then []
      else if outcome.isCall && rowLooksLikeFreshBlockStart row &&
          !here.any fun j => rowLooksLikeFreshBlockStart (env.cfi.rows.get j) then []
      else if h : row.cfa.kind = .regOffset ∧ row.cfa.reg < 16 then
        let was := state.gpr ⟨row.cfa.reg, h.2⟩
        let now := after.gpr ⟨row.cfa.reg, h.2⟩
        match was, now with
        | .cfaRel _, .cfaRel _ =>
          .cfaSatisfiedBy row.cfa now ::
            if cfaSatisfiedBy row.cfa now then [] else [.cfaSatisfiedBy row.cfa was]
        | _, _ => []
      else []
  else []

/-- One iteration of `Drain`. -/
def visitSteps (pc : Word) (state : State) : List SignedStep :=
  match env.decodeAt pc with
  | none => []
  | some insn =>
    let (outcome, after) := transfer env.z insn state
    .transfer insn state :: (env.fallThroughSteps insn state ++ env.tableSteps pc outcome after)

/-- The loop body of `VerifyPass`: the row in force, the instruction, and every row an edge leads to. -/
def verifySteps (pc : Word) (state : State) : List SignedStep :=
  match env.decodeAt pc with
  | none => []
  | some insn =>
    if env.cfi.pcEnd < insn.next then []
    else
      ((env.cfi.rowAt pc).toList.map fun row =>
        .checkCFA ⟨pc, "", env.options.checkUnmentionedCalleeSaved⟩ row.cfa state) ++
      .transfer insn state :: (env.tableSteps pc (transfer env.z insn state).1 state ++
        (env.crossTargets insn state).flatMap fun target =>
          (env.crossRow insn.address target).toList.map fun e => .checkCFA e.1 e.2.cfa state)

/-- The rows landing pads are seeded from. -/
def padRows (row : CFIRow Int64) : List (CFIRow Int64) :=
  env.distinctLandingPads.filterMap fun lp =>
    if (env.firstWalk row).inStates.contains lp then none else env.cfi.rowAt lp

/-- A run of the full checker whose first row is `row`. -/
def steps (row : CFIRow Int64) : List SignedStep :=
  .seedFromRow row row.isCanonicalEntry :: ((env.padRows row).map fun row => .seedFromRow row false) ++
    ((env.runPops row).flatMap fun visit => env.visitSteps visit.1 visit.2) ++
    (env.settle row).inStates.toList.flatMap fun e => env.verifySteps e.1 e.2

theorem seed_mem_steps (row : CFIRow Int64) :
    .seedFromRow row row.isCanonicalEntry ∈ env.steps row := by
  unfold steps
  exact List.mem_append_left _ (List.mem_append_left _ List.mem_cons_self)

end Env

namespace Light
variable (options : FDECheckerOptions Int64) (cfi : CFI Int64)

/-- `CheckCFA` leaves the comparison to `CFASatisfiedBy`. -/
def compareSteps (cfa : CFARule Int64) (state : State) : List SignedStep :=
  if cfa.kind = .regOffset then [.cfaSatisfiedBy cfa (state.reg cfa.reg)] else []

/-- The body of the sweep: the row is seeded from, and the rows the instruction leads to compared. -/
def visitSteps (row : CFIRow Int64) (insn : Instruction) : List SignedStep :=
  let seeded := AbsState.seedFromRow row false
  let (outcome, state) := transfer options.disasm insn seeded
  .seedFromRow row false :: .transfer insn seeded ::
    ((match fallThrough cfi row insn outcome with
      | .compare nextRow => compareSteps nextRow.cfa state
      | _ => []) ++
    match stepFallThrough cfi row insn outcome state with
    | .proceed _ => (directRow options cfi outcome).toList.flatMap fun e => compareSteps e.2.1.cfa state
    | _ => [])

def stepsFrom : (fuel : ℕ) → (pc : Word) → List SignedStep
  | 0, _ => []
  | fuel + 1, pc =>
    if pc < cfi.pcEnd then
      match cfi.rowAt pc, decodeAt options cfi pc with
      | some row, some insn =>
        visitSteps options cfi row insn ++
          match visit options cfi row insn with
          | .proceed _ => stepsFrom fuel insn.next
          | _ => []
      | _, _ => []
    else []

end Light

/-- The steps of `Check`. -/
def checkSteps (options : FDECheckerOptions Int64) (cfi : CFI Int64) (guessing : Bool) : List SignedStep :=
  match cfi.rowAt cfi.pcBegin with
  | none => []
  | some row => if row.regs 16 = .undefined then [] else (Env.of options cfi guessing).steps row

/-- The steps of `LightCheck`. -/
def lightSteps (options : FDECheckerOptions Int64) (cfi : CFI Int64) : List SignedStep :=
  if (cfi.rowAt cfi.pcBegin).any fun row => row.regs 16 = .undefined then []
  else Light.stepsFrom options cfi (cfi.pcEnd - cfi.pcBegin).toNat cfi.pcBegin

/-- An FDE that the reader accepts, read and then analysed by both checkers. -/
def pipeline (mem : Word → Byte) (fdeVaddr ehFrameStart ehFrameEnd bias : Word)
    (options : FDECheckerOptions Int64) (guessing : Bool) : List SignedStep :=
  match readFDE mem fdeVaddr ehFrameStart ehFrameEnd bias with
  | .ok cfi =>
    readSteps mem fdeVaddr ehFrameStart ehFrameEnd bias ++ checkSteps options cfi guessing ++
      lightSteps options cfi
  | .error _ => []

/-- Each signed operation of a run stays in range. -/
def NoSignedOverflow (z : Zydis) (run : List SignedStep) : Prop :=
  ∀ step ∈ run, ∀ op ∈ step.ops z, Representable op.exact

namespace Sample

/-- An FDE whose first instruction is `DW_CFA_def_cfa_offset` with the operand 2^63. -/
def extremeMem : Word → Byte := ehFrameMem (0x0e :: List.replicate 9 0x80 ++ [1])

def extreme : CFI Int64 := (readFDE extremeMem 0x2018 0x2000 0x2038 0).toOption.getD leaf

end Sample

/-- The reader takes 2^63 for the CFA offset -2^63, and seeding from that row negates it. -/
theorem cfa_offset_negation_overflows :
    readFDE Sample.extremeMem 0x2018 0x2000 0x2038 0 = .ok Sample.extreme ∧
      (Sample.extreme.rowAt 0x1000).map (·.cfa) = some ⟨.regOffset, 7, Int64.minValue⟩ ∧
      ¬ NoSignedOverflow Sample.decoder
        (pipeline Sample.extremeMem 0x2018 0x2000 0x2038 0 (Sample.options [0xc3] Sample.extreme) false) := by
  have hread : readFDE Sample.extremeMem 0x2018 0x2000 0x2038 0 = .ok Sample.extreme :=
    Sample.eq_ok_getD (by decide +kernel) _
  have hrow : (Sample.extreme.rowAt 0x1000).map (·.cfa) = some ⟨.regOffset, 7, Int64.minValue⟩ := by
    decide +kernel
  refine ⟨hread, hrow, fun h => ?_⟩
  obtain ⟨row, hat, hcfa⟩ := Option.map_eq_some_iff.mp hrow
  have hbegin : Sample.extreme.pcBegin = 0x1000 := by decide +kernel
  have hra : row.regs 16 ≠ .undefined := by
    have hall : (Sample.extreme.rowAt 0x1000).all fun row => row.regs 16 ≠ .undefined := by decide +kernel
    rw [hat] at hall
    exact of_decide_eq_true hall
  have hseed : .seedFromRow row row.isCanonicalEntry ∈ pipeline Sample.extremeMem 0x2018 0x2000 0x2038 0
      (Sample.options [0xc3] Sample.extreme) false := by
    unfold pipeline checkSteps
    rw [hread]
    dsimp only
    rw [hbegin, hat]
    dsimp only
    rw [if_neg hra]
    exact List.mem_append_left _ (List.mem_append_right _ (Env.seed_mem_steps _ row))
  have hfits := (SignedStep.ops_inRange_iff _ _).mp (h _ hseed)
  exact hfits (by rw [hcfa]) (by rw [hcfa]; decide) (by rw [hcfa]; rfl)

end UnwindCheck
