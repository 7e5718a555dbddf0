import UnwindCheck.EhFrame.Decoder

/-! An FDE as a program: its two opcode streams with the operands read, apart from the table
they are run into. -/
namespace UnwindCheck

/-- All the operations of one stream. -/
def readOps (mem : Word → Byte) (fdePtrEnc : Byte) : (fuel : ℕ) → Slice → Except String (List CfaOp)
  | 0, _ => .ok []
  | fuel + 1, slice =>
    if slice.size = 0 then .ok []
    else do
      let (op, slice) ← (readOp mem fdePtrEnc).run slice
      let ops ← readOps mem fdePtrEnc fuel slice
      return op :: ops

/-- The streams of a CIE and an FDE, and the decoder's state when the first of them starts. -/
structure FDEProgram where
  state : EHReaderState
  bias : Word
  cieOps : List CfaOp
  fdeOps : List CfaOp
  deriving DecidableEq, Repr

namespace FDEProgram
variable (prog : FDEProgram)

/-- The link-time range of the FDE. -/
def pcBegin : Word := prog.state.currentLoc - prog.bias

def pcEnd : Word := prog.state.functionEnd - prog.bias

/-- The location after an operation, as a link-time address. -/
def moveLoc (loc : Word) : CfaOp → Word
  | .setLoc newLoc => newLoc - prog.bias
  | .advanceLoc delta => loc + delta * prog.state.codeAlign
  | _ => loc

end FDEProgram

/-- Everything that is read for one FDE. -/
structure FDERecord where
  cie : CIE
  pcStart : Word
  pcRange : Word
  cieOps : List CfaOp
  lsdaPtr : Option Word
  fdeOps : List CfaOp
  deriving DecidableEq, Repr

/-- What `ParseFDE` reads, without running it. -/
def readRecord (mem : Word → Byte) (bounds : Word × Word) (fdeAddr : Word) :
    Except String FDERecord := do
  let fde ← makeSlice bounds fdeAddr
  let (cieAddr, fde) ← (readFDEHeader mem).run fde
  let cieSlice ← makeSlice bounds cieAddr
  let (cie, cieSlice) ← (readCIE mem).run cieSlice
  let (pcStart, fde) ← (readEncodedPtr mem cie.aug.fdePtrEnc).run fde
  let (pcRange, fde) ← (readEncodedPtr mem (cie.aug.fdePtrEnc &&& 0x0f)).run fde
  let cieOps ← readOps mem cie.aug.fdePtrEnc cieSlice.size cieSlice
  let (lsdaPtr, fde) ← (readFDEAug mem cie).run fde
  let fdeOps ← readOps mem cie.aug.fdePtrEnc fde.size fde
  return ⟨cie, pcStart, pcRange, cieOps, lsdaPtr, fdeOps⟩

namespace FDERecord
variable (r : FDERecord)

/-- The decoder's state when the CIE's instructions start. -/
def state : EHReaderState :=
  ⟨r.pcStart, r.pcStart + r.pcRange, r.cie.codeAlign, r.cie.dataAlign, r.cie.aug.fdePtrEnc⟩

/-- The streams of the record, for an image loaded at `bias`. -/
def program (bias : Word) : FDEProgram := ⟨r.state, bias, r.cieOps, r.fdeOps⟩

end FDERecord

/-- What `ReadFDE` reads, without running it. -/
def readProgram (mem : Word → Byte) (fdeVaddr ehFrameStart ehFrameEnd bias : Word) :
    Except String FDEProgram :=
  (readRecord mem (ehFrameStart + bias, ehFrameEnd + bias) (fdeVaddr + bias)).map (·.program bias)

variable {δ : Type} [Offset δ]

/-- A stream of operations run one after the other. -/
def runStream (isCie : Bool) :
    List CfaOp → EHReaderState → TableBuilder δ → Except String (EHReaderState × TableBuilder δ)
  | [], st, b => .ok (st, b)
  | op :: ops, st, b => do
    let (st, b) ← runOp isCie op st b
    runStream isCie ops st b

namespace CfaOp

/-- The operations that move the location. -/
def isMove : CfaOp → Bool
  | .setLoc _ | .advanceLoc _ => true
  | _ => false

end CfaOp

/-- What an operation that does not move the location leaves alone. -/
structure TableBuilder.SamePlace (b b' : TableBuilder δ) : Prop extends
    TableBuilder.SameRows b b' where
  bias : b'.bias = b.bias
  cieRegs : b'.cieRegs = b.cieRegs

omit [Offset δ] in
theorem TableBuilder.samePlace_setRule (b : TableBuilder δ) (reg : Word) (rule : RegRule δ) :
    SamePlace b (b.setRule reg rule) := by
  unfold setRule
  split <;> exact ⟨⟨rfl, rfl, rfl, rfl⟩, rfl, rfl⟩

section
omit [Offset δ]
variable (b : TableBuilder δ) (reg : Word) (rule : RegRule δ)

@[simp] theorem TableBuilder.curCfa_setRule : (b.setRule reg rule).curCfa = b.curCfa := by
  unfold setRule
  split <;> rfl

@[simp] theorem TableBuilder.stack_setRule : (b.setRule reg rule).stack = b.stack := by
  unfold setRule
  split <;> rfl

theorem TableBuilder.curRegs_setRule :
    (b.setRule reg rule).curRegs = fun r => if r.val = reg.toNat then rule else b.curRegs r := by
  funext r
  unfold setRule
  split_ifs with hlt hr hr
  · obtain rfl : r = ⟨reg.toNat, hlt⟩ := Fin.ext hr
    exact Function.update_self _ _ _
  · exact Function.update_of_ne (fun heq => hr (congrArg Fin.val heq)) _ _
  · omega
  · rfl

@[simp] theorem TableBuilder.curCfa_handleRestore : (b.handleRestore reg).curCfa = b.curCfa := by
  unfold handleRestore
  split <;> rfl

@[simp] theorem TableBuilder.stack_handleRestore : (b.handleRestore reg).stack = b.stack := by
  unfold handleRestore
  split <;> rfl

theorem TableBuilder.curRegs_handleRestore :
    (b.handleRestore reg).curRegs =
      fun r => if r.val = reg.toNat then b.cieRegs r else b.curRegs r := by
  funext r
  unfold handleRestore
  split_ifs with hlt hr hr
  · obtain rfl : r = ⟨reg.toNat, hlt⟩ := Fin.ext hr
    exact Function.update_self _ _ _
  · exact Function.update_of_ne (fun heq => hr (congrArg Fin.val heq)) _ _
  · omega
  · rfl

end

theorem runOp_samePlace {isCie : Bool} {op : CfaOp} {st st' : EHReaderState} {b b' : TableBuilder δ}
    (hop : op.isMove = false) (h : runOp isCie op st b = .ok (st', b')) :
    st' = st ∧ TableBuilder.SamePlace b b' := by
  cases op with
  | setLoc loc | advanceLoc delta => cases hop
  | restore reg =>
    cases h
    refine ⟨rfl, ?_⟩
    unfold TableBuilder.handleRestore
    split <;> exact ⟨⟨rfl, rfl, rfl, rfl⟩, rfl, rfl⟩
  | offset reg offset | undefined reg | sameValue reg | expression reg | valExpression reg
  | register reg storedIn | valOffset reg offset =>
    cases h
    exact ⟨rfl, b.samePlace_setRule _ _⟩
  | rememberState =>
    simp only [runOp, TableBuilder.handleRememberState] at h
    split at h <;> cases h
    exact ⟨rfl, ⟨rfl, rfl, rfl, rfl⟩, rfl, rfl⟩
  | restoreState =>
    simp only [runOp, TableBuilder.handleRestoreState] at h
    split at h <;> cases h
    exact ⟨rfl, ⟨rfl, rfl, rfl, rfl⟩, rfl, rfl⟩
  | nop | defCfa | defCfaSf | defCfaRegister | defCfaOffset | defCfaOffsetSf | defCfaExpression =>
    cases h
    exact ⟨rfl, ⟨rfl, rfl, rfl, rfl⟩, rfl, rfl⟩

/-- Where an operation moves the live location to. -/
def CfaOp.newLoc (st : EHReaderState) : CfaOp → Word
  | .setLoc loc => loc
  | .advanceLoc delta => st.currentLoc + delta * st.codeAlign
  | _ => st.currentLoc

/-- A move is refused in a CIE, and closes the row in force elsewhere. -/
theorem runOp_move {isCie : Bool} {op : CfaOp} {st st' : EHReaderState} {b b' : TableBuilder δ}
    (hop : op.isMove = true) (h : runOp isCie op st b = .ok (st', b')) :
    isCie = false ∧ st' = { st with currentLoc := op.newLoc st } ∧
      b' = b.handleSetLoc (op.newLoc st) := by
  have hset : doSetLoc isCie (op.newLoc st) st b = .ok (st', b') := by
    cases op with
    | setLoc loc =>
      simp only [runOp] at h
      split at h
      · cases h
      · exact h
    | advanceLoc delta => exact h
    | _ => cases hop
  unfold doSetLoc at hset
  split at hset
  · cases hset
  · rename_i hcie
    cases hset
    exact ⟨by simpa using hcie, rfl, rfl⟩

/-- The decoder's place in `prog` and the builder's are the same. -/
structure FDEProgram.At (prog : FDEProgram) (st : EHReaderState) (b : TableBuilder δ) : Prop where
  rowPc : b.rowPc = st.currentLoc - prog.bias
  bias : b.bias = prog.bias
  codeAlign : st.codeAlign = prog.state.codeAlign
  dataAlign : st.dataAlign = prog.state.dataAlign

omit [Offset δ] in
theorem FDEProgram.At.newLoc {prog : FDEProgram} {st : EHReaderState} {b : TableBuilder δ}
    (h : prog.At st b) (op : CfaOp) : op.newLoc st - prog.bias = prog.moveLoc b.rowPc op := by
  cases op with
  | advanceLoc delta =>
    simp only [CfaOp.newLoc, moveLoc, h.rowPc, h.codeAlign]
    exact (sub_add_eq_add_sub _ _ _).symm
  | setLoc loc => rfl
  | _ => exact h.rowPc.symm

theorem FDEProgram.At.runOp {prog : FDEProgram} {isCie : Bool} {op : CfaOp}
    {st st' : EHReaderState} {b b' : TableBuilder δ} (h : prog.At st b)
    (hop : UnwindCheck.runOp isCie op st b = .ok (st', b')) :
    prog.At st' b' ∧ b'.rowPc = prog.moveLoc b.rowPc op := by
  cases hmove : op.isMove with
  | true =>
    obtain ⟨-, rfl, rfl⟩ := runOp_move hmove hop
    have hpc : (b.handleSetLoc (op.newLoc st)).rowPc = op.newLoc st - prog.bias := by
      rw [← h.bias]
      rfl
    exact ⟨⟨hpc, h.bias, h.codeAlign, h.dataAlign⟩, hpc.trans (h.newLoc op)⟩
  | false =>
    obtain ⟨rfl, hb⟩ := runOp_samePlace hmove hop
    have hloc : prog.moveLoc b.rowPc op = b.rowPc := by
      cases op <;> first | rfl | cases hmove
    refine ⟨⟨hb.rowPc.trans h.rowPc, hb.bias.trans h.bias, h.codeAlign, h.dataAlign⟩, ?_⟩
    rw [hloc, hb.rowPc]

theorem runOp_fdePtrEnc {isCie : Bool} {op : CfaOp} {st st' : EHReaderState}
    {b b' : TableBuilder δ} (h : runOp isCie op st b = .ok (st', b')) :
    st'.fdePtrEnc = st.fdePtrEnc ∧ st'.functionEnd = st.functionEnd := by
  cases hop : op.isMove with
  | true =>
    obtain ⟨-, rfl, -⟩ := runOp_move hop h
    exact ⟨rfl, rfl⟩
  | false =>
    obtain ⟨rfl, -⟩ := runOp_samePlace hop h
    exact ⟨rfl, rfl⟩

/-- Reading and running a stream in one loop succeeds exactly when reading it and running it do. -/
theorem runOps_ok_iff {mem : Word → Byte} {isCie : Bool} {fuel : ℕ} {slice : Slice}
    {st : EHReaderState} {b : TableBuilder δ} {res : EHReaderState × TableBuilder δ} :
    runOps mem isCie fuel slice st b = .ok res ↔
      ∃ ops, readOps mem st.fdePtrEnc fuel slice = .ok ops ∧ runStream isCie ops st b = .ok res := by
  constructor
  · intro h
    induction fuel generalizing slice st b with
    | zero => exact ⟨[], rfl, h⟩
    | succ fuel ih =>
      unfold runOps at h
      unfold readOps
      split_ifs at h ⊢ with hz
      · exact ⟨[], rfl, h⟩
      · obtain ⟨⟨op, slice'⟩, hread, h⟩ := except_bind_ok h
        obtain ⟨⟨st₁, b₁⟩, hop, h⟩ := except_bind_ok h
        obtain ⟨ops, hops, hrun⟩ := ih h
        rw [(runOp_fdePtrEnc hop).1] at hops
        refine ⟨op :: ops, ?_, ?_⟩
        · rw [hread]
          change (readOps mem st.fdePtrEnc fuel slice' >>= fun ops => pure (op :: ops)) = _
          rw [hops]
          rfl
        · rw [runStream, hop]
          exact hrun
  · rintro ⟨ops, hread, hrun⟩
    induction fuel generalizing slice st b ops with
    | zero =>
      cases hread
      exact hrun
    | succ fuel ih =>
      unfold readOps at hread
      unfold runOps
      split_ifs at hread ⊢ with hz
      · cases hread
        exact hrun
      · obtain ⟨⟨op, slice'⟩, hop, hread⟩ := except_bind_ok hread
        obtain ⟨rest, hrest, hret⟩ := except_bind_ok hread
        cases hret
        obtain ⟨⟨st', b'⟩, hstep, hrun⟩ := except_bind_ok hrun
        rw [hop]
        change (runOp isCie op st b >>= fun p => runOps mem isCie fuel slice' p.1 p.2) = _
        rw [hstep]
        refine ih rest ?_ hrun
        rw [(runOp_fdePtrEnc hstep).1]
        exact hrest

theorem runStream_cie {ops : List CfaOp} {st st' : EHReaderState} {b b' : TableBuilder δ}
    (h : runStream true ops st b = .ok (st', b')) : st' = st ∧ TableBuilder.SamePlace b b' := by
  induction ops generalizing st b with
  | nil =>
    cases h
    exact ⟨rfl, ⟨rfl, rfl, rfl, rfl⟩, rfl, rfl⟩
  | cons op ops ih =>
    obtain ⟨⟨st₁, b₁⟩, hop, hrest⟩ := except_bind_ok h
    have hrest : runStream true ops st₁ b₁ = .ok (st', b') := hrest
    cases hmove : op.isMove with
    | true => exact absurd (runOp_move hmove hop).1 (by simp)
    | false =>
      obtain ⟨rfl, hb⟩ := runOp_samePlace hmove hop
      obtain ⟨rfl, hb'⟩ := ih hrest
      exact ⟨rfl, ⟨hb'.rows.trans hb.rows, hb'.rowPc.trans hb.rowPc,
        hb'.pcBegin.trans hb.pcBegin, hb'.pcEnd.trans hb.pcEnd⟩, hb'.bias.trans hb.bias,
        hb'.cieRegs.trans hb.cieRegs⟩

namespace FDERecord
variable (r : FDERecord)

/-- The builder where the CIE's instructions start. -/
def opened (b : TableBuilder δ) : TableBuilder δ :=
  (if r.cie.aug.signalFrame then b.handleAugS else b).startFDE r.cie.returnReg r.pcStart
    (r.pcStart + r.pcRange)

/-- The builder where the FDE's own instructions start. -/
def resumed (b : TableBuilder δ) : TableBuilder δ :=
  (match r.lsdaPtr with
    | some p => b.handleLSDA p
    | none => b).afterCIE

/-- Running what was read. -/
def build (b : TableBuilder δ) : Except String (TableBuilder δ) := do
  let (st, b) ← runStream true r.cieOps r.state (r.opened b)
  let (st, b) ← runStream false r.fdeOps st (r.resumed b)
  return b.handleSetLoc st.functionEnd

end FDERecord

/-- `ParseFDE` succeeds exactly when the record can be read and run. -/
theorem parseFDE_ok_iff {mem : Word → Byte} {bounds : Word × Word} {fdeAddr : Word}
    {b b' : TableBuilder δ} : parseFDE mem bounds fdeAddr b = .ok b' ↔
      ∃ r, readRecord mem bounds fdeAddr = .ok r ∧ r.build b = .ok b' := by
  constructor
  · intro h
    rw [parseFDE_eq] at h
    obtain ⟨fde, hfde, h⟩ := except_bind_ok h
    obtain ⟨⟨cieAddr, fde₁⟩, hhdr, h⟩ := except_bind_ok h
    obtain ⟨cieSlice, hcs, h⟩ := except_bind_ok h
    obtain ⟨⟨cie, cieSlice₁⟩, hcie, h⟩ := except_bind_ok h
    obtain ⟨⟨pcStart, fde₂⟩, hstart, h⟩ := except_bind_ok h
    obtain ⟨⟨pcRange, fde₃⟩, hrange, h⟩ := except_bind_ok h
    obtain ⟨⟨st₁, b₁⟩, hrun₁, h⟩ := except_bind_ok h
    obtain ⟨⟨lsdaPtr, fde₄⟩, haug, h⟩ := except_bind_ok h
    obtain ⟨⟨st₂, b₂⟩, hrun₂, h⟩ := except_bind_ok h
    cases h
    obtain ⟨⟨st₁', b₁'⟩, hops₁, hret⟩ := except_bind_ok hrun₁
    cases hret
    obtain ⟨cieOps, hread₁, hstream₁⟩ := runOps_ok_iff.mp hops₁
    obtain ⟨⟨st₂', b₂'⟩, hops₂, hlast⟩ := except_bind_ok hrun₂
    have hset : doSetLoc false st₂'.functionEnd st₂' b₂' = .ok (st₂, b') := hlast
    obtain ⟨fdeOps, hread₂, hstream₂⟩ := runOps_ok_iff.mp hops₂
    obtain ⟨hst, -⟩ := runStream_cie hstream₁
    have henc : st₁.fdePtrEnc = cie.aug.fdePtrEnc := by rw [hst]
    rw [henc] at hread₂
    refine ⟨⟨cie, pcStart, pcRange, cieOps, lsdaPtr, fdeOps⟩, ?_, ?_⟩
    · unfold readRecord
      simp only [hfde, hhdr, hcs, hcie, hstart, hrange, hread₁, haug, hread₂, bind, Except.bind]
      rfl
    · unfold FDERecord.build
      have hcieRun : runStream true cieOps (FDERecord.state ⟨cie, pcStart, pcRange, cieOps, lsdaPtr,
        fdeOps⟩) (FDERecord.opened ⟨cie, pcStart, pcRange, cieOps, lsdaPtr, fdeOps⟩ b) =
          .ok (st₁, b₁) := hstream₁
      have hfdeRun : runStream false fdeOps st₁ (FDERecord.resumed ⟨cie, pcStart, pcRange, cieOps,
        lsdaPtr, fdeOps⟩ b₁) = .ok (st₂', b₂') := hstream₂
      simp only [hcieRun, hfdeRun, bind, Except.bind]
      rw [doSetLoc_ok hset]
      rfl
  · rintro ⟨r, hread, hbuild⟩
    unfold readRecord at hread
    obtain ⟨fde, hfde, h⟩ := except_bind_ok hread
    obtain ⟨⟨cieAddr, fde₁⟩, hhdr, h⟩ := except_bind_ok h
    obtain ⟨cieSlice, hcs, h⟩ := except_bind_ok h
    obtain ⟨⟨cie, cieSlice₁⟩, hcie, h⟩ := except_bind_ok h
    obtain ⟨⟨pcStart, fde₂⟩, hstart, h⟩ := except_bind_ok h
    obtain ⟨⟨pcRange, fde₃⟩, hrange, h⟩ := except_bind_ok h
    obtain ⟨cieOps, hread₁, h⟩ := except_bind_ok h
    obtain ⟨⟨lsdaPtr, fde₄⟩, haug, h⟩ := except_bind_ok h
    obtain ⟨fdeOps, hread₂, h⟩ := except_bind_ok h
    cases h
    obtain ⟨⟨st₁, b₁⟩, hstream₁, hbuild⟩ := except_bind_ok hbuild
    obtain ⟨⟨st₂, b₂⟩, hstream₂, hbuild⟩ := except_bind_ok hbuild
    cases hbuild
    obtain ⟨hst, -⟩ := runStream_cie hstream₁
    have hread₂ : readOps mem st₁.fdePtrEnc fde₄.size fde₄ = .ok fdeOps := by
      rw [hst]
      exact hread₂
    have hops₁ := runOps_ok_iff.mpr ⟨cieOps, hread₁, hstream₁⟩
    have hops₂ := runOps_ok_iff.mpr ⟨fdeOps, hread₂, hstream₂⟩
    rw [parseFDE_eq]
    unfold runInstructions
    simp only [hfde, hhdr, hcs, hcie, hstart, hrange, bind, Except.bind]
    erw [hops₁]
    simp only [if_true, pure, Except.pure, haug]
    erw [hops₂]
    rfl

/-- A builder about to run the CIE of `prog`. -/
structure TableBuilder.Fresh (b : TableBuilder δ) (prog : FDEProgram) : Prop where
  rows : b.result.rows = []
  pcBegin : b.result.pcBegin = prog.pcBegin
  pcEnd : b.result.pcEnd = prog.pcEnd
  bias : b.bias = prog.bias
  rowPc : b.rowPc = prog.pcBegin
  curCfa : b.curCfa = .initial
  curRegs : b.curRegs = fun _ => .unset
  cieRegs : b.cieRegs = fun _ => .unset
  stack : b.stack = []

/-- The builder between the two streams: only the snapshot for `DW_CFA_restore` is new. -/
structure TableBuilder.Resumed (b b' : TableBuilder δ) : Prop where
  rows : b'.result.rows = b.result.rows
  pcBegin : b'.result.pcBegin = b.result.pcBegin
  pcEnd : b'.result.pcEnd = b.result.pcEnd
  bias : b'.bias = b.bias
  rowPc : b'.rowPc = b.rowPc
  curCfa : b'.curCfa = b.curCfa
  curRegs : b'.curRegs = b.curRegs
  cieRegs : b'.cieRegs = b.curRegs
  stack : b'.stack = b.stack

theorem TableBuilder.Fresh.at {b : TableBuilder δ} {prog : FDEProgram} (h : b.Fresh prog) :
    prog.At prog.state b :=
  ⟨h.rowPc, h.bias, rfl, rfl⟩

omit [Offset δ] in
theorem TableBuilder.Resumed.at {b b' : TableBuilder δ} {prog : FDEProgram} {st : EHReaderState}
    (h : b.Resumed b') (hat : prog.At st b) : prog.At st b' :=
  ⟨h.rowPc.trans hat.rowPc, h.bias.trans hat.bias, hat.codeAlign, hat.dataAlign⟩

/-- How the table of an FDE comes from its program. -/
structure FDEProgram.Yields (prog : FDEProgram) (cfi : CFI δ) (b₀ b₁ b₂ b₃ : TableBuilder δ)
    (st : EHReaderState) : Prop where
  fresh : b₀.Fresh prog
  cie : runStream true prog.cieOps prog.state b₀ = .ok (prog.state, b₁)
  resumed : b₁.Resumed b₂
  fde : runStream false prog.fdeOps prog.state b₂ = .ok (st, b₃)
  functionEnd : st.functionEnd = prog.state.functionEnd
  rows : cfi.rows = (b₃.handleSetLoc prog.state.functionEnd).result.rows
  pcBegin : cfi.pcBegin = prog.pcBegin
  pcEnd : cfi.pcEnd = prog.pcEnd

theorem runStream_samePlace {ops : List CfaOp} {isCie : Bool} {st st' : EHReaderState}
    {b b' : TableBuilder δ} (h : runStream isCie ops st b = .ok (st', b')) :
    st'.functionEnd = st.functionEnd ∧ b'.bias = b.bias ∧ b'.cieRegs = b.cieRegs ∧
      b'.result.pcBegin = b.result.pcBegin ∧ b'.result.pcEnd = b.result.pcEnd := by
  induction ops generalizing st b with
  | nil =>
    cases h
    exact ⟨rfl, rfl, rfl, rfl, rfl⟩
  | cons op ops ih =>
    obtain ⟨⟨st₁, b₁⟩, hop, hrest⟩ := except_bind_ok h
    obtain ⟨hend, hbias, hcie, hbegin, hpcEnd⟩ := ih hrest
    rw [hend, hbias, hcie, hbegin, hpcEnd]
    cases hmove : op.isMove with
    | true =>
      obtain ⟨-, rfl, rfl⟩ := runOp_move hmove hop
      exact ⟨rfl, rfl, rfl, rfl, rfl⟩
    | false =>
      obtain ⟨rfl, hb⟩ := runOp_samePlace hmove hop
      exact ⟨rfl, hb.bias, hb.cieRegs, hb.pcBegin, hb.pcEnd⟩

/-- What the operations of a stream leave alone in the result. -/
theorem runOp_header {isCie : Bool} {op : CfaOp} {st st' : EHReaderState} {b b' : TableBuilder δ}
    (h : runOp isCie op st b = .ok (st', b')) :
    b'.result.signalFrame = b.result.signalFrame ∧ b'.result.lsdaAddr = b.result.lsdaAddr := by
  cases hmove : op.isMove with
  | true =>
    obtain ⟨-, -, rfl⟩ := runOp_move hmove h
    exact ⟨rfl, rfl⟩
  | false =>
    cases op with
    | setLoc loc | advanceLoc delta => cases hmove
    | restore reg =>
      cases h
      unfold TableBuilder.handleRestore
      split <;> exact ⟨rfl, rfl⟩
    | offset reg offset | undefined reg | sameValue reg | expression reg | valExpression reg
    | register reg storedIn | valOffset reg offset =>
      cases h
      simp only [TableBuilder.handleOffset, TableBuilder.handleUndefined,
        TableBuilder.handleSameValue, TableBuilder.handleExpression,
        TableBuilder.handleValExpression, TableBuilder.handleRegister, TableBuilder.handleValOffset,
        TableBuilder.setRule]
      split <;> exact ⟨rfl, rfl⟩
    | rememberState =>
      simp only [runOp, TableBuilder.handleRememberState] at h
      split at h <;> cases h
      exact ⟨rfl, rfl⟩
    | restoreState =>
      simp only [runOp, TableBuilder.handleRestoreState] at h
      split at h <;> cases h
      exact ⟨rfl, rfl⟩
    | nop | defCfa | defCfaSf | defCfaRegister | defCfaOffset | defCfaOffsetSf | defCfaExpression =>
      cases h
      exact ⟨rfl, rfl⟩

theorem runStream_header {isCie : Bool} {ops : List CfaOp} {st st' : EHReaderState}
    {b b' : TableBuilder δ} (h : runStream isCie ops st b = .ok (st', b')) :
    b'.result.signalFrame = b.result.signalFrame ∧ b'.result.lsdaAddr = b.result.lsdaAddr ∧
      b'.bias = b.bias := by
  induction ops generalizing st b with
  | nil =>
    cases h
    exact ⟨rfl, rfl, rfl⟩
  | cons op ops ih =>
    have hbias := (runStream_samePlace h).2.1
    obtain ⟨⟨st₁, b₁⟩, hop, hrest⟩ := except_bind_ok h
    obtain ⟨hsignal, hlsda⟩ := runOp_header hop
    obtain ⟨hsignal', hlsda', -⟩ := ih hrest
    exact ⟨hsignal'.trans hsignal, hlsda'.trans hlsda, hbias⟩

namespace FDERecord
variable (r : FDERecord)

theorem opened_fresh (fdeVaddr bias : Word) :
    (r.opened (TableBuilder.new fdeVaddr bias : TableBuilder δ)).Fresh (r.program bias) := by
  unfold opened
  split <;> exact ⟨rfl, rfl, rfl, rfl, rfl, rfl, rfl, rfl, rfl⟩

omit [Offset δ] in
theorem resumed_resumed (b : TableBuilder δ) : b.Resumed (r.resumed b) := by
  unfold resumed
  cases r.lsdaPtr with
  | none => exact ⟨rfl, rfl, rfl, rfl, rfl, rfl, rfl, rfl, rfl⟩
  | some p =>
    simp only [TableBuilder.handleLSDA, TableBuilder.afterCIE]
    split <;> exact ⟨rfl, rfl, rfl, rfl, rfl, rfl, rfl, rfl, rfl⟩

end FDERecord

theorem readFDE_yields {mem : Word → Byte} {fdeVaddr ehFrameStart ehFrameEnd bias : Word}
    {cfi : CFI δ} (h : readFDE mem fdeVaddr ehFrameStart ehFrameEnd bias = .ok cfi) :
    ∃ prog b₀ b₁ b₂ b₃ st, readProgram mem fdeVaddr ehFrameStart ehFrameEnd bias = .ok prog ∧
      prog.Yields cfi b₀ b₁ b₂ b₃ st := by
  obtain ⟨b, hb, h⟩ := except_bind_ok h
  split at h
  · cases h
  cases h
  obtain ⟨r, hr, hbuild⟩ := parseFDE_ok_iff.mp hb
  obtain ⟨⟨st₁, b₁⟩, hcie, hbuild⟩ := except_bind_ok hbuild
  obtain ⟨⟨st, b₃⟩, hfde, hbuild⟩ := except_bind_ok hbuild
  cases hbuild
  obtain ⟨rfl, hsame⟩ := runStream_cie hcie
  obtain ⟨hend, -, -, hbegin, hpcEnd⟩ := runStream_samePlace hfde
  have hprog : readProgram mem fdeVaddr ehFrameStart ehFrameEnd bias = .ok (r.program bias) := by
    rw [readProgram, hr]
    rfl
  have hfresh := r.opened_fresh (δ := δ) fdeVaddr bias
  have hresumed := r.resumed_resumed b₁
  refine ⟨r.program bias, _, b₁, _, b₃, st, hprog, hfresh, hcie, hresumed, hfde, hend, ?_, ?_, ?_⟩
  · exact congrArg (fun loc => (b₃.handleSetLoc loc).result.rows) hend
  · exact ((hbegin.trans hresumed.pcBegin).trans hsame.pcBegin).trans hfresh.pcBegin
  · exact ((hpcEnd.trans hresumed.pcEnd).trans hsame.pcEnd).trans hfresh.pcEnd

namespace Sample

/-- A CIE with the usual x86-64 rules, an FDE over the 16 bytes at 0x1000 running `insns`, and the
terminator, loaded at 0x2000. -/
def ehFrame (insns : List Byte) : List Byte :=
  [0x14, 0, 0, 0, 0, 0, 0, 0, 1, 0x7a, 0x52, 0, 1, 0x78, 0x10, 1, 0x1b, 0x0c, 7, 8, 0x90, 1, 0, 0] ++
    BitVec.ofNat 8 (13 + insns.length) ::
      [0, 0, 0, 0x1c, 0, 0, 0, 0xe0, 0xef, 0xff, 0xff, 16, 0, 0, 0, 0] ++ insns ++ [0, 0, 0, 0]

def ehFrameMem (insns : List Byte) : Word → Byte :=
  fun a => (ehFrame insns).getD (a - 0x2000).toNat 0

end Sample

/-- push %rbp; mov %rsp,%rbp as compilers describe it. -/
example : (readProgram (Sample.ehFrameMem [0x41, 0x0e, 0x10, 0x86, 2, 0x43, 0x0d, 6]) 0x2018 0x2000
      0x2034 0).map (·.fdeOps) =
    .ok [.advanceLoc 1, .defCfaOffset 16, .offset 6 2, .advanceLoc 3, .defCfaRegister 6] := by
  rfl

end UnwindCheck
