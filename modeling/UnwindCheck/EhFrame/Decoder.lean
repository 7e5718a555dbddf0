import UnwindCheck.EhFrame.Reader
import UnwindCheck.Cfi.TableBuilder

/-! Decoding one FDE with its CIE and running both instruction streams into a table builder. -/
namespace UnwindCheck

/-- One CFA instruction with the operands as they are encoded, before any scaling. -/
inductive CfaOp where
  | nop
  | setLoc (loc : Word)
  | advanceLoc (delta : Word)
  | offset (reg offset : Word)
  | restore (reg : Word)
  | defCfa (reg offset : Word)
  | defCfaSf (reg offset : Word)
  | defCfaRegister (reg : Word)
  | defCfaOffset (offset : Word)
  | defCfaOffsetSf (offset : Word)
  | defCfaExpression
  | expression (reg : Word)
  | valExpression (reg : Word)
  | undefined (reg : Word)
  | sameValue (reg : Word)
  | register (reg storedIn : Word)
  | rememberState
  | restoreState
  | valOffset (reg offset : Word)
  deriving DecidableEq, Repr

/-- The decoder's own state while it runs a stream. -/
structure EHReaderState where
  currentLoc : Word
  functionEnd : Word
  codeAlign : Word
  dataAlign : Word
  fdePtrEnc : Byte
  deriving DecidableEq, Repr

section
variable (mem : Word → Byte)

/-- The length-prefixed block of an expression; its contents are never looked at. -/
def skipExpression : SliceM Unit := do
  let len ← readUleb128 mem
  let _ ← readSubslice len

/-- The opcodes below the three packed ones. -/
def readExtendedOp (fdePtrEnc opcode : Byte) : SliceM CfaOp := do
  match opcode.toNat with
  | 0x00 => return .nop
  | 0x01 => return .setLoc (← readEncodedPtr mem fdePtrEnc)
  | 0x02 => return .advanceLoc (BitVec.ofNat 64 (← readObject mem 1))
  | 0x03 => return .advanceLoc (BitVec.ofNat 64 (← readObject mem 2))
  | 0x04 => return .advanceLoc (BitVec.ofNat 64 (← readObject mem 4))
  | 0x05 => return .offset (← readUleb128 mem) (← readUleb128 mem)
  | 0x06 => return .restore (← readUleb128 mem)
  | 0x07 => return .undefined (← readUleb128 mem)
  | 0x08 => return .sameValue (← readUleb128 mem)
  | 0x09 => return .register (← readUleb128 mem) (← readUleb128 mem)
  | 0x0a => return .rememberState
  | 0x0b => return .restoreState
  | 0x0c => return .defCfa (← readUleb128 mem) (← readUleb128 mem)
  | 0x0d => return .defCfaRegister (← readUleb128 mem)
  | 0x0e => return .defCfaOffset (← readUleb128 mem)
  | 0x0f => do
    skipExpression mem
    return .defCfaExpression
  | 0x10 => do
    let reg ← readUleb128 mem
    skipExpression mem
    return .expression reg
  | 0x11 => return .offset (← readUleb128 mem) (← readSleb128 mem)
  | 0x12 => return .defCfaSf (← readUleb128 mem) (← readSleb128 mem)
  | 0x13 => return .defCfaOffsetSf (← readSleb128 mem)
  | 0x14 => return .valOffset (← readUleb128 mem) (← readUleb128 mem)
  | 0x15 => return .valOffset (← readUleb128 mem) (← readSleb128 mem)
  | 0x16 => do
    let reg ← readUleb128 mem
    skipExpression mem
    return .valExpression reg
  | 0x2d => return .nop
  | 0x2e => do
    let _ ← readUleb128 mem
    return .nop
  | _ => throw ("unknown opcode: 0x" ++ String.ofList (Nat.toDigits 16 opcode.toNat))

def readOp (fdePtrEnc : Byte) : SliceM CfaOp := do
  let opcode ← readU8 mem
  let operand := (opcode &&& 0x3f).setWidth 64
  if opcode &&& 0xc0 = 0x40 then return .advanceLoc operand
  else if opcode &&& 0xc0 = 0x80 then return .offset operand (← readUleb128 mem)
  else if opcode &&& 0xc0 = 0xc0 then return .restore operand
  else readExtendedOp mem fdePtrEnc opcode

end

variable {δ : Type} [Offset δ]

def doSetLoc (isCie : Bool) (newLoc : Word) (st : EHReaderState) (b : TableBuilder δ) :
    Except String (EHReaderState × TableBuilder δ) :=
  if isCie then .error "CIE initial instruction cannot advance"
  else .ok ({ st with currentLoc := newLoc }, b.handleSetLoc newLoc)

/-- One iteration of `RunInstructions`, its operands already read. Factored offsets are scaled
here, with the wrap-around of the target. -/
def runOp (isCie : Bool) (op : CfaOp) (st : EHReaderState) (b : TableBuilder δ) :
    Except String (EHReaderState × TableBuilder δ) :=
  match op with
  | .nop => .ok (st, b)
  | .setLoc loc =>
    if loc < st.currentLoc then .error "set_loc backward move" else doSetLoc isCie loc st b
  | .advanceLoc delta => doSetLoc isCie (st.currentLoc + delta * st.codeAlign) st b
  | .offset reg offset => .ok (st, b.handleOffset reg (offset * st.dataAlign))
  | .restore reg => .ok (st, b.handleRestore reg)
  | .defCfa reg offset => .ok (st, b.handleDefCFA reg offset)
  | .defCfaSf reg offset => .ok (st, b.handleDefCFA reg (offset * st.dataAlign))
  | .defCfaRegister reg => .ok (st, b.handleDefCFAReg reg)
  | .defCfaOffset offset => .ok (st, b.handleDefCFAOffset offset)
  | .defCfaOffsetSf offset => .ok (st, b.handleDefCFAOffset (offset * st.dataAlign))
  | .defCfaExpression => .ok (st, b.handleDefCFAExpression)
  | .expression reg => .ok (st, b.handleExpression reg)
  | .valExpression reg => .ok (st, b.handleValExpression reg)
  | .undefined reg => .ok (st, b.handleUndefined reg)
  | .sameValue reg => .ok (st, b.handleSameValue reg)
  | .register reg storedIn => .ok (st, b.handleRegister reg storedIn)
  | .rememberState => return (st, ← b.handleRememberState)
  | .restoreState => return (st, ← b.handleRestoreState)
  | .valOffset reg offset => .ok (st, b.handleValOffset reg (offset * st.dataAlign))

/-- The loop over one stream. Every operation reads at least its opcode, so a fuel of the
stream's size never runs out. -/
def runOps (mem : Word → Byte) (isCie : Bool) :
    (fuel : ℕ) → Slice → EHReaderState → TableBuilder δ →
      Except String (EHReaderState × TableBuilder δ)
  | 0, _, st, b => .ok (st, b)
  | fuel + 1, slice, st, b =>
    if slice.size = 0 then .ok (st, b)
    else do
      let (op, slice) ← (readOp mem st.fdePtrEnc).run slice
      let (st, b) ← runOp isCie op st b
      runOps mem isCie fuel slice st b

/-- `RunInstructions`: an FDE's last row is closed at the end of the function. -/
def runInstructions (mem : Word → Byte) (isCie : Bool) (slice : Slice) (st : EHReaderState)
    (b : TableBuilder δ) : Except String (EHReaderState × TableBuilder δ) := do
  let (st, b) ← runOps mem isCie slice.size slice st b
  if isCie then return (st, b) else doSetLoc isCie st.functionEnd st b

/-- What the augmentation of a CIE says. -/
structure CIEAug where
  fdePtrEnc : Byte
  lsdaPtrEnc : Byte
  signalFrame : Bool
  deriving DecidableEq, Repr

/-- The loop over the characters after `z`; it stops at `R`. -/
def readAugChars (mem : Word → Byte) : List Byte → CIEAug → SliceM CIEAug
  | [], aug => return aug
  | ch :: rest, aug => do
    if ch = 0x52 then return { aug with fdePtrEnc := ← readU8 mem }
    else if ch = 0x4c then
      let enc ← readU8 mem
      readAugChars mem rest { aug with lsdaPtrEnc := enc }
    else if ch = 0x53 then readAugChars mem rest { aug with signalFrame := true }
    else if ch = 0x42 then readAugChars mem rest aug
    else if ch = 0x50 then
      let enc ← readU8 mem
      let _ ← readEncodedPtr mem (enc &&& 0x7f)
      readAugChars mem rest aug
    else throw ("Unknown aug string character: " ++ String.singleton (Char.ofNat ch.toNat) ++
      " (0x" ++ String.ofList (List.replicate (if ch.toNat < 16 then 1 else 0) '0' ++
        Nat.toDigits 16 ch.toNat) ++ ")")

/-- The fixed part of a CIE. -/
structure CIE where
  codeAlign : Word
  dataAlign : Word
  returnReg : ℕ
  augmented : Bool
  aug : CIEAug
  deriving DecidableEq, Repr

/-- The CIE header, leaving the slice at the initial instructions. -/
def readCIE (mem : Word → Byte) : SliceM CIE := do
  let cieLen ← readU32 mem
  if cieLen = 0xffffffff then throw "64-bit DWARF length in CIE is not supported"
  truncateSlice cieLen.toNat
  let cieId ← readU32 mem
  if cieId ≠ 0 then
    throw ("Wrong cie_id field: " ++ String.ofList (Nat.toDigits 16 cieId.toNat))
  let version ← readU8 mem
  if version ≠ 1 then throw ("unsupported CIE version: " ++ toString version.toNat)
  let augStr ← readASCIIZ mem 16
  let codeAlign ← readUleb128 mem
  let dataAlign ← readSleb128 mem
  if codeAlign = 0 then throw "zero code alignment factor in CIE"
  let returnReg ← readU8 mem
  let aug : CIEAug := ⟨kDwEhPeAbsptr, kDwEhPeOmitted, false⟩
  match augStr with
  | [] => return ⟨codeAlign, dataAlign, returnReg.toNat, false, aug⟩
  | ch :: chars =>
    if ch ≠ 0x7a then
      throw ("Aug string without leading 'z'. Got: " ++ String.singleton (Char.ofNat ch.toNat))
    let augLen ← readUleb128 mem
    let augData ← readSubslice augLen
    let (aug, _) ← (readAugChars mem chars aug).run augData
    return ⟨codeAlign, dataAlign, returnReg.toNat, true, aug⟩

/-- The FDE record's header: the slice over the rest of the record and where its CIE starts. -/
def readFDEHeader (mem : Word → Byte) : SliceM Word := do
  let len ← readU32 mem
  if len = 0xffffffff then throw "64-bit DWARF length in FDE is not supported"
  if len = 0 then throw "empty FDE"
  truncateSlice len.toNat
  let cieOffset ← readU32 mem
  let fde ← get
  return fde.data - 4 - cieOffset.setWidth 64

/-- The augmentation data of an FDE, the address of its LSDA if it has one. -/
def readFDEAug (mem : Word → Byte) (cie : CIE) : SliceM (Option Word) := do
  if cie.augmented then
    let augLen ← readUleb128 mem
    let augData ← readSubslice augLen
    if cie.aug.lsdaPtrEnc ≠ kDwEhPeOmitted then
      let (lsdaPtr, _) ← (readEncodedPtr mem cie.aug.lsdaPtrEnc).run augData
      return some lsdaPtr
    else return none
  else return none

/-- `ParseFDE` of an FDE whose range passes the test. The visitor hears of a signal frame before the
range is compared. -/
def parseFDEWhere (mem : Word → Byte) (bounds : Word × Word) (fdeAddr : Word)
    (test : (pcStart pcEnd : Word) → Bool) (b : TableBuilder δ) : Except String (TableBuilder δ) := do
  let fde ← makeSlice bounds fdeAddr
  let (cieAddr, fde) ← (readFDEHeader mem).run fde
  let cieSlice ← makeSlice bounds cieAddr
  let (cie, cieSlice) ← (readCIE mem).run cieSlice
  let b := if cie.aug.signalFrame then b.handleAugS else b
  let (pcStart, fde) ← (readEncodedPtr mem cie.aug.fdePtrEnc).run fde
  let (pcRange, fde) ← (readEncodedPtr mem (cie.aug.fdePtrEnc &&& 0x0f)).run fde
  if ¬ test pcStart (pcStart + pcRange) then return b
  let st : EHReaderState :=
    ⟨pcStart, pcStart + pcRange, cie.codeAlign, cie.dataAlign, cie.aug.fdePtrEnc⟩
  let b := b.startFDE cie.returnReg pcStart (pcStart + pcRange)
  let (st, b) ← runInstructions mem true cieSlice st b
  let (lsdaPtr, fde) ← (readFDEAug mem cie).run fde
  let b := match lsdaPtr with
    | some p => b.handleLSDA p
    | none => b
  let (_, b) ← runInstructions mem false fde st b.afterCIE
  return b

/-- `ParseFDE`, as `DecodeFDEAt` calls it: the FDE is taken whatever range it covers. -/
def parseFDE (mem : Word → Byte) (bounds : Word × Word) (fdeAddr : Word) (b : TableBuilder δ) :
    Except String (TableBuilder δ) :=
  parseFDEWhere mem bounds fdeAddr (fun _ _ => true) b

/-- Without a test, one step after the other. -/
theorem parseFDE_eq (mem : Word → Byte) (bounds : Word × Word) (fdeAddr : Word) (b : TableBuilder δ) :
    parseFDE mem bounds fdeAddr b = do
      let fde ← makeSlice bounds fdeAddr
      let (cieAddr, fde) ← (readFDEHeader mem).run fde
      let cieSlice ← makeSlice bounds cieAddr
      let (cie, cieSlice) ← (readCIE mem).run cieSlice
      let (pcStart, fde) ← (readEncodedPtr mem cie.aug.fdePtrEnc).run fde
      let (pcRange, fde) ← (readEncodedPtr mem (cie.aug.fdePtrEnc &&& 0x0f)).run fde
      let (st, b) ← runInstructions mem true cieSlice
        ⟨pcStart, pcStart + pcRange, cie.codeAlign, cie.dataAlign, cie.aug.fdePtrEnc⟩
        ((if cie.aug.signalFrame then b.handleAugS else b).startFDE cie.returnReg pcStart
          (pcStart + pcRange))
      let (lsdaPtr, fde) ← (readFDEAug mem cie).run fde
      let (_, b) ← runInstructions mem false fde st
        (match lsdaPtr with
          | some p => b.handleLSDA p
          | none => b).afterCIE
      return b := rfl

/-- `ReadFDE`: the table of the FDE record at `fdeVaddr`. -/
def readFDE (mem : Word → Byte) (fdeVaddr ehFrameStart ehFrameEnd bias : Word) :
    Except String (CFI δ) := do
  let b ← parseFDE mem (ehFrameStart + bias, ehFrameEnd + bias) (fdeVaddr + bias)
    (TableBuilder.new fdeVaddr bias)
  if b.result.rows.isEmpty ∧ b.result.pcBegin < b.result.pcEnd then
    throw ("FDE at 0x" ++ showHex16 fdeVaddr ++ " produced no rows")
  return b.result

section Anchored

omit [Offset δ] in
theorem doSetLoc_ok {isCie : Bool} {loc : Word} {st st' : EHReaderState} {b b' : TableBuilder δ}
    (h : doSetLoc isCie loc st b = .ok (st', b')) : b' = b.handleSetLoc loc := by
  unfold doSetLoc at h
  split at h
  · cases h
  · cases h
    rfl

/-- What one operation can do to the rows: nothing, or close the row in force. -/
theorem runOp_cases {isCie : Bool} {op : CfaOp} {st st' : EHReaderState} {b b' : TableBuilder δ}
    (h : runOp isCie op st b = .ok (st', b')) :
    TableBuilder.SameRows b b' ∨ ∃ loc, b' = b.handleSetLoc loc := by
  cases op with
  | setLoc loc =>
    simp only [runOp] at h
    split at h
    · cases h
    · exact Or.inr ⟨_, doSetLoc_ok h⟩
  | advanceLoc delta => exact Or.inr ⟨_, doSetLoc_ok h⟩
  | restore reg =>
    cases h
    exact Or.inl (b.sameRows_handleRestore reg)
  | offset reg offset | undefined reg | sameValue reg | expression reg | valExpression reg
  | register reg storedIn | valOffset reg offset =>
    cases h
    exact Or.inl (b.sameRows_setRule _ _)
  | rememberState =>
    simp only [runOp, TableBuilder.handleRememberState] at h
    split at h <;> cases h
    exact Or.inl ⟨rfl, rfl, rfl, rfl⟩
  | restoreState =>
    simp only [runOp, TableBuilder.handleRestoreState] at h
    split at h <;> cases h
    exact Or.inl ⟨rfl, rfl, rfl, rfl⟩
  | nop | defCfa | defCfaSf | defCfaRegister | defCfaOffset | defCfaOffsetSf | defCfaExpression =>
    cases h
    exact Or.inl ⟨rfl, rfl, rfl, rfl⟩

theorem runOp_anchored {isCie : Bool} {op : CfaOp} {st st' : EHReaderState}
    {b b' : TableBuilder δ} (h : runOp isCie op st b = .ok (st', b')) (hb : b.Anchored) :
    b'.Anchored := by
  rcases runOp_cases h with hs | ⟨loc, rfl⟩
  · exact hs.anchored hb
  · exact hb.handleSetLoc loc

theorem runOps_anchored {mem : Word → Byte} {isCie : Bool} {fuel : ℕ} {slice : Slice}
    {st st' : EHReaderState} {b b' : TableBuilder δ}
    (h : runOps mem isCie fuel slice st b = .ok (st', b')) (hb : b.Anchored) : b'.Anchored := by
  induction fuel generalizing slice st b with
  | zero =>
    cases h
    exact hb
  | succ fuel ih =>
    unfold runOps at h
    split at h
    · cases h
      exact hb
    · obtain ⟨⟨op, slice'⟩, -, h⟩ := except_bind_ok h
      obtain ⟨⟨st₁, b₁⟩, hop, h⟩ := except_bind_ok h
      exact ih h (runOp_anchored hop hb)

theorem runInstructions_anchored {mem : Word → Byte} {isCie : Bool} {slice : Slice}
    {st st' : EHReaderState} {b b' : TableBuilder δ}
    (h : runInstructions mem isCie slice st b = .ok (st', b')) (hb : b.Anchored) :
    b'.Anchored := by
  obtain ⟨⟨st₁, b₁⟩, hops, h⟩ := except_bind_ok h
  have h₁ := runOps_anchored hops hb
  cases isCie with
  | true =>
    cases h
    exact h₁
  | false =>
    have hset : doSetLoc false st₁.functionEnd st₁ b₁ = .ok (st', b') := h
    rw [doSetLoc_ok hset]
    exact h₁.handleSetLoc _

theorem parseFDE_anchored {mem : Word → Byte} {bounds : Word × Word} {fdeAddr : Word}
    {b b' : TableBuilder δ} (h : parseFDE mem bounds fdeAddr b = .ok b') (hb : b.result.rows = []) :
    b'.Anchored := by
  rw [parseFDE_eq] at h
  obtain ⟨fde, -, h⟩ := except_bind_ok h
  obtain ⟨⟨cieAddr, fde₁⟩, -, h⟩ := except_bind_ok h
  obtain ⟨cieSlice, -, h⟩ := except_bind_ok h
  obtain ⟨⟨cie, cieSlice₁⟩, -, h⟩ := except_bind_ok h
  obtain ⟨⟨pcStart, fde₂⟩, -, h⟩ := except_bind_ok h
  obtain ⟨⟨pcRange, fde₃⟩, -, h⟩ := except_bind_ok h
  obtain ⟨⟨st, b₁⟩, hcie, h⟩ := except_bind_ok h
  obtain ⟨⟨lsdaPtr, fde₄⟩, -, h⟩ := except_bind_ok h
  obtain ⟨⟨st', b₂⟩, hfde, h⟩ := except_bind_ok h
  cases h
  refine runInstructions_anchored hfde (TableBuilder.SameRows.anchored ⟨rfl, rfl, rfl, rfl⟩ ?_)
  have h₁ : b₁.Anchored := by
    refine runInstructions_anchored hcie ?_
    have hrows : (if cie.aug.signalFrame then b.handleAugS else b).result.rows = [] := by
      split <;> exact hb
    simp [TableBuilder.Anchored, TableBuilder.startFDE, hrows]
  cases lsdaPtr with
  | none => exact h₁
  | some p => exact (b₁.sameRows_handleLSDA p).anchored h₁

/-- The table of a nonempty FDE starts at or before the FDE. -/
theorem readFDE_first_row {mem : Word → Byte} {fdeVaddr ehFrameStart ehFrameEnd bias : Word}
    {cfi : CFI δ} (h : readFDE mem fdeVaddr ehFrameStart ehFrameEnd bias = .ok cfi)
    (hne : cfi.pcBegin < cfi.pcEnd) :
    ∃ first rest, cfi.rows = first :: rest ∧ first.pcStart ≤ cfi.pcBegin := by
  obtain ⟨b, hb, h⟩ := except_bind_ok h
  have ha := parseFDE_anchored hb rfl
  split at h
  · cases h
  · rename_i hrows
    cases h
    unfold TableBuilder.Anchored at ha
    cases he : b.result.rows with
    | nil => exact absurd ⟨by simp [he], hne⟩ hrows
    | cons first rest =>
      rw [he] at ha
      exact ⟨first, rest, rfl, ha⟩

/-- Every address of an FDE that was read has a row. -/
theorem readFDE_rowAt_isSome {mem : Word → Byte} {fdeVaddr ehFrameStart ehFrameEnd bias : Word}
    {cfi : CFI δ} (h : readFDE mem fdeVaddr ehFrameStart ehFrameEnd bias = .ok cfi) {pc : Word}
    (hc : cfi.Covers pc) : (cfi.rowAt pc).isSome := by
  have hne : cfi.pcBegin < cfi.pcEnd := hc.nonempty
  obtain ⟨first, rest, hrows, hfirst⟩ := readFDE_first_row h hne
  exact cfi.rowAt_isSome hrows hc (BitVec.le_trans hfirst hc.1)

end Anchored

end UnwindCheck
