import UnwindCheck.EhFrame.Record

/-! Writing an `.eh_frame` section the shortest way the format has, and reading it back. -/
namespace UnwindCheck
open Lib

section Operations
variable (fdePtrEnc : Byte)

def writeUleb (v : Word) : List Byte := Leb128.encodeUnsigned v.toNat

def writeSleb (v : Word) : List Byte := Leb128.encodeSigned v.toInt

/-- A pointer, if the encoding can hold it at this place. -/
def writePointer (encoding : Byte) (p v : Word) : Option (List Byte) :=
  let number := v - if encoding &&& 0xf0 = 0x10 then p else 0
  let text := leBytes (encodedSize encoding) number.toNat
  if (encoding &&& 0xf0 = 0x10 ∨ encoding &&& 0xf0 = 0) ∧ encodingKnown encoding ∧
      encodedNumber encoding text = number then
    some text
  else none

/-- An operation. An expression is written as an empty one. -/
def writeOp (p : Word) : CfaOp → Option (List Byte)
  | .nop => some [0x00]
  | .setLoc loc => (writePointer fdePtrEnc (addressAfter p 1) loc).map (0x01 :: ·)
  | .advanceLoc delta =>
    if delta.toNat < 0x40 then some [BitVec.ofNat 8 (0x40 + delta.toNat)]
    else if delta.toNat < 2 ^ 8 then some (0x02 :: leBytes 1 delta.toNat)
    else if delta.toNat < 2 ^ 16 then some (0x03 :: leBytes 2 delta.toNat)
    else if delta.toNat < 2 ^ 32 then some (0x04 :: leBytes 4 delta.toNat)
    else none
  | .offset reg offset =>
    if reg.toNat < 0x40 then some (BitVec.ofNat 8 (0x80 + reg.toNat) :: writeUleb offset)
    else some (0x05 :: (writeUleb reg ++ writeUleb offset))
  | .restore reg =>
    if reg.toNat < 0x40 then some [BitVec.ofNat 8 (0xc0 + reg.toNat)]
    else some (0x06 :: writeUleb reg)
  | .undefined reg => some (0x07 :: writeUleb reg)
  | .sameValue reg => some (0x08 :: writeUleb reg)
  | .register reg storedIn => some (0x09 :: (writeUleb reg ++ writeUleb storedIn))
  | .rememberState => some [0x0a]
  | .restoreState => some [0x0b]
  | .defCfa reg offset => some (0x0c :: (writeUleb reg ++ writeUleb offset))
  | .defCfaRegister reg => some (0x0d :: writeUleb reg)
  | .defCfaOffset offset => some (0x0e :: writeUleb offset)
  | .defCfaExpression => some [0x0f, 0x00]
  | .expression reg => some (0x10 :: (writeUleb reg ++ [0x00]))
  | .defCfaSf reg offset => some (0x12 :: (writeUleb reg ++ writeSleb offset))
  | .defCfaOffsetSf offset => some (0x13 :: writeSleb offset)
  | .valOffset reg offset => some (0x14 :: (writeUleb reg ++ writeUleb offset))
  | .valExpression reg => some (0x16 :: (writeUleb reg ++ [0x00]))

def writeOps (p : Word) : List CfaOp → Option (List Byte)
  | [] => some []
  | op :: ops => do
    let first ← writeOp fdePtrEnc p op
    let second ← writeOps (addressAfter p first.length) ops
    return first ++ second

theorem writeUleb_text (p v : Word) : ulebText p v (writeUleb v) := by
  obtain ⟨hgroup, hvalue, hlen⟩ := Leb128.encodeUnsigned_spec v.toNat
  have hlt := v.isLt
  exact ⟨hgroup, hlen 9 (by omega), hvalue⟩

theorem writeSleb_text (p v : Word) : slebText p v (writeSleb v) := by
  obtain ⟨hgroup, hvalue, hlen⟩ := Leb128.encodeSigned_spec v.toInt
  have hlo := BitVec.le_toInt v
  have hhi := @BitVec.toInt_lt 64 v
  exact ⟨hgroup, hlen 9 (by omega) (by omega), hvalue⟩

theorem writePointer_text {encoding : Byte} {p v : Word} {text : List Byte}
    (h : writePointer encoding p v = some text) : pointerText encoding p v text := by
  obtain ⟨⟨hhi, hknown, hnumber⟩, htext⟩ := Option.ite_none_right_eq_some.mp h
  cases htext
  refine ⟨hhi, hknown, length_leBytes _ _, ?_⟩
  rw [hnumber, BitVec.add_comm, BitVec.sub_add_cancel]

/-- An empty block. -/
theorem emptyBlock_text (p : Word) : blockText p 0 [0x00] := by
  refine ⟨0, [0x00], [], rfl, ⟨.last (by decide), by decide, by decide⟩, rfl, rfl⟩

theorem data_text {n : ℕ} (p : Word) {v : Word} (h : v.toNat < 256 ^ n) :
    (CfaOperand.data n).text fdePtrEnc p v (leBytes n v.toNat) := by
  refine ⟨_, ⟨length_leBytes n v.toNat, rfl⟩, ?_⟩
  rw [littleEndian_leBytes, Nat.mod_eq_of_lt h, BitVec.ofNat_toNat, BitVec.setWidth_eq]

variable {fdePtrEnc}

/-- The three packed opcodes with their operand. -/
theorem packed_opcode (n : Fin 64) :
    (BitVec.ofNat 8 (0x40 + n) &&& 0xc0 = (0x40 : Byte) ∧
      (BitVec.ofNat 8 (0x40 + n) &&& 0x3f).setWidth 64 = BitVec.ofNat 64 n) ∧
    (BitVec.ofNat 8 (0x80 + n) &&& 0xc0 = (0x80 : Byte) ∧
      (BitVec.ofNat 8 (0x80 + n) &&& 0x3f).setWidth 64 = BitVec.ofNat 64 n) ∧
    (BitVec.ofNat 8 (0xc0 + n) &&& 0xc0 = (0xc0 : Byte) ∧
      (BitVec.ofNat 8 (0xc0 + n) &&& 0x3f).setWidth 64 = BitVec.ofNat 64 n) := by
  revert n
  decide

theorem form_packed {v : Word} (h : v.toNat < 0x40) :
    cfaForm (BitVec.ofNat 8 (0x40 + v.toNat)) = some (.plain (.advanceLoc v)) ∧
      cfaForm (BitVec.ofNat 8 (0x80 + v.toNat)) = some (.one .uleb (.offset v)) ∧
      cfaForm (BitVec.ofNat 8 (0xc0 + v.toNat)) = some (.plain (.restore v)) := by
  obtain ⟨⟨hadvance, hv₁⟩, ⟨hoffset, hv₂⟩, hrestore, hv₃⟩ := packed_opcode ⟨v.toNat, h⟩
  have hv : BitVec.ofNat 64 v.toNat = v := by rw [BitVec.ofNat_toNat, BitVec.setWidth_eq]
  rw [hv] at hv₁ hv₂ hv₃
  unfold cfaForm
  dsimp only at *
  rw [hadvance, hv₁, hoffset, hv₂, hrestore, hv₃]
  exact ⟨rfl, rfl, rfl⟩

theorem writeOp_text {p : Word} {op : CfaOp} {text : List Byte} (h : writeOp fdePtrEnc p op = some text) :
    opText fdePtrEnc p op text := by
  have huleb := writeUleb_text p
  cases op with
  | nop =>
    cases h
    exact ⟨0x00, .plain .nop, [], rfl, rfl, rfl, rfl⟩
  | setLoc loc =>
    obtain ⟨operand, hoperand, rfl⟩ := Option.map_eq_some_iff.mp h
    exact ⟨0x01, .one .address .setLoc, operand, rfl, rfl, loc, writePointer_text hoperand, rfl⟩
  | advanceLoc delta =>
    simp only [writeOp] at h
    split_ifs at h with h₁ h₂ h₃ h₄
    · cases h
      exact ⟨_, _, [], rfl, (form_packed h₁).1, rfl, rfl⟩
    · cases h
      exact ⟨0x02, .one (.data 1) .advanceLoc, _, rfl, rfl, delta, data_text fdePtrEnc p (by omega), rfl⟩
    · cases h
      exact ⟨0x03, .one (.data 2) .advanceLoc, _, rfl, rfl, delta, data_text fdePtrEnc p (by omega), rfl⟩
    · cases h
      exact ⟨0x04, .one (.data 4) .advanceLoc, _, rfl, rfl, delta, data_text fdePtrEnc p (by omega), rfl⟩
  | offset reg offset =>
    simp only [writeOp] at h
    split_ifs at h with hpacked
    · cases h
      exact ⟨_, _, _, rfl, (form_packed hpacked).2.1, offset, huleb _, rfl⟩
    · cases h
      exact ⟨0x05, .two .uleb .uleb .offset, _, rfl, rfl, reg, _, _, rfl, huleb _, offset, huleb _, rfl⟩
  | restore reg =>
    simp only [writeOp] at h
    split_ifs at h with hpacked
    · cases h
      exact ⟨_, _, [], rfl, (form_packed hpacked).2.2, rfl, rfl⟩
    · cases h
      exact ⟨0x06, .one .uleb .restore, _, rfl, rfl, reg, huleb _, rfl⟩
  | undefined reg =>
    cases h
    exact ⟨0x07, .one .uleb .undefined, _, rfl, rfl, reg, huleb _, rfl⟩
  | sameValue reg =>
    cases h
    exact ⟨0x08, .one .uleb .sameValue, _, rfl, rfl, reg, huleb _, rfl⟩
  | register reg storedIn =>
    cases h
    exact ⟨0x09, .two .uleb .uleb .register, _, rfl, rfl, reg, _, _, rfl, huleb _, storedIn, huleb _, rfl⟩
  | rememberState =>
    cases h
    exact ⟨0x0a, .plain .rememberState, [], rfl, rfl, rfl, rfl⟩
  | restoreState =>
    cases h
    exact ⟨0x0b, .plain .restoreState, [], rfl, rfl, rfl, rfl⟩
  | defCfa reg offset =>
    cases h
    exact ⟨0x0c, .two .uleb .uleb .defCfa, _, rfl, rfl, reg, _, _, rfl, huleb _, offset, huleb _, rfl⟩
  | defCfaRegister reg =>
    cases h
    exact ⟨0x0d, .one .uleb .defCfaRegister, _, rfl, rfl, reg, huleb _, rfl⟩
  | defCfaOffset offset =>
    cases h
    exact ⟨0x0e, .one .uleb .defCfaOffset, _, rfl, rfl, offset, huleb _, rfl⟩
  | defCfaExpression =>
    cases h
    exact ⟨0x0f, .one .block fun _ => .defCfaExpression, _, rfl, rfl, 0, emptyBlock_text p, rfl⟩
  | expression reg =>
    cases h
    exact ⟨0x10, .two .uleb .block fun reg _ => .expression reg, _, rfl, rfl, reg, _, _, rfl, huleb _, 0,
      emptyBlock_text p, rfl⟩
  | defCfaSf reg offset =>
    cases h
    exact ⟨0x12, .two .uleb .sleb .defCfaSf, _, rfl, rfl, reg, _, _, rfl, huleb _, offset,
      writeSleb_text p _, rfl⟩
  | defCfaOffsetSf offset =>
    cases h
    exact ⟨0x13, .one .sleb .defCfaOffsetSf, _, rfl, rfl, offset, writeSleb_text p _, rfl⟩
  | valOffset reg offset =>
    cases h
    exact ⟨0x14, .two .uleb .uleb .valOffset, _, rfl, rfl, reg, _, _, rfl, huleb _, offset, huleb _, rfl⟩
  | valExpression reg =>
    cases h
    exact ⟨0x16, .two .uleb .block fun reg _ => .valExpression reg, _, rfl, rfl, reg, _, _, rfl, huleb _, 0,
      emptyBlock_text p, rfl⟩

theorem writeOps_text {p : Word} {ops : List CfaOp} {text : List Byte}
    (h : writeOps fdePtrEnc p ops = some text) : opsText fdePtrEnc p ops text := by
  induction ops generalizing p text with
  | nil =>
    cases h
    exact .nil p
  | cons op ops ih =>
    obtain ⟨first, hfirst, h⟩ := Option.bind_eq_some_iff.mp h
    obtain ⟨second, hsecond, h⟩ := Option.bind_eq_some_iff.mp h
    cases h
    exact .cons (writeOp_text hfirst) (ih hsecond)

end Operations

/-- A record behind its length field. -/
structure EhFrameRecord where
  id : BitVec 32
  body : List Byte
  short : body.length + 4 < 0xffffffff

namespace EhFrameRecord
variable (f : EhFrameRecord)

def text : List Byte :=
  leBytes 4 (f.body.length + 4) ++ leBytes 4 f.id.toNat ++ f.body

/-- As the walk over the section sees it. -/
def header : EhRecord where
  len := BitVec.ofNat 32 (f.body.length + 4)
  id := f.id
  four_le := by
    have hshort := f.short
    rw [BitVec.toNat_ofNat, Nat.mod_eq_of_lt (by omega)]
    omega
  not_long h := by
    have hshort := f.short
    have hlen := congrArg BitVec.toNat h
    rw [BitVec.toNat_ofNat, Nat.mod_eq_of_lt (by omega)] at hlen
    exact absurd hlen (Nat.ne_of_lt hshort)

/-- A record that is short enough for the 32-bit format. -/
def ofBody (id : BitVec 32) (body : List Byte) : Option EhFrameRecord :=
  if h : body.length + 4 < 0xffffffff then some ⟨id, body, h⟩ else none

end EhFrameRecord

/-- The letters and the data of an augmentation. `R` comes last. -/
def writeAug (aug : CIEAug) : List Byte × List Byte :=
  ((if aug.signalFrame then [0x53] else []) ++ (if aug.lsdaPtrEnc ≠ kDwEhPeOmitted then [0x4c] else []) ++
      [0x52],
    (if aug.lsdaPtrEnc ≠ kDwEhPeOmitted then [aug.lsdaPtrEnc] else []) ++ [aug.fdePtrEnc])

/-- A CIE from its id to its augmentation data. -/
def writeCIEFields (cie : CIE) : Option (List Byte) :=
  let data := (writeAug cie.aug).2
  let str := if cie.augmented then 0x7a :: (writeAug cie.aug).1 else []
  let augmentation := if cie.augmented then writeUleb (BitVec.ofNat 64 data.length) ++ data else []
  if cie.codeAlign ≠ 0 ∧ cie.returnReg < 256 ∧ (cie.augmented = false → cie.aug = .initial) then
    some ([1] ++ ((str ++ [0]) ++ (writeUleb cie.codeAlign ++ (writeSleb cie.dataAlign ++
      ([BitVec.ofNat 8 cie.returnReg] ++ augmentation)))))
  else none

/-- The CIE record at `p`. -/
def writeCIE (p : Word) (cie : CIE) (ops : List CfaOp) : Option EhFrameRecord := do
  let fields ← writeCIEFields cie
  let insns ← writeOps cie.aug.fdePtrEnc (addressAfter (addressAfter (p + 4) 4) fields.length) ops
  EhFrameRecord.ofBody 0 (fields ++ insns)

/-- The augmentation data of an FDE. -/
def writeFDEAug (p : Word) (cie : CIE) (lsdaPtr : Option Word) : Option (List Byte) :=
  if cie.augmented then
    if cie.aug.lsdaPtrEnc ≠ kDwEhPeOmitted then do
      -- the length of the pointer takes one byte
      let lsda ← lsdaPtr
      let pointer ← writePointer cie.aug.lsdaPtrEnc (addressAfter p 1) lsda
      return writeUleb (BitVec.ofNat 64 pointer.length) ++ pointer
    else if lsdaPtr = none then some (writeUleb 0) else none
  else if lsdaPtr = none then some [] else none

/-- The FDE record at `p` of the CIE at `cieAddr`. -/
def writeFDE (p cieAddr : Word) (r : FDERecord) : Option EhFrameRecord := do
  let pcStart ← writePointer r.cie.aug.fdePtrEnc (p + 8) r.pcStart
  let atRange := addressAfter (p + 8) pcStart.length
  let pcRange ← writePointer (r.cie.aug.fdePtrEnc &&& 0x0f) atRange r.pcRange
  let atAug := addressAfter atRange pcRange.length
  let aug ← writeFDEAug atAug r.cie r.lsdaPtr
  let insns ← writeOps r.cie.aug.fdePtrEnc (addressAfter (p + 8) (pcStart ++ (pcRange ++ aug)).length) r.fdeOps
  let distance := p + 4 - cieAddr
  if 0 < distance.toNat ∧ distance.toNat < 2 ^ 32 then
    EhFrameRecord.ofBody (distance.setWidth 32) (pcStart ++ (pcRange ++ aug) ++ insns)
  else none

/-- FDEs of one CIE, one behind the other. -/
def writeFDEs (p cieAddr : Word) : List FDERecord → Option (List EhFrameRecord)
  | [] => some []
  | r :: rs => do
    let first ← writeFDE p cieAddr r
    let second ← writeFDEs (addressAfter p first.text.length) cieAddr rs
    return first :: second

/-- A CIE with the FDEs that refer to it. -/
structure EhFrameGroup where
  cie : CIE
  cieOps : List CfaOp
  fdes : List (Word × Word × Option Word × List CfaOp)

namespace EhFrameGroup

/-- What is to be read for its FDEs. -/
def records (g : EhFrameGroup) : List FDERecord :=
  g.fdes.map fun (pcStart, pcRange, lsdaPtr, fdeOps) =>
    ⟨g.cie, pcStart, pcRange, g.cieOps, lsdaPtr, fdeOps⟩

end EhFrameGroup

/-- The text of records one behind the other. -/
def recordsText (fs : List EhFrameRecord) : List Byte := fs.flatMap EhFrameRecord.text

def writeGroup (p : Word) (g : EhFrameGroup) : Option (List EhFrameRecord) := do
  let first ← writeCIE p g.cie g.cieOps
  let second ← writeFDEs (addressAfter p first.text.length) p g.records
  return first :: second

def writeGroups (p : Word) : List EhFrameGroup → Option (List EhFrameRecord)
  | [] => some []
  | g :: gs => do
    let first ← writeGroup p g
    let second ← writeGroups (addressAfter p (recordsText first).length) gs
    return first ++ second

/-- A section at `p`, with its terminator. -/
def writeSection (p : Word) (groups : List EhFrameGroup) : Option (List Byte) := do
  let records ← writeGroups p groups
  return recordsText records ++ leBytes 4 0

section Fields
variable {p : Word}

theorem length_writeUleb {v : Word} (h : v.toNat < 128) : (writeUleb v).length = 1 := by
  rw [writeUleb, Leb128.encodeUnsigned, if_pos h]
  rfl

theorem lettersText_R (aug : CIEAug) (enc : Byte) :
    lettersText [0x52] aug p { aug with fdePtrEnc := enc } [enc] :=
  ⟨enc, rfl, rfl⟩

theorem lettersText_L {letters text : List Byte} {aug aug' : CIEAug} (enc : Byte)
    (h : lettersText letters { aug with lsdaPtrEnc := enc } (addressAfter p 1) aug' text) :
    lettersText (0x4c :: letters) aug p aug' (enc :: text) :=
  ⟨enc, [enc], text, rfl, rfl, h⟩

theorem writeAug_text (aug : CIEAug) : lettersText (writeAug aug).1 .initial p aug (writeAug aug).2 := by
  obtain ⟨fdePtrEnc, lsdaPtrEnc, signalFrame⟩ := aug
  have hlast := fun base : CIEAug => @lettersText_R p base fdePtrEnc
  have hlast' := fun base : CIEAug => @lettersText_R (addressAfter p 1) base fdePtrEnc
  by_cases hlsda : lsdaPtrEnc = kDwEhPeOmitted
  · subst hlsda
    cases signalFrame with
    | false => exact hlast .initial
    | true => exact hlast { CIEAug.initial with signalFrame := true }
  · cases signalFrame with
    | false =>
      have haug : writeAug ⟨fdePtrEnc, lsdaPtrEnc, false⟩ = ([0x4c, 0x52], [lsdaPtrEnc, fdePtrEnc]) := by
        simp [writeAug, hlsda]
      rw [haug]
      exact lettersText_L lsdaPtrEnc (hlast' { CIEAug.initial with lsdaPtrEnc := lsdaPtrEnc })
    | true =>
      have haug : writeAug ⟨fdePtrEnc, lsdaPtrEnc, true⟩ =
          ([0x53, 0x4c, 0x52], [lsdaPtrEnc, fdePtrEnc]) := by
        simp [writeAug, hlsda]
      rw [haug]
      exact @lettersText_L p [0x52] [fdePtrEnc] { CIEAug.initial with signalFrame := true } _ lsdaPtrEnc
        (hlast' ⟨kDwEhPeAbsptr, lsdaPtrEnc, true⟩)

theorem writeAug_short (aug : CIEAug) : (writeAug aug).1.length ≤ 3 ∧ (writeAug aug).2.length ≤ 2 ∧
    0 ∉ (writeAug aug).1 := by
  unfold writeAug
  split_ifs <;> simp

theorem writeCIEFields_text {cie : CIE} {fields : List Byte} (h : writeCIEFields cie = some fields) :
    cieText p cie (leBytes 4 0 ++ fields) := by
  obtain ⟨codeAlign, dataAlign, returnReg, augmented, aug⟩ := cie
  obtain ⟨hletters, hdata, hzero⟩ := writeAug_short aug
  have hid : BitVec.ofNat 32 (littleEndian (leBytes 4 0)) = 0 := by decide
  have hcode := writeUleb_text p codeAlign
  have hdataAlign := writeSleb_text p dataAlign
  cases augmented with
  | false =>
    obtain ⟨⟨halign, hreg, hplain⟩, htext⟩ := Option.ite_none_right_eq_some.mp h
    cases htext
    obtain rfl : aug = .initial := hplain rfl
    have hbyte : (BitVec.ofNat 8 returnReg).toNat = returnReg := by
      rw [BitVec.toNat_ofNat, Nat.mod_eq_of_lt hreg]
    refine ⟨0, _, _, rfl, ⟨rfl, hid⟩, rfl, 1, _, _, rfl, rfl, rfl, [], _, _, rfl, ⟨rfl, by simp, by simp⟩,
      codeAlign, _, _, rfl, hcode, dataAlign, _, _, rfl, hdataAlign, halign, _, _, _, rfl, rfl,
      (false, .initial), ⟨rfl, rfl⟩, ?_⟩
    simp only [hbyte]
  | true =>
    obtain ⟨⟨halign, hreg, -⟩, htext⟩ := Option.ite_none_right_eq_some.mp h
    cases htext
    have hbyte : (BitVec.ofNat 8 returnReg).toNat = returnReg := by
      rw [BitVec.toNat_ofNat, Nat.mod_eq_of_lt hreg]
    have hlen : (BitVec.ofNat 64 (writeAug aug).2.length).toNat = (writeAug aug).2.length := by
      rw [BitVec.toNat_ofNat, Nat.mod_eq_of_lt (by omega)]
    have haug : ∀ q, augText (0x7a :: (writeAug aug).1) q (true, aug)
        (writeUleb (BitVec.ofNat 64 (writeAug aug).2.length) ++ (writeAug aug).2) := fun q =>
      ⟨rfl, _, _, _, rfl, writeUleb_text q _, aug, ⟨hlen.symm, _, List.prefix_refl _, writeAug_text aug⟩, rfl⟩
    have hstr : asciizText 16 p (0x7a :: (writeAug aug).1) ((0x7a :: (writeAug aug).1) ++ [0]) := by
      refine ⟨rfl, ?_, ?_⟩
      · intro hmem
        rcases List.mem_cons.mp hmem with h | h
        · exact absurd h (by decide)
        · exact hzero h
      · rw [List.length_cons]
        omega
    refine ⟨0, _, _, rfl, ⟨rfl, hid⟩, rfl, 1, _, _, rfl, rfl, rfl, _, _, _, rfl, hstr,
      codeAlign, _, _, rfl, hcode, dataAlign, _, _, rfl, hdataAlign, halign, _, _, _, rfl, rfl,
      (true, aug), haug _, ?_⟩
    simp only [hbyte]

theorem writeFDEAug_text {cie : CIE} {lsdaPtr : Option Word} {text : List Byte}
    (h : writeFDEAug p cie lsdaPtr = some text) : fdeAugText cie p lsdaPtr text := by
  unfold writeFDEAug at h
  unfold fdeAugText
  split_ifs at h ⊢ with haug hlsda hnone hnone
  · obtain ⟨lsda, rfl, hrest⟩ := Option.bind_eq_some_iff.mp h
    obtain ⟨pointer, hpointer, hrest⟩ := Option.bind_eq_some_iff.mp hrest
    cases hrest
    have htext := writePointer_text hpointer
    have hsize : pointer.length ≤ 8 := by
      rw [htext.2.2.1, encodedSize]
      split_ifs <;> omega
    have hlen : (BitVec.ofNat 64 pointer.length).toNat = pointer.length := by
      rw [BitVec.toNat_ofNat, Nat.mod_eq_of_lt (by omega)]
    have hone : (writeUleb (BitVec.ofNat 64 pointer.length)).length = 1 :=
      length_writeUleb (by omega)
    refine ⟨_, _, _, rfl, writeUleb_text p _, lsda, ⟨hlen.symm, pointer, List.prefix_refl _, ?_⟩, rfl⟩
    rw [hone]
    exact htext
  · cases h
    subst hnone
    exact ⟨0, _, [], (List.append_nil _).symm, writeUleb_text p 0, rfl, [], List.nil_prefix, rfl, rfl⟩
  · cases h
    exact ⟨hnone, rfl⟩

end Fields

end UnwindCheck
