import UnwindCheck.Lib.Format
import UnwindCheck.EhFrame.LSDAPointer
import UnwindCheck.EhFrame.Leb128

/-! The call frame instructions as a grammar: which bytes stand for which operation. The reader
accepts exactly the streams of the grammar. -/
namespace UnwindCheck
open Lib

theorem length_readMem (mem : Word → Byte) (a : Word) (n : ℕ) : (readMem mem a n).length = n := by
  simp [readMem]

theorem Slice.length_bytes (mem : Word → Byte) (s : Slice) : (s.bytes mem).length = s.size :=
  length_readMem mem s.data s.size

theorem take_readMem (mem : Word → Byte) (a : Word) {m n : ℕ} (h : m ≤ n) :
    (readMem mem a n).take m = readMem mem a m := by
  simp [readMem, ← List.map_take, List.take_range, Nat.min_eq_left h]

/-- The address `n` bytes on. -/
def addressAfter (p : Word) (n : ℕ) : Word := p + BitVec.ofNat 64 n

/-- Slices as a stream of bytes at addresses. -/
def slices (mem : Word → Byte) : Source Slice Word Byte where
  rest := Slice.bytes mem
  pos s := s.data
  advance := Slice.advance
  move := addressAfter
  rest_advance s n := s.bytes_advance n
  pos_advance _ _ := rfl
  advance_zero s := by simp [Slice.advance]
  advance_advance s m n := s.advance_advance m n

/-- The texts of a number of `n` bytes. -/
def dataText (n : ℕ) : Format Word Byte ℕ := fun _ v text => text.length = n ∧ littleEndian text = v

def ulebText : Format Word Byte Word := fun _ v text =>
  Leb128.Group text ∧ text.length ≤ 10 ∧ Leb128.unsignedValue text = v.toNat

def slebText : Format Word Byte Word := fun _ v text =>
  Leb128.Group text ∧ text.length ≤ 10 ∧ Leb128.signedValue text = v.toInt

/-- Whether a pointer in the encoding has a width `ReadEncodedPtr` knows. -/
def encodingKnown (encoding : Byte) : Prop :=
  encoding &&& 0x0f = 0x0B ∨ encoding &&& 0x0f = 0x03 ∨ encoding &&& 0x0f = 0x04 ∨
    encoding &&& 0x0f = 0x0C ∨ encoding &&& 0x0f = kDwEhPeAbsptr

instance (encoding : Byte) : Decidable (encodingKnown encoding) :=
  inferInstanceAs (Decidable (_ ∨ _))

/-- A pointer, relative to its own place or absolute. -/
def pointerText (encoding : Byte) : Format Word Byte Word := fun p v text =>
  (encoding &&& 0xf0 = 0x10 ∨ encoding &&& 0xf0 = 0) ∧ encodingKnown encoding ∧
    text.length = encodedSize encoding ∧
    v = (if encoding &&& 0xf0 = 0x10 then p else 0) + encodedNumber encoding text

/-- A length and as many bytes of any contents. -/
def blockText : Format Word Byte Word :=
  ulebText.seq addressAfter fun len _ v text => v = len ∧ text.length = len.toNat

section Primitives
variable (mem : Word → Byte)

theorem readObject_exact (n : ℕ) : Exact (slices mem) (readObject mem n) (dataText n) := by
  intro s v s'
  have hlen := s.length_bytes mem
  constructor
  · intro h
    obtain ⟨s₁, s₂, hget, h⟩ := run_bind_ok h
    cases hget
    obtain ⟨hsize, h⟩ := run_guard_ok h
    cases h
    have hle : n ≤ s.size := by omega
    refine ⟨readMem mem s.data n, ?_, ⟨length_readMem mem s.data n, rfl⟩, ?_⟩
    · rw [← take_readMem mem s.data hle]
      exact List.take_prefix n (s.bytes mem)
    · rw [length_readMem]
      rfl
  · rintro ⟨text, hprefix, ⟨rfl, rfl⟩, rfl⟩
    have hle : text.length ≤ s.size := by
      rw [← hlen]
      exact hprefix.length_le
    have htext : readMem mem s.data text.length = text := by
      rw [← take_readMem mem s.data hle]
      exact (List.prefix_iff_eq_take.mp hprefix).symm
    have hroom : ¬ s.size < text.length := by omega
    have hget : (get : SliceM Slice).run s = .ok (s, s) := rfl
    have hvalue := congrArg littleEndian htext
    unfold readObject
    rw [bind_run_eq hget, if_neg hroom, ← hvalue]
    rfl

theorem readU8_exact : Exact (slices mem) (readU8 mem) fun _ b text => text = [b] := by
  refine ((readObject_exact mem 1).bind_pure (BitVec.ofNat 8)).congr fun p b text => ?_
  constructor
  · rintro ⟨v, ⟨hlen, rfl⟩, rfl⟩
    obtain ⟨c, rfl⟩ := List.length_eq_one_iff.mp hlen
    simp [littleEndian]
  · rintro rfl
    exact ⟨_, ⟨rfl, rfl⟩, by simp [littleEndian]⟩

theorem readU32_exact : Exact (slices mem) (readU32 mem) fun _ w text =>
    text.length = 4 ∧ BitVec.ofNat 32 (littleEndian text) = w := by
  refine ((readObject_exact mem 4).bind_pure (BitVec.ofNat 32)).congr fun p w text => ?_
  constructor
  · rintro ⟨v, ⟨hlen, rfl⟩, rfl⟩
    exact ⟨hlen, rfl⟩
  · rintro ⟨hlen, rfl⟩
    exact ⟨_, ⟨hlen, rfl⟩, rfl⟩

theorem readUleb128_exact : Exact (slices mem) (readUleb128 mem) ulebText := by
  intro s v s'
  rw [(readUleb128_reads_leb mem).ok s v s']
  constructor
  · rintro ⟨group, rest, hs, hg, hlen, hv, rfl⟩
    exact ⟨group, ⟨rest, hs.symm⟩, ⟨hg, hlen, by exact_mod_cast hv⟩, rfl⟩
  · rintro ⟨group, ⟨rest, hs⟩, ⟨hg, hlen, hv⟩, rfl⟩
    exact ⟨group, rest, hs.symm, hg, hlen, by exact_mod_cast hv, rfl⟩

theorem readSleb128_exact : Exact (slices mem) (readSleb128 mem) slebText := by
  intro s v s'
  rw [(readSleb128_reads_leb mem).ok s v s']
  constructor
  · rintro ⟨group, rest, hs, hg, hlen, hv, rfl⟩
    exact ⟨group, ⟨rest, hs.symm⟩, ⟨hg, hlen, hv⟩, rfl⟩
  · rintro ⟨group, ⟨rest, hs⟩, ⟨hg, hlen, hv⟩, rfl⟩
    exact ⟨group, rest, hs.symm, hg, hlen, hv, rfl⟩

theorem readSubslice_exact (n : Word) : Exact (slices mem) (readSubslice n) fun p d text =>
    d = ⟨p, n.toNat⟩ ∧ text.length = n.toNat := by
  intro s d s'
  have hlen := s.length_bytes mem
  constructor
  · intro h
    obtain ⟨s₁, s₂, hget, h⟩ := run_bind_ok h
    cases hget
    obtain ⟨hsize, h⟩ := run_guard_ok h
    cases h
    have hle : n.toNat ≤ (s.bytes mem).length := by omega
    have htake : ((s.bytes mem).take n.toNat).length = n.toNat := List.length_take_of_le hle
    refine ⟨(s.bytes mem).take n.toNat, List.take_prefix _ _, ⟨rfl, htake⟩, ?_⟩
    rw [htake]
    rfl
  · rintro ⟨text, hprefix, ⟨rfl, htext⟩, rfl⟩
    have hle : n.toNat ≤ s.size := by
      rw [← htext, ← hlen]
      exact hprefix.length_le
    have hroom : ¬ s.size < n.toNat := by omega
    have hget : (get : SliceM Slice).run s = .ok (s, s) := rfl
    unfold readSubslice
    rw [bind_run_eq hget, if_neg hroom, htext]
    rfl

/-- Reading a number of `n` bytes and adding what it says to a base. -/
theorem readOffset_exact (n : ℕ) (base : Word) (value : ℕ → Word) :
    Exact (slices mem) (do return base + value (← readObject mem n)) fun _ v text =>
      text.length = n ∧ v = base + value (littleEndian text) := by
  refine ((readObject_exact mem n).bind_pure fun m => base + value m).congr fun p v text => ?_
  constructor
  · rintro ⟨m, ⟨hlen, rfl⟩, rfl⟩
    exact ⟨hlen, rfl⟩
  · rintro ⟨hlen, rfl⟩
    exact ⟨_, ⟨hlen, rfl⟩, rfl⟩

theorem readEncodedFrom_exact (encoding : Byte) (bad : String) (base : Word) :
    Exact (slices mem) (readEncodedFrom mem encoding bad base) fun _ v text =>
      encodingKnown encoding ∧ text.length = encodedSize encoding ∧
        v = base + encodedNumber encoding text := by
  unfold readEncodedFrom encodedSize encodedNumber encodingKnown
  by_cases hs : encoding &&& 0x0f = 0x0B
  · rw [if_pos hs]
    refine (readOffset_exact mem 4 base fun n => (BitVec.ofNat 32 n).signExtend 64).congr fun p v text => ?_
    simp only [eq_true hs, true_or, if_true, true_and]
  · rw [if_neg hs]
    by_cases hu : encoding &&& 0x0f = 0x03
    · rw [if_pos hu]
      refine (readOffset_exact mem 4 base (BitVec.ofNat 64)).congr fun p v text => ?_
      simp only [eq_true hu, hs, true_or, or_true, if_true, if_false, true_and]
    · rw [if_neg hu]
      by_cases h8 : encoding &&& 0x0f = 0x04 ∨ encoding &&& 0x0f = 0x0C ∨
        encoding &&& 0x0f = kDwEhPeAbsptr
      · rw [if_pos h8]
        refine (readOffset_exact mem 8 base (BitVec.ofNat 64)).congr fun p v text => ?_
        simp only [hs, hu, false_or, eq_true h8, if_false, true_and]
      · rw [if_neg h8]
        refine (Exact.throw bad).congr fun p v text => ?_
        simp only [hs, hu, h8, or_self, false_and]

theorem readEncodedPtr_exact (encoding : Byte) :
    Exact (slices mem) (readEncodedPtr mem encoding) (pointerText encoding) := by
  obtain ⟨bad, hsplit⟩ := readEncodedPtr_split mem encoding
  rw [hsplit]
  unfold pointerText
  by_cases hpc : encoding &&& 0xf0 = 0x10
  · rw [if_pos hpc]
    intro s v s'
    have hget : ((fun s : Slice => s.data) <$> get : SliceM Word).run s = .ok (s.data, s) := rfl
    rw [bind_run_eq hget, readEncodedFrom_exact mem encoding bad s.data s v s']
    simp only [hpc, if_true, true_or, true_and]
    rfl
  · rw [if_neg hpc]
    by_cases hzero : encoding &&& 0xf0 = 0
    · rw [if_neg (not_not.mpr hzero), pure_bind]
      refine (readEncodedFrom_exact mem encoding bad 0).congr fun p v text => ?_
      simp only [eq_true hzero, hpc, or_true, true_and, if_false]
    · rw [if_pos hzero]
      intro s v s'
      constructor
      · intro h
        cases h
      · rintro ⟨text, -, ⟨hhi, -⟩, -⟩
        rcases hhi with h | h
        · exact absurd h hpc
        · exact absurd h hzero

end Primitives

/-- The kinds of operands of the call frame instructions. -/
inductive CfaOperand where
  | address
  | data (size : ℕ)
  | uleb
  | sleb
  | block
  deriving DecidableEq, Repr

/-- The texts of an operand. A block counts as its length. -/
def CfaOperand.text (fdePtrEnc : Byte) : CfaOperand → Format Word Byte Word
  | address => pointerText fdePtrEnc
  | data size => (dataText size).map (BitVec.ofNat 64)
  | uleb => ulebText
  | sleb => slebText
  | block => blockText

/-- What follows an opcode, and the operation it makes with that. -/
inductive CfaForm where
  | plain (op : CfaOp)
  | one (kind : CfaOperand) (op : Word → CfaOp)
  | two (first second : CfaOperand) (op : Word → Word → CfaOp)

/-- The opcodes below the three packed ones: the table of the call frame instructions. -/
def extendedCfaForm : (opcode : ℕ) → Option CfaForm
  | 0x00 => some (.plain .nop)
  | 0x01 => some (.one .address .setLoc)
  | 0x02 => some (.one (.data 1) .advanceLoc)
  | 0x03 => some (.one (.data 2) .advanceLoc)
  | 0x04 => some (.one (.data 4) .advanceLoc)
  | 0x05 => some (.two .uleb .uleb .offset)
  | 0x06 => some (.one .uleb .restore)
  | 0x07 => some (.one .uleb .undefined)
  | 0x08 => some (.one .uleb .sameValue)
  | 0x09 => some (.two .uleb .uleb .register)
  | 0x0a => some (.plain .rememberState)
  | 0x0b => some (.plain .restoreState)
  | 0x0c => some (.two .uleb .uleb .defCfa)
  | 0x0d => some (.one .uleb .defCfaRegister)
  | 0x0e => some (.one .uleb .defCfaOffset)
  | 0x0f => some (.one .block fun _ => .defCfaExpression)
  | 0x10 => some (.two .uleb .block fun reg _ => .expression reg)
  | 0x11 => some (.two .uleb .sleb .offset)
  | 0x12 => some (.two .uleb .sleb .defCfaSf)
  | 0x13 => some (.one .sleb .defCfaOffsetSf)
  | 0x14 => some (.two .uleb .uleb .valOffset)
  | 0x15 => some (.two .uleb .sleb .valOffset)
  | 0x16 => some (.two .uleb .block fun reg _ => .valExpression reg)
  | 0x2d => some (.plain .nop)
  | 0x2e => some (.one .uleb fun _ => .nop)
  | _ => none

def cfaForm (opcode : Byte) : Option CfaForm :=
  let operand := (opcode &&& 0x3f).setWidth 64
  if opcode &&& 0xc0 = 0x40 then some (.plain (.advanceLoc operand))
  else if opcode &&& 0xc0 = 0x80 then some (.one .uleb (.offset operand))
  else if opcode &&& 0xc0 = 0xc0 then some (.plain (.restore operand))
  else extendedCfaForm opcode.toNat

/-- The texts of the operands. -/
def CfaForm.text (fdePtrEnc : Byte) : CfaForm → Format Word Byte CfaOp
  | plain op => fun _ op' text => op' = op ∧ text = []
  | one kind op => (kind.text fdePtrEnc).map op
  | two first second op =>
    (first.text fdePtrEnc).seq addressAfter fun v => (second.text fdePtrEnc).map (op v)

/-- The texts of an operation: an opcode of the table with its operands. -/
def opText (fdePtrEnc : Byte) : Format Word Byte CfaOp := fun p op text =>
  ∃ opcode f operands, text = opcode :: operands ∧ cfaForm opcode = some f ∧
    f.text fdePtrEnc (addressAfter p 1) op operands

section Operations
variable (mem : Word → Byte) (fdePtrEnc : Byte)

def CfaOperand.read : CfaOperand → SliceM Word
  | address => readEncodedPtr mem fdePtrEnc
  | data size => do return BitVec.ofNat 64 (← readObject mem size)
  | uleb => readUleb128 mem
  | sleb => readSleb128 mem
  | block => do
    let len ← readUleb128 mem
    let _ ← readSubslice len
    return len

def CfaForm.read : CfaForm → SliceM CfaOp
  | plain op => return op
  | one kind op => do return op (← kind.read mem fdePtrEnc)
  | two first second op => do return op (← first.read mem fdePtrEnc) (← second.read mem fdePtrEnc)

theorem readExtendedOp_eq (opcode : Byte) : readExtendedOp mem fdePtrEnc opcode =
    match extendedCfaForm opcode.toNat with
    | some f => f.read mem fdePtrEnc
    | none => throw ("unknown opcode: 0x" ++ String.ofList (Nat.toDigits 16 opcode.toNat)) := by
  unfold readExtendedOp
  generalize opcode.toNat = n
  split
  case h_26 =>
    have hnone : extendedCfaForm n = none := by
      unfold extendedCfaForm
      split <;> first | rfl | contradiction
    rw [hnone]
  all_goals simp only [extendedCfaForm, CfaForm.read, CfaOperand.read, skipExpression, bind_assoc, pure_bind]

theorem readOp_eq : readOp mem fdePtrEnc = (do
    let opcode ← readU8 mem
    match cfaForm opcode with
    | some f => f.read mem fdePtrEnc
    | none => throw ("unknown opcode: 0x" ++ String.ofList (Nat.toDigits 16 opcode.toNat))) := by
  unfold readOp cfaForm
  refine bind_congr fun opcode => ?_
  dsimp only
  split_ifs
  · rfl
  · rfl
  · rfl
  · exact readExtendedOp_eq mem fdePtrEnc opcode

theorem CfaOperand.read_exact (kind : CfaOperand) :
    Exact (slices mem) (kind.read mem fdePtrEnc) (kind.text fdePtrEnc) := by
  cases kind with
  | address => exact readEncodedPtr_exact mem fdePtrEnc
  | data size => exact (readObject_exact mem size).bind_pure (BitVec.ofNat 64)
  | uleb => exact readUleb128_exact mem
  | sleb => exact readSleb128_exact mem
  | block =>
    have hcontents : ∀ len, Exact (slices mem) (do let _ ← readSubslice len; return len)
        fun _ v text => v = len ∧ text.length = len.toNat := by
      intro len
      refine ((readSubslice_exact mem len).bind_pure fun _ => len).congr fun p v text => ?_
      constructor
      · rintro ⟨d, ⟨-, hlen⟩, rfl⟩
        exact ⟨rfl, hlen⟩
      · rintro ⟨rfl, hlen⟩
        exact ⟨_, ⟨rfl, hlen⟩, rfl⟩
    exact (readUleb128_exact mem).bind hcontents

theorem CfaForm.read_exact (f : CfaForm) : Exact (slices mem) (f.read mem fdePtrEnc) (f.text fdePtrEnc) := by
  cases f with
  | plain op => exact Exact.pure op
  | one kind op => exact (kind.read_exact mem fdePtrEnc).bind_pure op
  | two first second op =>
    exact (first.read_exact mem fdePtrEnc).bind fun v => (second.read_exact mem fdePtrEnc).bind_pure (op v)

/-- An operation is read exactly where one of its texts stands. -/
theorem readOp_exact : Exact (slices mem) (readOp mem fdePtrEnc) (opText fdePtrEnc) := by
  rw [readOp_eq]
  have hform : ∀ opcode, Exact (slices mem) (match cfaForm opcode with
      | some f => f.read mem fdePtrEnc
      | none => throw ("unknown opcode: 0x" ++ String.ofList (Nat.toDigits 16 opcode.toNat)))
      fun p op text => ∃ f, cfaForm opcode = some f ∧ f.text fdePtrEnc p op text := by
    intro opcode
    cases cfaForm opcode with
    | none => exact (Exact.throw _).congr (by simp)
    | some f => exact (f.read_exact mem fdePtrEnc).congr (by simp)
  refine ((readU8_exact mem).bind hform).congr fun p op text => ?_
  constructor
  · rintro ⟨opcode, first, operands, rfl, rfl, f, hf, htext⟩
    exact ⟨opcode, f, operands, rfl, hf, htext⟩
  · rintro ⟨opcode, f, operands, rfl, hf, htext⟩
    exact ⟨opcode, [opcode], operands, rfl, rfl, f, hf, htext⟩

/-- A stream of operations. -/
abbrev opsText (fdePtrEnc : Byte) : Format Word Byte (List CfaOp) :=
  Format.Many addressAfter (opText fdePtrEnc)

variable {mem fdePtrEnc}

theorem opText_ne_nil (p : Word) (op : CfaOp) (text : List Byte) (h : opText fdePtrEnc p op text) :
    text ≠ [] := by
  obtain ⟨opcode, f, operands, rfl, -, -⟩ := h
  exact List.cons_ne_nil opcode operands

/-- A stream is read exactly if all of it is operations. -/
theorem readOps_exact {fuel : ℕ} {s : Slice} {ops : List CfaOp} (hfuel : s.size ≤ fuel) :
    readOps mem fdePtrEnc fuel s = .ok ops ↔ opsText fdePtrEnc s.data ops (s.bytes mem) := by
  induction fuel generalizing s ops with
  | zero =>
    have hnil : s.bytes mem = [] := List.length_eq_zero_iff.mp (by rw [s.length_bytes]; omega)
    rw [hnil, readOps]
    constructor
    · intro h
      cases h
      exact .nil _
    · intro h
      rw [h.eq_nil opText_ne_nil rfl]
  | succ fuel ih =>
    unfold readOps
    split_ifs with hz
    · have hnil : s.bytes mem = [] := List.length_eq_zero_iff.mp (by rw [s.length_bytes, hz])
      rw [hnil]
      constructor
      · intro h
        cases h
        exact .nil _
      · intro h
        rw [h.eq_nil opText_ne_nil rfl]
    · constructor
      · intro h
        obtain ⟨⟨op, s'⟩, hop, h⟩ := except_bind_ok h
        obtain ⟨rest, hrest, h⟩ := except_bind_ok h
        cases h
        obtain ⟨first, ⟨second, hs⟩, htext, rfl⟩ := (readOp_exact mem fdePtrEnc s op s').mp hop
        have hpos := List.length_pos_iff.mpr (opText_ne_nil _ _ _ htext)
        have hsize : (s.advance first.length).size ≤ fuel := by
          simp only [Slice.advance]
          omega
        have hsecond := (ih hsize).mp hrest
        have hbytes : (s.advance first.length).bytes mem = second := by
          have hs : s.bytes mem = first ++ second := hs.symm
          rw [s.bytes_advance, hs, List.drop_left]
        have hs : s.bytes mem = first ++ second := hs.symm
        rw [hbytes] at hsecond
        rw [hs]
        exact .cons htext hsecond
      · intro h
        generalize hbytes : s.bytes mem = text at h
        cases h with
        | nil =>
          have hlen := s.length_bytes mem
          rw [hbytes, List.length_nil] at hlen
          omega
        | cons hfirst hsecond =>
          rename_i op rest first second
          have hpos := List.length_pos_iff.mpr (opText_ne_nil _ _ _ hfirst)
          have hop : (readOp mem fdePtrEnc).run s = .ok (op, s.advance first.length) :=
            (readOp_exact mem fdePtrEnc s op _).mpr ⟨first, ⟨second, hbytes.symm⟩, hfirst, rfl⟩
          have hsize : (s.advance first.length).size ≤ fuel := by
            simp only [Slice.advance]
            omega
          have hrest : readOps mem fdePtrEnc fuel (s.advance first.length) = .ok rest := by
            apply (ih hsize).mpr
            rw [s.bytes_advance, hbytes, List.drop_left]
            exact hsecond
          rw [hop]
          change (readOps mem fdePtrEnc fuel (s.advance first.length) >>= fun ops => pure (op :: ops)) = _
          rw [hrest]
          rfl

end Operations

end UnwindCheck
