import UnwindCheck.Offset

/-! The loaded file as the checkers read it: segments, and the bytes behind them. -/
namespace UnwindCheck

structure LoadSegment where
  vaddr : Word
  filesz : Word
  executable : Bool
  deriving DecidableEq, Repr

/-- An opened image. `mem` is the fake load at link-time addresses; only what a segment backs
with file contents is ever read. -/
structure ELFImage where
  segments : List LoadSegment
  mem : Word → Byte

/-- An image with one executable segment and nothing but `code` in it. -/
def ELFImage.ofCode (vaddr : Word) (code : List Byte) : ELFImage :=
  ⟨[⟨vaddr, BitVec.ofNat 64 code.length, true⟩], fun a => code.getD (a - vaddr).toNat 0⟩

/-- `n` bytes from `addr` on. -/
def readMem (mem : Word → Byte) (addr : Word) (n : ℕ) : List Byte :=
  (List.range n).map fun i => mem (addr + BitVec.ofNat 64 i)

/-- Little-endian value of a byte string. -/
def littleEndian : List Byte → ℕ
  | [] => 0
  | b :: bs => b.toNat + 256 * littleEndian bs

theorem littleEndian_eq_zero_iff {bytes : List Byte} :
    littleEndian bytes = 0 ↔ ∀ b ∈ bytes, b = 0 := by
  induction bytes with
  | nil => simp [littleEndian]
  | cons b bytes ih =>
    rw [littleEndian, Nat.add_eq_zero_iff, List.forall_mem_cons, ← ih, ← BitVec.toNat_inj]
    simp

theorem littleEndian_lt (bytes : List Byte) : littleEndian bytes < 256 ^ bytes.length := by
  induction bytes with
  | nil => simp [littleEndian]
  | cons b bytes ih =>
    have hb := b.isLt
    rw [littleEndian, List.length_cons, pow_succ]
    omega

/-- A number in `n` bytes. -/
def leBytes : (n value : ℕ) → List Byte
  | 0, _ => []
  | n + 1, value => BitVec.ofNat 8 value :: leBytes n (value / 256)

@[simp] theorem length_leBytes (n value : ℕ) : (leBytes n value).length = n := by
  induction n generalizing value with
  | zero => rfl
  | succ n ih => rw [leBytes, List.length_cons, ih]

theorem littleEndian_leBytes (n value : ℕ) :
    littleEndian (leBytes n value) = value % 256 ^ n := by
  induction n generalizing value with
  | zero => simp [leBytes, littleEndian, Nat.mod_one]
  | succ n ih =>
    have hmod : value % 256 ^ (n + 1) = value % 256 + 256 * (value / 256 % 256 ^ n) := by
      rw [pow_succ', Nat.mod_mul]
    rw [leBytes, littleEndian, ih, hmod, BitVec.toNat_ofNat]

namespace ELFImage

/-- `BytesAt`: as many of the `size` bytes at `vaddr` as the first segment holding it has. -/
def bytesAt (image : ELFImage) (vaddr : Word) (size : ℕ) : List Byte :=
  match image.segments.find? fun seg => seg.vaddr ≤ vaddr ∧ vaddr - seg.vaddr < seg.filesz with
  | some seg => readMem image.mem vaddr (min size (seg.filesz - (vaddr - seg.vaddr)).toNat)
  | none => []

def isFileBackedNonExecutable (image : ELFImage) (vaddr : Word) (size : ℕ) : Bool :=
  image.segments.any fun seg =>
    !seg.executable && decide (seg.vaddr ≤ vaddr) && decide (vaddr - seg.vaddr ≤ seg.filesz) &&
      decide (size ≤ (seg.filesz - (vaddr - seg.vaddr)).toNat)

theorem length_bytesAt_le (image : ELFImage) (vaddr : Word) (size : ℕ) :
    (image.bytesAt vaddr size).length ≤ size := by
  unfold bytesAt
  split
  · simp [readMem]
  · simp

end ELFImage

end UnwindCheck
