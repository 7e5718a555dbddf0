import UnwindCheck.Image

/-! Primitive reads from `.eh_frame`: a slice of live memory that every read shortens from the
front. -/
namespace UnwindCheck

def kDwEhPeAbsptr : Byte := 0x00
def kDwEhPeOmitted : Byte := 0xff

/-- A `std::span` of bytes. -/
structure Slice where
  data : Word
  size : ℕ
  deriving DecidableEq, Repr

/-- A read either fails with the text of an `EHFrameError` or advances the slice. -/
abbrev SliceM := StateT Slice (Except String)

theorem except_bind_ok {ε α β : Type} {x : Except ε α} {f : α → Except ε β} {r : β}
    (h : x >>= f = .ok r) : ∃ a, x = .ok a ∧ f a = .ok r := by
  cases x with
  | error e => cases h
  | ok a => exact ⟨a, rfl, h⟩

theorem except_map_ok {ε α β : Type} {f : α → β} {x : Except ε α} {r : β}
    (h : x.map f = .ok r) : ∃ a, x = .ok a ∧ f a = r := by
  cases x with
  | error e => cases h
  | ok a => exact ⟨a, rfl, Except.ok.inj h⟩

namespace Slice

def advance (s : Slice) (n : ℕ) : Slice := ⟨s.data + BitVec.ofNat 64 n, s.size - n⟩

end Slice

section
variable (mem : Word → Byte)

/-- `ReadObject<T>`, the bytes taken as an unsigned number. -/
def readObject (size : ℕ) : SliceM ℕ := do
  let s ← get
  if s.size < size then throw "eh_frame read error: truncated data"
  set (s.advance size)
  return littleEndian (readMem mem s.data size)

def readU8 : SliceM Byte := do return BitVec.ofNat 8 (← readObject mem 1)

def readU32 : SliceM (BitVec 32) := do return BitVec.ofNat 32 (← readObject mem 4)

/-- `ReadSubslice<uint8_t>` -/
def readSubslice (n : Word) : SliceM Slice := do
  let s ← get
  if s.size < n.toNat then throw "eh_frame read error: truncated data"
  set (s.advance n.toNat)
  return ⟨s.data, n.toNat⟩

/-- The loop of `ReadUleb128`; the shift reaches 64 before the fuel runs out. -/
def readUleb128From : (fuel shift : ℕ) → (result : Word) → SliceM Word
  | 0, _, _ => throw "eh_frame read error: uleb128 overflow"
  | fuel + 1, shift, result => do
    if 64 ≤ shift then throw "eh_frame read error: uleb128 overflow"
    let byte ← readU8 mem
    let payload := byte.toNat % 128
    if 57 < shift ∧ payload / 2 ^ (64 - shift) ≠ 0 then
      throw "eh_frame read error: uleb128 overflow"
    let result := result ||| BitVec.ofNat 64 (payload * 2 ^ shift)
    if byte.toNat < 128 then return result else readUleb128From fuel (shift + 7) result

def readUleb128 : SliceM Word := readUleb128From mem 11 0 0

/-- Whether the bits of a final byte beyond the 64th repeat the sign. -/
def sleb128Fits (payload shift : ℕ) : Bool :=
  let signBit := payload / 2 ^ (64 - shift - 1) % 2
  payload / 2 ^ (64 - shift) = if signBit = 1 then 2 ^ (7 - (64 - shift)) - 1 else 0

def readSleb128From : (fuel shift : ℕ) → (result : Word) → SliceM Word
  | 0, _, _ => throw "eh_frame read error: sleb128 overflow"
  | fuel + 1, shift, result => do
    if 64 ≤ shift then throw "eh_frame read error: sleb128 overflow"
    let byte ← readU8 mem
    let payload := byte.toNat % 128
    if 57 < shift ∧ !sleb128Fits payload shift then
      throw "eh_frame read error: sleb128 overflow"
    let result := result ||| BitVec.ofNat 64 (payload * 2 ^ shift)
    let shift := shift + 7
    if 128 ≤ byte.toNat then readSleb128From fuel shift result
    else if shift < 64 ∧ 64 ≤ payload then
      return result ||| BitVec.ofInt 64 (-(2 ^ shift))
    else return result

def readSleb128 : SliceM Word := readSleb128From mem 11 0 0

/-- `ReadEncodedPtr` -/
def readEncodedPtr (encoding : Byte) : SliceM Word := do
  let lo := encoding &&& 0x0f
  let hi := encoding &&& 0xf0
  let bad : String := "eh_frame read error: reading unsupported pointer format: 0x" ++
    String.ofList (List.replicate (if encoding.toNat < 16 then 1 else 0) '0' ++
      Nat.toDigits 16 encoding.toNat)
  let pcrelBase ← if hi = 0x10 then (fun s : Slice => s.data) <$> get
    else if hi ≠ 0 then throw bad else pure 0
  if lo = 0x0B then return pcrelBase + (BitVec.ofNat 32 (← readObject mem 4)).signExtend 64
  else if lo = 0x03 then return pcrelBase + BitVec.ofNat 64 (← readObject mem 4)
  else if lo = 0x04 ∨ lo = 0x0C ∨ lo = kDwEhPeAbsptr then
    return pcrelBase + BitVec.ofNat 64 (← readObject mem 8)
  else throw bad

/-- `ReadASCIIZ`, the characters before the terminator. -/
def readASCIIZ (maxSize : ℕ) : SliceM (List Byte) := do
  let s ← get
  let window := readMem mem s.data (min maxSize s.size)
  if 0 ∉ window then throw "eh_frame read error: truncated data while reading asciiz string"
  let str := window.takeWhile (· ≠ 0)
  set (s.advance (str.length + 1))
  return str

end

def truncateSlice (size : ℕ) : SliceM Unit := do
  let s ← get
  if s.size < size then throw "eh_frame read error: truncated data in TruncateSlice"
  set { s with size := size }

/-- `MakeSlice`: from `start` to the end of the bounds. -/
def makeSlice (bounds : Word × Word) (start : Word) : Except String Slice :=
  if bounds.1 ≤ start ∧ start ≤ bounds.2 then .ok ⟨start, (bounds.2 - start).toNat⟩
  else .error ("out of bounds address 0x" ++ showHex16 start ++ " vs (0x" ++ showHex16 bounds.1 ++
    ", 0x" ++ showHex16 bounds.2 ++ ")")

end UnwindCheck
