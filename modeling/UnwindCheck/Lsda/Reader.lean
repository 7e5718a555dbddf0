import UnwindCheck.EhFrame.Reader

/-! The call-site table of a language-specific data area: which calls can throw where. -/
namespace UnwindCheck

/-- Calls in `[start, stop)` can throw into `landingPad`. -/
structure LSDACallSite where
  start : Word
  stop : Word
  landingPad : Word
  deriving DecidableEq, Repr

/-- The cursor is a plain address. -/
abbrev LSDACursor := StateT Word (Except String)

namespace LSDACursor
variable (image : ELFImage)

def readU8 : LSDACursor Byte := do
  let vaddr ← get
  match image.bytesAt vaddr 1 with
  | [] => throw "gcc_except_table: read past mapped data"
  | b :: _ =>
    set (vaddr + 1)
    return b

/-- The loop of `ReadUleb128`. Bits beyond the 64th are shifted out, not refused. -/
def readUleb128From : (fuel shift : ℕ) → (result : Word) → LSDACursor Word
  | 0, _, _ => throw "gcc_except_table: uleb128 overflow"
  | fuel + 1, shift, result => do
    if 64 ≤ shift then throw "gcc_except_table: uleb128 overflow"
    let byte ← readU8 image
    let result := result ||| BitVec.ofNat 64 (byte.toNat % 128 * 2 ^ shift)
    if byte.toNat < 128 then return result else readUleb128From fuel (shift + 7) result

def readUleb128 : LSDACursor Word := readUleb128From image 11 0 0

/-- A fixed-width little-endian field, optionally relative to its own address. -/
def readFixed (size : ℕ) (isSigned pcrel : Bool) : LSDACursor Word := do
  let vaddr ← get
  let bytes := image.bytesAt vaddr size
  if bytes.length < size then throw "gcc_except_table: truncated data"
  set (vaddr + BitVec.ofNat 64 size)
  let raw := littleEndian bytes
  let value := if isSigned ∧ size < 8 ∧ 2 ^ (size * 8 - 1) ≤ raw then
      BitVec.ofInt 64 (raw - 2 ^ (size * 8))
    else BitVec.ofNat 64 raw
  return (if pcrel then vaddr else 0) + value

def readEncoded (encoding : Byte) : LSDACursor Word := do
  let lo := encoding &&& 0x0f
  let hi := encoding &&& 0xf0
  let bad : String := "gcc_except_table: unsupported encoding 0x" ++
    String.ofList (List.replicate (if encoding.toNat < 16 then 1 else 0) '0' ++
      Nat.toDigits 16 encoding.toNat)
  if lo = 0x01 then readUleb128 image
  else if hi ≠ 0x10 ∧ hi ≠ 0 then throw bad
  else
    let pcrel : Bool := hi = 0x10
    if lo = 0x02 then readFixed image 2 false pcrel
    else if lo = 0x0B then readFixed image 4 true pcrel
    else if lo = 0x03 then readFixed image 4 false pcrel
    else if lo = 0x0C ∨ lo = 0x04 ∨ lo = 0 then readFixed image 8 false pcrel
    else throw bad

end LSDACursor

/-- One record of the table; a zero landing pad means there is none. -/
def readCallSite (image : ELFImage) (encoding : Byte) (lpstart : Word) :
    LSDACursor (Option LSDACallSite) := do
  let startOffset ← LSDACursor.readEncoded image encoding
  let length ← LSDACursor.readEncoded image encoding
  let landingPadOffset ← LSDACursor.readEncoded image encoding
  let _ ← LSDACursor.readUleb128 image
  if landingPadOffset ≠ 0 then
    return some ⟨lpstart + startOffset, lpstart + startOffset + length, lpstart + landingPadOffset⟩
  else return none

/-- The loop over the table. A cursor takes `2 ^ 64` values, which bounds the fuel. -/
def readCallSites (image : ELFImage) (encoding : Byte) (lpstart tableEnd : Word) :
    ℕ → LSDACursor (List LSDACallSite)
  | 0 => return []
  | fuel + 1 => do
    if (← get) < tableEnd then
      let site ← readCallSite image encoding lpstart
      let rest ← readCallSites image encoding lpstart tableEnd fuel
      return site.toList ++ rest
    else return []

def readLSDA (image : ELFImage) (fdePcBegin : Word) : LSDACursor (List LSDACallSite) := do
  let startEncoding ← LSDACursor.readU8 image
  let lpstart ← if startEncoding ≠ kDwEhPeOmitted then
      LSDACursor.readEncoded image startEncoding
    else pure fdePcBegin
  let typeEncoding ← LSDACursor.readU8 image
  if typeEncoding ≠ kDwEhPeOmitted then
    let _ ← LSDACursor.readUleb128 image
  let callSiteEncoding ← LSDACursor.readU8 image
  let length ← LSDACursor.readUleb128 image
  let tableEnd := (← get) + length
  readCallSites image callSiteEncoding lpstart tableEnd (2 ^ 64)

/-- `ReadLSDACallSites`, the sites sorted by start address. -/
def readLSDACallSites (image : ELFImage) (lsdaVaddr fdePcBegin : Word) :
    Except String (List LSDACallSite) := do
  let (sites, _) ← (readLSDA image fdePcBegin).run lsdaVaddr
  return sites.insertionSort fun a b => a.start ≤ b.start

end UnwindCheck
