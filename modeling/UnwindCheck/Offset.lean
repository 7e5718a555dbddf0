import Mathlib

/-! Machine words, the signed offsets the analysis computes with, and the number
formats its messages print. -/
namespace UnwindCheck

abbrev Byte := BitVec 8

/-- An address, or any other unsigned 64-bit quantity of the source. -/
abbrev Word := BitVec 64

/-- Addresses key the walk's maps. -/
instance instTransOrdWord : Std.TransOrd Word := inferInstance

instance instLawfulEqOrdWord : Std.LawfulEqOrd Word := inferInstance

/-- The arithmetic behind the source's `int64_t` offsets. `Int64`, two's complement, is what
the compiled checker runs; `ℤ` runs the same code on exact integers. -/
class Offset (δ : Type) extends Add δ, Sub δ, Neg δ, LT δ, LE δ, Ord δ where
  ofInt : ℤ → δ
  toInt : δ → ℤ
  [decEq : DecidableEq δ]
  [decLT : DecidableLT δ]
  [decLE : DecidableLE δ]
  [transOrd : Std.TransOrd δ]
  [lawfulEqOrd : Std.LawfulEqOrd δ]

section
variable {δ : Type} [Offset δ]

instance (priority := low) instDecidableEqOffset : DecidableEq δ := Offset.decEq
instance (priority := low) instDecidableLTOffset : DecidableLT δ := Offset.decLT
instance (priority := low) instDecidableLEOffset : DecidableLE δ := Offset.decLE
instance (priority := low) instTransOrdOffset : Std.TransOrd δ := Offset.transOrd
instance (priority := low) instLawfulEqOrdOffset : Std.LawfulEqOrd δ := Offset.lawfulEqOrd

end

instance instOffsetInt64 : Offset Int64 where
  ofInt := Int64.ofInt
  toInt := Int64.toInt

instance instOffsetInt : Offset ℤ where
  ofInt := id
  toInt := id

/-- Offsets wrap around as two's complement does. -/
theorem toInt_add_ofInt (a : Int64) (n : ℤ) :
    (a + (Offset.ofInt n : Int64)).toInt = (a.toInt + n).bmod (2 ^ 64) := by
  show (a + Int64.ofInt n).toInt = _
  rw [Int64.toInt_add, Int64.toInt_ofInt, Int.add_bmod_bmod]
  rfl

theorem toInt_sub_ofInt (a : Int64) (n : ℤ) :
    (a - (Offset.ofInt n : Int64)).toInt = (a.toInt - n).bmod (2 ^ 64) := by
  show (a - Int64.ofInt n).toInt = _
  rw [Int64.toInt_sub, Int64.toInt_ofInt, Int.sub_bmod_bmod]
  rfl

/-- A conversion to `int`, the argument of most `%+d` directives. -/
def asInt32 (i : ℤ) : ℤ := Int.bmod i (2 ^ 32)

/-- `%+d` -/
def showSigned (i : ℤ) : String := if 0 ≤ i then "+" ++ toString i else toString i

/-- `%x` -/
def showHex (w : Word) : String := String.ofList (Nat.toDigits 16 w.toNat)

/-- `%016x` -/
def showHex16 (w : Word) : String :=
  let digits := Nat.toDigits 16 w.toNat
  String.ofList (List.replicate (16 - digits.length) '0' ++ digits)

/-- `CFA%+d` with the offset narrowed to `int`. -/
def showCFAOffset {δ : Type} [Offset δ] (d : δ) : String :=
  "CFA" ++ showSigned (asInt32 (Offset.toInt d))

end UnwindCheck
