import UnwindCheck.Cfi.Row

/-! The two value lattices of the analysis: what a declared rule is checked against, and what
exists only to resolve switch tables. -/
namespace UnwindCheck

/-- The CFI lattice. `top` is nothing known, `bottom` a recorded conflict, `other` a value known
to be neither CFA-relative nor any register's entry value. -/
inductive AbsVal (δ : Type) where
  | top
  | bottom
  | cfaRel (delta : δ)
  | origReg (reg : ℕ)
  | other
  deriving DecidableEq, Repr

namespace AbsVal
variable {δ : Type}

def isTop : AbsVal δ → Bool
  | top => true
  | _ => false

def isBottom : AbsVal δ → Bool
  | bottom => true
  | _ => false

/-- Neither `top` nor `bottom` gives a declared rule anything to be compared with. -/
def isUnknown (v : AbsVal δ) : Bool := v.isTop || v.isBottom

def isCFARel [DecidableEq δ] (v : AbsVal δ) (d : δ) : Bool := v = cfaRel d

def isOrigReg [DecidableEq δ] (v : AbsVal δ) (r : ℕ) : Bool := v = origReg r

@[simp] theorem isTop_iff {v : AbsVal δ} : v.isTop = true ↔ v = top := by
  cases v <;> simp [isTop]

@[simp] theorem isBottom_iff {v : AbsVal δ} : v.isBottom = true ↔ v = bottom := by
  cases v <;> simp [isBottom]

@[simp] theorem isUnknown_iff {v : AbsVal δ} : v.isUnknown = true ↔ v = top ∨ v = bottom := by
  simp [isUnknown]

@[simp] theorem isCFARel_iff [DecidableEq δ] {v : AbsVal δ} {d : δ} :
    v.isCFARel d = true ↔ v = cfaRel d := by
  simp [isCFARel]

@[simp] theorem isOrigReg_iff [DecidableEq δ] {v : AbsVal δ} {r : ℕ} :
    v.isOrigReg r = true ↔ v = origReg r := by
  simp [isOrigReg]

def toString [Offset δ] : AbsVal δ → String
  | top => "unknown"
  | bottom => "conflict"
  | cfaRel d => "CFA" ++ showSigned (Offset.toInt d)
  | origReg r => "entry " ++ dwarfRegName r
  | other => "an unrelated value"

end AbsVal

/-- Bounds are inclusive upper bounds on unsigned 64-bit values; this one says nothing. -/
def kBoundTop : ℕ := 2 ^ 64 - 1

/-- The largest value that fits in `bits` bits. -/
def widthBound (bits : ℕ) : ℕ := if 64 ≤ bits then kBoundTop else 2 ^ bits - 1

theorem widthBound_le (bits : ℕ) : widthBound bits ≤ kBoundTop := by
  unfold widthBound kBoundTop
  split_ifs with h
  · rfl
  · have hpow : 2 ^ bits ≤ 2 ^ 64 := Nat.pow_le_pow_right (by norm_num) (by omega)
    omega

/-- What a table value is, leaving its bounds aside. -/
inductive TableVal.Kind where
  | none
  | conflict
  | const (addr : Word)
  | tableEntry (addr : Word) (indexReg : ℕ) (baseConst : Word)
  | jumpTarget (addr : Word) (indexReg : ℕ)
  deriving DecidableEq, Repr

/-- The table lattice. `valueBound` is any proven bound on the register's value, `tableBound`
one that a guard declared; for a table entry or a jump target it is the bound of the index. -/
structure TableVal where
  kind : TableVal.Kind
  valueBound : ℕ
  tableBound : ℕ
  deriving DecidableEq, Repr

namespace TableVal

def none : TableVal := ⟨.none, kBoundTop, kBoundTop⟩

def conflict : TableVal := ⟨.conflict, kBoundTop, kBoundTop⟩

def const (value : Word) : TableVal := ⟨.const value, kBoundTop, kBoundTop⟩

def tableEntry (tableAddr : Word) (indexReg : ℕ) (baseConst : Word) (indexBound : ℕ) : TableVal :=
  ⟨.tableEntry tableAddr indexReg baseConst, kBoundTop, indexBound⟩

def jumpTarget (tableAddr : Word) (indexReg indexBound : ℕ) : TableVal :=
  ⟨.jumpTarget tableAddr indexReg, kBoundTop, indexBound⟩

def hasTableBound (t : TableVal) : Bool := t.tableBound ≠ kBoundTop

/-- The effect of a guard proving the value at most `b`. -/
def applyGuardBound (t : TableVal) (b : ℕ) : TableVal :=
  { t with valueBound := min t.valueBound b, tableBound := min t.tableBound b }

def clearBounds (t : TableVal) : TableVal :=
  { t with valueBound := kBoundTop, tableBound := kBoundTop }

def sameIdentity (a b : TableVal) : Bool := a.kind = b.kind

end TableVal

/-- The `cmp $imm,%reg` guard currently in play. It is proven once a branch has established
that the low `widthBits` bits of `reg` are at most `provenBound`. -/
structure FlagsGuard where
  reg : Fin 16
  widthBits : ℕ
  imm : ℕ
  provenBound : ℕ := kBoundTop
  deriving DecidableEq, Repr

def FlagsGuard.proven (g : FlagsGuard) : Bool := g.provenBound ≠ kBoundTop

end UnwindCheck
