import UnwindCheck.Machine.Clobber

/-! Registers under their spellings, the arithmetic flags, and what an instruction that writes the
operands its decoder lists does to both. -/
namespace UnwindCheck

/-- The low `bits` bits of a register. -/
def lowBits (bits : ℕ) (w : Word) : ℕ := w.toNat % 2 ^ bits

namespace ZydisRegister

/-- What a spelling reads of its register. -/
def value (r : ZydisRegister) (w : Word) : ℕ :=
  match r with
  | gpr64 _ => w.toNat
  | gpr32 _ => w.toNat % 2 ^ 32
  | gpr16 _ => w.toNat % 2 ^ 16
  | gpr8 _ => w.toNat % 2 ^ 8
  | high8 _ => w.toNat / 2 ^ 8 % 2 ^ 8
  | none | rip | other _ => 0

/-- What writing `v` under a spelling leaves in its register: a 32-bit write clears the upper half,
a narrower one keeps the rest. -/
def put (r : ZydisRegister) (old v : Word) : Word :=
  match r with
  | gpr64 _ => v
  | gpr32 _ => BitVec.ofNat 64 (v.toNat % 2 ^ 32)
  | gpr16 _ => BitVec.ofNat 64 (old.toNat / 2 ^ 16 * 2 ^ 16 + v.toNat % 2 ^ 16)
  | gpr8 _ => BitVec.ofNat 64 (old.toNat / 2 ^ 8 * 2 ^ 8 + v.toNat % 2 ^ 8)
  | high8 _ => BitVec.ofNat 64
      (old.toNat / 2 ^ 16 * 2 ^ 16 + v.toNat % 2 ^ 8 * 2 ^ 8 + old.toNat % 2 ^ 8)
  | none | rip | other _ => old

/-- The spellings of the low bits of a GPR, `%ah` and its like left out. -/
def isLow : ZydisRegister → Bool
  | gpr64 _ | gpr32 _ | gpr16 _ | gpr8 _ => true
  | high8 _ | none | rip | other _ => false

theorem value_of_isLow {r : ZydisRegister} (h : r.isLow = true) (w : Word) :
    r.value w = lowBits r.widthBits w := by
  have hw := w.isLt
  cases r with
  | gpr64 g => exact (Nat.mod_eq_of_lt hw).symm
  | gpr32 g | gpr16 g | gpr8 g => rfl
  | high8 | none | rip | other => cases h

theorem value_lt {r : ZydisRegister} {d : Fin 16} (h : r.dwarfRegOf = some d) (w : Word) :
    r.value w < 2 ^ r.widthBits := by
  have hw := w.isLt
  cases r with
  | gpr64 g => exact hw
  | gpr32 g | gpr16 g | gpr8 g | high8 g =>
    simp only [value, widthBits]
    omega
  | none | rip | other => cases h

theorem value_le (r : ZydisRegister) (w : Word) : r.value w ≤ w.toNat := by
  cases r with
  | gpr64 g => exact le_refl _
  | gpr32 g | gpr16 g | gpr8 g => exact Nat.mod_le _ _
  | high8 g => exact (Nat.mod_le _ _).trans (Nat.div_le_self _ _)
  | none | rip | other => exact Nat.zero_le _

theorem put_lt_of_gpr32 {r : ZydisRegister} (h : r.widthBits = 32) (old v : Word) :
    (r.put old v).toNat < 2 ^ 32 := by
  cases r with
  | gpr32 g =>
    rw [put, BitVec.toNat_ofNat]
    omega
  | gpr64 | gpr16 | gpr8 | high8 | none | rip | other => cases h

/-- A narrow write does not fill an empty upper half. -/
theorem put_lt {r : ZydisRegister} (h : r.isFull64 = false) {old : Word} (hold : old.toNat < 2 ^ 32)
    (v : Word) : (r.put old v).toNat < 2 ^ 32 := by
  cases r with
  | gpr64 g => cases h
  | gpr32 g => exact put_lt_of_gpr32 rfl old v
  | gpr16 g | gpr8 g | high8 g =>
    rw [put, BitVec.toNat_ofNat]
    omega
  | none | rip | other => exact hold

/-- Writing back what is there changes nothing, except that a 32-bit write clears the upper half. -/
theorem exists_put_eq {r : ZydisRegister} (h : r.widthBits ≠ 32) (old : Word) : ∃ v, r.put old v = old := by
  cases r with
  | gpr64 g => exact ⟨old, rfl⟩
  | gpr32 g => exact absurd rfl h
  | gpr16 g | gpr8 g =>
    refine ⟨old, BitVec.eq_of_toNat_eq ?_⟩
    have hold := old.isLt
    rw [put, BitVec.toNat_ofNat]
    omega
  | high8 g =>
    refine ⟨BitVec.ofNat 64 (old.toNat / 2 ^ 8), BitVec.eq_of_toNat_eq ?_⟩
    have hold := old.isLt
    rw [put, BitVec.toNat_ofNat, BitVec.toNat_ofNat]
    omega
  | none | rip | other => exact ⟨old, rfl⟩

end ZydisRegister

/-- The arithmetic flags. -/
structure CpuFlags where
  cf : Bool
  pf : Bool
  af : Bool
  zf : Bool
  sf : Bool
  of : Bool
  deriving DecidableEq, Repr

/-- The flags of comparing `a` with `b`, both of `bits` bits: those of `a - b`. -/
def cmpFlags (bits a b : ℕ) : CpuFlags :=
  let diff := (a + 2 ^ bits - b) % 2 ^ bits
  let sign := fun n : ℕ => n.testBit (bits - 1)
  { cf := a < b
    pf := ((List.range 8).countP fun i => diff.testBit i) % 2 = 0
    af := a % 16 < b % 16
    zf := a = b
    sf := sign diff
    of := sign a != sign b && sign diff != sign a }

/-- The part of a processor that guards and bounds speak about. -/
structure Cpu where
  regs : Fin 16 → Word
  flags : CpuFlags

/-- Whether a conditional jump is taken, for the four unsigned comparisons. -/
def ZydisMnemonic.jumps (id : ZydisMnemonic) (f : CpuFlags) : Option Bool :=
  match id with
  | .jnbe => some (!f.cf && !f.zf)
  | .jnb => some !f.cf
  | .jbe => some (f.cf || f.zf)
  | .jb => some f.cf
  | _ => none

/-- The edge is one that the processor can take. -/
def BranchEdge.TakenBy (edge : BranchEdge) (id : ZydisMnemonic) (f : CpuFlags) : Prop :=
  ∀ jump, id.jumps f = some jump → edge = if jump then .taken else .fallThrough

/-- One operand of an instruction that writes what the decoder lists. A conditional write may not
happen. -/
inductive Operand.Effect (op : Operand) (regs : Fin 16 → Word) : (Fin 16 → Word) → Prop
  | none : op.writtenReg = Option.none → op.Effect regs regs
  | put {r : ZydisRegister} {d : Fin 16} (v : Word) : op.writtenReg = some r →
      r.dwarfRegOf = some d → op.Effect regs (Function.update regs d (r.put (regs d) v))
  | skip : op.write = false → op.Effect regs regs

/-- The operands of an instruction, one after the other. -/
inductive RunsOperands : List Operand → (Fin 16 → Word) → (Fin 16 → Word) → Prop
  | nil {regs : Fin 16 → Word} : RunsOperands [] regs regs
  | snoc {ops : List Operand} {op : Operand} {regs regs₁ regs₂ : Fin 16 → Word} :
      RunsOperands ops regs regs₁ → op.Effect regs₁ regs₂ → RunsOperands (ops ++ [op]) regs regs₂

theorem Operand.exists_effect (op : Operand) (regs : Fin 16 → Word) : ∃ regs', op.Effect regs regs' := by
  cases hr : op.writtenReg with
  | none => exact ⟨regs, .none hr⟩
  | some r =>
    have hd : r.dwarfRegOf.isSome := by
      unfold writtenReg at hr
      split at hr
      · exact (Option.filter_eq_some_iff.mp hr).2
      · cases hr
    obtain ⟨d, hd⟩ := Option.isSome_iff_exists.mp hd
    exact ⟨_, .put 0 hr hd⟩

theorem exists_runsOperands (ops : List Operand) (regs : Fin 16 → Word) :
    ∃ regs', RunsOperands ops regs regs' := by
  induction ops using List.reverseRecOn with
  | nil => exact ⟨regs, .nil⟩
  | append_singleton ops op ih =>
    obtain ⟨regs₁, hrun⟩ := ih
    obtain ⟨regs₂, hop⟩ := op.exists_effect regs₁
    exact ⟨regs₂, .snoc hrun hop⟩

end UnwindCheck
