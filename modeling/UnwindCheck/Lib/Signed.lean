import Mathlib

/-! Signed machine arithmetic with a record of what was computed: programs that list their signed
operations beside their result, and when all of these stay in range. -/
namespace UnwindCheck.Lib

/-- A signed operation on the integers its operands stand for. -/
inductive SignedOp where
  | neg (a : ℤ)
  | add (a b : ℤ)
  | sub (a b : ℤ)
  | mul (a b : ℤ)
  deriving DecidableEq, Repr

namespace SignedOp

/-- The result over the integers. -/
def exact : SignedOp → ℤ
  | neg a => -a
  | add a b => a + b
  | sub a b => a - b
  | mul a b => a * b

end SignedOp

/-- The integers that 64 bits hold in two's complement. -/
def Representable (x : ℤ) : Prop := -2 ^ 63 ≤ x ∧ x < 2 ^ 63

instance (x : ℤ) : Decidable (Representable x) := inferInstanceAs (Decidable (_ ∧ _))

/-- Wrapping around changes exactly the integers that do not fit. -/
theorem representable_iff_bmod {x : ℤ} : Representable x ↔ x.bmod (2 ^ 64) = x := by
  unfold Representable
  constructor
  · rintro ⟨hlo, hhi⟩
    exact Int.bmod_eq_of_le (by omega) (by omega)
  · intro h
    have hlo := Int.le_bmod (x := x) (m := 2 ^ 64) (by decide)
    have hhi := Int.bmod_lt (x := x) (m := 2 ^ 64) (by decide)
    rw [h] at hlo hhi
    omega

theorem representable_toInt (a : Int64) : Representable a.toInt := ⟨a.le_toInt, a.toInt_lt⟩

/-- A computation with the signed operations it performs, in order. -/
abbrev Traced := Writer (List SignedOp)

namespace Traced
variable {α β : Type}

def value (x : Traced α) : α := x.run.1

def ops (x : Traced α) : List SignedOp := x.run.2

/-- One operation, and what the machine makes of it. -/
def record (op : SignedOp) (x : α) : Traced α := WriterT.mk (x, [op])

def neg (a : Int64) : Traced Int64 := record (.neg a.toInt) (-a)

def add (a b : Int64) : Traced Int64 := record (.add a.toInt b.toInt) (a + b)

def sub (a b : Int64) : Traced Int64 := record (.sub a.toInt b.toInt) (a - b)

/-- The operands of a product as the words they are read as. -/
def mul (a b : BitVec 64) : Traced (BitVec 64) := record (.mul a.toInt b.toInt) (a * b)

/-- No operation overflows. -/
def InRange (x : Traced α) : Prop := ∀ op ∈ x.ops, Representable op.exact

@[simp] theorem value_pure (a : α) : (pure a : Traced α).value = a := rfl

@[simp] theorem value_bind (x : Traced α) (f : α → Traced β) : (x >>= f).value = (f x.value).value := rfl

@[simp] theorem value_map (f : α → β) (x : Traced α) : (f <$> x).value = f x.value := rfl

@[simp] theorem value_neg (a : Int64) : (neg a).value = -a := rfl

@[simp] theorem value_add (a b : Int64) : (add a b).value = a + b := rfl

@[simp] theorem value_sub (a b : Int64) : (sub a b).value = a - b := rfl

@[simp] theorem value_mul (a b : BitVec 64) : (mul a b).value = a * b := rfl

theorem value_foldlM {σ : Type} (f : σ → α → Traced σ) (l : List α) (s : σ) :
    (l.foldlM f s).value = l.foldl (fun s a => (f s a).value) s := by
  induction l generalizing s with
  | nil => rfl
  | cons a l ih =>
    rw [List.foldlM_cons, value_bind, ih]
    rfl

theorem ops_bind (x : Traced α) (f : α → Traced β) : (x >>= f).ops = x.ops ++ (f x.value).ops := rfl

theorem inRange_pure (a : α) : (pure a : Traced α).InRange := fun _ h => by cases h

@[simp] theorem inRange_pure_iff (a : α) : (pure a : Traced α).InRange ↔ True :=
  iff_true_intro (inRange_pure a)

@[simp] theorem inRange_bind {x : Traced α} {f : α → Traced β} :
    (x >>= f).InRange ↔ x.InRange ∧ (f x.value).InRange := by
  unfold InRange
  rw [ops_bind]
  exact List.forall_mem_append

@[simp] theorem inRange_map {f : α → β} {x : Traced α} : (f <$> x).InRange ↔ x.InRange := Iff.rfl

theorem inRange_record {op : SignedOp} {x : α} : (record op x).InRange ↔ Representable op.exact :=
  List.forall_mem_singleton

@[simp] theorem inRange_neg {a : Int64} : (neg a).InRange ↔ Representable (-a.toInt) := inRange_record

@[simp] theorem inRange_add {a b : Int64} : (add a b).InRange ↔ Representable (a.toInt + b.toInt) :=
  inRange_record

@[simp] theorem inRange_sub {a b : Int64} : (sub a b).InRange ↔ Representable (a.toInt - b.toInt) :=
  inRange_record

@[simp] theorem inRange_mul {a b : BitVec 64} : (mul a b).InRange ↔ Representable (a.toInt * b.toInt) :=
  inRange_record

end Traced

end UnwindCheck.Lib
