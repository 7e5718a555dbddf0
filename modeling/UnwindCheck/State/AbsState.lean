import UnwindCheck.State.Value

/-! The abstract state at one program point and the ways it is written. -/
namespace UnwindCheck

/-- Stack slots by offset from the CFA. A slot that is absent reads as `top`. -/
abbrev SlotMap (δ : Type) [Offset δ] := Std.ExtTreeMap δ (AbsVal δ) compare

structure AbsState (δ : Type) [Offset δ] where
  gpr : Fin 16 → AbsVal δ
  slots : SlotMap δ
  tbl : Fin 16 → TableVal
  lastCmp : Option FlagsGuard
  deriving DecidableEq

namespace AbsState
variable {δ : Type} [Offset δ]

/-- The red zone: the bytes below rsp that a signal handler leaves alone. -/
def kRedZoneBytes : ℤ := 128

/-- A default-constructed state. -/
def init : AbsState δ := ⟨fun _ => .top, ∅, fun _ => .none, none⟩

/-- Register lookup; a number that is not a GPR reads as `bottom`. -/
def reg (s : AbsState δ) (r : ℕ) : AbsVal δ := if h : r < 16 then s.gpr ⟨r, h⟩ else .bottom

/-- Table half of a register; `none` where the decoder named no GPR. -/
def table (s : AbsState δ) : Option (Fin 16) → TableVal
  | some r => s.tbl r
  | none => .none

def slot (s : AbsState δ) (offset : δ) : AbsVal δ := s.slots[offset]?.getD .top

def setSlot (s : AbsState δ) (offset : δ) (v : AbsVal δ) : AbsState δ :=
  if v.isTop then { s with slots := s.slots.erase offset }
  else { s with slots := s.slots.insert offset v }

def dropSlotsBelow (s : AbsState δ) (rspDelta : δ) : AbsState δ :=
  { s with slots := s.slots.filter fun k _ => !decide (k < rspDelta) }

def dropDeadSlots (s : AbsState δ) (rspDelta : δ) : AbsState δ :=
  s.dropSlotsBelow (rspDelta - Offset.ofInt kRedZoneBytes)

def invalidateLastCmpFor (s : AbsState δ) (r : Fin 16) : AbsState δ :=
  if s.lastCmp.any (·.reg = r) then { s with lastCmp := none } else s

/-- Both halves of a register always move together. -/
def setReg (s : AbsState δ) (r : Fin 16) (v : AbsVal δ) (t : TableVal) : AbsState δ :=
  let s := { s with gpr := Function.update s.gpr r v, tbl := Function.update s.tbl r t }
  let s := s.invalidateLastCmpFor r
  match v with
  | .cfaRel delta => if r = kDWARFRsp then s.dropDeadSlots delta else s
  | _ => s

/-- The two-argument `SetReg`: a new value keeps nothing of the old table half. -/
def setVal (s : AbsState δ) (r : Fin 16) (v : AbsVal δ) : AbsState δ := s.setReg r v .none

def setTableReg (s : AbsState δ) (r : Fin 16) (t : TableVal) : AbsState δ := s.setReg r .other t

def copyReg (s : AbsState δ) (dst src : Fin 16) : AbsState δ :=
  s.setReg dst (s.gpr src) (s.tbl src)

def clobberReg (s : AbsState δ) (r : Fin 16) : AbsState δ := s.setVal r .top

/-- Tightening a bound is no write: the CFI half and `lastCmp` stay. -/
def applyGuardBound (s : AbsState δ) (r : Fin 16) (b : ℕ) : AbsState δ :=
  { s with tbl := Function.update s.tbl r ((s.tbl r).applyGuardBound b) }

def modifyTable (s : AbsState δ) (r : Fin 16) (f : TableVal → TableVal) : AbsState δ :=
  { s with tbl := Function.update s.tbl r (f (s.tbl r)) }

/-- A raw write to `gpr[r]`, out-of-range numbers ignored. -/
def putGpr (s : AbsState δ) (r : ℕ) (v : AbsVal δ) : AbsState δ :=
  if h : r < 16 then { s with gpr := Function.update s.gpr ⟨r, h⟩ v } else s

/-- The state on entry to a function. -/
def entry : AbsState δ :=
  { (init : AbsState δ) with
    gpr := Function.update (fun r => .origReg r) kDWARFRsp (.cfaRel (Offset.ofInt (-8)))
    slots := (∅ : SlotMap δ).insert (Offset.ofInt (-8)) (.origReg kDWARFRip) }

/-- What one register's rule contributes to a seeded state. -/
def seedReg (row : CFIRow δ) (atFunctionEntry : Bool) (s : AbsState δ) (r : Fin 17) : AbsState δ :=
  match row.regs r with
  | .unset => if atFunctionEntry then s else s.putGpr r .top
  | .sameValue => s
  | .atCFAOffset offset => { s with slots := s.slots.insert offset (.origReg r) }
  | .inRegister q => s.putGpr q (.origReg r)
  | .valOffset offset => s.putGpr r (.cfaRel offset)
  | .undefined | .expression | .valExpression => s.putGpr r .top

/-- `AbsState::SeedFromRow`: registers in numeric order, then rsp, then the CFA register. -/
def seedFromRow (row : CFIRow δ) (atFunctionEntry : Bool) : AbsState δ :=
  let s := (List.finRange 17).foldl (seedReg row atFunctionEntry)
    { (init : AbsState δ) with gpr := fun r => .origReg r }
  let s := s.putGpr kDWARFRsp .top
  match row.cfa.kind with
  | .regOffset => s.putGpr row.cfa.reg (.cfaRel (-row.cfa.offset))
  | _ => s

section Lemmas
variable (s : AbsState δ)

@[simp] theorem reg_fin (r : Fin 16) : s.reg r = s.gpr r := by simp [reg]

theorem reg_of_lt {r : ℕ} (h : r < 16) : s.reg r = s.gpr ⟨r, h⟩ := by simp [reg, h]

theorem reg_of_ge {r : ℕ} (h : 16 ≤ r) : s.reg r = .bottom := by simp [reg, h]

@[simp] theorem setSlot_gpr (k : δ) (v : AbsVal δ) : (s.setSlot k v).gpr = s.gpr := by
  unfold setSlot; split <;> rfl

@[simp] theorem setSlot_tbl (k : δ) (v : AbsVal δ) : (s.setSlot k v).tbl = s.tbl := by
  unfold setSlot; split <;> rfl

@[simp] theorem setSlot_lastCmp (k : δ) (v : AbsVal δ) : (s.setSlot k v).lastCmp = s.lastCmp := by
  unfold setSlot; split <;> rfl

@[simp] theorem dropSlotsBelow_gpr (d : δ) : (s.dropSlotsBelow d).gpr = s.gpr := rfl

@[simp] theorem dropDeadSlots_gpr (d : δ) : (s.dropDeadSlots d).gpr = s.gpr := rfl

@[simp] theorem invalidateLastCmpFor_gpr (r : Fin 16) :
    (s.invalidateLastCmpFor r).gpr = s.gpr := by
  unfold invalidateLastCmpFor; split <;> rfl

@[simp] theorem invalidateLastCmpFor_slots (r : Fin 16) :
    (s.invalidateLastCmpFor r).slots = s.slots := by
  unfold invalidateLastCmpFor; split <;> rfl

@[simp] theorem invalidateLastCmpFor_tbl (r : Fin 16) :
    (s.invalidateLastCmpFor r).tbl = s.tbl := by
  unfold invalidateLastCmpFor; split <;> rfl

@[simp] theorem setReg_gpr (r : Fin 16) (v : AbsVal δ) (t : TableVal) :
    (s.setReg r v t).gpr = Function.update s.gpr r v := by
  unfold setReg
  cases v <;> simp
  split <;> simp

@[simp] theorem setReg_tbl (r : Fin 16) (v : AbsVal δ) (t : TableVal) :
    (s.setReg r v t).tbl = Function.update s.tbl r t := by
  unfold setReg
  cases v <;> simp
  split
  · exact invalidateLastCmpFor_tbl _ r
  · exact invalidateLastCmpFor_tbl _ r

/-- Writing the compared register is what invalidates the guard. -/
theorem setReg_lastCmp (r : Fin 16) (v : AbsVal δ) (t : TableVal) :
    (s.setReg r v t).lastCmp = s.lastCmp.filter fun g => g.reg ≠ r := by
  have hinv : ∀ u : AbsState δ,
      (u.invalidateLastCmpFor r).lastCmp = u.lastCmp.filter fun g => g.reg ≠ r := by
    intro u
    unfold invalidateLastCmpFor
    cases hu : u.lastCmp with
    | none => simpa using hu
    | some g => by_cases hg : g.reg = r <;> simp [hg, hu, Option.filter]
  unfold setReg
  cases v with
  | cfaRel delta =>
    dsimp only
    split
    · exact hinv _
    · exact hinv _
  | top | bottom | origReg | other => exact hinv _

@[simp] theorem setVal_gpr (r : Fin 16) (v : AbsVal δ) :
    (s.setVal r v).gpr = Function.update s.gpr r v := s.setReg_gpr _ _ _

@[simp] theorem setTableReg_gpr (r : Fin 16) (t : TableVal) :
    (s.setTableReg r t).gpr = Function.update s.gpr r .other := s.setReg_gpr r _ t

@[simp] theorem copyReg_gpr (dst src : Fin 16) :
    (s.copyReg dst src).gpr = Function.update s.gpr dst (s.gpr src) := s.setReg_gpr _ _ _

@[simp] theorem clobberReg_gpr (r : Fin 16) :
    (s.clobberReg r).gpr = Function.update s.gpr r .top := s.setReg_gpr _ _ _

@[simp] theorem clobberReg_tbl (r : Fin 16) :
    (s.clobberReg r).tbl = Function.update s.tbl r .none := s.setReg_tbl _ _ _

@[simp] theorem applyGuardBound_gpr (r : Fin 16) (b : ℕ) : (s.applyGuardBound r b).gpr = s.gpr :=
  rfl

@[simp] theorem applyGuardBound_slots (r : Fin 16) (b : ℕ) :
    (s.applyGuardBound r b).slots = s.slots := rfl

@[simp] theorem modifyTable_gpr (r : Fin 16) (f : TableVal → TableVal) :
    (s.modifyTable r f).gpr = s.gpr := rfl

@[simp] theorem modifyTable_slots (r : Fin 16) (f : TableVal → TableVal) :
    (s.modifyTable r f).slots = s.slots := rfl

theorem slot_setSlot (k j : δ) (v : AbsVal δ) :
    (s.setSlot k v).slot j = if k = j then v else s.slot j := by
  unfold setSlot slot
  split_ifs with ht hj hj
  · subst hj
    simp [AbsVal.isTop_iff.mp ht]
  · rw [Std.ExtTreeMap.getElem?_erase]
    simp [hj]
  · subst hj
    simp
  · rw [Std.ExtTreeMap.getElem?_insert]
    simp [hj]

theorem slot_dropSlotsBelow (d j : δ) :
    (s.dropSlotsBelow d).slot j = if j < d then .top else s.slot j := by
  unfold dropSlotsBelow slot
  rw [Std.ExtTreeMap.getElem?_filter']
  by_cases h : j < d <;> cases s.slots[j]? <;> simp [h, Option.filter]

end Lemmas

end AbsState

end UnwindCheck
