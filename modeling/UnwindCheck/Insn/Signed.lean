import UnwindCheck.Insn.Semantics
import UnwindCheck.Lib.Signed

/-! The transfer functions with the signed arithmetic they do on offsets from the CFA: the address of a
slot, the eight bytes of a push or a pop, and the red zone below a stack pointer that is set. -/
namespace UnwindCheck
open Lib

/-- Offsets as the compiled checker has them. -/
abbrev State := AbsState Int64

namespace Signed

/-- `SetReg`, through which every stack pointer goes. -/
def setReg (s : State) (r : Fin 16) (v : AbsVal Int64) (t : TableVal) : Traced State :=
  match v with
  | .cfaRel delta =>
    if r = kDWARFRsp then do
      let bound ← Traced.sub delta (Offset.ofInt AbsState.kRedZoneBytes)
      let s := { s with gpr := Function.update s.gpr r v, tbl := Function.update s.tbl r t }
      return (s.invalidateLastCmpFor r).dropSlotsBelow bound
    else return s.setReg r v t
  | _ => return s.setReg r v t

def setVal (s : State) (r : Fin 16) (v : AbsVal Int64) : Traced State := setReg s r v .none

def copyReg (s : State) (dst src : Fin 16) : Traced State := setReg s dst (s.gpr src) (s.tbl src)

def memSlot (s : State) (insn : Instruction) (mem : MemOperand) : Traced (Option Int64) :=
  if insn.insn.hasSegment || mem.index ≠ .none then return none
  else if !mem.base.isFull64 then return none
  else match readReg s mem.base with
    | .cfaRel delta => some <$> Traced.add delta (Offset.ofInt mem.disp.toInt)
    | _ => return none

def leaValue (s : State) (insn : Instruction) (mem : MemOperand) : Traced (AbsVal Int64) := do
  match ← memSlot s insn mem with
  | some k => return .cfaRel k
  | none => return .top

def clobberOperand (insn : Instruction) (s : State) (op : Operand) : Traced State :=
  if !op.writes then return s
  else match op.kind with
    | .register r =>
      match r.dwarfRegOf with
      | some d => return clobberWrittenReg s r d
      | none => return s
    | .memory mem => do
      match ← memSlot s insn mem with
      | some k => return eraseSlots s k (writtenBytes op.size)
      | none => return s
    | _ => return s

def clobberWrites (insn : Instruction) (s : State) : Traced State :=
  insn.insn.operands.foldlM (clobberOperand insn) s

def pushedValue (insn : Instruction) (s : State) : Traced (AbsVal Int64) :=
  match (insn.op? 0).map Operand.kind with
  | some (.register r) => return readReg s r
  | some (.memory mem) => do
    match ← memSlot s insn mem with
    | some k => return s.slot k
    | none => return .top
  | _ => return .top

def pushValue (s : State) (pushed : AbsVal Int64) : Traced State :=
  match s.gpr kDWARFRsp with
  | .cfaRel delta => do
    let at' ← Traced.sub delta (Offset.ofInt 8)
    let s ← setVal s kDWARFRsp (.cfaRel at')
    return s.setSlot at' pushed
  | _ => return s

def transferPush (insn : Instruction) (s : State) : Traced (TransferOutcome × State) :=
  if insn.opCount ≠ 1 ∨ insn.insn.operandWidth ≠ 64 then
    return ({ reviewReason := "push with an operand size other than 8 bytes" }, s.clobberReg kDWARFRsp)
  else do
    let pushed ← pushedValue insn s
    let s ← pushValue s pushed
    return ({}, s)

def popValue (s : State) : Traced (AbsVal Int64 × State) :=
  match s.gpr kDWARFRsp with
  | .cfaRel delta => do
    let at' ← Traced.add delta (Offset.ofInt 8)
    let s' ← setVal s kDWARFRsp (.cfaRel at')
    return (s.slot delta, s')
  | _ => return (.top, s)

def popInto (insn : Instruction) (popped : AbsVal Int64) (s : State) : Traced State :=
  match (insn.op? 0).map Operand.kind with
  | some (.register r) =>
    match r.dwarfRegOf with
    | some d => setVal s d (if r.isFull64 then popped else .top)
    | none => return s
  | some (.memory mem) => do
    match ← memSlot s insn mem with
    | some k => return s.setSlot k popped
    | none => return s
  | _ => return s

def transferPop (insn : Instruction) (s : State) : Traced (TransferOutcome × State) :=
  if insn.opCount ≠ 1 ∨ insn.insn.operandWidth ≠ 64 then
    return ({ reviewReason := "pop with an operand size other than 8 bytes" }, s.clobberReg kDWARFRsp)
  else do
    let (popped, s) ← popValue s
    let s ← popInto insn popped s
    return ({}, s)

def transferLeave (s : State) : Traced State := do
  let s ← copyReg s kDWARFRsp kDWARFRbp
  match s.gpr kDWARFRsp with
  | .cfaRel delta =>
    let at' ← Traced.add delta (Offset.ofInt 8)
    let s ← setVal s kDWARFRbp (s.slot delta)
    setVal s kDWARFRsp (.cfaRel at')
  | _ => return s.clobberReg kDWARFRbp

def transferLea (z : Zydis) (insn : Instruction) (s : State) : Traced (Option State) :=
  match insn.ops2? with
  | some (⟨.register r, _, _, _⟩, src@⟨.memory mem, _, _, _⟩) =>
    match r.dwarfRegOf with
    | none => return none
    | some d =>
      if !r.isFull64 then return some (clobberWrittenReg s r d)
      else
        let absolute :=
          if mem.base = .rip ∧ mem.index = .none then
            z.calcAbsoluteAddress insn.insn src insn.address
          else none
        match absolute with
        | some target => return some (s.setTableReg d (.const target))
        | none => do
          let val ← leaValue s insn mem
          some <$> setVal s d val
  | _ => return none

def movToReg (insn : Instruction) (s : State) (r : ZydisRegister) (d : Fin 16) (src : Operand) :
    Traced State :=
  if !r.isFull64 then return UnwindCheck.movToReg insn s r d src
  else
    match src.kind with
    | .register q =>
      match q.dwarfRegOf with
      | some sr => if q.isFull64 then copyReg s d sr else setVal s d .top
      | none => setVal s d .top
    | .memory mem => do
      match ← memSlot s insn mem with
      | some k => setVal s d (if src.size = 64 then s.slot k else .top)
      | none => setVal s d .top
    | _ => return s.clobberReg d

def movToMem (insn : Instruction) (s : State) (mem : MemOperand) (size : ℕ) (src : Operand) :
    Traced State := do
  match ← memSlot s insn mem with
  | none => return s
  | some k =>
    let s := eraseSlots s k (writtenBytes size)
    match src.kind with
    | .register q => return if size = 64 ∧ q.isFull64 then s.setSlot k (readReg s q) else s
    | _ => return s

def transferMov (insn : Instruction) (s : State) : Traced (Option State) :=
  match insn.ops2? with
  | some (⟨.register r, _, _, _⟩, src) =>
    match r.dwarfRegOf with
    | some d => some <$> movToReg insn s r d src
    | none => return none
  | some (⟨.memory mem, size, _, _⟩, src) => some <$> movToMem insn s mem size src
  | _ => return none

/-- The immediate is added without sign, the result goes through `SetReg`. -/
def addSubImm (insn : Instruction) (s : State) (r : ZydisRegister) (imm : Word) : Traced (Option State) :=
  match r.dwarfRegOf with
  | none => return none
  | some d =>
    match r.isFull64, s.gpr d with
    | true, .cfaRel delta =>
      let imm : Int64 := Offset.ofInt imm.toInt
      some <$> setVal s d (.cfaRel (if insn.id = .add then delta + imm else delta - imm))
    | _, _ => return some (clobberWrittenReg s r d)

def transferAddSub (insn : Instruction) (s : State) : Traced (Option State) :=
  match insn.ops2? with
  | some (⟨.register r, _, _, _⟩, ⟨.register q, _, _, _⟩) =>
    return if insn.id = .add then addDispatch s r q else none
  | some (⟨.register r, _, _, _⟩, ⟨.immediate imm, _, _, _⟩) => addSubImm insn s r imm
  | _ => return none

/-- The mnemonics whose transfer can do signed arithmetic; the others are as they were. -/
def transferNamed (z : Zydis) (insn : Instruction) (s : State) : Traced (Option (TransferOutcome × State)) :=
  match insn.id with
  | .push => some <$> transferPush insn s
  | .pushfq => do
    let s ← pushValue s .top
    return some ({}, s)
  | .pop => some <$> transferPop insn s
  | .popfq => do
    let (_, s) ← popValue s
    return some ({}, s)
  | .leave => do
    let s ← transferLeave s
    return some ({}, s)
  | .lea => do
    let s' ← transferLea z insn s
    return s'.map ({}, ·)
  | .mov | .movq => do
    let s' ← transferMov insn s
    return s'.map ({}, ·)
  | .add | .sub => do
    let s' ← transferAddSub insn s
    return s'.map ({}, ·)
  | _ => return UnwindCheck.transferNamed z insn s

/-- `Transfer` -/
def transfer (z : Zydis) (insn : Instruction) (s : State) : Traced (TransferOutcome × State) :=
  let s := dropStaleCmp insn s
  if isReturnMnemonic insn.id then return ({ fallsThrough := false, isReturn := true }, s)
  else if insn.insn.category = .condBr ∨ insn.insn.category = .uncondBr then
    return (branchOutcome z insn s, s)
  else if isTrapMnemonic insn.id then return ({ fallsThrough := false }, s)
  else do
    match ← transferNamed z insn s with
    | some r => return r
    | none =>
      let s ← clobberWrites insn s
      return ({}, s)

section Value
variable (s : State) (insn : Instruction)

/-- The record changes nothing: each function computes what it did without. -/
@[simp] theorem value_setReg (r : Fin 16) (v : AbsVal Int64) (t : TableVal) :
    (setReg s r v t).value = s.setReg r v t := by
  unfold setReg
  split
  · rename_i delta
    by_cases hr : r = kDWARFRsp
    · rw [if_pos hr]
      simp only [AbsState.setReg, hr, if_true]
      rfl
    · rw [if_neg hr]
      rfl
  · rfl

@[simp] theorem value_setVal (r : Fin 16) (v : AbsVal Int64) : (setVal s r v).value = s.setVal r v :=
  value_setReg s r v .none

@[simp] theorem value_copyReg (dst src : Fin 16) : (copyReg s dst src).value = s.copyReg dst src :=
  value_setReg s dst _ _

@[simp] theorem value_memSlot (mem : MemOperand) :
    (memSlot s insn mem).value = UnwindCheck.memSlot s insn mem := by
  unfold memSlot UnwindCheck.memSlot
  split_ifs
  · rfl
  · rfl
  · split
    · rename_i delta hd
      simp [hd]
    · rename_i hn
      split
      · rename_i delta hd
        exact absurd hd (hn delta)
      · rfl

@[simp] theorem value_leaValue (mem : MemOperand) :
    (leaValue s insn mem).value = UnwindCheck.leaValue s insn mem := by
  unfold leaValue UnwindCheck.leaValue
  rw [Traced.value_bind, value_memSlot]
  cases UnwindCheck.memSlot s insn mem <;> rfl

@[simp] theorem value_clobberOperand (op : Operand) :
    (clobberOperand insn s op).value = UnwindCheck.clobberOperand insn s op := by
  unfold clobberOperand UnwindCheck.clobberOperand
  split_ifs
  · rfl
  · cases op.kind with
    | register r => cases hr : r.dwarfRegOf <;> simp [hr]
    | memory mem =>
      dsimp only
      rw [Traced.value_bind, value_memSlot]
      cases UnwindCheck.memSlot s insn mem <;> rfl
    | immediate value => rfl
    | pointer => rfl

@[simp] theorem value_clobberWrites :
    (clobberWrites insn s).value = UnwindCheck.clobberWrites insn s := by
  unfold clobberWrites UnwindCheck.clobberWrites
  rw [Traced.value_foldlM]
  simp only [value_clobberOperand]

@[simp] theorem value_pushedValue : (pushedValue insn s).value = UnwindCheck.pushedValue insn s := by
  unfold pushedValue UnwindCheck.pushedValue
  rcases (insn.op? 0).map Operand.kind with _ | (r | mem | value | -)
  · rfl
  · rfl
  · dsimp only
    rw [Traced.value_bind, value_memSlot]
    cases UnwindCheck.memSlot s insn mem <;> rfl
  · rfl
  · rfl

@[simp] theorem value_pushValue (pushed : AbsVal Int64) :
    (pushValue s pushed).value = UnwindCheck.pushValue s pushed := by
  unfold pushValue UnwindCheck.pushValue
  cases s.gpr kDWARFRsp <;> simp

@[simp] theorem value_transferPush : (transferPush insn s).value = UnwindCheck.transferPush insn s := by
  unfold transferPush UnwindCheck.transferPush
  split_ifs
  · rfl
  · simp

@[simp] theorem value_popValue : (popValue s).value = UnwindCheck.popValue s := by
  unfold popValue UnwindCheck.popValue
  cases s.gpr kDWARFRsp <;> simp

@[simp] theorem value_popInto (popped : AbsVal Int64) :
    (popInto insn popped s).value = UnwindCheck.popInto insn popped s := by
  unfold popInto UnwindCheck.popInto
  rcases (insn.op? 0).map Operand.kind with _ | (r | mem | value | -)
  · rfl
  · cases hr : r.dwarfRegOf <;> simp [hr]
  · dsimp only
    rw [Traced.value_bind, value_memSlot]
    cases UnwindCheck.memSlot s insn mem <;> rfl
  · rfl
  · rfl

@[simp] theorem value_transferPop : (transferPop insn s).value = UnwindCheck.transferPop insn s := by
  unfold transferPop UnwindCheck.transferPop
  split_ifs
  · rfl
  · simp

@[simp] theorem value_transferLeave : (transferLeave s).value = UnwindCheck.transferLeave s := by
  unfold transferLeave UnwindCheck.transferLeave
  rw [Traced.value_bind, value_copyReg]
  dsimp only
  cases (s.copyReg kDWARFRsp kDWARFRbp).gpr kDWARFRsp <;> simp

@[simp] theorem value_transferLea (z : Zydis) :
    (transferLea z insn s).value = UnwindCheck.transferLea z insn s := by
  unfold transferLea UnwindCheck.transferLea
  rcases insn.ops2? with _ | ⟨⟨dst, _, _, _⟩, ⟨src, size, write, condWrite⟩⟩
  · rfl
  · cases dst with
    | register r =>
      cases src with
      | memory mem =>
        dsimp only
        cases r.dwarfRegOf with
        | none => rfl
        | some d =>
          dsimp only
          split_ifs with hfull habs
          · rfl
          · cases hz : z.calcAbsoluteAddress insn.insn ⟨.memory mem, size, write, condWrite⟩ insn.address <;>
              simp
          · simp
      | register | immediate | pointer => rfl
    | memory | immediate | pointer => rfl

@[simp] theorem value_movToReg (r : ZydisRegister) (d : Fin 16) (src : Operand) :
    (movToReg insn s r d src).value = UnwindCheck.movToReg insn s r d src := by
  unfold movToReg
  by_cases hfull : (!r.isFull64) = true
  · rw [if_pos hfull]
    rfl
  · unfold UnwindCheck.movToReg
    rw [if_neg hfull, if_neg hfull]
    cases src.kind with
    | register q =>
      dsimp only
      cases q.dwarfRegOf with
      | none => simp
      | some sr =>
        dsimp only
        split_ifs <;> simp
    | memory mem =>
      dsimp only
      rw [Traced.value_bind, value_memSlot]
      cases UnwindCheck.memSlot s insn mem <;> simp
    | immediate value => rfl
    | pointer => rfl

@[simp] theorem value_movToMem (mem : MemOperand) (size : ℕ) (src : Operand) :
    (movToMem insn s mem size src).value = UnwindCheck.movToMem insn s mem size src := by
  unfold movToMem UnwindCheck.movToMem
  rw [Traced.value_bind, value_memSlot]
  cases UnwindCheck.memSlot s insn mem with
  | none => rfl
  | some k => cases src.kind <;> rfl

@[simp] theorem value_transferMov : (transferMov insn s).value = UnwindCheck.transferMov insn s := by
  unfold transferMov UnwindCheck.transferMov
  rcases insn.ops2? with _ | ⟨⟨dst, size, _, _⟩, src⟩
  · rfl
  · cases dst with
    | register r => cases hr : r.dwarfRegOf <;> simp [hr]
    | memory mem => simp
    | immediate value => rfl
    | pointer => rfl

@[simp] theorem value_addSubImm (r : ZydisRegister) (imm : Word) :
    (addSubImm insn s r imm).value = UnwindCheck.addSubImm insn s r imm := by
  unfold addSubImm UnwindCheck.addSubImm
  cases r.dwarfRegOf with
  | none => rfl
  | some d =>
    rw [Option.map_some]
    dsimp only
    cases r.isFull64 <;> cases s.gpr d <;> simp

@[simp] theorem value_transferAddSub :
    (transferAddSub insn s).value = UnwindCheck.transferAddSub insn s := by
  unfold transferAddSub UnwindCheck.transferAddSub
  rcases insn.ops2? with _ | ⟨⟨dst, _, _, _⟩, ⟨src, _, _, _⟩⟩
  · rfl
  · cases dst with
    | register r =>
      cases src with
      | immediate imm => simp
      | register | memory | pointer => rfl
    | memory | immediate | pointer => rfl

@[simp] theorem value_transferNamed (z : Zydis) :
    (transferNamed z insn s).value = UnwindCheck.transferNamed z insn s := by
  unfold transferNamed
  split
  all_goals simp_all [UnwindCheck.transferNamed]

theorem value_transfer (z : Zydis) : (transfer z insn s).value = UnwindCheck.transfer z insn s := by
  unfold transfer UnwindCheck.transfer
  dsimp only
  split_ifs
  · rfl
  · rfl
  · rfl
  · rw [Traced.value_bind, value_transferNamed]
    cases UnwindCheck.transferNamed z insn (dropStaleCmp insn s) with
    | some r => rfl
    | none => simp

end Value

/-- Where the base of a memory operand is tracked to. -/
def memBase (s : State) (insn : Instruction) (mem : MemOperand) : Option Int64 :=
  if insn.insn.hasSegment || mem.index ≠ .none then none
  else if !mem.base.isFull64 then none
  else match readReg s mem.base with
    | .cfaRel delta => some delta
    | _ => none

/-- A memory operand off a tracked base lies between `low` and the end of the range. -/
def SlotFits (low : ℤ) (s : State) (insn : Instruction) (mem : MemOperand) : Prop :=
  ∀ delta, memBase s insn mem = some delta →
    low ≤ delta.toInt + mem.disp.toInt ∧ delta.toInt + mem.disp.toInt < 2 ^ 63

/-- A stack pointer has room for the red zone below it. -/
def RspFits (r : Fin 16) (v : AbsVal Int64) : Prop :=
  r = kDWARFRsp → ∀ delta, v = .cfaRel delta → -2 ^ 63 + 128 ≤ delta.toInt

/-- The operands an unmodelled instruction writes, each in the state the ones before it leave. -/
def ClobberFits (insn : Instruction) : State → List Operand → Prop
  | _, [] => True
  | s, op :: ops =>
    (op.writes = true → ∀ mem, op.kind = .memory mem → SlotFits (-2 ^ 63) s insn mem) ∧
      ClobberFits insn (UnwindCheck.clobberOperand insn s op) ops

/-- Eight bytes and the red zone below them. -/
def PushFits (s : State) : Prop := ∀ delta, s.gpr kDWARFRsp = .cfaRel delta → -2 ^ 63 + 136 ≤ delta.toInt

def PushedFits (insn : Instruction) (s : State) : Prop :=
  ∀ mem, (insn.op? 0).map Operand.kind = some (.memory mem) → SlotFits (-2 ^ 63) s insn mem

def PopFits (s : State) : Prop :=
  ∀ delta, s.gpr kDWARFRsp = .cfaRel delta → -2 ^ 63 + 120 ≤ delta.toInt ∧ delta.toInt < 2 ^ 63 - 8

/-- A pop into memory addresses it with the stack pointer already moved. -/
def PoppedFits (insn : Instruction) (s : State) : Prop :=
  match (insn.op? 0).map Operand.kind with
  | some (.register r) =>
    r.isFull64 = true → ∀ d, r.dwarfRegOf = some d → RspFits d (UnwindCheck.popValue s).1
  | some (.memory mem) => SlotFits (-2 ^ 63) (UnwindCheck.popValue s).2 insn mem
  | _ => True

def LeaveFits (s : State) : Prop :=
  ∀ delta, s.gpr kDWARFRbp = .cfaRel delta → -2 ^ 63 + 128 ≤ delta.toInt ∧ delta.toInt < 2 ^ 63 - 8

def LeaFits (z : Zydis) (insn : Instruction) (s : State) : Prop :=
  match insn.ops2? with
  | some (⟨.register r, _, _, _⟩, src@⟨.memory mem, _, _, _⟩) =>
    match r.dwarfRegOf with
    | none => ClobberFits insn s insn.insn.operands
    | some d =>
      r.isFull64 = true →
        (mem.base = .rip ∧ mem.index = .none → z.calcAbsoluteAddress insn.insn src insn.address = none) →
        SlotFits (if d = kDWARFRsp then -2 ^ 63 + 128 else -2 ^ 63) s insn mem
  | _ => ClobberFits insn s insn.insn.operands

def MovFits (insn : Instruction) (s : State) : Prop :=
  match insn.ops2? with
  | some (⟨.register r, _, _, _⟩, src) =>
    match r.dwarfRegOf with
    | none => ClobberFits insn s insn.insn.operands
    | some d =>
      r.isFull64 = true →
        match src.kind with
        | .register q => RspFits d (readReg s q)
        | .memory mem =>
          SlotFits (-2 ^ 63) s insn mem ∧
            (src.size = 64 → ∀ k, UnwindCheck.memSlot s insn mem = some k → RspFits d (s.slot k))
        | _ => True
  | some (⟨.memory mem, _, _, _⟩, _) => SlotFits (-2 ^ 63) s insn mem
  | _ => ClobberFits insn s insn.insn.operands

/-- Adding an immediate wraps around and overflows nowhere; where it leaves rsp has to fit. -/
def AddSubFits (insn : Instruction) (s : State) : Prop :=
  match insn.ops2? with
  | some (⟨.register r, _, _, _⟩, ⟨.immediate imm, _, _, _⟩) =>
    match r.dwarfRegOf with
    | none => ClobberFits insn s insn.insn.operands
    | some d =>
      r.isFull64 = true → d = kDWARFRsp → ∀ delta, s.gpr d = .cfaRel delta →
        -2 ^ 63 + 128 ≤ Int.bmod (if insn.id = .add then delta.toInt + imm.toInt
          else delta.toInt - imm.toInt) (2 ^ 64)
  | some (⟨.register r, _, _, _⟩, ⟨.register q, _, _, _⟩) =>
    insn.id = .add ∧ (addDispatch s r q).isSome ∨ ClobberFits insn s insn.insn.operands
  | _ => ClobberFits insn s insn.insn.operands

/-- What keeps the signed arithmetic of a modelled instruction in range, by its kind. -/
def NamedFits (z : Zydis) (insn : Instruction) (s : State) : Prop :=
  match insn.id with
  | .push => insn.opCount = 1 → insn.insn.operandWidth = 64 → PushedFits insn s ∧ PushFits s
  | .pushfq => PushFits s
  | .pop => insn.opCount = 1 → insn.insn.operandWidth = 64 → PopFits s ∧ PoppedFits insn s
  | .popfq => PopFits s
  | .leave => LeaveFits s
  | .lea => LeaFits z insn s
  | .mov | .movq => MovFits insn s
  | .add | .sub => AddSubFits insn s
  | _ => UnwindCheck.transferNamed z insn s = none → ClobberFits insn s insn.insn.operands

/-- The instruction fits the state it is transferred from. -/
def TransferFits (z : Zydis) (insn : Instruction) (s : State) : Prop :=
  isReturnMnemonic insn.id ∨ insn.insn.category = .condBr ∨ insn.insn.category = .uncondBr ∨
    isTrapMnemonic insn.id ∨ NamedFits z insn (dropStaleCmp insn s)

section InRange
variable {s : State} {insn : Instruction}

theorem ofInt_toInt (a : Int64) : (Offset.ofInt a.toInt : Int64) = a := Int64.ofInt_toInt a

@[simp] theorem inRange_setReg {r : Fin 16} {v : AbsVal Int64} {t : TableVal} :
    (setReg s r v t).InRange ↔ RspFits r v := by
  unfold setReg RspFits
  cases v with
  | cfaRel delta =>
    by_cases hr : r = kDWARFRsp
    · have hdelta := representable_toInt delta
      have hzone : (Offset.ofInt AbsState.kRedZoneBytes : Int64).toInt = 128 := by decide
      simp only [hr, if_true, Traced.inRange_bind, Traced.inRange_sub, Traced.inRange_pure_iff, and_true,
        hzone, Representable, forall_const, AbsVal.cfaRel.injEq, forall_eq']
      unfold Representable at hdelta
      omega
    · simp [hr]
  | top | bottom | origReg | other => simp

theorem inRange_setVal {r : Fin 16} {v : AbsVal Int64} : (setVal s r v).InRange ↔ RspFits r v :=
  inRange_setReg

theorem memBase_cases (s : State) (insn : Instruction) (mem : MemOperand) :
    (memBase s insn mem = none ∧ memSlot s insn mem = pure none) ∨
      ∃ delta, memBase s insn mem = some delta ∧
        memSlot s insn mem = some <$> Traced.add delta mem.disp := by
  unfold memBase memSlot
  split_ifs
  · exact .inl ⟨rfl, rfl⟩
  · exact .inl ⟨rfl, rfl⟩
  · rw [ofInt_toInt]
    cases readReg s mem.base with
    | cfaRel delta => exact .inr ⟨delta, rfl, rfl⟩
    | top | bottom | origReg | other => exact .inl ⟨rfl, rfl⟩

theorem inRange_memSlot {mem : MemOperand} :
    (memSlot s insn mem).InRange ↔ SlotFits (-2 ^ 63) s insn mem := by
  unfold SlotFits
  rcases memBase_cases s insn mem with ⟨hbase, hslot⟩ | ⟨delta, hbase, hslot⟩
  · simp [hbase, hslot]
  · simp [hbase, hslot, Representable]

theorem memSlot_of_memBase {mem : MemOperand} {delta : Int64} (h : memBase s insn mem = some delta) :
    UnwindCheck.memSlot s insn mem = some (delta + mem.disp) := by
  rw [← value_memSlot]
  rcases memBase_cases s insn mem with ⟨hbase, -⟩ | ⟨delta', hbase, hslot⟩
  · rw [h] at hbase
    cases hbase
  · rw [h] at hbase
    cases hbase
    rw [hslot]
    rfl

theorem memSlot_eq_none {mem : MemOperand} (h : memBase s insn mem = none) :
    UnwindCheck.memSlot s insn mem = none := by
  rw [← value_memSlot]
  rcases memBase_cases s insn mem with ⟨-, hslot⟩ | ⟨delta, hbase, -⟩
  · rw [hslot]
    rfl
  · rw [h] at hbase
    cases hbase

/-- The address of a `lea` with the register it goes to: a stack pointer needs the red zone too. -/
theorem inRange_leaValue {mem : MemOperand} {d : Fin 16} :
    (leaValue s insn mem >>= fun v => some <$> setVal s d v).InRange ↔
      SlotFits (if d = kDWARFRsp then -2 ^ 63 + 128 else -2 ^ 63) s insn mem := by
  have hlea : (leaValue s insn mem).InRange ↔ SlotFits (-2 ^ 63) s insn mem := by
    unfold leaValue
    rw [Traced.inRange_bind, inRange_memSlot, and_iff_left]
    cases (memSlot s insn mem).value <;> exact Traced.inRange_pure _
  rw [Traced.inRange_bind, Traced.inRange_map, inRange_setVal, hlea, value_leaValue]
  unfold SlotFits RspFits UnwindCheck.leaValue
  cases hbase : memBase s insn mem with
  | none => simp [memSlot_eq_none hbase]
  | some delta =>
    rw [memSlot_of_memBase hbase]
    simp only [Option.some.injEq, forall_eq', AbsVal.cfaRel.injEq, Int64.toInt_add]
    by_cases hd : d = kDWARFRsp
    · simp only [hd, forall_const, if_true]
      constructor
      · rintro ⟨hfits, hroom⟩
        rw [representable_iff_bmod.mp hfits] at hroom
        exact ⟨hroom, hfits.2⟩
      · intro h
        have hfits : Representable (delta.toInt + mem.disp.toInt) := ⟨by omega, h.2⟩
        rw [representable_iff_bmod.mp hfits]
        exact ⟨hfits, h.1⟩
    · simp only [hd, if_false, false_implies, and_true]

theorem inRange_clobberOperand {op : Operand} :
    (clobberOperand insn s op).InRange ↔
      (op.writes = true → ∀ mem, op.kind = .memory mem → SlotFits (-2 ^ 63) s insn mem) := by
  unfold clobberOperand
  cases hw : op.writes with
  | false => simp
  | true =>
    cases op.kind with
    | register r => cases hr : r.dwarfRegOf <;> simp [hr]
    | memory mem =>
      simp only [Bool.not_true, Bool.false_eq_true, if_false, Traced.inRange_bind, inRange_memSlot,
        OperandKind.memory.injEq, forall_const, forall_eq']
      rw [and_iff_left]
      cases (memSlot s insn mem).value <;> exact Traced.inRange_pure _
    | immediate value => simp
    | pointer => simp

theorem inRange_clobberWrites :
    (clobberWrites insn s).InRange ↔ ClobberFits insn s insn.insn.operands := by
  unfold clobberWrites
  generalize insn.insn.operands = ops
  induction ops generalizing s with
  | nil => simp [ClobberFits]
  | cons op ops ih =>
    rw [List.foldlM_cons, Traced.inRange_bind, inRange_clobberOperand, value_clobberOperand, ih, ClobberFits]

theorem inRange_pushedValue : (pushedValue insn s).InRange ↔ PushedFits insn s := by
  unfold pushedValue PushedFits
  rcases (insn.op? 0).map Operand.kind with _ | (r | mem | value | -)
  · simp
  · simp
  · simp only [Traced.inRange_bind, inRange_memSlot, Option.some.injEq, OperandKind.memory.injEq, forall_eq']
    rw [and_iff_left]
    cases (memSlot s insn mem).value <;> exact Traced.inRange_pure _
  · simp
  · simp

theorem inRange_pushValue {v : AbsVal Int64} : (pushValue s v).InRange ↔ PushFits s := by
  unfold pushValue PushFits
  cases s.gpr kDWARFRsp with
  | cfaRel delta =>
    have hdelta := representable_toInt delta
    have height : (Offset.ofInt 8 : Int64).toInt = 8 := by decide
    simp only [Traced.inRange_bind, Traced.inRange_sub, inRange_setVal, Traced.value_sub,
      Traced.inRange_pure_iff, and_true, RspFits, forall_const, AbsVal.cfaRel.injEq, forall_eq',
      Int64.toInt_sub, height]
    unfold Representable at hdelta
    constructor
    · rintro ⟨hfits, hroom⟩
      rw [representable_iff_bmod.mp hfits] at hroom
      omega
    · intro h
      have hfits : Representable (delta.toInt - 8) := ⟨by omega, by omega⟩
      rw [representable_iff_bmod.mp hfits]
      exact ⟨hfits, by omega⟩
  | top | bottom | origReg | other => simp

/-- Moving a stack pointer past eight bytes. -/
theorem pastEight_iff {delta : Int64} :
    Representable (delta.toInt + (Offset.ofInt 8 : Int64).toInt) ∧
        RspFits kDWARFRsp (.cfaRel (delta + Offset.ofInt 8)) ↔
      -2 ^ 63 + 120 ≤ delta.toInt ∧ delta.toInt < 2 ^ 63 - 8 := by
  have hdelta := representable_toInt delta
  have height : (Offset.ofInt 8 : Int64).toInt = 8 := by decide
  simp only [RspFits, forall_const, AbsVal.cfaRel.injEq, forall_eq', Int64.toInt_add, height]
  unfold Representable at hdelta
  constructor
  · rintro ⟨hfits, hroom⟩
    rw [representable_iff_bmod.mp hfits] at hroom
    have := hfits.2
    omega
  · intro h
    have hfits : Representable (delta.toInt + 8) := ⟨by omega, by omega⟩
    rw [representable_iff_bmod.mp hfits]
    exact ⟨hfits, by omega⟩

theorem inRange_popValue : (popValue s).InRange ↔ PopFits s := by
  unfold popValue PopFits
  cases s.gpr kDWARFRsp with
  | cfaRel delta =>
    simp only [AbsVal.cfaRel.injEq, forall_eq', Traced.inRange_bind, Traced.inRange_add, Traced.value_add,
      inRange_setVal, Traced.inRange_pure_iff, and_true]
    exact pastEight_iff
  | top | bottom | origReg | other => simp

theorem inRange_popInto {popped : AbsVal Int64} :
    (popInto insn popped s).InRange ↔
      match (insn.op? 0).map Operand.kind with
      | some (.register r) => r.isFull64 = true → ∀ d, r.dwarfRegOf = some d → RspFits d popped
      | some (.memory mem) => SlotFits (-2 ^ 63) s insn mem
      | _ => True := by
  unfold popInto
  rcases (insn.op? 0).map Operand.kind with _ | (r | mem | value | -)
  · simp
  · dsimp only
    cases r.dwarfRegOf with
    | none => simp
    | some d =>
      dsimp only
      rw [inRange_setVal]
      by_cases hfull : r.isFull64 = true
      · simp [hfull]
      · simp [hfull, RspFits]
  · simp only [Traced.inRange_bind, inRange_memSlot]
    rw [and_iff_left]
    cases (memSlot s insn mem).value <;> exact Traced.inRange_pure _
  · simp
  · simp

theorem inRange_transferLeave : (transferLeave s).InRange ↔ LeaveFits s := by
  have hcopy : (copyReg s kDWARFRsp kDWARFRbp).InRange ↔ RspFits kDWARFRsp (s.gpr kDWARFRbp) :=
    inRange_setReg
  have hrsp : (s.copyReg kDWARFRsp kDWARFRbp).gpr kDWARFRsp = s.gpr kDWARFRbp := by simp
  have hrbp : ∀ v, RspFits kDWARFRbp v := fun v h => absurd h (by decide)
  unfold transferLeave LeaveFits
  rw [Traced.inRange_bind, hcopy, value_copyReg, hrsp]
  cases s.gpr kDWARFRbp with
  | cfaRel delta =>
    simp only [AbsVal.cfaRel.injEq, forall_eq', Traced.inRange_bind, Traced.inRange_add, Traced.value_add,
      inRange_setVal, hrbp, true_and, pastEight_iff]
    simp only [RspFits, forall_const, AbsVal.cfaRel.injEq, forall_eq']
    omega
  | top | bottom | origReg | other => simp [RspFits]

theorem inRange_transferPush : (transferPush insn s).InRange ↔
    (insn.opCount = 1 → insn.insn.operandWidth = 64 → PushedFits insn s ∧ PushFits s) := by
  unfold transferPush
  by_cases hcount : insn.opCount = 1
  · by_cases hwidth : insn.insn.operandWidth = 64
    · simp [hcount, hwidth, inRange_pushedValue, inRange_pushValue]
    · simp [hwidth]
  · simp [hcount]

theorem inRange_transferPop : (transferPop insn s).InRange ↔
    (insn.opCount = 1 → insn.insn.operandWidth = 64 → PopFits s ∧ PoppedFits insn s) := by
  unfold transferPop
  by_cases hcount : insn.opCount = 1
  · by_cases hwidth : insn.insn.operandWidth = 64
    · simp [hcount, hwidth, inRange_popValue, inRange_popInto, PoppedFits]
    · simp [hwidth]
  · simp [hcount]

/-- What a transfer leaves to the generic clobber. -/
def ElseClobbers (insn : Instruction) (s : State) (x : Option (AbsState Int64)) : Prop :=
  x = none → ClobberFits insn s insn.insn.operands

theorem inRange_transferLea {z : Zydis} : (transferLea z insn s).InRange ∧
    ElseClobbers insn s (UnwindCheck.transferLea z insn s) ↔ LeaFits z insn s := by
  rw [← value_transferLea]
  unfold transferLea LeaFits ElseClobbers
  rcases insn.ops2? with _ | ⟨⟨dst, _, _, _⟩, ⟨src, size, write, condWrite⟩⟩
  · simp
  · cases dst with
    | register r =>
      cases src with
      | memory mem =>
        dsimp only
        cases r.dwarfRegOf with
        | none => simp
        | some d =>
          dsimp only
          by_cases hfull : r.isFull64 = true
          · simp only [hfull, Bool.not_true, Bool.false_eq_true, if_false, forall_const]
            generalize z.calcAbsoluteAddress insn.insn ⟨.memory mem, size, write, condWrite⟩ insn.address =
              target
            by_cases habs : mem.base = .rip ∧ mem.index = .none
            · cases target with
              | some target => simp [habs]
              | none =>
                simp only [habs, and_self, if_true, forall_const, inRange_leaValue]
                simp
            · simp only [habs, if_false, false_implies, forall_const, inRange_leaValue]
              simp
          · simp [hfull]
      | register | immediate | pointer => simp
    | memory | immediate | pointer => simp

theorem inRange_movToReg {r : ZydisRegister} {d : Fin 16} {src : Operand} :
    (movToReg insn s r d src).InRange ↔
      (r.isFull64 = true →
        match src.kind with
        | .register q => RspFits d (readReg s q)
        | .memory mem =>
          SlotFits (-2 ^ 63) s insn mem ∧
            (src.size = 64 → ∀ k, UnwindCheck.memSlot s insn mem = some k → RspFits d (s.slot k))
        | _ => True) := by
  have htop : ∀ v, (∀ delta, v ≠ AbsVal.cfaRel delta) → RspFits d v := fun v hv _ delta h => absurd h (hv delta)
  unfold movToReg
  by_cases hfull : r.isFull64 = true
  · simp only [hfull, Bool.not_true, Bool.false_eq_true, if_false, forall_const]
    cases src.kind with
    | register q =>
      dsimp only
      unfold readReg
      cases q.dwarfRegOf with
      | none =>
        dsimp only
        rw [inRange_setVal]
        by_cases hq : q.isFull64 = true
        · simp [hq, htop]
        · simp [hq]
      | some sr =>
        by_cases hq : q.isFull64 = true
        · simp only [hq, if_true]
          exact inRange_setReg
        · simp only [hq, Bool.false_eq_true, if_false]
          exact inRange_setVal
    | memory mem =>
      dsimp only
      rw [Traced.inRange_bind, inRange_memSlot, value_memSlot]
      cases UnwindCheck.memSlot s insn mem with
      | none => simp [inRange_setVal, htop]
      | some k =>
        by_cases hsize : src.size = 64
        · simp [hsize, inRange_setVal]
        · simp [hsize, inRange_setVal, htop]
    | immediate value => simp
    | pointer => simp
  · simp [hfull]

theorem inRange_movToMem {mem : MemOperand} {size : ℕ} {src : Operand} :
    (movToMem insn s mem size src).InRange ↔ SlotFits (-2 ^ 63) s insn mem := by
  unfold movToMem
  rw [Traced.inRange_bind, inRange_memSlot, and_iff_left]
  cases (memSlot s insn mem).value with
  | none => exact Traced.inRange_pure _
  | some k => cases src.kind <;> exact Traced.inRange_pure _

theorem inRange_transferMov : (transferMov insn s).InRange ∧
    ElseClobbers insn s (UnwindCheck.transferMov insn s) ↔ MovFits insn s := by
  rw [← value_transferMov]
  unfold transferMov MovFits ElseClobbers
  rcases insn.ops2? with _ | ⟨⟨dst, size, _, _⟩, src⟩
  · simp
  · cases dst with
    | register r =>
      dsimp only
      cases r.dwarfRegOf with
      | none => simp
      | some d => simp [inRange_movToReg]
    | memory mem => simp [inRange_movToMem]
    | immediate value => simp
    | pointer => simp

theorem inRange_transferAddSub : (transferAddSub insn s).InRange ∧
    ElseClobbers insn s (UnwindCheck.transferAddSub insn s) ↔ AddSubFits insn s := by
  rw [← value_transferAddSub]
  unfold transferAddSub AddSubFits ElseClobbers
  rcases insn.ops2? with _ | ⟨⟨dst, _, _, _⟩, ⟨src, _, _, _⟩⟩
  · simp
  · cases dst with
    | register r =>
      cases src with
      | immediate imm =>
        dsimp only
        unfold addSubImm
        cases r.dwarfRegOf with
        | none => simp
        | some d =>
          dsimp only
          cases r.isFull64 with
          | false => simp
          | true =>
            cases hd : s.gpr d with
            | cfaRel delta =>
              have hwraps : (if insn.id = .add then delta + (Offset.ofInt imm.toInt : Int64)
                  else delta - Offset.ofInt imm.toInt).toInt =
                  Int.bmod (if insn.id = .add then delta.toInt + imm.toInt else delta.toInt - imm.toInt)
                    (2 ^ 64) := by
                split
                · exact toInt_add_ofInt delta imm.toInt
                · exact toInt_sub_ofInt delta imm.toInt
              simp only [Traced.inRange_map, inRange_setVal, Traced.value_map, reduceCtorEq, false_implies,
                and_true, forall_const, AbsVal.cfaRel.injEq, forall_eq', RspFits, hwraps]
            | top | bottom | origReg | other => simp
      | register q =>
        by_cases hadd : insn.id = .add
        · cases haddr : addDispatch s r q with
          | none => simp [hadd, haddr]
          | some s' => simp [hadd, haddr]
        · simp [hadd]
      | memory | pointer => simp
    | memory | immediate | pointer => simp

theorem inRange_transferNamed {z : Zydis} : (transferNamed z insn s).InRange ∧
    (UnwindCheck.transferNamed z insn s = none → ClobberFits insn s insn.insn.operands) ↔
      NamedFits z insn s := by
  unfold transferNamed NamedFits
  split
  · rename_i hid
    simp [UnwindCheck.transferNamed, hid, inRange_transferPush]
  · rename_i hid
    simp [UnwindCheck.transferNamed, hid, inRange_pushValue]
  · rename_i hid
    simp [UnwindCheck.transferNamed, hid, inRange_transferPop]
  · rename_i hid
    simp [UnwindCheck.transferNamed, hid, inRange_popValue]
  · rename_i hid
    simp [UnwindCheck.transferNamed, hid, inRange_transferLeave]
  · rename_i hid
    simp [UnwindCheck.transferNamed, hid, ← inRange_transferLea, ElseClobbers]
  · rename_i hid
    simp [UnwindCheck.transferNamed, hid, ← inRange_transferMov, ElseClobbers]
  · rename_i hid
    simp [UnwindCheck.transferNamed, hid, ← inRange_transferMov, ElseClobbers]
  · rename_i hid
    simp [UnwindCheck.transferNamed, hid, ← inRange_transferAddSub, ElseClobbers]
  · rename_i hid
    simp [UnwindCheck.transferNamed, hid, ← inRange_transferAddSub, ElseClobbers]
  · simp

/-- The signed arithmetic of a transfer is in range exactly where the instruction fits the state. -/
theorem inRange_transfer {z : Zydis} : (transfer z insn s).InRange ↔ TransferFits z insn s := by
  unfold transfer TransferFits
  dsimp only
  split_ifs with hret hbr htrap
  · simp [hret]
  · simp [hret, ← or_assoc, hbr]
  · simp [htrap]
  · rw [Traced.inRange_bind, value_transferNamed]
    have htail : ∀ r : Option (TransferOutcome × State),
        (match r with
          | some r => pure r
          | none => clobberWrites insn (dropStaleCmp insn s) >>= fun s => pure ({}, s) :
            Traced (TransferOutcome × State)).InRange ↔
          (r = none → ClobberFits insn (dropStaleCmp insn s) insn.insn.operands) := by
      intro r
      cases r with
      | none => simp [inRange_clobberWrites]
      | some r => simp
    rw [htail, inRange_transferNamed]
    tauto

end InRange

end Signed

end UnwindCheck
