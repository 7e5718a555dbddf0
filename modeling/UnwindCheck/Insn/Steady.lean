import UnwindCheck.Insn.Above

/-! What an instruction asks of two states, one above the other, so that it keeps them so. Only its
accesses to the frame ask anything: through a register that one of the states has no frame address
in, a slot is written, dropped or read in one state and not in the other. Beside them, a switch
idiom has to be recognised in both or in neither. -/
namespace UnwindCheck
variable {δ : Type} [Offset δ]

namespace AbsState

/-- Where only the higher state has a place to store to, the lower tracks at most what is stored
there; where only the lower has one, the higher holds at least that there. -/
def SteadyStore (s t : AbsState δ) (ks kt : Option δ) (v w : AbsVal δ) : Prop :=
  (ks = none → ∀ k ∈ kt, slotView s.slots k ≤ w.stored) ∧
    (kt = none → ∀ k ∈ ks, v.stored ≤ slotView t.slots k)

/-- What a load finds in a slot, nothing where there is none. -/
def slotAt (s : AbsState δ) : Option δ → AbsVal δ
  | some k => s.slot k
  | none => .top

/-- Where only the lower state has a place to load from, it tracks nothing there. -/
def SteadyLoad (s : AbsState δ) (ks kt : Option δ) : Prop := kt = none → ∀ k ∈ ks, s.slot k = .top

/-- A call drops what lies below rsp. -/
def SteadyCall (s t : AbsState δ) : Prop :=
  ∀ d ∈ (s.gpr kDWARFRsp).learnt (t.gpr kDWARFRsp), s.Vacant (· < d)

/-- A push of `v` in the one and of `w` in the other state. -/
def SteadyPush (s t : AbsState δ) (v w : AbsVal δ) : Prop :=
  (∀ d ∈ (s.gpr kDWARFRsp).learnt (t.gpr kDWARFRsp),
    s.Vacant (· < d - Offset.ofInt 8 - Offset.ofInt kRedZoneBytes) ∧
      slotView s.slots (d - Offset.ofInt 8) ≤ w.stored ∧ s.tbl kDWARFRsp ≤ .none) ∧
  ∀ d ∈ (s.gpr kDWARFRsp).lost (t.gpr kDWARFRsp),
    v.stored ≤ slotView t.slots (d - Offset.ofInt 8) ∧ t.Bare kDWARFRsp

/-- A pop, up to where its value goes. -/
def SteadyPop (s t : AbsState δ) : Prop :=
  (∀ d ∈ (s.gpr kDWARFRsp).learnt (t.gpr kDWARFRsp),
    s.Vacant (· < d + Offset.ofInt 8 - Offset.ofInt kRedZoneBytes) ∧ s.tbl kDWARFRsp ≤ .none) ∧
  ∀ d ∈ (s.gpr kDWARFRsp).lost (t.gpr kDWARFRsp), s.slot d = .top ∧ t.Bare kDWARFRsp

/-- `leave` takes the stack back to where rbp points. -/
def SteadyLeave (s t : AbsState δ) : Prop :=
  (∀ d ∈ (s.gpr kDWARFRbp).learnt (t.gpr kDWARFRbp),
    s.Vacant (· < d - Offset.ofInt kRedZoneBytes) ∧
      s.Vacant (· < d + Offset.ofInt 8 - Offset.ofInt kRedZoneBytes) ∧ s.tbl kDWARFRbp ≤ .none) ∧
  ∀ d ∈ (s.gpr kDWARFRbp).lost (t.gpr kDWARFRbp), s.slot d = .top ∧ .none ≤ t.tbl kDWARFRbp

end AbsState

/-- What the write of an operand of an unmodelled instruction asks. -/
def SteadyClobber (insn : Instruction) (s t : AbsState δ) (op : Operand) : Prop :=
  match op.kind with
  | .memory mem => op.writes = true → memSlot s insn mem = none →
      ∀ k ∈ memSlot t insn mem, s.Vacant (AbsState.overlaps k (writtenBytes op.size))
  | _ => True

/-- The value a push of an operand pushes. -/
def SteadyPushed (insn : Instruction) (s t : AbsState δ) : Prop :=
  (match (insn.op? 0).map Operand.kind with
    | some (.memory mem) => s.SteadyLoad (memSlot s insn mem) (memSlot t insn mem)
    | _ => True) ∧ s.SteadyPush t (pushedValue insn s) (pushedValue insn t)

/-- Where a pop puts `v` in the one and `w` in the other state. -/
def SteadyPopInto (insn : Instruction) (s t : AbsState δ) (v w : AbsVal δ) : Prop :=
  match (insn.op? 0).map Operand.kind with
  | some (.register r) => r.isFull64 = true → ∀ d ∈ r.dwarfRegOf, s.SteadyWrite d v w
  | some (.memory mem) => s.SteadyStore t (memSlot s insn mem) (memSlot t insn mem) v w
  | _ => True

/-- `lea` names a frame address that the higher state still names. -/
def SteadyLea (insn : Instruction) (s t : AbsState δ) : Prop :=
  match insn.ops2? with
  | some (⟨.register r, _, _, _⟩, ⟨.memory mem, _, _, _⟩) => r.isFull64 = true →
      ((memSlot s insn mem).isSome = true → (memSlot t insn mem).isSome = true) ∧
        ∀ d ∈ r.dwarfRegOf, s.SteadyWrite d (leaValue s insn mem) (leaValue t insn mem)
  | _ => True

/-- What a 64-bit move to a GPR asks. -/
def SteadyMovToReg (insn : Instruction) (s t : AbsState δ) (d : Fin 16) (src : Operand) : Prop :=
  match src.kind with
  | .register q => q.isFull64 = true → ∀ sr ∈ q.dwarfRegOf, s.SteadyWrite d (s.gpr sr) (t.gpr sr)
  | .memory mem => src.size = 64 → s.SteadyLoad (memSlot s insn mem) (memSlot t insn mem) ∧
      s.SteadyWrite d (s.slotAt (memSlot s insn mem)) (t.slotAt (memSlot t insn mem))
  | _ => True

/-- The value a move to memory leaves in the slot it starts at. -/
def movedValue (s : AbsState δ) (size : ℕ) (src : Operand) : AbsVal δ :=
  match src.kind with
  | .register q => if size = 64 ∧ q.isFull64 then readReg s q else .top
  | _ => .top

/-- A move to memory erases what it overlaps. -/
def SteadyMovToMem (insn : Instruction) (s t : AbsState δ) (mem : MemOperand) (size : ℕ)
    (src : Operand) : Prop :=
  s.SteadyStore t (memSlot s insn mem) (memSlot t insn mem) (movedValue s size src)
      (movedValue t size src) ∧
    (memSlot s insn mem = none → ∀ k ∈ memSlot t insn mem,
      s.Vacant fun j => j ≠ k && AbsState.overlaps k (writtenBytes size) j)

def SteadyMov (insn : Instruction) (s t : AbsState δ) : Prop :=
  match insn.ops2? with
  | some (⟨.register r, _, _, _⟩, src) => r.isFull64 = true →
      ∀ d ∈ r.dwarfRegOf, SteadyMovToReg insn s t d src
  | some (⟨.memory mem, size, _, _⟩, src) => SteadyMovToMem insn s t mem size src
  | _ => True

/-- `add` and `sub` of an immediate keep a frame address that the higher state still has. -/
def SteadyAddSub (insn : Instruction) (s t : AbsState δ) : Prop :=
  match insn.ops2? with
  | some (⟨.register r, _, _, _⟩, ⟨.immediate imm, _, _, _⟩) => r.isFull64 = true →
      ∀ d ∈ r.dwarfRegOf, (s.gpr d).lost (t.gpr d) = none ∧
        ∀ x ∈ (s.gpr d).learnt (t.gpr d), s.SteadyWrite d .top
          (.cfaRel (if insn.id = .add then x + Offset.ofInt imm.toInt else x - Offset.ofInt imm.toInt))
  | _ => True

/-- What an instruction of the `switch` asks of two states it is met in. -/
def SteadyNamed (insn : Instruction) (s t : AbsState δ) : Prop :=
  match insn.id with
  | .call | .syscall | .sysenter | .int | .int1 | .int3 | .into | .vmcall | .vmmcall => s.SteadyCall t
  | .push => insn.opCount = 1 → insn.insn.operandWidth = 64 → SteadyPushed insn s t
  | .pushfq => s.SteadyPush t .top .top
  | .pop => insn.opCount = 1 → insn.insn.operandWidth = 64 → s.SteadyPop t ∧
      SteadyPopInto insn (popValue s).2 (popValue t).2 (popValue s).1 (popValue t).1
  | .popfq => s.SteadyPop t
  | .leave => s.SteadyLeave t
  | .lea => SteadyLea insn s t
  | .mov | .movq => SteadyMov insn s t
  | .add | .sub => SteadyAddSub insn s t
  | _ => True

/-- What `Transfer` asks of two states an instruction is met in, beside that one is above the other:
the accesses to the frame are the same in both or make no difference, and a switch idiom and an
unmodelled spelling are taken for one in both. -/
def Instruction.Steady (z : Zydis) (insn : Instruction) (s t : AbsState δ) : Prop :=
  isReturnMnemonic insn.id = false → insn.insn.category ≠ .condBr → insn.insn.category ≠ .uncondBr →
    isTrapMnemonic insn.id = false →
      SteadyNamed insn (dropStaleCmp insn s) (dropStaleCmp insn t) ∧
      (transferNamed z insn (dropStaleCmp insn s)).isSome =
        (transferNamed z insn (dropStaleCmp insn t)).isSome ∧
      (transferNamed z insn (dropStaleCmp insn s) = none → ∀ op ∈ insn.insn.operands,
        SteadyClobber insn (dropStaleCmp insn s) (dropStaleCmp insn t) op)

end UnwindCheck
