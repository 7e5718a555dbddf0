import UnwindCheck.Image
import UnwindCheck.Cfi.Row
import UnwindCheck.Insn.Semantics

/-! What an instruction does to the general-purpose registers of a real machine in 64-bit mode.
The stack instructions, `lea`, `mov` and additions of a constant are exact; of everything else
only the registers it can change are said. Memory afterwards is left open. -/
namespace UnwindCheck

/-- Register numbers are DWARF's. -/
structure Machine where
  regs : Fin 16 → Word
  mem : Word → Byte

namespace Machine
variable (m m' : Machine)

/-- The `n` bytes at `addr`, zero-extended. -/
def load (addr : Word) (n : ℕ) : Word := BitVec.ofNat 64 (littleEndian (readMem m.mem addr n))

/-- Registers outside `rs` keep their contents. -/
def ChangesOnly (rs : Fin 16 → Prop) : Prop := ∀ r, ¬ rs r → m'.regs r = m.regs r

theorem ChangesOnly.of_update {m m' : Machine} {d : Fin 16} {w : Word}
    (h : m'.regs = Function.update m.regs d w) : m.ChangesOnly m' (· = d) := by
  intro r hr
  rw [h, Function.update_of_ne hr]

end Machine

/-- A write to the low 16 bits of a register. -/
def mergeLow16 (old new : Word) : Word := (old &&& ~~~0xffff) ||| (new &&& 0xffff)

/-- The register an operand writes, in whole or in part. -/
def Operand.writtenGpr (op : Operand) : Option (Fin 16) :=
  if op.writes then op.reg?.bind ZydisRegister.dwarfRegOf else none

namespace Instruction
variable (insn : Instruction)

/-- The decoder lists `r` among the operands it marks as written. -/
def Marks (r : Fin 16) : Prop := ∃ op ∈ insn.insn.operands, op.writtenGpr = some r

/-- Bytes a push, a pop or a `leave` moves: in 64-bit mode eight, or two under a size prefix. -/
def stackBytes : ℕ := if insn.insn.operandWidth = 64 then 8 else 2

/-- The register a `pop` loads. -/
def popDest : Option (Fin 16) :=
  if insn.opCount = 1 then
    ((insn.op? 0).bind Operand.reg?).bind ZydisRegister.dwarfRegOf
  else none

/-- Address of a memory operand of the form `disp(%base)`. -/
def address? (m : Machine) (mem : MemOperand) : Option Word :=
  match mem.base, mem.index with
  | .gpr64 g, .none => some (m.regs g.dwarf + mem.disp.toBitVec)
  | _, _ => none

/-- What `pop` leaves in the registers: rsp moves first, so that a popped rsp wins. -/
def popRegs (m : Machine) : Fin 16 → Word :=
  let sp := m.regs kDWARFRsp
  let regs := Function.update m.regs kDWARFRsp (sp + BitVec.ofNat 64 insn.stackBytes)
  match insn.popDest with
  | none => regs
  | some d =>
    Function.update regs d
      (if insn.insn.operandWidth = 64 then m.load sp 8 else mergeLow16 (regs d) (m.load sp 2))

/-- What `leave` leaves in the registers. -/
def leaveRegs (m : Machine) : Fin 16 → Word :=
  let fp := m.regs kDWARFRbp
  Function.update
    (Function.update m.regs kDWARFRbp
      (if insn.insn.operandWidth = 64 then m.load fp 8 else mergeLow16 fp (m.load fp 2)))
    kDWARFRsp (fp + BitVec.ofNat 64 insn.stackBytes)

/-- `lea`; the plain form into a whole register is exact. -/
def ExecLea (m m' : Machine) : Prop :=
  match insn.ops2? with
  | some (⟨.register r, _, _, _⟩, ⟨.memory mem, _, _, _⟩) =>
    match r.dwarfRegOf with
    | none => m.ChangesOnly m' insn.Marks
    | some d =>
      match r.isFull64, address? m mem with
      | true, some a => m'.regs = Function.update m.regs d a
      | _, _ => m.ChangesOnly m' (· = d)
  | _ => m.ChangesOnly m' insn.Marks

/-- The word a `mov` into a whole register stores there, where it is said: the contents of a whole
register, or of eight plain bytes of memory. -/
def movWord (m : Machine) (src : Operand) : Option Word :=
  match src.kind with
  | .register q => if q.isFull64 then q.dwarfRegOf.map m.regs else none
  | .memory mem =>
    if src.size = 64 ∧ insn.insn.hasSegment = false then (address? m mem).map (m.load · 8) else none
  | _ => none

def ExecMov (m m' : Machine) : Prop :=
  match insn.ops2? with
  | some (⟨.register r, _, _, _⟩, src) =>
    match r.dwarfRegOf with
    | none => m.ChangesOnly m' insn.Marks
    | some d =>
      match r.isFull64, insn.movWord m src with
      | true, some w => m'.regs = Function.update m.regs d w
      | _, _ => m.ChangesOnly m' (· = d)
  | some (⟨.memory _, _, _, _⟩, _) => m'.regs = m.regs
  | _ => m.ChangesOnly m' insn.Marks

/-- `add` and `sub`; a constant and a whole register are exact. -/
def ExecAddSub (m m' : Machine) : Prop :=
  match insn.ops2? with
  | some (⟨.register r, _, _, _⟩, ⟨.immediate imm, _, _, _⟩) =>
    match r.dwarfRegOf with
    | none => m.ChangesOnly m' insn.Marks
    | some d =>
      if r.isFull64 then
        m'.regs = Function.update m.regs d (if insn.id = .add then m.regs d + imm else m.regs d - imm)
      else m.ChangesOnly m' (· = d)
  | _ => m.ChangesOnly m' insn.Marks

/-- `movsxd`, `movzx` and `movsx` change their destination, which the decoder marks. -/
def ExecExtend (m m' : Machine) : Prop :=
  match insn.ops2? with
  | some (⟨.register r, _, _, _⟩, _) =>
    match r.dwarfRegOf with
    | none => m.ChangesOnly m' insn.Marks
    | some d => m.ChangesOnly m' (fun q => q = d ∧ insn.Marks q)
  | _ => m.ChangesOnly m' insn.Marks

def isBranch : Bool := insn.insn.category = .condBr || insn.insn.category = .uncondBr

/-- Control leaves for good, or for a callee. -/
def leaves : Bool :=
  isReturnMnemonic insn.id || !insn.isBranch && (isTrapMnemonic insn.id || insn.id = .call)

/-- Control can go on to the next instruction. -/
def fallsThrough : Bool := !insn.leaves && !(insn.isBranch && insn.id = .jmp)

/-- The target of a direct jump. -/
def directTarget (z : Zydis) : Option Word :=
  if insn.isBranch && !insn.leaves then
    (insn.op? 0).bind fun op =>
      match op.kind with
      | .immediate _ => z.calcAbsoluteAddress insn.insn op insn.address
      | _ => none
  else none

/-- One step of the machine, control aside. What a `call`, a return or a trap does happens
elsewhere; a system call obeys the kernel's convention; `loop` counts in rcx and an aborted
transaction answers in rax. -/
def Exec (m m' : Machine) : Prop :=
  if isReturnMnemonic insn.id then True
  else if insn.isBranch then m.ChangesOnly m' (fun r => r = 0 ∨ r = 2)
  else if isTrapMnemonic insn.id then True
  else match insn.id with
    | .call => True
    | .syscall | .sysenter | .int | .int1 | .into | .vmcall | .vmmcall =>
      m.ChangesOnly m' (· ∈ kCallerSaved)
    | .push =>
      m'.regs = Function.update m.regs kDWARFRsp
        (m.regs kDWARFRsp - BitVec.ofNat 64 insn.stackBytes)
    | .pushfq => m'.regs = Function.update m.regs kDWARFRsp (m.regs kDWARFRsp - 8)
    | .pop => m'.regs = insn.popRegs m
    | .popfq => m'.regs = Function.update m.regs kDWARFRsp (m.regs kDWARFRsp + 8)
    | .leave => m'.regs = insn.leaveRegs m
    | .lea => insn.ExecLea m m'
    | .mov | .movq => insn.ExecMov m m'
    | .add | .sub => insn.ExecAddSub m m'
    | .movsxd | .movzx | .movsx => insn.ExecExtend m m'
    | .cmp | .nop | .endbr32 | .endbr64 => m'.regs = m.regs
    | _ => m.ChangesOnly m' insn.Marks

/-- Both ways of saying what a widening move changes. -/
theorem ExecExtend.changesOnly {insn : Instruction} {m m' : Machine} (hx : insn.ExecExtend m m') :
    m.ChangesOnly m' insn.Marks ∧
      ∀ dest src r d, insn.ops2? = some (dest, src) → dest.kind = .register r →
        r.dwarfRegOf = some d → m.ChangesOnly m' (· = d) := by
  unfold ExecExtend at hx
  refine ⟨?_, fun dest src r d hops hkind hr => ?_⟩
  · split at hx
    · split at hx
      · exact hx
      · exact fun q hq => hx q fun hm => hq hm.2
    · exact hx
  · obtain ⟨kind, size, write, condWrite⟩ := dest
    dsimp only at hkind
    subst hkind
    simp only [hops, hr] at hx
    exact fun q hq => hx q fun hm => hq hm.1

end Instruction

section Transfer
variable {δ : Type} [Offset δ] {z : Zydis} {insn : Instruction}

/-- Past the control flow, `Transfer` is its `switch` with the generic clobber behind it. -/
theorem transfer_of_switch (hret : isReturnMnemonic insn.id = false) (hbr : insn.isBranch = false)
    (htrap : isTrapMnemonic insn.id = false) (s : AbsState δ) :
    transfer z insn s = (transferNamed z insn (dropStaleCmp insn s)).getD
      ({}, clobberWrites insn (dropStaleCmp insn s)) := by
  have hcat : ¬ (insn.insn.category = .condBr ∨ insn.insn.category = .uncondBr) := by
    simpa [Instruction.isBranch] using hbr
  unfold transfer
  simp [hret, htrap, hcat]

theorem transfer_of_branch (hret : isReturnMnemonic insn.id = false) (hbr : insn.isBranch = true)
    (s : AbsState δ) :
    transfer z insn s = (branchOutcome z insn (dropStaleCmp insn s), dropStaleCmp insn s) := by
  have hcat : insn.insn.category = .condBr ∨ insn.insn.category = .uncondBr := by
    simpa [Instruction.isBranch] using hbr
  unfold transfer
  simp [hret, hcat]

end Transfer

end UnwindCheck
