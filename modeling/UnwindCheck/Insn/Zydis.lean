import UnwindCheck.Cfi.Row

/-! What the checker reads of a decoded instruction. The decoder itself is Zydis, outside the
source, and enters as a parameter with the length contract the checker relies on. -/
namespace UnwindCheck

/-- The sixteen general-purpose registers, in encoding order. -/
inductive Gpr where
  | rax | rcx | rdx | rbx | rsp | rbp | rsi | rdi
  | r8 | r9 | r10 | r11 | r12 | r13 | r14 | r15
  deriving DecidableEq, Repr

/-- The four high-byte spellings. -/
inductive HighByte where
  | ah | ch | dh | bh
  deriving DecidableEq, Repr

inductive ZydisRegister where
  | none
  | rip
  | gpr64 (g : Gpr)
  | gpr32 (g : Gpr)
  | gpr16 (g : Gpr)
  | gpr8 (g : Gpr)
  | high8 (h : HighByte)
  | other (id : ℕ)
  deriving DecidableEq, Repr

/-- Position of a register in `kDwarfGprs`, the psABI's DWARF numbering. -/
def Gpr.dwarf : Gpr → Fin 16
  | .rax => 0 | .rdx => 1 | .rcx => 2 | .rbx => 3 | .rsi => 4 | .rdi => 5 | .rbp => 6 | .rsp => 7
  | .r8 => 8 | .r9 => 9 | .r10 => 10 | .r11 => 11 | .r12 => 12 | .r13 => 13 | .r14 => 14
  | .r15 => 15

def HighByte.parent : HighByte → Gpr
  | .ah => .rax
  | .ch => .rcx
  | .dh => .rdx
  | .bh => .rbx

namespace ZydisRegister

/-- The 64-bit register a spelling is part of. -/
def parent : ZydisRegister → Option Gpr
  | gpr64 g | gpr32 g | gpr16 g | gpr8 g => some g
  | high8 h => some h.parent
  | none | rip | other _ => Option.none

/-- `InsnSemantics::DWARFRegOf`, `none` standing for -1. -/
def dwarfRegOf (r : ZydisRegister) : Option (Fin 16) := r.parent.map Gpr.dwarf

/-- `InsnSemantics::IsFull64` -/
def isFull64 : ZydisRegister → Bool
  | gpr64 _ => true
  | _ => false

/-- `RegWidthBits` -/
def widthBits : ZydisRegister → ℕ
  | gpr64 _ => 64
  | gpr32 _ => 32
  | gpr16 _ => 16
  | gpr8 _ | high8 _ => 8
  | none | rip | other _ => 0

end ZydisRegister

inductive ZydisMnemonic where
  | ret | iret | iretd | iretq
  | jmp | jnbe | jnb | jbe | jb
  | ud0 | ud1 | ud2 | hlt | int3
  | call | syscall | sysenter | int | int1 | into | vmcall | vmmcall
  | push | pushfq | pop | popfq | leave | lea | mov | movq | movsxd | add | sub | cmp
  | movzx | movsx | nop | endbr32 | endbr64
  | other (id : ℕ)
  deriving DecidableEq, Repr

inductive ZydisCategory where
  | condBr
  | uncondBr
  | other
  deriving DecidableEq, Repr

structure MemOperand where
  base : ZydisRegister
  index : ZydisRegister
  scale : ℕ
  disp : Int64
  deriving DecidableEq, Repr

inductive OperandKind where
  | register (reg : ZydisRegister)
  | memory (mem : MemOperand)
  | immediate (value : Word)
  | pointer
  deriving DecidableEq, Repr

/-- One operand with its size in bits and its write actions. -/
structure Operand where
  kind : OperandKind
  size : ℕ
  write : Bool
  condWrite : Bool
  deriving DecidableEq, Repr

/-- `actions & ZYDIS_OPERAND_ACTION_MASK_WRITE`: conditional writes count. -/
def Operand.writes (op : Operand) : Bool := op.write || op.condWrite

def Operand.reg? (op : Operand) : Option ZydisRegister :=
  match op.kind with
  | .register r => some r
  | _ => none

theorem Operand.kind_of_reg? {op : Operand} {r : ZydisRegister} (h : op.reg? = some r) :
    op.kind = .register r := by
  unfold reg? at h
  split at h
  · cases h
    assumption
  · cases h

/-- Flag masks of an instruction, tested flags left out. -/
structure AccessedFlags where
  modified : ℕ
  set0 : ℕ
  set1 : ℕ
  undefined : ℕ
  deriving DecidableEq, Repr

/-- The part of a `ZydisDecodedInstruction` and its operand array that is read. `operands` holds
the visible ones first, then the implicit and hidden ones. -/
structure DecodedInsn where
  length : ℕ
  mnemonic : ZydisMnemonic
  operandCountVisible : ℕ
  operands : List Operand
  category : ZydisCategory
  hasSegment : Bool
  operandWidth : ℕ
  cpuFlags : Option AccessedFlags
  deriving DecidableEq, Repr

/-- The decoder: decoding, and the address computation on decoded operands. Lengths lie between
one and the bytes given. -/
structure Zydis where
  decodeFull : List Byte → Option DecodedInsn
  calcAbsoluteAddress : DecodedInsn → Operand → Word → Option Word
  one_le_length : ∀ {bytes i}, decodeFull bytes = some i → 1 ≤ i.length
  length_le : ∀ {bytes i}, decodeFull bytes = some i → i.length ≤ bytes.length

/-- A decoder that knows a finite list of encodings. Immediates are branch displacements. -/
def Zydis.ofTable (table : List (List Byte × DecodedInsn)) : Zydis where
  decodeFull bytes :=
    (table.find? fun e => e.1 ≠ [] ∧ e.1.isPrefixOf bytes ∧ e.2.length = e.1.length).map Prod.snd
  calcAbsoluteAddress insn op address :=
    match op.kind with
    | .immediate disp => some (address + BitVec.ofNat 64 insn.length + disp)
    | .memory mem =>
      if mem.base = .rip then some (address + BitVec.ofNat 64 insn.length + mem.disp.toBitVec)
      else none
    | _ => none
  one_le_length := by
    intro bytes i h
    obtain ⟨e, he, rfl⟩ := Option.map_eq_some_iff.mp h
    have hp := List.find?_some he
    simp only [ne_eq, List.isPrefixOf_iff_prefix, decide_eq_true_eq] at hp
    rw [hp.2.2]
    exact List.length_pos_iff.mpr hp.1
  length_le := by
    intro bytes i h
    obtain ⟨e, he, rfl⟩ := Option.map_eq_some_iff.mp h
    have hp := List.find?_some he
    simp only [ne_eq, List.isPrefixOf_iff_prefix, decide_eq_true_eq] at hp
    rw [hp.2.2]
    exact hp.2.1.length_le

/-- A decoded instruction with its address. -/
structure Instruction where
  address : Word
  insn : DecodedInsn
  deriving DecidableEq, Repr

namespace Instruction

def size (i : Instruction) : ℕ := i.insn.length

def id (i : Instruction) : ZydisMnemonic := i.insn.mnemonic

def opCount (i : Instruction) : ℕ := i.insn.operandCountVisible

/-- The address after the instruction. -/
def next (i : Instruction) : Word := i.address + BitVec.ofNat 64 i.size

/-- The `n`-th operand where at least `n + 1` are visible. -/
def op? (i : Instruction) (n : ℕ) : Option Operand := if n < i.opCount then i.insn.operands[n]? else none

/-- Both operands of an instruction that shows exactly two. -/
def ops2? (i : Instruction) : Option (Operand × Operand) :=
  if i.opCount = 2 then do return (← i.insn.operands[0]?, ← i.insn.operands[1]?) else none

end Instruction

/-- `Disassembler::Decode` -/
def Zydis.decode (z : Zydis) (bytes : List Byte) (address : Word) : Option Instruction :=
  (z.decodeFull bytes).map fun i => ⟨address, i⟩

namespace Zydis
variable {z : Zydis} {bytes : List Byte} {address : Word} {i : Instruction}

theorem decode_address (h : z.decode bytes address = some i) : i.address = address := by
  obtain ⟨d, -, rfl⟩ := Option.map_eq_some_iff.mp h
  rfl

theorem one_le_size (h : z.decode bytes address = some i) : 1 ≤ i.size := by
  obtain ⟨d, hd, rfl⟩ := Option.map_eq_some_iff.mp h
  exact z.one_le_length hd

theorem size_le (h : z.decode bytes address = some i) : i.size ≤ bytes.length := by
  obtain ⟨d, hd, rfl⟩ := Option.map_eq_some_iff.mp h
  exact z.length_le hd

end Zydis

end UnwindCheck
