import UnwindCheck.Machine.Sound

/-! The stack instructions with entry values read as what the registers held at entry: a stack
pointer that is such a value moves and keeps its name. -/
namespace UnwindCheck

/-- A frame address is where the CFA puts it, and an entry value what the register held at entry. -/
def Reading.ofEntry (cfa : Word) (entry : ℕ → Word) : Reading := ⟨cfa, fun q w => w = entry q⟩

namespace Instruction
variable (insn : Instruction)

/-- The modelled stack instructions, as the decoder reports them in 64-bit form: `add` and `sub`
with a constant, the rest with any operands. -/
structure MovesStack : Prop where
  mnemonic : insn.id ∈ [.push, .pushfq, .pop, .popfq, .leave, .add, .sub, .lea, .mov, .movq]
  isBranch : insn.isBranch = false
  wide : insn.id ∈ [.push, .pop, .leave] → insn.insn.operandWidth = 64
  single : insn.id ∈ [.push, .pop] → insn.opCount = 1
  constant : insn.id ∈ [.add, .sub] → ∃ dst src r imm, insn.ops2? = some (dst, src) ∧
    dst.kind = .register r ∧ src.kind = .immediate imm

/-- The write of a stack register that is left out: of rsp by a push or by a pop into anything
else, and of what `leave` adds to rbp, while the register is an entry value. -/
def LeavesStale (s : AbsState Int64) : Prop :=
  match insn.id with
  | .push | .pushfq | .popfq => ∃ q, s.gpr kDWARFRsp = .origReg q
  | .pop => (∃ q, s.gpr kDWARFRsp = .origReg q) ∧ insn.popDest ≠ some kDWARFRsp
  | .leave => ∃ q, s.gpr kDWARFRbp = .origReg q
  | _ => False

end Instruction

section
variable {cfa : Word} {entry : ℕ → Word} {s : AbsState Int64} {m m' : Machine} {insn : Instruction}

/-- What is no entry value can be followed. -/
theorem settled_of_not_origReg {v : AbsVal Int64} (h : ¬ ∃ q, v = .origReg q) :
    (Reading.ofEntry cfa entry).Settled v := by
  cases v with
  | cfaRel d => exact Or.inl ⟨d, rfl⟩
  | origReg q => exact absurd ⟨q, rfl⟩ h
  | top | bottom | other => exact Or.inr fun _ => trivial

theorem untracked_of_origReg {r : Fin 16} {q : ℕ} (h : s.gpr r = .origReg q) :
    ∀ d, s.gpr r ≠ .cfaRel d := by
  intro d hd
  rw [h] at hd
  cases hd

/-- An entry value that has moved is none. -/
theorem not_regs_of_moved {gpr : Fin 16 → AbsVal Int64} {regs : Fin 16 → Word} {r : Fin 16} {q : ℕ}
    {old k : Word} (hq : gpr r = .origReg q) (hold : old = entry q) (hnew : regs r = old + k)
    (hk : k ≠ 0) : ¬ (Reading.ofEntry cfa entry).Regs gpr regs := by
  intro h
  have hr := h r
  rw [hq] at hr
  have hsame : old + k = old := by rw [← hnew, hold]; exact hr
  exact hk (by bv_omega)

variable (h : (Reading.ofEntry cfa entry).Describes s m)
include h

theorem regs_of_origReg {r : Fin 16} {q : ℕ} (hq : s.gpr r = .origReg q) : m.regs r = entry q := by
  have hr := h.gpr r
  rwa [hq] at hr

theorem pushValue_regs_iff (v : AbsVal Int64)
    (hx : m'.regs = Function.update m.regs kDWARFRsp (m.regs kDWARFRsp - 8)) :
    (Reading.ofEntry cfa entry).Regs (pushValue s v).gpr m'.regs ↔
      ¬ ∃ q, s.gpr kDWARFRsp = .origReg q := by
  refine ⟨fun hregs hq => ?_, fun hq => pushValue_sound h (settled_of_not_origReg hq) v hx⟩
  obtain ⟨q, hq⟩ := hq
  rw [pushValue_untracked (untracked_of_origReg hq)] at hregs
  refine not_regs_of_moved (k := -8) hq (regs_of_origReg h hq) ?_ (by decide) hregs
  rw [hx, Function.update_self]
  bv_omega

theorem popfq_regs_iff (hx : m'.regs = Function.update m.regs kDWARFRsp (m.regs kDWARFRsp + 8)) :
    (Reading.ofEntry cfa entry).Regs (popValue s).2.gpr m'.regs ↔
      ¬ ∃ q, s.gpr kDWARFRsp = .origReg q := by
  rw [hx]
  refine ⟨fun hregs hq => ?_, fun hq => (popValue_sound h (settled_of_not_origReg hq)).2⟩
  obtain ⟨q, hq⟩ := hq
  rw [popValue_untracked (untracked_of_origReg hq)] at hregs
  exact not_regs_of_moved (k := 8) hq (regs_of_origReg h hq) (by simp) (by decide) hregs

omit h in
/-- A pop of something unknown forgets its destination. -/
theorem popInto_top_gpr (hone : insn.opCount = 1) (s : AbsState Int64) :
    (popInto insn .top s).gpr =
      match insn.popDest with
      | none => s.gpr
      | some d => Function.update s.gpr d .top := by
  unfold popInto Instruction.popDest
  rw [if_pos hone]
  cases insn.op? 0 with
  | none => rfl
  | some op =>
    simp only [Option.map_some, Option.bind_some, Operand.reg?]
    cases op.kind with
    | register r =>
      cases hr : r.dwarfRegOf with
      | none => simp [hr]
      | some d => simp [hr]
    | memory mem =>
      dsimp only [Option.bind_none]
      split <;> simp
    | immediate _ | pointer => rfl

theorem transferPop_regs_iff (hone : insn.opCount = 1) (hwide : insn.insn.operandWidth = 64)
    (hx : m'.regs = insn.popRegs m) :
    (Reading.ofEntry cfa entry).Regs (transferPop insn s).2.gpr m'.regs ↔
      ¬ ((∃ q, s.gpr kDWARFRsp = .origReg q) ∧ insn.popDest ≠ some kDWARFRsp) := by
  by_cases hq : ∃ q, s.gpr kDWARFRsp = .origReg q
  · obtain ⟨q, hq⟩ := hq
    have hgpr : (transferPop insn s).2.gpr =
        match insn.popDest with
        | none => s.gpr
        | some d => Function.update s.gpr d .top := by
      rw [transferPop, if_neg (by simp [hone, hwide]), popValue_untracked (untracked_of_origReg hq)]
      exact popInto_top_gpr hone s
    simp only [not_and, not_not]
    constructor
    · rintro hregs -
      by_contra hdest
      refine not_regs_of_moved (k := 8) (r := kDWARFRsp) ?_ (regs_of_origReg h hq) ?_ (by decide) hregs
      · rw [hgpr]
        cases hd : insn.popDest with
        | none => exact hq
        | some d =>
          have hne : kDWARFRsp ≠ d := fun he => hdest (he ▸ hd)
          simpa [hne] using hq
      · rw [hx]
        unfold Instruction.popRegs
        cases hd : insn.popDest with
        | none => simp [Instruction.stackBytes, hwide]
        | some d =>
          have hne : kDWARFRsp ≠ d := fun he => hdest (he ▸ hd)
          simp [Instruction.stackBytes, hwide, hne]
    · intro hdest
      rw [hgpr, hx, hdest ⟨q, hq⟩]
      unfold Instruction.popRegs
      simp only [hdest ⟨q, hq⟩, Function.update_idem]
      exact h.gpr.update _ trivial
  · simp only [hq, false_and, not_false_eq_true, iff_true]
    exact transferPop_sound h (settled_of_not_origReg hq) hx fun hnarrow => absurd hwide hnarrow

theorem transferLeave_regs_iff (hwide : insn.insn.operandWidth = 64) (hx : m'.regs = insn.leaveRegs m) :
    (Reading.ofEntry cfa entry).Regs (transferLeave s).gpr m'.regs ↔
      ¬ ∃ q, s.gpr kDWARFRbp = .origReg q := by
  refine ⟨fun hregs hq => ?_, fun hq =>
    transferLeave_sound h (settled_of_not_origReg hq) hx fun hnarrow => absurd hwide hnarrow⟩
  obtain ⟨q, hq⟩ := hq
  rw [transferLeave_untracked (untracked_of_origReg hq)] at hregs
  have hne : kDWARFRsp ≠ kDWARFRbp := by decide
  refine not_regs_of_moved (k := 8) (r := kDWARFRsp) ?_ (regs_of_origReg h hq) ?_ (by decide) hregs
  · simpa [hne] using hq
  · simp [hx, Instruction.leaveRegs, Instruction.stackBytes, hwide]

/-- `add` and `sub` with a constant follow a frame address and forget anything else. -/
theorem transferAddSub_regs {dst src : Operand} {r : ZydisRegister} {imm : Word}
    (hops : insn.ops2? = some (dst, src)) (hdst : dst.kind = .register r)
    (hsrc : src.kind = .immediate imm) (hx : insn.ExecAddSub m m') :
    (Reading.ofEntry cfa entry).Regs
      ((transferAddSub insn s).getD (clobberWrites insn s)).gpr m'.regs := by
  obtain ⟨kind, size, write, condWrite⟩ := dst
  obtain ⟨kind', size', write', condWrite'⟩ := src
  dsimp only at hdst hsrc
  subst hdst hsrc
  simp only [Instruction.ExecAddSub, hops] at hx
  simp only [transferAddSub, hops]
  cases hr : r.dwarfRegOf with
  | none =>
    simp only [hr] at hx
    simpa [addSubImm, hr] using clobberWrites_sound h hx
  | some d =>
    simp only [hr] at hx
    exact addSubImm_sound h hr hx

/-- The stack instructions leave no false register fact exactly where no stack register that they
move is an entry value. -/
theorem movesStack_regs_iff {z : Zydis} (hstack : insn.MovesStack) (hx : insn.Exec m m') :
    (Reading.ofEntry cfa entry).Regs (transfer z insn s).2.gpr m'.regs ↔ ¬ insn.LeavesStale s := by
  have hid := hstack.mnemonic
  simp only [List.mem_cons, List.not_mem_nil, or_false] at hid
  have hret : isReturnMnemonic insn.id = false := by
    rcases hid with hid | hid | hid | hid | hid | hid | hid | hid | hid | hid <;> rw [hid] <;> rfl
  have htrap : isTrapMnemonic insn.id = false := by
    rcases hid with hid | hid | hid | hid | hid | hid | hid | hid | hid | hid <;> rw [hid] <;> rfl
  have hd := h.dropStaleCmp insn
  simp only [Instruction.Exec, hret, hstack.isBranch, htrap, Bool.false_eq_true, if_false] at hx
  rw [transfer_of_switch hret hstack.isBranch htrap]
  have hstale : insn.LeavesStale (dropStaleCmp insn s) ↔ insn.LeavesStale s := by
    simp only [Instruction.LeavesStale, dropStaleCmp_gpr]
  rw [← hstale]
  generalize dropStaleCmp insn s = s₀ at hd
  rcases hid with hid | hid | hid | hid | hid | hid | hid | hid | hid | hid <;>
    simp only [hid] at hx <;>
    simp only [transferNamed, Instruction.LeavesStale, hid, getD_map_plain, Option.getD_some,
      not_false_eq_true, iff_true]
  · have hone := hstack.single (by simp [hid])
    have hwide := hstack.wide (by simp [hid])
    rw [transferPush, if_neg (by simp [hone, hwide])]
    refine pushValue_regs_iff hd _ ?_
    rw [hx, Instruction.stackBytes, if_pos hwide]
    rfl
  · exact pushValue_regs_iff hd _ hx
  · exact transferPop_regs_iff hd (hstack.single (by simp [hid])) (hstack.wide (by simp [hid])) hx
  · exact popfq_regs_iff hd hx
  · exact transferLeave_regs_iff hd (hstack.wide (by simp [hid])) hx
  · obtain ⟨dst, src, r, imm, hops, hdst, hsrc⟩ := hstack.constant (by simp [hid])
    exact transferAddSub_regs hd hops hdst hsrc hx
  · obtain ⟨dst, src, r, imm, hops, hdst, hsrc⟩ := hstack.constant (by simp [hid])
    exact transferAddSub_regs hd hops hdst hsrc hx
  · exact transferLea_sound hd z hx
  · exact transferMov_sound hd hx
  · exact transferMov_sound hd hx

end

namespace Sample

/-- push %rax -/
def pushInsn : DecodedInsn where
  length := 1
  mnemonic := .push
  operandCountVisible := 1
  operands := [⟨.register (.gpr64 .rax), 64, false, false⟩, ⟨.register (.gpr64 .rsp), 64, true, false⟩,
    ⟨.memory ⟨.gpr64 .rsp, .none, 0, 0⟩, 64, true, false⟩]
  category := .other
  hasSegment := false
  operandWidth := 64
  cpuFlags := some ⟨0, 0, 0, 0⟩

theorem movesStack_pushInsn : Instruction.MovesStack ⟨0x1000, pushInsn⟩ where
  mnemonic := by decide
  isBranch := rfl
  wide _ := rfl
  single _ := rfl
  constant h := absurd h (by decide)

/-- The state at entry once `mov %r10,%rsp` has switched stacks. -/
def switched : AbsState Int64 := AbsState.entry.copyReg kDWARFRsp 10

/-- Every register holds 0x8000 and every byte of memory is zero. -/
def flat : Machine := ⟨fun _ => 0x8000, fun _ => 0⟩

def flatEntry (q : ℕ) : Word := if q = 16 then 0 else 0x8000

theorem flat_load (addr : Word) : flat.load addr 8 = 0 := by
  simp [Machine.load, flat, readMem, littleEndian]

theorem describes_entry : (Reading.ofEntry 0x8008 flatEntry).Describes AbsState.entry flat := by
  constructor
  · intro r
    fin_cases r <;> rfl
  · intro k
    rw [flat_load]
    simp only [AbsState.slot, AbsState.entry, Std.ExtTreeMap.getElem?_insert, Std.ExtTreeMap.getElem?_empty]
    split_ifs
    · rfl
    · trivial

theorem describes_switched : (Reading.ofEntry 0x8008 flatEntry).Describes switched flat := by
  constructor
  · intro r
    fin_cases r <;> rfl
  · intro k
    have hslot : switched.slot k = AbsState.entry.slot k := AbsState.slot_setReg _ _ _ _ k
    rw [hslot]
    exact describes_entry.slot k

def flatPushed : Machine := { flat with regs := Function.update flat.regs kDWARFRsp 0x7ff8 }

theorem exec_pushInsn : Instruction.Exec ⟨0x1000, pushInsn⟩ flat flatPushed := rfl

end Sample

/-- Behind `mov %r10,%rsp`, a push leaves rsp named as the entry value of r10, eight bytes off. -/
theorem switched_push_not_regs :
    Instruction.MovesStack ⟨0x1000, Sample.pushInsn⟩ ∧
      (Reading.ofEntry 0x8008 Sample.flatEntry).Describes Sample.switched Sample.flat ∧
      Instruction.Exec ⟨0x1000, Sample.pushInsn⟩ Sample.flat Sample.flatPushed ∧
      ¬ (Reading.ofEntry 0x8008 Sample.flatEntry).Regs
        (transfer (Zydis.ofTable []) ⟨0x1000, Sample.pushInsn⟩ Sample.switched).2.gpr
        Sample.flatPushed.regs := by
  refine ⟨Sample.movesStack_pushInsn, Sample.describes_switched, Sample.exec_pushInsn, fun h => ?_⟩
  have hrsp : (0x7ff8 : Word) = 0x8000 := h kDWARFRsp
  revert hrsp
  decide

theorem entry_push_regs :
    (Reading.ofEntry 0x8008 Sample.flatEntry).Regs
      (transfer (Zydis.ofTable []) ⟨0x1000, Sample.pushInsn⟩ AbsState.entry).2.gpr
      Sample.flatPushed.regs := by
  refine (movesStack_regs_iff Sample.describes_entry Sample.movesStack_pushInsn Sample.exec_pushInsn).mpr ?_
  rintro ⟨q, hq⟩
  cases hq

end UnwindCheck
