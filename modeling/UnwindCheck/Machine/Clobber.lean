import UnwindCheck.Machine.Exec

/-! The generic clobber: which registers are forgotten after an instruction `Transfer` does not
model by name. -/
namespace UnwindCheck
variable {δ : Type} [Offset δ]

/-- The spelling of a GPR that an operand writes. -/
def Operand.writtenReg (op : Operand) : Option ZydisRegister :=
  if op.writes then op.reg?.filter fun r => r.dwarfRegOf.isSome else none

section
variable {insn : Instruction} {s : AbsState δ} {op : Operand}

theorem Operand.writtenGpr_eq (op : Operand) :
    op.writtenGpr = op.writtenReg.bind ZydisRegister.dwarfRegOf := by
  unfold writtenGpr writtenReg
  split
  · cases op.reg? with
    | none => rfl
    | some r => cases hr : r.dwarfRegOf <;> simp [Option.filter, hr]
  · rfl

/-- What one operand does to the registers, in both halves of the state. -/
theorem clobberOperand_cases (insn : Instruction) (s : AbsState δ) (op : Operand) :
    (op.writtenGpr = none ∧ (clobberOperand insn s op).gpr = s.gpr ∧
      (clobberOperand insn s op).tbl = s.tbl ∧ (clobberOperand insn s op).lastCmp = s.lastCmp) ∨
    ∃ r d, op.writtenReg = some r ∧ r.dwarfRegOf = some d ∧ op.writtenGpr = some d ∧
      clobberOperand insn s op = clobberWrittenReg s r d := by
  unfold clobberOperand Operand.writtenGpr Operand.writtenReg Operand.reg?
  cases op.writes with
  | false => exact Or.inl ⟨rfl, rfl, rfl, rfl⟩
  | true =>
    cases op.kind with
    | register r =>
      cases hr : r.dwarfRegOf with
      | none => left; simp [hr]
      | some d => exact Or.inr ⟨r, d, by simp [hr, Option.filter], hr, by simp [hr], by simp [hr]⟩
    | memory mem =>
      left
      simp only [Bool.not_true, Bool.false_eq_true, if_false]
      cases memSlot s insn mem with
      | none => exact ⟨rfl, rfl, rfl, rfl⟩
      | some k => exact ⟨rfl, eraseSlots_gpr _ _ _, eraseSlots_tbl _ _ _, eraseSlots_lastCmp _ _ _⟩
    | immediate _ => exact Or.inl ⟨rfl, rfl, rfl, rfl⟩
    | pointer => exact Or.inl ⟨rfl, rfl, rfl, rfl⟩

end

/-- The generic clobber forgets what the decoder marks, and nothing else. -/
theorem clobberWrites_reg (insn : Instruction) (s : AbsState δ) (r : Fin 16) :
    (insn.Marks r → (clobberWrites insn s).gpr r = .top ∧ ((clobberWrites insn s).tbl r).kind = .none) ∧
      (¬ insn.Marks r → (clobberWrites insn s).gpr r = s.gpr r ∧
        (clobberWrites insn s).tbl r = s.tbl r) := by
  unfold Instruction.Marks clobberWrites
  induction insn.insn.operands generalizing s with
  | nil => simp
  | cons op ops ih =>
    obtain ⟨htop, hkeep⟩ := ih (clobberOperand insn s op)
    rw [List.foldl_cons]
    by_cases hops : ∃ op ∈ ops, op.writtenGpr = some r
    · refine ⟨fun _ => htop hops, fun hm => ?_⟩
      obtain ⟨op', hin, hw⟩ := hops
      exact absurd ⟨op', List.mem_cons_of_mem _ hin, hw⟩ hm
    · have hmarks : (∃ op' ∈ op :: ops, op'.writtenGpr = some r) ↔ op.writtenGpr = some r := by
        simpa using fun op' hin hw => absurd ⟨op', hin, hw⟩ hops
      rw [hmarks, (hkeep hops).1, (hkeep hops).2]
      rcases clobberOperand_cases insn s op with ⟨hno, hg, ht, -⟩ | ⟨q, d, -, -, hd, hc⟩
      · simp [hno, hg, ht]
      · rw [hd, hc, clobberWrittenReg_gpr, clobberWrittenReg_tbl]
        by_cases hr : r = d
        · subst hr
          simp [TableVal.none]
        · simp [hr, Ne.symm hr]

theorem clobberWrites_gpr (insn : Instruction) (s : AbsState δ) (r : Fin 16) :
    (insn.Marks r → (clobberWrites insn s).gpr r = .top) ∧
      (¬ insn.Marks r → (clobberWrites insn s).gpr r = s.gpr r) :=
  ⟨fun h => ((clobberWrites_reg insn s r).1 h).1, fun h => ((clobberWrites_reg insn s r).2 h).1⟩

namespace Instruction

/-- The instructions `Transfer` has a case for: returns, jumps to an explicit target, calls, traps
and the mnemonics of its `switch`. -/
def isModelled (insn : Instruction) : Bool :=
  isReturnMnemonic insn.id || isTrapMnemonic insn.id ||
    match insn.id with
    | .jmp => (insn.op? 0).isSome
    | .call | .syscall | .sysenter | .int | .int1 | .into | .vmcall | .vmmcall => true
    | .push | .pushfq | .pop | .popfq | .leave | .lea | .mov | .movq | .movsxd | .add | .sub => true
    | .cmp | .movzx | .movsx | .nop | .endbr32 | .endbr64 => true
    | _ => false

end Instruction

/-- Every GPR that an operand writes is forgotten, and every other one is left alone. -/
def ForgetsWrites (z : Zydis) (insn : Instruction) (s : AbsState δ) : Prop :=
  ∀ r, (insn.Marks r → (transfer z insn s).2.gpr r = .top ∧
      ((transfer z insn s).2.tbl r).kind = .none) ∧
    (¬ insn.Marks r → (transfer z insn s).2.gpr r = s.gpr r ∧ (transfer z insn s).2.tbl r = s.tbl r)

theorem transferNamed_eq_none {z : Zydis} {insn : Instruction} (h : insn.isModelled = false)
    (s : AbsState δ) : transferNamed z insn s = none := by
  unfold Instruction.isModelled at h
  unfold transferNamed
  split <;> simp_all [isTrapMnemonic]

/-- Written registers are forgotten unless the instruction counts as a branch: a branch is
classified before the generic clobber is reached, so what it writes must be unknown already. -/
theorem forgetsWrites_iff {z : Zydis} {insn : Instruction} (h : insn.isModelled = false)
    (s : AbsState δ) :
    ForgetsWrites z insn s ↔
      (insn.isBranch = true → ∀ r, insn.Marks r → s.gpr r = .top ∧ (s.tbl r).kind = .none) := by
  have hret : isReturnMnemonic insn.id = false := by
    simp only [Instruction.isModelled, Bool.or_eq_false_iff] at h
    exact h.1.1
  have htrap : isTrapMnemonic insn.id = false := by
    simp only [Instruction.isModelled, Bool.or_eq_false_iff] at h
    exact h.1.2
  unfold ForgetsWrites transfer
  simp only [hret, htrap, Bool.false_eq_true, if_false, transferNamed_eq_none h]
  split_ifs with hbr
  · have hbr' : insn.isBranch = true := by simpa [Instruction.isBranch] using hbr
    simp [hbr']
  · have hbr' : insn.isBranch = false := by simpa [Instruction.isBranch] using hbr
    simp only [hbr', Bool.false_eq_true, false_imp_iff, iff_true, Option.getD_none]
    intro r
    have hreg := clobberWrites_reg insn (dropStaleCmp insn s) r
    rwa [dropStaleCmp_gpr, dropStaleCmp_tbl] at hreg

namespace Sample

/-- loop .; it counts in rcx, which is a hidden operand. -/
def loopInsn : DecodedInsn where
  length := 2
  mnemonic := .other 427
  operandCountVisible := 1
  operands := [⟨.immediate (-2), 8, false, false⟩, ⟨.register (.gpr64 .rcx), 64, true, false⟩,
    ⟨.register .rip, 64, false, true⟩]
  category := .condBr
  hasSegment := false
  operandWidth := 64
  cpuFlags := some ⟨0, 0, 0, 0⟩

/-- and $-16,%rsp -/
def realignInsn : DecodedInsn where
  length := 4
  mnemonic := .other 12
  operandCountVisible := 2
  operands := [⟨.register (.gpr64 .rsp), 64, true, false⟩, ⟨.immediate (-16), 8, false, false⟩]
  category := .other
  hasSegment := false
  operandWidth := 64
  cpuFlags := some ⟨0xc4, 0x801, 0, 0x10⟩

end Sample

/-- After a `loop` on function entry rcx still counts as the caller's, decremented or not. -/
theorem loop_not_forgetsWrites :
    (⟨0x1000, Sample.loopInsn⟩ : Instruction).isModelled = false ∧
      ¬ ForgetsWrites (Zydis.ofTable []) ⟨0x1000, Sample.loopInsn⟩ (AbsState.entry : AbsState Int64) := by
  refine ⟨by decide, fun h => ?_⟩
  have hmarks : (⟨0x1000, Sample.loopInsn⟩ : Instruction).Marks 2 :=
    ⟨⟨.register (.gpr64 .rcx), 64, true, false⟩, by simp [Sample.loopInsn], rfl⟩
  have hrcx := ((h 2).1 hmarks).1
  cases hrcx

theorem realign_forgetsWrites :
    ForgetsWrites (Zydis.ofTable []) ⟨0x1000, Sample.realignInsn⟩ (AbsState.entry : AbsState Int64) := by
  have hnamed : (⟨0x1000, Sample.realignInsn⟩ : Instruction).isModelled = false := by decide
  refine (forgetsWrites_iff hnamed _).mpr fun hbr => ?_
  cases hbr

end UnwindCheck
