import UnwindCheck.Machine.Cpu

/-! What the width of a write proves about the register, where the write may not happen. -/
namespace UnwindCheck
variable {δ : Type} [Offset δ]

namespace Operand

/-- The operand writes GPR `d`, under the spelling that is returned. -/
def writtenAs (op : Operand) (d : Fin 16) : Option ZydisRegister :=
  op.writtenReg.filter fun r => r.dwarfRegOf = some d

theorem writtenAs_eq_none {op : Operand} {d : Fin 16} :
    op.writtenAs d = none ↔ op.writtenGpr ≠ some d := by
  rw [op.writtenGpr_eq, writtenAs]
  cases op.writtenReg with
  | none => simp
  | some r => by_cases hr : r.dwarfRegOf = some d <;> simp [Option.filter, hr]

theorem writtenAs_eq_some {op : Operand} {d : Fin 16} {r : ZydisRegister} :
    op.writtenAs d = some r ↔ op.writtenReg = some r ∧ r.dwarfRegOf = some d := by
  simp [writtenAs, Option.filter_eq_some_iff]

end Operand

/-- One operand's part in `clearsUpper`. -/
def clearsUpperAfter (d : Fin 16) (clear : Bool) (op : Operand) : Bool :=
  match op.writtenAs d with
  | some r =>
    if r.isFull64 then false
    else if r.widthBits = 32 then op.write || clear
    else clear
  | none => clear

/-- The operands leave the upper half of `d` empty in any case: a 32-bit write that does happen,
with no write of the whole register after it. -/
def clearsUpper (d : Fin 16) (ops : List Operand) : Bool := ops.foldl (clearsUpperAfter d) false

/-- The last operand to write `d` writes its 32-bit spelling. -/
def endsIn32 (d : Fin 16) (ops : List Operand) : Bool :=
  ops.foldl (fun last op => ((op.writtenAs d).map fun r => decide (r.widthBits = 32)).getD last) false

theorem clearsUpper_snoc (d : Fin 16) (ops : List Operand) (op : Operand) :
    clearsUpper d (ops ++ [op]) = clearsUpperAfter d (clearsUpper d ops) op := by
  simp [clearsUpper]

theorem endsIn32_snoc (d : Fin 16) (ops : List Operand) (op : Operand) :
    endsIn32 d (ops ++ [op]) =
      ((op.writtenAs d).map fun r => decide (r.widthBits = 32)).getD (endsIn32 d ops) := by
  simp [endsIn32]

/-- An operand that does not write `d`. -/
theorem Operand.Effect.keeps {op : Operand} {regs regs' : Fin 16 → Word} (h : op.Effect regs regs')
    {d : Fin 16} (hd : op.writtenAs d = Option.none) : regs' d = regs d := by
  cases h with
  | none hno => rfl
  | skip hskip => rfl
  | put v hr he =>
    rename_i r e
    refine Function.update_of_ne ?_ _ _
    rintro rfl
    rw [Operand.writtenAs_eq_some.mpr ⟨hr, he⟩] at hd
    cases hd

/-- An operand that writes `d`, or that may leave it alone. -/
theorem Operand.Effect.writes {op : Operand} {regs regs' : Fin 16 → Word} (h : op.Effect regs regs')
    {d : Fin 16} {r : ZydisRegister} (hd : op.writtenAs d = some r) :
    (∃ v, regs' d = r.put (regs d) v) ∨ op.write = false ∧ regs' d = regs d := by
  obtain ⟨hr, he⟩ := Operand.writtenAs_eq_some.mp hd
  cases h with
  | none hno =>
    rw [hno] at hr
    cases hr
  | skip hskip => exact Or.inr ⟨hskip, rfl⟩
  | put v hr' he' =>
    obtain rfl := Option.some.inj (hr.symm.trans hr')
    obtain rfl := Option.some.inj (he.symm.trans he')
    exact Or.inl ⟨v, Function.update_self _ _ _⟩

theorem toNat_lt_of_clearsUpper {d : Fin 16} {ops : List Operand} {regs regs' : Fin 16 → Word}
    (hrun : RunsOperands ops regs regs') (h : clearsUpper d ops = true) : (regs' d).toNat < 2 ^ 32 := by
  induction hrun with
  | nil => cases h
  | snoc hrun hop ih =>
    rw [clearsUpper_snoc, clearsUpperAfter] at h
    split at h
    · rename_i r hr
      split_ifs at h with hfull h32
      · rcases hop.writes hr with ⟨v, hv⟩ | ⟨hskip, hkeep⟩
        · rw [hv]
          exact ZydisRegister.put_lt_of_gpr32 h32 _ _
        · rw [hskip, Bool.false_or] at h
          rw [hkeep]
          exact ih h
      · rcases hop.writes hr with ⟨v, hv⟩ | ⟨-, hkeep⟩
        · rw [hv]
          exact ZydisRegister.put_lt (by simpa using hfull) (ih h) v
        · rw [hkeep]
          exact ih h
    · rename_i hr
      rw [hop.keeps hr]
      exact ih h

/-- Otherwise something can be left there. -/
theorem exists_run_of_not_clearsUpper {d : Fin 16} {ops : List Operand} (h : clearsUpper d ops = false) :
    ∃ regs regs', RunsOperands ops regs regs' ∧ 2 ^ 32 ≤ (regs' d).toNat := by
  induction ops using List.reverseRecOn with
  | nil => exact ⟨fun _ => BitVec.allOnes 64, _, .nil, by decide⟩
  | append_singleton ops op ih =>
    rw [clearsUpper_snoc, clearsUpperAfter] at h
    split at h
    · rename_i r hr
      obtain ⟨hreg, hdwarf⟩ := Operand.writtenAs_eq_some.mp hr
      split_ifs at h with hfull h32
      · -- whatever came before, the whole register is written last
        obtain ⟨regs₁, hrun⟩ := exists_runsOperands ops fun _ => 0
        refine ⟨_, _, .snoc hrun (.put (BitVec.allOnes 64) hreg hdwarf), ?_⟩
        rw [Function.update_self]
        cases r with
        | gpr64 g => exact (by decide : 2 ^ 32 ≤ (BitVec.allOnes 64).toNat)
        | gpr32 | gpr16 | gpr8 | high8 | none | rip | other => cases hfull
      · obtain ⟨hskip, hclear⟩ := Bool.or_eq_false_iff.mp h
        obtain ⟨regs, regs₁, hrun, hbig⟩ := ih hclear
        exact ⟨regs, regs₁, .snoc hrun (.skip hskip), hbig⟩
      · obtain ⟨regs, regs₁, hrun, hbig⟩ := ih h
        obtain ⟨v, hv⟩ := ZydisRegister.exists_put_eq h32 (regs₁ d)
        refine ⟨regs, _, .snoc hrun (.put v hreg hdwarf), ?_⟩
        rw [Function.update_self, hv]
        exact hbig
    · rename_i hr
      obtain ⟨regs, regs₁, hrun, hbig⟩ := ih h
      obtain ⟨regs₂, hop⟩ := op.exists_effect regs₁
      refine ⟨regs, regs₂, .snoc hrun hop, ?_⟩
      rw [hop.keeps hr]
      exact hbig

/-- What the generic clobber leaves of the table half of a register it forgets. -/
theorem clobberWrites_tbl (insn : Instruction) (s : AbsState δ) {d : Fin 16} (h : insn.Marks d) :
    (clobberWrites insn s).tbl d =
      { TableVal.none with
        valueBound := if endsIn32 d insn.insn.operands then widthBound 32 else kBoundTop } := by
  unfold Instruction.Marks at h
  unfold clobberWrites
  generalize insn.insn.operands = operands at h ⊢
  induction operands using List.reverseRecOn with
  | nil => simp at h
  | append_singleton ops op ih =>
    rw [List.foldl_append, List.foldl_cons, List.foldl_nil, endsIn32_snoc]
    have hbefore (hd : op.writtenGpr ≠ some d) : ∃ op ∈ ops, op.writtenGpr = some d := by
      obtain ⟨op', hin, hw⟩ := h
      rcases List.mem_append.mp hin with hin | hin
      · exact ⟨op', hin, hw⟩
      · exact absurd (List.mem_singleton.mp hin ▸ hw) hd
    rcases clobberOperand_cases insn (ops.foldl (clobberOperand insn) s) op with
      ⟨hno, -, ht, -⟩ | ⟨r, e, hr, he, hw, hc⟩
    · have hd : op.writtenGpr ≠ some d := by simp [hno]
      rw [ht, Operand.writtenAs_eq_none.mpr hd]
      exact ih (hbefore hd)
    · rw [hc, clobberWrittenReg_tbl]
      by_cases hde : d = e
      · subst hde
        rw [Operand.writtenAs_eq_some.mpr ⟨hr, he⟩, Function.update_self]
        simp [writtenRegBound]
      · have hd : op.writtenGpr ≠ some d := by simpa [hw] using Ne.symm hde
        rw [Operand.writtenAs_eq_none.mpr hd, Function.update_of_ne hde]
        exact ih (hbefore hd)

/-- The bound that the generic clobber records. -/
theorem clobberWrites_valueBound (insn : Instruction) (s : AbsState δ) {d : Fin 16} (h : insn.Marks d) :
    ((clobberWrites insn s).tbl d).valueBound =
      if endsIn32 d insn.insn.operands then widthBound 32 else kBoundTop := by
  rw [clobberWrites_tbl insn s h]

/-- The instruction ends in the generic clobber. -/
structure Instruction.Generic (z : Zydis) (insn : Instruction) (s : AbsState δ) : Prop where
  isReturn : isReturnMnemonic insn.id = false
  isBranch : insn.isBranch = false
  isTrap : isTrapMnemonic insn.id = false
  unnamed : transferNamed z insn (dropStaleCmp insn s) = none

theorem Instruction.Generic.transfer_eq {z : Zydis} {insn : Instruction} {s : AbsState δ}
    (h : insn.Generic z s) : (transfer z insn s).2 = clobberWrites insn (dropStaleCmp insn s) := by
  rw [transfer_of_switch h.isReturn h.isBranch h.isTrap, h.unnamed, Option.getD_none]

/-- Whatever the registers held and whichever conditional writes happen, the bound recorded for a
register the instruction writes is one. -/
def WidthsHold (z : Zydis) (insn : Instruction) (s : AbsState δ) : Prop :=
  ∀ regs regs', RunsOperands insn.insn.operands regs regs' → ∀ d, insn.Marks d →
    (regs' d).toNat ≤ ((transfer z insn s).2.tbl d).valueBound

theorem marks_of_endsIn32 {insn : Instruction} {d : Fin 16} (h : endsIn32 d insn.insn.operands = true) :
    insn.Marks d := by
  unfold Instruction.Marks
  generalize insn.insn.operands = operands at h ⊢
  induction operands using List.reverseRecOn with
  | nil => cases h
  | append_singleton ops op ih =>
    rw [endsIn32_snoc] at h
    cases hr : op.writtenAs d with
    | none =>
      rw [hr] at h
      obtain ⟨op', hin, hw⟩ := ih h
      exact ⟨op', List.mem_append_left _ hin, hw⟩
    | some r =>
      obtain ⟨hreg, hdwarf⟩ := Operand.writtenAs_eq_some.mp hr
      refine ⟨op, by simp, ?_⟩
      rw [op.writtenGpr_eq, hreg]
      exact hdwarf

/-- Widths hold exactly where no register is last written by a 32-bit write that may not happen
while nothing before it has emptied the upper half. -/
theorem widthsHold_iff {z : Zydis} {insn : Instruction} {s : AbsState δ} (h : insn.Generic z s) :
    WidthsHold z insn s ↔ ∀ d, endsIn32 d insn.insn.operands = true →
      clearsUpper d insn.insn.operands = true := by
  unfold WidthsHold
  rw [h.transfer_eq]
  constructor
  · intro hall d h32
    by_contra hclear
    obtain ⟨regs, regs', hrun, hbig⟩ :=
      exists_run_of_not_clearsUpper (Bool.not_eq_true _ ▸ hclear)
    have hmarks := marks_of_endsIn32 h32
    have hle := hall regs regs' hrun d hmarks
    rw [clobberWrites_valueBound insn _ hmarks, if_pos h32] at hle
    have hbound : widthBound 32 = 2 ^ 32 - 1 := rfl
    omega
  · intro hclear regs regs' hrun d hmarks
    rw [clobberWrites_valueBound insn _ hmarks]
    split_ifs with h32
    · have hlt := toNat_lt_of_clearsUpper hrun (hclear d h32)
      have hbound : widthBound 32 = 2 ^ 32 - 1 := rfl
      omega
    · have hlt := (regs' d).isLt
      unfold kBoundTop
      omega

namespace Sample

/-- cmpxchg %ecx,(%rdi); eax is loaded only if the comparison fails. -/
def cmpxchgInsn : DecodedInsn where
  length := 3
  mnemonic := .other 90
  operandCountVisible := 2
  operands := [⟨.memory ⟨.gpr64 .rdi, .none, 0, 0⟩, 32, false, true⟩,
    ⟨.register (.gpr32 .rcx), 32, false, false⟩, ⟨.register (.gpr32 .rax), 32, false, true⟩]
  category := .other
  hasSegment := false
  operandWidth := 32
  cpuFlags := some ⟨0x8d5, 0, 0, 0⟩

/-- xor %ecx,%eax -/
def xorInsn : DecodedInsn where
  length := 2
  mnemonic := .other 1520
  operandCountVisible := 2
  operands := [⟨.register (.gpr32 .rax), 32, true, false⟩, ⟨.register (.gpr32 .rcx), 32, false, false⟩]
  category := .other
  hasSegment := false
  operandWidth := 32
  cpuFlags := some ⟨0xc4, 0x801, 0, 0x10⟩

theorem generic_cmpxchgInsn (s : AbsState Int64) :
    Instruction.Generic (Zydis.ofTable []) ⟨0x1000, cmpxchgInsn⟩ s := ⟨rfl, rfl, rfl, rfl⟩

theorem generic_xorInsn (s : AbsState Int64) :
    Instruction.Generic (Zydis.ofTable []) ⟨0x1000, xorInsn⟩ s := ⟨rfl, rfl, rfl, rfl⟩

end Sample

/-- A `cmpxchg` that succeeds leaves all 64 bits of rax alone, and rax counts as 32 bits. -/
theorem cmpxchg_not_widthsHold :
    Instruction.Generic (Zydis.ofTable []) ⟨0x1000, Sample.cmpxchgInsn⟩
        (AbsState.entry : AbsState Int64) ∧
      ¬ WidthsHold (Zydis.ofTable []) ⟨0x1000, Sample.cmpxchgInsn⟩
        (AbsState.entry : AbsState Int64) := by
  refine ⟨Sample.generic_cmpxchgInsn _, fun h => ?_⟩
  let regs : Fin 16 → Word := fun _ => BitVec.allOnes 64
  have hrun : RunsOperands Sample.cmpxchgInsn.operands regs regs :=
    ((RunsOperands.nil.snoc (.skip rfl)).snoc (.none rfl)).snoc (.skip rfl)
  have hmarks : (⟨0x1000, Sample.cmpxchgInsn⟩ : Instruction).Marks 0 :=
    ⟨⟨.register (.gpr32 .rax), 32, false, true⟩, by simp [Sample.cmpxchgInsn], rfl⟩
  have hle := h regs regs hrun 0 hmarks
  revert hle
  decide

theorem xor_widthsHold :
    WidthsHold (Zydis.ofTable []) ⟨0x1000, Sample.xorInsn⟩ (AbsState.entry : AbsState Int64) := by
  refine (widthsHold_iff (Sample.generic_xorInsn _)).mpr ?_
  decide

end UnwindCheck
