import UnwindCheck.Machine.Spellings

/-! A comparison that waits for its branch: which instructions the flags, or the compared register,
change under it. -/
namespace UnwindCheck
variable {δ : Type} [Offset δ]

/-- A guard that is there afterwards was there before, and not on a register in `rs`. -/
def Forgets (s s' : AbsState δ) (rs : Fin 16 → Prop) : Prop :=
  ∀ g, s'.lastCmp = some g → s.lastCmp = some g ∧ ¬ rs g.reg

namespace Forgets
variable {s s' s'' : AbsState δ} {rs qs : Fin 16 → Prop}

theorem of_eq (h : s'.lastCmp = s.lastCmp) : Forgets s s' fun _ => False :=
  fun _ hg => ⟨h ▸ hg, not_false⟩

theorem mono (h : Forgets s s' rs) (hsub : ∀ r, qs r → rs r) : Forgets s s' qs :=
  fun g hg => ⟨(h g hg).1, fun hq => (h g hg).2 (hsub _ hq)⟩

theorem trans (h : Forgets s s' rs) (h' : Forgets s' s'' qs) : Forgets s s'' fun r => rs r ∨ qs r := by
  intro g hg
  obtain ⟨hg', hq⟩ := h' g hg
  obtain ⟨hg'', hr⟩ := h g hg'
  exact ⟨hg'', not_or.mpr ⟨hr, hq⟩⟩

theorem congr (h : Forgets s s' rs) (heq : s''.lastCmp = s'.lastCmp) : Forgets s s'' rs :=
  fun g hg => h g (heq ▸ hg)

theorem setReg (s : AbsState δ) (r : Fin 16) (v : AbsVal δ) (t : TableVal) :
    Forgets s (s.setReg r v t) (· = r) := by
  intro g hg
  rw [AbsState.setReg_lastCmp] at hg
  simpa using Option.filter_eq_some_iff.mp hg

theorem of_writesReg {d : Fin 16} (h : WritesReg s s' d) : Forgets s s' (· = d) := by
  obtain ⟨v, t, rfl⟩ := h
  exact setReg s d v t

theorem clobberReg (s : AbsState δ) (r : Fin 16) : Forgets s (s.clobberReg r) (· = r) :=
  setReg s r .top .none

theorem clobberWrittenReg (s : AbsState δ) (r : ZydisRegister) (d : Fin 16) :
    Forgets s (clobberWrittenReg s r d) (· = d) := setReg s d .top .none

theorem foldl_clobberReg (rs : List (Fin 16)) (s : AbsState δ) :
    Forgets s (rs.foldl AbsState.clobberReg s) (· ∈ rs) := by
  induction rs generalizing s with
  | nil => exact (of_eq rfl).mono (by simp)
  | cons r rs ih =>
    rw [List.foldl_cons]
    exact ((setReg s r .top .none).trans (ih _)).mono (by simp)

theorem callEffect (s : AbsState δ) : Forgets s (callEffect s) (· ∈ kCallerSaved) := by
  unfold UnwindCheck.callEffect
  refine ((of_eq ?_).trans (foldl_clobberReg kCallerSaved _)).mono fun _ => Or.inr
  split <;> rfl

/-- Where rsp is a frame address, pushing and popping write it. -/
theorem pushValue (s : AbsState δ) (v : AbsVal δ) :
    Forgets s (pushValue s v) fun r => r = kDWARFRsp ∧ ∃ d, s.gpr kDWARFRsp = .cfaRel d := by
  unfold UnwindCheck.pushValue
  split
  · exact ((setReg s _ _ _).congr (AbsState.setSlot_lastCmp _ _ _)).mono fun _ h => h.1
  · rename_i hno
    refine (of_eq rfl).mono ?_
    rintro r ⟨-, d, hd⟩
    exact hno d hd

theorem popValue (s : AbsState δ) :
    Forgets s (popValue s).2 fun r => r = kDWARFRsp ∧ ∃ d, s.gpr kDWARFRsp = .cfaRel d := by
  unfold UnwindCheck.popValue
  split
  · dsimp only
    exact (setReg s kDWARFRsp _ _).mono fun _ h => h.1
  · rename_i hno
    refine (of_eq rfl).mono ?_
    rintro r ⟨-, d, hd⟩
    exact hno d hd

theorem popInto (insn : Instruction) (v : AbsVal δ) (s : AbsState δ) :
    Forgets s (popInto insn v s) fun r =>
      ((insn.op? 0).bind Operand.reg?).bind ZydisRegister.dwarfRegOf = some r := by
  unfold UnwindCheck.popInto
  cases hop : insn.op? 0 with
  | none => exact (of_eq rfl).mono (by simp)
  | some op =>
    cases hkind : op.kind with
    | register q =>
      simp only [Option.map_some, hkind, Option.bind_some, Operand.reg?]
      cases hq : q.dwarfRegOf with
      | none => exact (of_eq rfl).mono (by simp)
      | some d => exact (setReg s d _ _).mono fun r hr => (Option.some.inj hr).symm
    | memory mem =>
      simp only [Option.map_some, hkind]
      refine (of_eq ?_).mono (by simp [Operand.reg?, hkind])
      split
      · exact AbsState.setSlot_lastCmp _ _ _
      · rfl
    | immediate _ | pointer =>
      simp only [Option.map_some, hkind]
      exact (of_eq rfl).mono (by simp [Operand.reg?, hkind])

theorem transferLeave (s : AbsState δ) :
    Forgets s (transferLeave s) fun r => r = kDWARFRsp ∨ r = kDWARFRbp := by
  unfold UnwindCheck.transferLeave
  dsimp only
  split
  · exact (((setReg s kDWARFRsp _ _).trans (setReg _ kDWARFRbp _ _)).trans (setReg _ kDWARFRsp _ _)).mono
      fun _ => Or.inl
  · exact (setReg s kDWARFRsp _ _).trans (setReg _ kDWARFRbp _ _)

theorem clobberWrites (insn : Instruction) (s : AbsState δ) :
    Forgets s (clobberWrites insn s) insn.Marks := by
  unfold UnwindCheck.clobberWrites Instruction.Marks
  induction insn.insn.operands generalizing s with
  | nil => exact (of_eq rfl).mono (by simp)
  | cons op ops ih =>
    rw [List.foldl_cons]
    have hop : Forgets s (clobberOperand insn s op) fun r => op.writtenGpr = some r := by
      rcases clobberOperand_cases insn s op with ⟨hno, -, -, hcmp⟩ | ⟨r, d, -, -, hd, hc⟩
      · exact (of_eq hcmp).mono (by simp [hno])
      · rw [hc]
        exact (clobberWrittenReg s r d).mono fun q hq => (Option.some.inj (hd.symm.trans hq)).symm
    exact (hop.trans (ih _)).mono (by simp)

end Forgets

theorem DecodedInsn.WritesOnly.eq_of_marks {insn : Instruction} {r : ZydisRegister} {d q : Fin 16}
    (h : insn.insn.WritesOnly r) (hr : r.dwarfRegOf = some d) (hq : insn.Marks q) : q = d := by
  obtain ⟨dest, rest, hops, hkind, -, hrest⟩ := h
  obtain ⟨op, hin, hw⟩ := hq
  rw [hops] at hin
  unfold Operand.writtenGpr Operand.reg? at hw
  rcases List.mem_cons.mp hin with rfl | hin
  · rw [hkind] at hw
    split_ifs at hw
    exact (Option.some.inj (hr.symm.trans hw)).symm
  · split_ifs at hw with hwrites
    obtain ⟨a, ha, hnone⟩ := hrest op hin hwrites
    rw [ha] at hw
    simp [hnone] at hw

namespace Instruction
variable (insn : Instruction)

/-- The registers afterwards: a branch changes what the decoder marks, a call that returns what
belongs to the callee. -/
def ChangesRegs (regs regs' : Fin 16 → Word) : Prop :=
  if insn.isBranch then ∀ r, ¬ insn.Marks r → regs' r = regs r
  else if insn.id = .call then ∀ r, r ∉ kCallerSaved → regs' r = regs r
  else ∃ mem mem', insn.Exec ⟨regs, mem⟩ ⟨regs', mem'⟩

/-- One step of the processor that another can follow. The flags are anything after a call, the
comparison's after a `cmp` with a constant, and otherwise the old ones unless the decoder says that
they are written. The size of a GPR operand is that of its spelling. -/
structure Steps (c c' : Cpu) : Prop where
  isReturn : isReturnMnemonic insn.id = false
  isTrap : insn.isBranch = false → isTrapMnemonic insn.id = false
  regs : insn.ChangesRegs c.regs c'.regs
  compared : ∀ x d imm, insn.Compares x imm → x.dwarfRegOf = some d →
    c'.flags = cmpFlags x.widthBits (x.value (c.regs d)) (imm.toNat % 2 ^ x.widthBits)
  flags : (∀ x imm, insn.Compares x imm → x.dwarfRegOf = none) →
    insn.id = .call ∧ insn.isBranch = false ∨ writesEflags insn = true ∨ c'.flags = c.flags
  sized : ∀ op ∈ insn.insn.operands, ∀ x, op.kind = .register x → x.dwarfRegOf ≠ none →
    op.size = x.widthBits
  marksDest : insn.insn.MarksDest

/-- A register that the instruction changes and `Transfer` does not write: what a branch writes, rsp
in a push or a pop while it is no frame address, and what a narrow pop loads. -/
def WritesUnseen (s : AbsState δ) (r : Fin 16) : Prop :=
  if insn.isBranch then insn.Marks r
  else match insn.id with
    | .push =>
      (insn.opCount = 1 ∧ insn.insn.operandWidth = 64) ∧ r = kDWARFRsp ∧ ∀ d, s.gpr kDWARFRsp ≠ .cfaRel d
    | .pushfq | .popfq => r = kDWARFRsp ∧ ∀ d, s.gpr kDWARFRsp ≠ .cfaRel d
    | .pop =>
      if insn.opCount = 1 ∧ insn.insn.operandWidth = 64 then
        r = kDWARFRsp ∧ insn.popDest ≠ some kDWARFRsp ∧ ∀ d, s.gpr kDWARFRsp ≠ .cfaRel d
      else r ≠ kDWARFRsp ∧ insn.popDest = some r
    | _ => False

end Instruction

section Forgets
variable {insn : Instruction} {s : AbsState δ} {m m' : Machine} {z : Zydis}

/-- A move of rsp is seen exactly where rsp is a frame address. -/
theorem rsp_seen {w : Word} (hx : m'.regs = Function.update m.regs kDWARFRsp w) {r : Fin 16}
    (hr : m'.regs r ≠ m.regs r) (hseen : ¬ (r = kDWARFRsp ∧ ∀ d, s.gpr kDWARFRsp ≠ .cfaRel d)) :
    r = kDWARFRsp ∧ ∃ d, s.gpr kDWARFRsp = .cfaRel d := by
  have hrsp : r = kDWARFRsp := by
    by_contra hne
    exact hr (by rw [hx, Function.update_of_ne hne])
  simpa [hrsp] using hseen

theorem transferPush_forgets (hx : m'.regs = Function.update m.regs kDWARFRsp
      (m.regs kDWARFRsp - BitVec.ofNat 64 insn.stackBytes)) :
    Forgets s (transferPush insn s).2 fun r => m'.regs r ≠ m.regs r ∧
      ¬ ((insn.opCount = 1 ∧ insn.insn.operandWidth = 64) ∧ r = kDWARFRsp ∧
        ∀ d, s.gpr kDWARFRsp ≠ .cfaRel d) := by
  unfold transferPush
  split_ifs with hnarrow
  · refine (Forgets.clobberReg s kDWARFRsp).mono fun r hr => ?_
    by_contra hne
    exact hr.1 (by rw [hx, Function.update_of_ne hne])
  · refine (Forgets.pushValue s _).mono fun r hr => rsp_seen hx hr.1 ?_
    simp only [not_or, not_not] at hnarrow
    simpa [hnarrow] using hr.2

theorem popDest_of_opCount (h : insn.opCount = 1) :
    ((insn.op? 0).bind Operand.reg?).bind ZydisRegister.dwarfRegOf = insn.popDest := by
  unfold Instruction.popDest
  rw [if_pos h]

theorem transferPop_forgets (hx : m'.regs = insn.popRegs m) :
    Forgets s (transferPop insn s).2 fun r => m'.regs r ≠ m.regs r ∧
      ¬ (if insn.opCount = 1 ∧ insn.insn.operandWidth = 64 then
          r = kDWARFRsp ∧ insn.popDest ≠ some kDWARFRsp ∧ ∀ d, s.gpr kDWARFRsp ≠ .cfaRel d
        else r ≠ kDWARFRsp ∧ insn.popDest = some r) := by
  have hchanged : ∀ r, m'.regs r ≠ m.regs r → r = kDWARFRsp ∨ insn.popDest = some r := by
    intro r hr
    by_contra hne
    obtain ⟨hrsp, hdest⟩ := not_or.mp hne
    refine hr ?_
    rw [hx]
    unfold Instruction.popRegs
    cases hd : insn.popDest with
    | none => simp [hrsp]
    | some d =>
      have hrd : r ≠ d := fun h => hdest (h ▸ hd)
      simp [hrsp, hrd]
  unfold transferPop
  by_cases hwide : insn.opCount = 1 ∧ insn.insn.operandWidth = 64
  · rw [if_neg (by omega)]
    simp only [if_pos hwide]
    refine ((Forgets.popValue s).trans (Forgets.popInto insn _ _)).mono fun r hr => ?_
    rw [popDest_of_opCount hwide.1]
    by_cases hdest : insn.popDest = some r
    · exact Or.inr hdest
    · have hrsp := (hchanged r hr.1).resolve_right hdest
      refine Or.inl ⟨hrsp, ?_⟩
      subst hrsp
      by_contra hno
      exact hr.2 ⟨rfl, hdest, fun d hd => hno ⟨d, hd⟩⟩
  · rw [if_pos (by omega)]
    simp only [if_neg hwide]
    refine (Forgets.clobberReg s kDWARFRsp).mono fun r hr => ?_
    by_contra hrsp
    exact hr.2 ⟨hrsp, (hchanged r hr.1).resolve_left hrsp⟩

theorem transferLeave_forgets (hx : m'.regs = insn.leaveRegs m) :
    Forgets s (transferLeave s) fun r => m'.regs r ≠ m.regs r := by
  refine (Forgets.transferLeave s).mono fun r hr => ?_
  by_contra hne
  obtain ⟨hrsp, hrbp⟩ := not_or.mp hne
  exact hr (by simp [hx, Instruction.leaveRegs, hrsp, hrbp])

/-- Whatever the decoder marks is forgotten by the generic clobber. -/
theorem clobberWrites_forgets (hx : m.ChangesOnly m' insn.Marks) :
    Forgets s (clobberWrites insn s) fun r => m'.regs r ≠ m.regs r :=
  (Forgets.clobberWrites insn s).mono fun r hr => by
    by_contra hno
    exact hr (hx r hno)

theorem forgets_of_changesOnly {s' : AbsState δ} {d : Fin 16} (h : WritesReg s s' d)
    (hx : m.ChangesOnly m' (· = d)) : Forgets s s' fun r => m'.regs r ≠ m.regs r :=
  (Forgets.of_writesReg h).mono fun r hr => by
    by_contra hno
    exact hr (hx r hno)

/-- Where one register is written, or what the decoder marks. -/
theorem getD_forgets {s' : Option (AbsState δ)} (hmarks : m.ChangesOnly m' insn.Marks)
    (hsome : ∀ u, s' = some u → ∃ d, WritesReg s u d ∧ m.ChangesOnly m' (· = d)) :
    Forgets s (s'.getD (clobberWrites insn s)) fun r => m'.regs r ≠ m.regs r := by
  cases hs : s' with
  | none => exact clobberWrites_forgets hmarks
  | some u =>
    obtain ⟨d, hwrites, honly⟩ := hsome u hs
    exact forgets_of_changesOnly hwrites honly

theorem transferLea_forgets (hx : insn.ExecLea m m') :
    Forgets s ((transferLea z insn s).getD (clobberWrites insn s)) fun r => m'.regs r ≠ m.regs r := by
  unfold Instruction.ExecLea at hx
  unfold transferLea
  split at hx
  · rename_i r _ _ _ mem _ _ _ hops
    simp only [hops]
    cases hr : r.dwarfRegOf with
    | none =>
      simp only [hr] at hx
      exact clobberWrites_forgets hx
    | some d =>
      have hd : m.ChangesOnly m' (· = d) := by
        simp only [hr] at hx
        split at hx
        · exact .of_update hx
        · exact hx
      refine forgets_of_changesOnly ?_ hd
      dsimp only
      split_ifs
      · exact .clobberWrittenReg s r d
      all_goals
        split
        · exact WritesReg.setReg s d .other _
        · exact WritesReg.setReg s d _ .none
  · rename_i hno
    split
    · rename_i hops
      exact absurd hops (hno _ _ _ _ _ _ _ _)
    · exact clobberWrites_forgets hx

theorem movToMem_lastCmp (insn : Instruction) (s : AbsState δ) (mem : MemOperand) (size : ℕ)
    (src : Operand) : (movToMem insn s mem size src).lastCmp = s.lastCmp := by
  unfold movToMem
  split
  · rfl
  · dsimp only
    split
    · split
      · rw [AbsState.setSlot_lastCmp, eraseSlots_lastCmp]
      · exact eraseSlots_lastCmp _ _ _
    · exact eraseSlots_lastCmp _ _ _

theorem transferMov_forgets (hx : insn.ExecMov m m') :
    Forgets s ((transferMov insn s).getD (clobberWrites insn s)) fun r => m'.regs r ≠ m.regs r := by
  unfold Instruction.ExecMov at hx
  unfold transferMov
  cases hops : insn.ops2? with
  | none =>
    simp only [hops] at hx
    exact clobberWrites_forgets hx
  | some p =>
    obtain ⟨⟨kind, size, write, condWrite⟩, src⟩ := p
    cases kind with
    | register r =>
      simp only [hops] at hx
      cases hr : r.dwarfRegOf with
      | none =>
        simp only [hr] at hx
        simpa [hr] using clobberWrites_forgets hx
      | some d =>
        have hd : m.ChangesOnly m' (· = d) := by
          simp only [hr] at hx
          split at hx
          · exact .of_update hx
          · exact hx
        simpa [hr] using forgets_of_changesOnly (.movToReg insn s r d src) hd
    | memory mem =>
      simp only [hops] at hx
      exact (Forgets.of_eq (movToMem_lastCmp insn s mem size src)).mono fun r hr => hr (by rw [hx])
    | immediate _ | pointer =>
      simp only [hops] at hx
      exact clobberWrites_forgets hx

theorem extend_forgets {s' : Option (AbsState δ)} (hx : insn.ExecExtend m m')
    (hsome : ∀ u, s' = some u → insn.WritesDest s u) :
    Forgets s (s'.getD (clobberWrites insn s)) fun r => m'.regs r ≠ m.regs r := by
  obtain ⟨hmarks, hdest⟩ := hx.changesOnly
  refine getD_forgets hmarks fun u hu => ?_
  obtain ⟨dst, src, d, hops, ⟨r, hkind, hr⟩, hwrites⟩ := hsome u hu
  exact ⟨d, hwrites, hdest dst src r d hops hkind hr⟩

theorem transferAddSub_forgets (hmarks : insn.insn.MarksDest) (hx : insn.ExecAddSub m m') :
    Forgets s ((transferAddSub insn s).getD (clobberWrites insn s)) fun r => m'.regs r ≠ m.regs r := by
  unfold Instruction.ExecAddSub at hx
  split at hx
  · rename_i r _ _ _ imm _ _ _ hops
    unfold transferAddSub
    simp only [hops]
    cases hr : r.dwarfRegOf with
    | none =>
      simp only [hr] at hx
      simpa [addSubImm, hr] using clobberWrites_forgets hx
    | some d =>
      have hd : m.ChangesOnly m' (· = d) := by
        simp only [hr] at hx
        split at hx
        · exact .of_update hx
        · exact hx
      cases hu : addSubImm insn s r imm with
      | none => simp [addSubImm, hr] at hu
      | some u =>
        obtain ⟨e, he, hwrites⟩ := addSubImm_eq_some hu
        obtain rfl := Option.some.inj (hr.symm.trans he)
        exact forgets_of_changesOnly hwrites hd
  · rename_i hnoimm
    refine getD_forgets hx fun u hu => ?_
    unfold transferAddSub at hu
    split at hu
    · rename_i r _ _ _ q _ _ _ hops
      split at hu
      · rename_i hadd
        obtain ⟨d, hd, hwrites⟩ := addDispatch_eq_some hu
        obtain ⟨rest, hoperands⟩ := Instruction.operands_of_ops2? hops
        have hdest := hmarks (Or.inl hadd) _ _ _ r hoperands rfl
        exact ⟨d, hwrites, fun p hp => hx p fun hm => hp (hdest.eq_of_marks hd hm)⟩
      · cases hu
    · rename_i hops
      exact absurd hops (hnoimm _ _ _ _ _ _ _ _)
    · cases hu

/-- A `cmp` that is no guard leaves everything as it was. -/
theorem transferCmp_eq (hid : insn.id = .cmp) (hbr : insn.isBranch = false)
    (hsized : ∀ op ∈ insn.insn.operands, ∀ x, op.kind = .register x → x.dwarfRegOf ≠ none →
      op.size = x.widthBits)
    (hno : ∀ x imm, insn.Compares x imm → x.dwarfRegOf = none) : transferCmp insn s = s := by
  unfold transferCmp
  split
  · rename_i r width _ _ imm _ _ _ hops
    cases hr : r.dwarfRegOf with
    | none => rfl
    | some d =>
      obtain ⟨rest, hoperands⟩ := Instruction.operands_of_ops2? hops
      have hsize := hsized _ (hoperands ▸ List.mem_cons_self) r rfl (by simp [hr])
      have hcmp : insn.Compares r imm := ⟨hid, hbr, _, _, hops, rfl, hsize, rfl⟩
      rw [hno r imm hcmp] at hr
      cases hr
  · rfl

/-- What is left of a guard by an instruction of the `switch` is on no register it has changed,
unless the write went unseen. -/
theorem transferNamed_forgets (hx : insn.Exec m m') (hret : isReturnMnemonic insn.id = false)
    (hbr : insn.isBranch = false) (htrap : isTrapMnemonic insn.id = false) (hcall : insn.id ≠ .call)
    (hsized : ∀ op ∈ insn.insn.operands, ∀ x, op.kind = .register x → x.dwarfRegOf ≠ none →
      op.size = x.widthBits) (hmarks : insn.insn.MarksDest)
    (hno : ∀ x imm, insn.Compares x imm → x.dwarfRegOf = none) :
    Forgets s ((transferNamed z insn s).getD ({}, clobberWrites insn s)).2 fun r =>
      m'.regs r ≠ m.regs r ∧ ¬ insn.WritesUnseen s r := by
  simp only [Instruction.Exec, hret, hbr, htrap, Bool.false_eq_true, if_false] at hx
  simp only [Instruction.WritesUnseen, hbr, Bool.false_eq_true, if_false]
  unfold transferNamed
  split at hx <;> rename_i hid
  · exact absurd hid hcall
  iterate 7
    · rw [hid]
      refine (Forgets.callEffect s).mono fun r hr => ?_
      by_contra hsaved
      exact hr.1 (hx r hsaved)
  · rw [hid]
    exact transferPush_forgets hx
  · rw [hid]
    exact (Forgets.pushValue s _).mono fun r hr => rsp_seen hx hr.1 hr.2
  · rw [hid]
    exact transferPop_forgets hx
  · rw [hid]
    exact (Forgets.popValue s).mono fun r hr => rsp_seen hx hr.1 hr.2
  · rw [hid]
    exact (transferLeave_forgets hx).mono fun r hr => hr.1
  · simp only [hid, getD_map_plain]
    exact (transferLea_forgets hx).mono fun r hr => hr.1
  iterate 2
    · simp only [hid, getD_map_plain]
      exact (transferMov_forgets hx).mono fun r hr => hr.1
  iterate 2
    · simp only [hid, getD_map_plain]
      exact (transferAddSub_forgets hmarks hx).mono fun r hr => hr.1
  · simp only [hid, getD_map_plain]
    exact (extend_forgets hx fun u => transferMovsxd_eq_some).mono fun r hr => hr.1
  iterate 2
    · simp only [hid, getD_map_plain]
      exact (extend_forgets hx fun u => transferMovx_eq_some).mono fun r hr => hr.1
  · simp only [hid, Option.getD_some, transferCmp_eq hid hbr hsized hno]
    exact (Forgets.of_eq rfl).mono fun r hr => hr.1 (by rw [hx])
  iterate 3
    · rw [hid]
      exact (Forgets.of_eq rfl).mono fun r hr => hr.1 (by rw [hx])
  · split
    case h_6 hint => simp [hint, isTrapMnemonic] at htrap
    case h_27 => exact (clobberWrites_forgets hx).mono fun r hr => hr.1
    all_goals contradiction

/-- The same of every instruction that another can follow. -/
theorem transfer_forgets {c c' : Cpu} (h : insn.Steps c c')
    (hno : ∀ x imm, insn.Compares x imm → x.dwarfRegOf = none) :
    Forgets (dropStaleCmp insn s) (transfer z insn s).2 fun r =>
      c'.regs r ≠ c.regs r ∧ ¬ insn.WritesUnseen s r := by
  have hregs := h.regs
  unfold Instruction.ChangesRegs at hregs
  cases hbr : insn.isBranch with
  | true =>
    rw [hbr] at hregs
    rw [transfer_of_branch h.isReturn hbr]
    refine (Forgets.of_eq rfl).mono fun r hr => hr.2 ?_
    rw [Instruction.WritesUnseen, if_pos hbr]
    by_contra hmarks
    exact hr.1 (hregs r hmarks)
  | false =>
    rw [transfer_of_switch h.isReturn hbr (h.isTrap hbr)]
    simp only [hbr, Bool.false_eq_true, if_false] at hregs
    split_ifs at hregs with hcall
    · simp only [transferNamed, hcall, Option.getD_some]
      refine (Forgets.callEffect _).mono fun r hr => ?_
      by_contra hsaved
      exact hr.1 (hregs r hsaved)
    · obtain ⟨mem, mem', hx⟩ := hregs
      have hunseen : ∀ r, insn.WritesUnseen (dropStaleCmp insn s) r ↔ insn.WritesUnseen s r := by
        intro r
        simp only [Instruction.WritesUnseen, dropStaleCmp_gpr]
      have hforgets := transferNamed_forgets (z := z) (s := dropStaleCmp insn s) hx h.isReturn hbr
        (h.isTrap hbr) hcall h.sized h.marksDest hno
      exact hforgets.mono fun r hr => ⟨hr.1, fun hu => hr.2 ((hunseen r).mp hu)⟩

end Forgets

/-- The step leaves the flags to a comparison that it leaves waiting: no call while a register it
preserves is compared, no unseen write of the compared register, and no comparison of a high byte.
An instruction that writes flags leaves none waiting. -/
structure Instruction.Answers (insn : Instruction) (s : AbsState δ) : Prop where
  call : insn.id = .call → insn.isBranch = false → writesEflags insn = false →
    ∀ g, s.lastCmp = some g → g.proven = false → g.reg ∈ kCallerSaved
  unseen : writesEflags insn = false → ∀ g, s.lastCmp = some g → g.proven = false →
    ¬ insn.WritesUnseen s g.reg
  low : ∀ x imm, insn.Compares x imm → x.dwarfRegOf ≠ none → x.isLow = true

/-- The paths whose steps all satisfy `P`: instructions, branches along the edge that is taken, and
joins with what other paths bring along. -/
inductive GuardRun (P : Instruction → AbsState δ → Prop) (z : Zydis) : AbsState δ → Cpu → Prop
  | start {s : AbsState δ} {c : Cpu} : s.lastCmp = none → GuardRun P z s c
  | step {s : AbsState δ} {c c' : Cpu} {insn : Instruction} : GuardRun P z s c → P insn s →
      insn.Steps c c' → GuardRun P z (transfer z insn s).2 c'
  | branch {s : AbsState δ} {c c' : Cpu} {insn : Instruction} {edge : BranchEdge} : GuardRun P z s c →
      P insn s → insn.Steps c c' → insn.isBranch = true → edge.TakenBy insn.id c.flags →
      GuardRun P z (transferEdge insn edge (transfer z insn s).2) c'
  | join_left {s t : AbsState δ} {c : Cpu} : GuardRun P z s c → GuardRun P z (join s t).state c
  | join_right {s t : AbsState δ} {c : Cpu} : GuardRun P z s c → GuardRun P z (join t s).state c

/-- No comparison waits behind an instruction that writes flags. -/
theorem writesEflags_of_waiting {insn : Instruction} {s : AbsState δ} {g : FlagsGuard}
    (hg : (dropStaleCmp insn s).lastCmp = some g) (hp : g.proven = false) : writesEflags insn = false := by
  by_contra hw
  rw [proven_of_writesEflags (by simpa using hw) g hg] at hp
  cases hp

/-- A guard behind a call is on a register that the callee preserves. -/
theorem not_mem_kCallerSaved_of_call {z : Zydis} {insn : Instruction} {s : AbsState δ} {g : FlagsGuard}
    (hcall : insn.id = .call) (hbr : insn.isBranch = false) (hg : (transfer z insn s).2.lastCmp = some g) :
    g.reg ∉ kCallerSaved := by
  rw [transfer_of_switch (by rw [hcall]; rfl) hbr (by rw [hcall]; rfl)] at hg
  simp only [transferNamed, hcall, Option.getD_some] at hg
  exact (Forgets.callEffect _ g hg).2

theorem Instruction.Compares.regs_eq {insn : Instruction} {x : ZydisRegister} {imm : Word} {c c' : Cpu}
    (hcmp : insn.Compares x imm) (h : insn.Steps c c') : c'.regs = c.regs := by
  have hregs := h.regs
  simp only [ChangesRegs, hcmp.isBranch, Bool.false_eq_true, if_false] at hregs
  rw [if_neg (by rw [hcmp.mnemonic]; decide)] at hregs
  obtain ⟨mem, mem', hx⟩ := hregs
  simpa [Exec, hcmp.isBranch, hcmp.mnemonic, isReturnMnemonic, isTrapMnemonic] using hx

/-- The instruction compares a GPR with a constant, or none. -/
theorem Instruction.compares_or_not (insn : Instruction) :
    (∃ x d imm, insn.Compares x imm ∧ x.dwarfRegOf = some d) ∨
      ∀ x imm, insn.Compares x imm → x.dwarfRegOf = none := by
  by_cases hguard : ∃ x d imm, insn.Compares x imm ∧ x.dwarfRegOf = some d
  · exact .inl hguard
  · right
    intro x imm hcmp
    cases hd : x.dwarfRegOf with
    | none => rfl
    | some d => exact absurd ⟨x, d, imm, hcmp, hd⟩ hguard

theorem FlagsAnswer.step {z : Zydis} {s : AbsState δ} {c c' : Cpu} {insn : Instruction}
    (h : FlagsAnswer s c) (ha : insn.Answers s) (hstep : insn.Steps c c') :
    FlagsAnswer (transfer z insn s).2 c' := by
  intro g hg hp
  rcases insn.compares_or_not with ⟨x, d, imm, hcmp, hd⟩ | hno
  · have hlow := ha.low x imm hcmp (by simp [hd])
    rw [hcmp.transfer_eq hd] at hg
    cases hg
    rw [hstep.compared x d imm hcmp hd, hcmp.regs_eq hstep, ZydisRegister.value_of_isLow hlow]
  · obtain ⟨hwaiting, hsame⟩ := transfer_forgets hstep hno g hg
    have hg₀ := dropStaleCmp_lastCmp hwaiting
    have hkeeps := writesEflags_of_waiting hwaiting hp
    have hreg : c'.regs g.reg = c.regs g.reg := by
      by_contra hne
      exact hsame ⟨hne, ha.unseen hkeeps g hg₀ hp⟩
    rcases hstep.flags hno with ⟨hcall, hbr⟩ | hwrites | hflags
    · exact absurd (ha.call hcall hbr hkeeps g hg₀ hp) (not_mem_kCallerSaved_of_call hcall hbr hg)
    · rw [hkeeps] at hwrites
      cases hwrites
    · rw [hflags, hreg]
      exact h g hg₀ hp

theorem GuardRun.flagsAnswer {z : Zydis} {s : AbsState δ} {c : Cpu}
    (h : GuardRun Instruction.Answers z s c) : FlagsAnswer s c := by
  induction h with
  | start hcmp =>
    intro g hg
    rw [hcmp] at hg
    cases hg
  | step _ ha hstep ih => exact ih.step ha hstep
  | branch _ ha hstep _ _ ih => exact (ih.step ha hstep).transferEdge _
  | join_left _ ih => exact fun g hg => ih g (join_lastCmp hg).1
  | join_right _ ih => exact fun g hg => ih g (join_lastCmp hg).2

/-- A branch only records bounds that are true on the edge it takes. -/
theorem FlagsAnswer.branch_recordsTrue {z : Zydis} {s : AbsState δ} {c c' : Cpu} {insn : Instruction}
    {edge : BranchEdge} (h : FlagsAnswer s c) (hbr : insn.isBranch = true) (ha : insn.Answers s)
    (hstep : insn.Steps c c') (htaken : edge.TakenBy insn.id c.flags) :
    RecordsTrue (transfer z insn s).2 (UnwindCheck.transferEdge insn edge (transfer z insn s).2) c' := by
  have hafter := h.step (z := z) ha hstep
  have hno : ∀ x imm, insn.Compares x imm → x.dwarfRegOf = none := by
    intro x imm hcmp
    rw [hcmp.isBranch] at hbr
    cases hbr
  rcases hstep.flags hno with ⟨-, hcall⟩ | hwrites | hflags
  · rw [hcall] at hbr
    cases hbr
  · -- a branch that writes flags has nothing waiting for it
    rcases transferEdge_cases insn edge (transfer z insn s).2 with heq | ⟨g, _, hg, hp, -, -⟩
    · rw [heq]
      exact ⟨fun g hg _ => Or.inl hg, fun r => Or.inl rfl⟩
    · rw [transfer_of_branch hstep.isReturn hbr] at hg
      rw [writesEflags_of_waiting hg hp] at hwrites
      cases hwrites
  · exact hafter.recordsTrue (hflags ▸ htaken)

/-- In every state of every path whose steps leave the flags to the comparison, the flags answer for
it, and a branch only records bounds that are true on the edge it takes. -/
theorem guardRun_flagsAnswer {z : Zydis} {s : AbsState δ} {c : Cpu}
    (h : GuardRun Instruction.Answers z s c) :
    FlagsAnswer s c ∧
      ∀ (insn : Instruction) (edge : BranchEdge) (c' : Cpu), insn.isBranch = true → insn.Answers s →
        insn.Steps c c' → edge.TakenBy insn.id c.flags →
        RecordsTrue (transfer z insn s).2 (transferEdge insn edge (transfer z insn s).2) c' :=
  ⟨h.flagsAnswer, fun _ _ _ hbr ha hstep htaken =>
    h.flagsAnswer.branch_recordsTrue hbr ha hstep htaken⟩

theorem Instruction.Compares.unique {insn : Instruction} {x x' : ZydisRegister} {imm imm' : Word}
    (h : insn.Compares x imm) (h' : insn.Compares x' imm') : x' = x ∧ imm' = imm := by
  obtain ⟨dst, src, hops, hdst, -, hsrc⟩ := h.ops
  obtain ⟨dst', src', hops', hdst', -, hsrc'⟩ := h'.ops
  rw [hops] at hops'
  cases hops'
  rw [hdst] at hdst'
  rw [hsrc] at hsrc'
  cases hdst'
  cases hsrc'
  exact ⟨rfl, rfl⟩

namespace Sample

/-- A call through the PLT, its hidden operands rip, rsp and the return address on the stack. -/
def callInsn : DecodedInsn where
  length := 5
  mnemonic := .call
  operandCountVisible := 1
  operands := [⟨.immediate 0x20, 32, false, false⟩, ⟨.register .rip, 64, true, false⟩,
    ⟨.register (.gpr64 .rsp), 64, true, false⟩, ⟨.memory ⟨.gpr64 .rsp, .none, 0, 0⟩, 64, true, false⟩]
  category := .other
  hasSegment := false
  operandWidth := 64
  cpuFlags := some ⟨0, 0, 0, 0⟩

theorem steps_cmpOf {x : ZydisRegister} {d : Fin 16} (hx : x.dwarfRegOf = some d) (c : Cpu) :
    Instruction.Steps ⟨0x1000, cmpOf x⟩ c
      ⟨c.regs, cmpFlags x.widthBits (x.value (c.regs d)) (5 % 2 ^ x.widthBits)⟩ where
  isReturn := rfl
  isTrap _ := rfl
  regs := ⟨fun _ => 0, fun _ => 0, rfl⟩
  compared := by
    intro y e imm hcmp he
    obtain ⟨rfl, rfl⟩ := (compares_cmpOf x).unique hcmp
    cases hx.symm.trans he
    rfl
  flags hno := by
    rw [hno x 5 (compares_cmpOf x)] at hx
    cases hx
  sized := by
    intro op hin y hkind _
    simp only [cmpOf, List.mem_cons, List.not_mem_nil, or_false] at hin
    rcases hin with rfl | rfl
    · cases hkind
      rfl
    · cases hkind
  marksDest h := by
    rcases h with h | h <;> cases h

/-- A call that preserves every register and comes back with any flags. -/
theorem steps_callInsn (c : Cpu) (flags : CpuFlags) :
    Instruction.Steps ⟨0x1003, callInsn⟩ c ⟨c.regs, flags⟩ where
  isReturn := rfl
  isTrap _ := rfl
  regs := fun _ _ => rfl
  compared := by
    intro y e imm hcmp
    cases hcmp.mnemonic
  flags _ := Or.inl ⟨rfl, rfl⟩
  sized := by
    intro op hin y hkind hy
    simp only [callInsn, List.mem_cons, List.not_mem_nil, or_false] at hin
    rcases hin with rfl | rfl | rfl | rfl
    · cases hkind
    · cases hkind
      exact absurd rfl hy
    · cases hkind
      rfl
    · cases hkind
  marksDest h := by
    rcases h with h | h <;> cases h

/-- Behind `cmp $5,%ebx; call f`. -/
def acrossCall : AbsState Int64 :=
  (transfer (Zydis.ofTable []) ⟨0x1003, callInsn⟩
    (transfer (Zydis.ofTable []) ⟨0x1000, cmpOf (.gpr32 .rbx)⟩ AbsState.entry).2).2

end Sample

/-- With rbx = 7, `cmp $5,%ebx; call f` comes back with the flags of two equal numbers, so that
`ja` falls through and records that ebx is at most 5. -/
theorem acrossCall_not_flagsAnswer :
    ∃ c : Cpu, c.regs 3 = 7 ∧
      GuardRun (fun _ _ => True) (Zydis.ofTable []) Sample.acrossCall c ∧
      ¬ FlagsAnswer Sample.acrossCall c ∧
      BranchEdge.fallThrough.TakenBy .jnbe c.flags ∧
      ¬ RecordsTrue Sample.acrossCall
        (transferEdge ⟨0x1008, Sample.jaInsn⟩ .fallThrough Sample.acrossCall) c := by
  let c : Cpu := ⟨fun _ => 7, cmpFlags 32 0 0⟩
  have hrun : GuardRun (fun _ _ => True) (Zydis.ofTable []) Sample.acrossCall c :=
    ((GuardRun.start (c := c) rfl).step trivial (Sample.steps_cmpOf rfl c)).step trivial
      (Sample.steps_callInsn _ _)
  refine ⟨c, rfl, hrun, fun h => ?_, fun jump hjump => ?_, fun h => ?_⟩
  · have hflags := h { reg := 3, widthBits := 32, imm := 5 } rfl rfl
    revert hflags
    decide
  · cases hjump
    rfl
  · have hguard := h.guard { reg := 3, widthBits := 32, imm := 5, provenBound := 5 } rfl rfl
    revert hguard
    decide

/-- The same comparison with the branch right behind it. -/
theorem guard_flagsAnswer :
    FlagsAnswer (transfer (Zydis.ofTable []) ⟨0x1000, Sample.cmpOf (.gpr32 .rbx)⟩
      (AbsState.entry : AbsState Int64)).2 ⟨fun _ => 7, cmpFlags 32 7 5⟩ := by
  have hanswers : Instruction.Answers ⟨0x1000, Sample.cmpOf (.gpr32 .rbx)⟩
      (AbsState.entry : AbsState Int64) := by
    refine ⟨fun hcall => ?_, fun _ g hg => ?_, fun x imm hcmp _ => ?_⟩
    · cases hcall
    · cases hg
    · obtain ⟨rfl, -⟩ := (Sample.compares_cmpOf _).unique hcmp
      rfl
  have hstart : GuardRun Instruction.Answers (Zydis.ofTable []) (AbsState.entry : AbsState Int64)
      ⟨fun _ => 7, cmpFlags 32 0 0⟩ := .start rfl
  exact (guardRun_flagsAnswer (hstart.step hanswers (Sample.steps_cmpOf rfl _))).1

end UnwindCheck
