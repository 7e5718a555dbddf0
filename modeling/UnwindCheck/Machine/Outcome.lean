import UnwindCheck.Machine.Guards
import UnwindCheck.Machine.Moves

/-! What one instruction does to one register and to its table half. -/
namespace UnwindCheck
variable {δ : Type} [Offset δ]

/-- The table bound speaks of the index, not of the register. -/
def TableVal.indexed (t : TableVal) : Bool :=
  match t.kind with
  | .tableEntry _ _ _ | .jumpTarget _ _ => true
  | .none | .conflict | .const _ => false

/-- What an instruction writes is what the decoder lists: it is no control transfer and no stack
instruction, and has no destination register with a rule of its own. -/
def Instruction.WritesListed (insn : Instruction) : Prop :=
  insn.isBranch = false ∧ match insn.id with
    | .call | .syscall | .sysenter | .int | .int1 | .into | .vmcall | .vmmcall => False
    | .push | .pushfq | .pop | .popfq | .leave => False
    | .lea | .mov | .movq | .movsxd | .movzx | .movsx | .add | .sub => insn.destGpr = none
    | _ => True

/-- One step of the processor, with the numbers it writes: a destination takes a number under its
spelling, for a move the one that its source supplies, and where nothing else is said the operands that
the decoder marks are written one after the other. Operands of 8 bits are low bytes. -/
structure Instruction.Runs (insn : Instruction) (c c' : Cpu) : Prop extends insn.Steps c c' where
  dest : insn.id ∈ [.lea, .mov, .movq, .movsxd, .movzx, .movsx, .add, .sub] → ∀ dst src x d,
    insn.ops2? = some (dst, src) → dst.kind = .register x → x.dwarfRegOf = some d →
    insn.insn.WritesOnly x ∧ ∃ w, c'.regs d = x.put (c.regs d) w
  moved : ∀ x d src, insn.Move x src → x.dwarfRegOf = some d → (∀ imm, src.kind ≠ .immediate imm) →
    ∃ v, src.Supplies c.regs v ∧ c'.regs d = x.put (c.regs d) (insn.moved src.size v)
  listed : insn.WritesListed → RunsOperands insn.insn.operands c.regs c'.regs
  low : ∀ op ∈ insn.insn.operands, ∀ x, op.kind = .register x → x.dwarfRegOf ≠ none → x.isLow = true

/-- Neither bound says anything about the register. -/
def TableVal.Free (t : TableVal) : Prop :=
  t.valueBound = kBoundTop ∧ (t.indexed = true ∨ t.tableBound = kBoundTop)

/-- What a step does to one register and to its table half. -/
inductive StepOutcome (z : Zydis) (insn : Instruction) (s : AbsState δ) (c c' : Cpu) (r : Fin 16) : Prop
  | kept (hregs : c'.regs r = c.regs r) (htbl : (transfer z insn s).2.tbl r = s.tbl r)
  | unseen (hunseen : insn.WritesUnseen s r) (htbl : (transfer z insn s).2.tbl r = s.tbl r)
  | cleared (hplain : ((transfer z insn s).2.tbl r).indexed = false)
      (htop : ((transfer z insn s).2.tbl r).tableBound = kBoundTop)
      (hvalue : (c'.regs r).toNat ≤ ((transfer z insn s).2.tbl r).valueBound)
  | left (hid : insn.id = .leave) (hbr : insn.isBranch = false)
      (hrbp : ∀ d, s.gpr kDWARFRbp ≠ .cfaRel d)
      (htbl : (transfer z insn s).2.tbl r = s.tbl kDWARFRbp)
  | copied {e : Fin 16} (hregs : c'.regs r = c.regs e) (htbl : (transfer z insn s).2.tbl r = s.tbl e)
  | widened {x : ZydisRegister} {src : Operand} {e : Fin 16} {v : ℕ} (hm : insn.Move x src)
      (hwidens : insn.Widens x src (dropStaleCmp insn s))
      (hsrc : src.reg?.bind ZydisRegister.dwarfRegOf = some e) (hv : v ≤ (c.regs e).toNat)
      (hread : v ≤ src.readBound (dropStaleCmp insn s))
      (hvalue : (c'.regs r).toNat ≤ ((transfer z insn s).2.tbl r).valueBound)
      (htable : v ≤ (s.tbl e).tableBound →
        (c'.regs r).toNat ≤ ((transfer z insn s).2.tbl r).tableBound)
  | loaded {idx : Fin 16} {mem : MemOperand} {value : Word} (h : insn.LoadsTable s r idx mem value)
  | resolved {e : Fin 16} {t : TableVal} (h : insn.Resolves s r e t)

section Registers
variable {insn : Instruction} {m m' : Machine} {r : Fin 16}

theorem destGpr_eq {dst src : Operand} {x : ZydisRegister} (hops : insn.ops2? = some (dst, src))
    (hkind : dst.kind = .register x) : insn.destGpr = x.dwarfRegOf := by
  simp [Instruction.destGpr, hops, Operand.reg?, hkind]

theorem ExecLea_keeps (hx : insn.ExecLea m m') (hw : ¬ (insn.destGpr = some r ∨ insn.Marks r)) :
    m'.regs r = m.regs r := by
  obtain ⟨hdest, hmarks⟩ := not_or.mp hw
  unfold Instruction.ExecLea at hx
  split at hx
  · rename_i x _ _ _ mem _ _ _ hops
    rw [destGpr_eq hops rfl] at hdest
    cases hd : x.dwarfRegOf with
    | none =>
      rw [hd] at hx
      exact hx r hmarks
    | some d =>
      have hne : r ≠ d := by
        rintro rfl
        exact hdest hd
      rw [hd] at hx
      dsimp only at hx
      split at hx
      · rw [hx, Function.update_of_ne hne]
      · exact hx r hne
  · exact hx r hmarks

theorem ExecMov_keeps (hx : insn.ExecMov m m') (hw : ¬ (insn.destGpr = some r ∨ insn.Marks r)) :
    m'.regs r = m.regs r := by
  obtain ⟨hdest, hmarks⟩ := not_or.mp hw
  unfold Instruction.ExecMov at hx
  split at hx
  · rename_i x _ _ _ src hops
    rw [destGpr_eq hops rfl] at hdest
    cases hd : x.dwarfRegOf with
    | none =>
      rw [hd] at hx
      exact hx r hmarks
    | some d =>
      have hne : r ≠ d := by
        rintro rfl
        exact hdest hd
      rw [hd] at hx
      dsimp only at hx
      split at hx
      · rw [hx, Function.update_of_ne hne]
      · exact hx r hne
  · rw [hx]
  · exact hx r hmarks

theorem ExecAddSub_keeps (hx : insn.ExecAddSub m m') (hw : ¬ (insn.destGpr = some r ∨ insn.Marks r)) :
    m'.regs r = m.regs r := by
  obtain ⟨hdest, hmarks⟩ := not_or.mp hw
  unfold Instruction.ExecAddSub at hx
  split at hx
  · rename_i x _ _ _ imm _ _ _ hops
    rw [destGpr_eq hops rfl] at hdest
    cases hd : x.dwarfRegOf with
    | none =>
      rw [hd] at hx
      exact hx r hmarks
    | some d =>
      have hne : r ≠ d := by
        rintro rfl
        exact hdest hd
      rw [hd] at hx
      dsimp only at hx
      split at hx
      · rw [hx, Function.update_of_ne hne]
      · exact hx r hne
  · exact hx r hmarks

theorem popRegs_keeps (hw : ¬ (r = kDWARFRsp ∨ insn.popDest = some r)) : insn.popRegs m r = m.regs r := by
  obtain ⟨hrsp, hdest⟩ := not_or.mp hw
  unfold Instruction.popRegs
  cases hd : insn.popDest with
  | none => exact Function.update_of_ne hrsp _ _
  | some d =>
    have hne : r ≠ d := by
      rintro rfl
      exact hdest hd
    dsimp only
    rw [Function.update_of_ne hne, Function.update_of_ne hrsp]

theorem leaveRegs_keeps (hw : ¬ (r = kDWARFRsp ∨ r = kDWARFRbp)) : insn.leaveRegs m r = m.regs r := by
  obtain ⟨hrsp, hrbp⟩ := not_or.mp hw
  unfold Instruction.leaveRegs
  rw [Function.update_of_ne hrsp, Function.update_of_ne hrbp]

/-- The processor leaves alone what the instruction does not write. -/
theorem Instruction.Steps.keeps {c c' : Cpu} (h : insn.Steps c c') (hw : ¬ insn.WritesGpr r) :
    c'.regs r = c.regs r := by
  have hregs := h.regs
  unfold ChangesRegs at hregs
  unfold WritesGpr at hw
  cases hbr : insn.isBranch with
  | true =>
    simp only [hbr, if_true] at hregs hw
    exact hregs r hw
  | false =>
    simp only [hbr, Bool.false_eq_true, if_false] at hregs hw
    have htrap := h.isTrap hbr
    have hret := h.isReturn
    split_ifs at hregs with hcall
    · rw [hcall] at hw
      exact hregs r hw
    · obtain ⟨mem, mem', hx⟩ := hregs
      unfold Exec at hx
      simp only [hret, hbr, htrap, Bool.false_eq_true, if_false] at hx
      cases hid : insn.id with
      | call => exact absurd hid hcall
      | int3 | ud0 | ud1 | ud2 | hlt =>
        rw [hid] at htrap
        cases htrap
      | ret | iret | iretd | iretq =>
        rw [hid] at hret
        cases hret
      | syscall | sysenter | int | int1 | into | vmcall | vmmcall =>
        simp only [hid] at hx hw
        exact hx r hw
      | push | pushfq | popfq =>
        simp only [hid] at hx hw
        rw [hx, Function.update_of_ne hw]
      | pop =>
        simp only [hid] at hx hw
        rw [hx]
        exact popRegs_keeps hw
      | leave =>
        simp only [hid] at hx hw
        rw [hx]
        exact leaveRegs_keeps hw
      | lea =>
        simp only [hid] at hx hw
        exact ExecLea_keeps hx hw
      | mov | movq =>
        simp only [hid] at hx hw
        exact ExecMov_keeps hx hw
      | add | sub =>
        simp only [hid] at hx hw
        exact ExecAddSub_keeps hx hw
      | movsxd | movzx | movsx =>
        simp only [hid] at hx hw
        exact hx.changesOnly.1 r (not_or.mp hw).2
      | cmp | nop | endbr32 | endbr64 =>
        simp only [hid] at hx
        rw [hx]
      | jmp | jnbe | jnb | jbe | jb | other _ =>
        simp only [hid] at hx hw
        exact hx r hw

end Registers

section Stack
variable {insn : Instruction} {s : AbsState δ} {r : Fin 16}

theorem foldl_clobberReg_tbl {rs : List (Fin 16)} (hr : r ∈ rs) (s : AbsState δ) :
    (rs.foldl AbsState.clobberReg s).tbl r = .none := by
  induction rs generalizing s with
  | nil => cases hr
  | cons q rs ih =>
    rw [List.foldl_cons]
    by_cases hin : r ∈ rs
    · exact ih hin _
    · have hq : r = q := (List.mem_cons.mp hr).resolve_right hin
      subst hq
      rw [KeepsTables.foldl_clobberReg rs _ r hin, AbsState.clobberReg_tbl, Function.update_self]

theorem callEffect_tbl (hr : r ∈ kCallerSaved) (s : AbsState δ) : (callEffect s).tbl r = .none := by
  unfold callEffect
  exact foldl_clobberReg_tbl hr _

/-- A push clears rsp where it is a frame address, and otherwise does not touch the state. -/
theorem pushValue_tbl (s : AbsState δ) (v : AbsVal δ) :
    (pushValue s v).tbl kDWARFRsp = .none ∨ (∀ d, s.gpr kDWARFRsp ≠ .cfaRel d) ∧ pushValue s v = s := by
  unfold pushValue
  split
  · left
    dsimp only
    rw [AbsState.setSlot_tbl]
    unfold AbsState.setVal
    rw [AbsState.setReg_tbl, Function.update_self]
  · rename_i hno
    exact .inr ⟨hno, rfl⟩

theorem popValue_tbl (s : AbsState δ) :
    (popValue s).2.tbl kDWARFRsp = .none ∨ (∀ d, s.gpr kDWARFRsp ≠ .cfaRel d) ∧ (popValue s).2 = s := by
  unfold popValue
  split
  · left
    dsimp only
    unfold AbsState.setVal
    rw [AbsState.setReg_tbl, Function.update_self]
  · rename_i hno
    exact .inr ⟨hno, rfl⟩

theorem popInto_tbl (hdest : insn.popDest = some r) (v : AbsVal δ) (s : AbsState δ) :
    (popInto insn v s).tbl r = .none := by
  unfold Instruction.popDest at hdest
  split_ifs at hdest
  obtain ⟨q, hop, hq⟩ := Option.bind_eq_some_iff.mp hdest
  obtain ⟨op, hop, hreg⟩ := Option.bind_eq_some_iff.mp hop
  have hkind := Operand.kind_of_reg? hreg
  unfold popInto
  simp only [hop, Option.map_some, hkind, hq]
  unfold AbsState.setVal
  rw [AbsState.setReg_tbl, Function.update_self]

/-- `leave` clears rbp, and leaves the table half of rbp in rsp unless rbp is a frame address. -/
theorem transferLeave_tbl (s : AbsState δ) :
    (transferLeave s).tbl kDWARFRbp = .none ∧
      ((transferLeave s).tbl kDWARFRsp = .none ∨
        (∀ d, s.gpr kDWARFRbp ≠ .cfaRel d) ∧ (transferLeave s).tbl kDWARFRsp = s.tbl kDWARFRbp) := by
  have hne : kDWARFRbp ≠ kDWARFRsp := by decide
  unfold transferLeave AbsState.copyReg AbsState.setVal
  dsimp only
  rw [AbsState.setReg_gpr, Function.update_self]
  split
  · constructor
    · rw [AbsState.setReg_tbl, Function.update_of_ne hne, AbsState.setReg_tbl, Function.update_self]
    · left
      rw [AbsState.setReg_tbl, Function.update_self]
  · rename_i hno
    constructor
    · rw [AbsState.clobberReg_tbl, Function.update_self]
    · right
      refine ⟨hno, ?_⟩
      rw [AbsState.clobberReg_tbl, Function.update_of_ne hne.symm, AbsState.setReg_tbl,
        Function.update_self]

end Stack

section Outcome
variable {z : Zydis} {insn : Instruction} {s : AbsState δ} {c c' : Cpu} {r : Fin 16}

theorem StepOutcome.of_clobber {b : ℕ}
    (htbl : (transfer z insn s).2.tbl r = { TableVal.none with valueBound := b })
    (hle : (c'.regs r).toNat ≤ b) : StepOutcome z insn s c c' r := by
  apply cleared
  · rw [htbl]
    rfl
  · rw [htbl]
    rfl
  · rw [htbl]
    exact hle

theorem StepOutcome.of_none (htbl : (transfer z insn s).2.tbl r = .none) : StepOutcome z insn s c c' r :=
  of_clobber htbl (toNat_le_kBoundTop _)

/-- What a branch writes is not seen. -/
theorem stepOutcome_of_branch (hret : isReturnMnemonic insn.id = false) (hbr : insn.isBranch = true)
    (hw : insn.WritesGpr r) : StepOutcome z insn s c c' r := by
  have htbl : (transfer z insn s).2.tbl r = s.tbl r := by
    rw [transfer_of_branch hret hbr]
    exact congrFun (dropStaleCmp_tbl insn s) r
  unfold Instruction.WritesGpr at hw
  rw [if_pos hbr] at hw
  refine .unseen ?_ htbl
  rw [Instruction.WritesUnseen, if_pos hbr]
  exact hw

/-- A push or a pop that is one move of rsp. -/
theorem stepOutcome_of_rsp
    (h : (transfer z insn s).2.tbl kDWARFRsp = .none ∨
      (∀ d, (dropStaleCmp insn s).gpr kDWARFRsp ≠ .cfaRel d) ∧
        (transfer z insn s).2 = dropStaleCmp insn s)
    (hunseen : (∀ d, s.gpr kDWARFRsp ≠ .cfaRel d) → insn.WritesUnseen s kDWARFRsp) :
    StepOutcome z insn s c c' kDWARFRsp := by
  rcases h with hnone | ⟨hno, heq⟩
  · exact .of_none hnone
  · rw [dropStaleCmp_gpr] at hno
    refine .unseen (hunseen hno) ?_
    rw [heq]
    exact congrFun (dropStaleCmp_tbl insn s) _

theorem stepOutcome_of_push (hid : insn.id = .push) (hbr : insn.isBranch = false) :
    StepOutcome z insn s c c' kDWARFRsp := by
  have htransfer : (transfer z insn s).2 = (transferPush insn (dropStaleCmp insn s)).2 := by
    rw [transfer_of_switch (by rw [hid]; rfl) hbr (by rw [hid]; rfl)]
    simp only [transferNamed, hid, Option.getD_some]
  unfold transferPush at htransfer
  split_ifs at htransfer with hodd
  · apply StepOutcome.of_none
    rw [htransfer, AbsState.clobberReg_tbl, Function.update_self]
  · apply stepOutcome_of_rsp
    · rw [htransfer]
      exact pushValue_tbl _ _
    · intro hno
      simp only [Instruction.WritesUnseen, hbr, hid, Bool.false_eq_true, if_false]
      exact ⟨by tauto, trivial, hno⟩

theorem stepOutcome_of_flags (hid : insn.id = .pushfq ∨ insn.id = .popfq) (hbr : insn.isBranch = false) :
    StepOutcome z insn s c c' kDWARFRsp := by
  apply stepOutcome_of_rsp
  · rcases hid with hid | hid
    · rw [transfer_of_switch (by rw [hid]; rfl) hbr (by rw [hid]; rfl)]
      simp only [transferNamed, hid, Option.getD_some]
      exact pushValue_tbl _ _
    · rw [transfer_of_switch (by rw [hid]; rfl) hbr (by rw [hid]; rfl)]
      simp only [transferNamed, hid, Option.getD_some]
      exact popValue_tbl _
  · intro hno
    rcases hid with hid | hid
    · simp only [Instruction.WritesUnseen, hbr, hid, Bool.false_eq_true, if_false]
      exact ⟨trivial, hno⟩
    · simp only [Instruction.WritesUnseen, hbr, hid, Bool.false_eq_true, if_false]
      exact ⟨trivial, hno⟩

theorem stepOutcome_of_pop (hid : insn.id = .pop) (hbr : insn.isBranch = false)
    (hw : r = kDWARFRsp ∨ insn.popDest = some r) : StepOutcome z insn s c c' r := by
  have htransfer : (transfer z insn s).2 = (transferPop insn (dropStaleCmp insn s)).2 := by
    rw [transfer_of_switch (by rw [hid]; rfl) hbr (by rw [hid]; rfl)]
    simp only [transferNamed, hid, Option.getD_some]
  unfold transferPop at htransfer
  split_ifs at htransfer with hodd
  · -- a pop of another width forgets rsp, and does not touch what it loads
    by_cases hr : r = kDWARFRsp
    · subst hr
      apply StepOutcome.of_none
      rw [htransfer, AbsState.clobberReg_tbl, Function.update_self]
    · refine .unseen ?_ ?_
      · simp only [Instruction.WritesUnseen, hbr, hid, Bool.false_eq_true, if_false]
        rw [if_neg (by tauto)]
        exact ⟨hr, hw.resolve_left hr⟩
      · rw [htransfer, AbsState.clobberReg_tbl, Function.update_of_ne hr, dropStaleCmp_tbl]
  · have hone : insn.opCount = 1 ∧ insn.insn.operandWidth = 64 := by tauto
    by_cases hdest : insn.popDest = some r
    · apply StepOutcome.of_none
      rw [htransfer]
      exact popInto_tbl hdest _ _
    · obtain rfl : r = kDWARFRsp := hw.resolve_right hdest
      have hkeep : (transfer z insn s).2.tbl kDWARFRsp = (popValue (dropStaleCmp insn s)).2.tbl kDWARFRsp := by
        rw [htransfer]
        exact KeepsTables.popInto hone.1 _ _ _ hdest
      rcases popValue_tbl (dropStaleCmp insn s) with hnone | ⟨hno, heq⟩
      · exact .of_none (hkeep.trans hnone)
      · rw [dropStaleCmp_gpr] at hno
        refine .unseen ?_ ?_
        · simp only [Instruction.WritesUnseen, hbr, hid, Bool.false_eq_true, if_false]
          rw [if_pos hone]
          exact ⟨trivial, hdest, hno⟩
        · rw [hkeep, heq, dropStaleCmp_tbl]

theorem stepOutcome_of_leave (hid : insn.id = .leave) (hbr : insn.isBranch = false)
    (hw : r = kDWARFRsp ∨ r = kDWARFRbp) : StepOutcome z insn s c c' r := by
  have htransfer : (transfer z insn s).2 = transferLeave (dropStaleCmp insn s) := by
    rw [transfer_of_switch (by rw [hid]; rfl) hbr (by rw [hid]; rfl)]
    simp only [transferNamed, hid, Option.getD_some]
  obtain ⟨hrbp, hrsp⟩ := transferLeave_tbl (dropStaleCmp insn s)
  rw [← htransfer] at hrbp hrsp
  rcases hw with rfl | rfl
  · rcases hrsp with hnone | ⟨hno, htbl⟩
    · exact .of_none hnone
    · rw [dropStaleCmp_gpr] at hno
      rw [dropStaleCmp_tbl] at htbl
      exact .left hid hbr hno htbl
  · exact .of_none hrbp

/-- A write that falls to the generic clobber, of a register it forgets. -/
theorem stepOutcome_of_listed (h : insn.Runs c c') (hlisted : insn.WritesListed)
    (hwidth : insn.Generic z s → ∀ d, endsIn32 d insn.insn.operands = true →
      clearsUpper d insn.insn.operands = true)
    (hnamed : transferNamed z insn (dropStaleCmp insn s) = none) (hmarks : insn.Marks r) :
    StepOutcome z insn s c c' r := by
  have hgen : insn.Generic z s := ⟨h.isReturn, hlisted.1, h.isTrap hlisted.1, hnamed⟩
  have htbl := clobberWrites_tbl insn (dropStaleCmp insn s) hmarks
  rw [← hgen.transfer_eq] at htbl
  apply StepOutcome.of_clobber htbl
  split_ifs with h32
  · have hlt := toNat_lt_of_clearsUpper (h.listed hlisted) (hwidth hgen r h32)
    have hbound : widthBound 32 = 2 ^ 32 - 1 := rfl
    omega
  · exact toNat_le_kBoundTop _

/-- A destination register that is clobbered under its spelling. -/
theorem stepOutcome_of_clobberWrittenReg {x : ZydisRegister} {w : Word}
    (htransfer : (transfer z insn s).2 = clobberWrittenReg (dropStaleCmp insn s) x r)
    (hput : c'.regs r = x.put (c.regs r) w) : StepOutcome z insn s c c' r := by
  apply StepOutcome.of_clobber (b := writtenRegBound x)
  · rw [htransfer, clobberWrittenReg_tbl, Function.update_self]
  · rw [hput]
    exact x.put_le_writtenRegBound _ _

theorem stepOutcome_of_setVal {v : AbsVal δ}
    (htransfer : (transfer z insn s).2 = (dropStaleCmp insn s).setVal r v) :
    StepOutcome z insn s c c' r := by
  apply StepOutcome.of_none
  rw [htransfer]
  unfold AbsState.setVal
  rw [AbsState.setReg_tbl, Function.update_self]

theorem stepOutcome_of_lea {dst src : Operand} {x : ZydisRegister} (h : insn.Runs c c') (hid : insn.id = .lea)
    (hbr : insn.isBranch = false) (hops : insn.ops2? = some (dst, src)) (hkind : dst.kind = .register x)
    (hx : x.dwarfRegOf = some r) : StepOutcome z insn s c c' r := by
  obtain ⟨honly, w, hput⟩ := h.dest (by simp [hid]) dst src x r hops hkind hx
  have htransfer : (transfer z insn s).2 =
      (transferLea z insn (dropStaleCmp insn s)).getD (clobberWrites insn (dropStaleCmp insn s)) := by
    rw [transfer_of_switch (by rw [hid]; rfl) hbr (by rw [hid]; rfl)]
    simp only [transferNamed, hid, getD_map_plain]
  obtain ⟨kind, size, write, condWrite⟩ := dst
  obtain ⟨kind', size', write', condWrite'⟩ := src
  dsimp only at hkind
  subst hkind
  rw [honly.clobberWrites hx] at htransfer
  unfold transferLea at htransfer
  cases kind' with
  | memory mem =>
    simp only [hops, hx] at htransfer
    split at htransfer
    · exact stepOutcome_of_clobberWrittenReg htransfer hput
    · split at htransfer
      · rename_i target _
        have htbl : (transfer z insn s).2.tbl r = .const target := by
          rw [htransfer, Option.getD_some]
          unfold AbsState.setTableReg
          rw [AbsState.setReg_tbl, Function.update_self]
        apply StepOutcome.cleared
        · rw [htbl]
          rfl
        · rw [htbl]
          rfl
        · rw [htbl]
          exact toNat_le_kBoundTop _
      · exact stepOutcome_of_setVal htransfer
  | register _ | immediate _ | pointer =>
    simp only [hops, Option.getD_none] at htransfer
    exact stepOutcome_of_clobberWrittenReg htransfer hput

theorem stepOutcome_of_addSub {dst src : Operand} {x : ZydisRegister} (h : insn.Runs c c')
    (hid : insn.id = .add ∨ insn.id = .sub) (hbr : insn.isBranch = false)
    (hops : insn.ops2? = some (dst, src)) (hkind : dst.kind = .register x) (hx : x.dwarfRegOf = some r) :
    StepOutcome z insn s c c' r := by
  obtain ⟨honly, w, hput⟩ := h.dest (by rcases hid with hid | hid <;> simp [hid]) dst src x r hops hkind hx
  have htransfer : (transfer z insn s).2 =
      (transferAddSub insn (dropStaleCmp insn s)).getD (clobberWrites insn (dropStaleCmp insn s)) := by
    rcases hid with hid | hid
    · rw [transfer_of_switch (by rw [hid]; rfl) hbr (by rw [hid]; rfl)]
      simp only [transferNamed, hid, getD_map_plain]
    · rw [transfer_of_switch (by rw [hid]; rfl) hbr (by rw [hid]; rfl)]
      simp only [transferNamed, hid, getD_map_plain]
  obtain ⟨kind, size, write, condWrite⟩ := dst
  obtain ⟨kind', size', write', condWrite'⟩ := src
  dsimp only at hkind
  subst hkind
  rw [honly.clobberWrites hx] at htransfer
  unfold transferAddSub at htransfer
  cases kind' with
  | register q =>
    simp only [hops] at htransfer
    split at htransfer
    · rename_i hadd
      cases hdispatch : addDispatch (dropStaleCmp insn s) x q with
      | none =>
        rw [hdispatch] at htransfer
        exact stepOutcome_of_clobberWrittenReg htransfer hput
      | some u =>
        unfold addDispatch at hdispatch
        simp only [Option.bind_eq_bind, Option.bind_eq_some_iff] at hdispatch
        obtain ⟨d, hd, e, he, hdispatch⟩ := hdispatch
        cases hx.symm.trans hd
        split at hdispatch
        · rename_i hfull
          obtain ⟨t, htarget, -⟩ := Option.bind_eq_some_iff.mp hdispatch
          obtain ⟨hxf, hqf⟩ := Bool.and_eq_true_iff.mp hfull
          rw [dropStaleCmp_tbl] at htarget
          exact .resolved ⟨hadd, hbr, ⟨_, _, x, q, hops, rfl, rfl, hxf, hqf, hx, he⟩, htarget⟩
        · cases hdispatch
    · exact stepOutcome_of_clobberWrittenReg htransfer hput
  | immediate imm =>
    simp only [hops, addSubImm, hx, Option.map_some, Option.getD_some] at htransfer
    split at htransfer
    · exact stepOutcome_of_setVal htransfer
    · exact stepOutcome_of_clobberWrittenReg htransfer hput
  | memory _ | pointer =>
    simp only [hops, Option.getD_none] at htransfer
    exact stepOutcome_of_clobberWrittenReg htransfer hput

theorem Instruction.Runs.readsLow {dst src : Operand} (h : insn.Runs c c')
    (hops : insn.ops2? = some (dst, src)) : src.ReadsLow := by
  obtain ⟨rest, hoperands⟩ := Instruction.operands_of_ops2? hops
  have hin : src ∈ insn.insn.operands := by simp [hoperands]
  intro q hq hdwarf
  have hkind := Operand.kind_of_reg? hq
  exact ⟨h.low src hin q hkind hdwarf, h.sized src hin q hkind hdwarf⟩

theorem put_moved_of_full {x q : ZydisRegister} (hid : insn.id = .mov ∨ insn.id = .movq)
    (hx : x.isFull64 = true) (hq : q.isFull64 = true) (bits : ℕ) (old w : Word) :
    x.put old (insn.moved bits (q.value w)) = w := by
  have hmoved : insn.moved bits (q.value w) = BitVec.ofNat 64 (q.value w) := by
    rcases hid with hid | hid <;> simp [Instruction.moved, hid]
  rw [hmoved]
  cases x with
  | gpr64 g =>
    cases q with
    | gpr64 g' => exact BitVec.ofNat_toNat 64 w
    | gpr32 | gpr16 | gpr8 | high8 | none | rip | other => cases hq
  | gpr32 | gpr16 | gpr8 | high8 | none | rip | other => cases hx

theorem stepOutcome_of_move {x : ZydisRegister} {src : Operand} (h : insn.Runs c c') (hinv : NumInv s c)
    (hm : insn.Move x src) (hx : x.dwarfRegOf = some r) : StepOutcome z insn s c c' r := by
  obtain ⟨dst, hops, hdst⟩ := hm.ops
  by_cases himm : ∃ imm, src.kind = .immediate imm
  · obtain ⟨imm, himm⟩ := himm
    have hid : insn.id ∈ [.lea, .mov, .movq, .movsxd, .movzx, .movsx, .add, .sub] := by
      have hid := hm.mnemonic
      simp only [List.mem_cons, List.not_mem_nil, or_false] at hid ⊢
      tauto
    obtain ⟨-, w, hput⟩ := h.dest hid dst src x r hops hdst hx
    rcases hm.immediate (z := z) (s := s) hx himm with htransfer | htransfer
    · exact stepOutcome_of_clobberWrittenReg htransfer hput
    · exact stepOutcome_of_setVal htransfer
  · obtain ⟨v, hv, hput⟩ := h.moved x r src hm hx (not_exists.mp himm)
    have hread := supplies_le_readBound (hinv.dropStaleCmp insn) (h.readsLow hops) hv
    obtain ⟨t, hw, hcarried⟩ := hm.wrote (z := z) hx hread (c.regs r)
    have htbl : (transfer z insn s).2.tbl r = t := by rw [hw.tbl, Function.update_self]
    rw [← hput, ← htbl] at hcarried
    rcases hm.table (z := z) (s := s) hx with ⟨q, e, hk, hxf, hqf, hq, hcopies⟩ | ⟨idx, mem, value, hload⟩ | hun
    · have hvq : v = q.value (c.regs e) := by
        unfold Operand.Supplies at hv
        simpa [Operand.reg?, hk, hq] using hv
      refine .copied ?_ hcopies.tbl
      rw [hput, hvq]
      exact put_moved_of_full hcopies.mnemonic hxf hqf _ _ _
    · exact .loaded hload
    · have hplain : ((transfer z insn s).2.tbl r).indexed = false := by
        unfold TableVal.indexed
        rw [hun.kind]
      rcases hun.bound with htop | ⟨hwidens, hsome⟩
      · exact .cleared hplain htop hcarried.value
      · obtain ⟨e, he⟩ := Option.isSome_iff_exists.mp hsome
        obtain ⟨q, hq, hdwarf⟩ := Option.bind_eq_some_iff.mp he
        have hvq : v = q.value (c.regs e) := by
          unfold Operand.Supplies at hv
          simpa [hq, hdwarf] using hv
        refine .widened hm hwidens he ?_ hread hcarried.value fun htable => ?_
        · rw [hvq]
          exact q.value_le _
        · refine hcarried.table (by simp [hq]) ?_
          rw [he]
          simpa [AbsState.table, dropStaleCmp_tbl] using htable

theorem Instruction.WritesDest.destGpr {u : AbsState δ} (h : insn.WritesDest s u) : insn.destGpr ≠ none := by
  obtain ⟨dst, src, d, hops, ⟨x, hkind, hx⟩, -⟩ := h
  rw [destGpr_eq hops hkind, hx]
  simp

theorem Instruction.Steps.regs_eq_of_store {dst src : Operand} {mem : MemOperand} (h : insn.Steps c c')
    (hid : insn.id = .mov ∨ insn.id = .movq) (hbr : insn.isBranch = false)
    (hops : insn.ops2? = some (dst, src)) (hkind : dst.kind = .memory mem) : c'.regs = c.regs := by
  obtain ⟨kind, size, write, condWrite⟩ := dst
  dsimp only at hkind
  subst hkind
  have hregs := h.regs
  have hcall : insn.id ≠ .call := by
    rcases hid with hid | hid <;> simp [hid]
  unfold ChangesRegs at hregs
  rw [if_neg (by simp [hbr]), if_neg hcall] at hregs
  obtain ⟨mem, mem', hx⟩ := hregs
  rcases hid with hid | hid
  · simpa [Exec, hbr, hid, isReturnMnemonic, isTrapMnemonic, ExecMov, hops] using hx
  · simpa [Exec, hbr, hid, isReturnMnemonic, isTrapMnemonic, ExecMov, hops] using hx

/-- A destination operand that is part of no GPR: what `Transfer` writes is memory, or what the decoder
marks. -/
theorem stepOutcome_of_destGpr_none (h : insn.Runs c c') (hbr : insn.isBranch = false)
    (hid : insn.id ∈ [.lea, .mov, .movq, .movsxd, .movzx, .movsx, .add, .sub])
    (hwidth : insn.Generic z s → ∀ d, endsIn32 d insn.insn.operands = true →
      clearsUpper d insn.insn.operands = true)
    (hdest : insn.destGpr = none) (hmarks : insn.Marks r) : StepOutcome z insn s c c' r := by
  have hlisted : insn.WritesListed := by
    refine ⟨hbr, ?_⟩
    simp only [List.mem_cons, List.not_mem_nil, or_false] at hid
    rcases hid with hid | hid | hid | hid | hid | hid | hid | hid
    all_goals
      rw [hid]
      exact hdest
  have hnone {named : Option (AbsState δ)}
      (hdest' : ∀ u, named = some u → insn.WritesDest (dropStaleCmp insn s) u) : named = none := by
    cases hu : named with
    | none => rfl
    | some u => exact absurd hdest (hdest' u hu).destGpr
  have hmov (hmov : insn.id = .mov ∨ insn.id = .movq) : StepOutcome z insn s c c' r := by
    cases hu : transferMov insn (dropStaleCmp insn s) with
    | none =>
      refine stepOutcome_of_listed h hlisted hwidth ?_ hmarks
      rcases hmov with hmov | hmov <;> simp [transferNamed, hmov, hu]
    | some u =>
      rcases transferMov_eq_some hu with hwrites | ⟨dst, src, mem, hops, hkind, rfl⟩
      · exact absurd hdest hwrites.destGpr
      · refine .kept (congrFun (h.regs_eq_of_store hmov hbr hops hkind) r) ?_
        rw [transfer_mov hmov hbr, hu, Option.getD_some]
        have hkeep : KeepsTables (dropStaleCmp insn s)
            (movToMem insn (dropStaleCmp insn s) mem dst.size src) fun _ => False := .movToMem _ _ _ _ _
        rw [hkeep r not_false, dropStaleCmp_tbl]
  simp only [List.mem_cons, List.not_mem_nil, or_false] at hid
  rcases hid with hid | hid | hid | hid | hid | hid | hid | hid
  · refine stepOutcome_of_listed h hlisted hwidth ?_ hmarks
    simp only [transferNamed, hid, hnone fun u => transferLea_eq_some, Option.map_none]
  · exact hmov (.inl hid)
  · exact hmov (.inr hid)
  · refine stepOutcome_of_listed h hlisted hwidth ?_ hmarks
    simp only [transferNamed, hid, hnone fun u => transferMovsxd_eq_some, Option.map_none]
  · refine stepOutcome_of_listed h hlisted hwidth ?_ hmarks
    simp only [transferNamed, hid, hnone fun u => transferMovx_eq_some, Option.map_none]
  · refine stepOutcome_of_listed h hlisted hwidth ?_ hmarks
    simp only [transferNamed, hid, hnone fun u => transferMovx_eq_some, Option.map_none]
  · refine stepOutcome_of_listed h hlisted hwidth ?_ hmarks
    simp only [transferNamed, hid, hnone fun u => transferAddSub_eq_some, Option.map_none]
  · refine stepOutcome_of_listed h hlisted hwidth ?_ hmarks
    simp only [transferNamed, hid, hnone fun u => transferAddSub_eq_some, Option.map_none]

theorem exists_dest_of_destGpr (hdest : insn.destGpr = some r) :
    ∃ dst src x, insn.ops2? = some (dst, src) ∧ dst.kind = .register x ∧ x.dwarfRegOf = some r := by
  unfold Instruction.destGpr at hdest
  obtain ⟨⟨dst, src⟩, hops, hreg⟩ := Option.bind_eq_some_iff.mp hdest
  obtain ⟨x, hx, hdwarf⟩ := Option.bind_eq_some_iff.mp hreg
  exact ⟨dst, src, x, hops, Operand.kind_of_reg? hx, hdwarf⟩

/-- The two-operand instructions of the `switch`. -/
theorem stepOutcome_of_dest (h : insn.Runs c c') (hinv : NumInv s c) (hbr : insn.isBranch = false)
    (hid : insn.id ∈ [.lea, .mov, .movq, .movsxd, .movzx, .movsx, .add, .sub])
    (hwidth : insn.Generic z s → ∀ d, endsIn32 d insn.insn.operands = true →
      clearsUpper d insn.insn.operands = true)
    (hw : insn.destGpr = some r ∨ insn.Marks r) : StepOutcome z insn s c c' r := by
  cases hdest : insn.destGpr with
  | none =>
    rw [hdest] at hw
    exact stepOutcome_of_destGpr_none h hbr hid hwidth hdest (hw.resolve_left (by simp))
  | some d =>
    obtain ⟨dst, src, x, hops, hkind, hx⟩ := exists_dest_of_destGpr hdest
    obtain ⟨honly, -⟩ := h.dest hid dst src x d hops hkind hx
    have hr : r = d := by
      rcases hw with hw | hw
      · exact Option.some.inj (hw.symm.trans hdest)
      · exact honly.eq_of_marks hx hw
    subst hr
    have hmove (hid : insn.id ∈ [.mov, .movq, .movzx, .movsx, .movsxd]) : StepOutcome z insn s c c' r :=
      stepOutcome_of_move h hinv ⟨hid, ⟨dst, hops, hkind⟩, hbr, honly⟩ hx
    simp only [List.mem_cons, List.not_mem_nil, or_false] at hid
    rcases hid with hid | hid | hid | hid | hid | hid | hid | hid
    · exact stepOutcome_of_lea h hid hbr hops hkind hx
    iterate 5 exact hmove (by simp [hid])
    · exact stepOutcome_of_addSub h (.inl hid) hbr hops hkind hx
    · exact stepOutcome_of_addSub h (.inr hid) hbr hops hkind hx

/-- Every register, after every instruction that another can follow. -/
theorem Instruction.Runs.stepOutcome (h : insn.Runs c c') (hinv : NumInv s c)
    (hwidth : insn.Generic z s → ∀ d, endsIn32 d insn.insn.operands = true →
      clearsUpper d insn.insn.operands = true) (r : Fin 16) : StepOutcome z insn s c c' r := by
  by_cases hw : insn.WritesGpr r
  · cases hbr : insn.isBranch with
    | true => exact stepOutcome_of_branch h.isReturn hbr hw
    | false =>
      have htrap := h.isTrap hbr
      have hret := h.isReturn
      unfold WritesGpr at hw
      rw [if_neg (by simp [hbr])] at hw
      have hcall (hcall : transferNamed z insn (dropStaleCmp insn s) =
          some ({ isCall := insn.id = .call }, callEffect (dropStaleCmp insn s)))
          (hr : r ∈ kCallerSaved) : StepOutcome z insn s c c' r := by
        apply StepOutcome.of_none
        rw [transfer_of_switch hret hbr htrap, hcall, Option.getD_some]
        exact callEffect_tbl hr _
      cases hid : insn.id with
      | call | syscall | sysenter | int | int1 | into | vmcall | vmmcall =>
        rw [hid] at hw
        exact hcall (by simp [transferNamed, hid]) hw
      | int3 | ud0 | ud1 | ud2 | hlt =>
        rw [hid] at htrap
        cases htrap
      | ret | iret | iretd | iretq =>
        rw [hid] at hret
        cases hret
      | push =>
        rw [hid] at hw
        subst hw
        exact stepOutcome_of_push hid hbr
      | pushfq =>
        rw [hid] at hw
        subst hw
        exact stepOutcome_of_flags (.inl hid) hbr
      | popfq =>
        rw [hid] at hw
        subst hw
        exact stepOutcome_of_flags (.inr hid) hbr
      | pop =>
        rw [hid] at hw
        exact stepOutcome_of_pop hid hbr hw
      | leave =>
        rw [hid] at hw
        exact stepOutcome_of_leave hid hbr hw
      | lea | mov | movq | movsxd | movzx | movsx | add | sub =>
        rw [hid] at hw
        exact stepOutcome_of_dest h hinv hbr (by simp [hid]) hwidth hw
      | cmp | nop | endbr32 | endbr64 =>
        rw [hid] at hw
        exact hw.elim
      | jmp | jnbe | jnb | jbe | jb | other _ =>
        rw [hid] at hw
        refine stepOutcome_of_listed h ⟨hbr, by rw [hid]; trivial⟩ hwidth ?_ hw
        simp [transferNamed, hid]
  · exact .kept (h.keeps hw) (transfer_keepsTables z insn s r hw)

end Outcome

end UnwindCheck
