import UnwindCheck.Insn.Writes
import UnwindCheck.Machine.Clobber

/-! Which registers an instruction writes, that the table half of every other one is left alone, and
the three instructions of a dispatch through a table. -/
namespace UnwindCheck
variable {δ : Type} [Offset δ]

namespace Instruction
variable (insn : Instruction)

/-- The GPR that the first of two operands spells. -/
def destGpr : Option (Fin 16) :=
  insn.ops2?.bind fun ops => ops.1.reg?.bind ZydisRegister.dwarfRegOf

/-- The registers an instruction writes: what a call may destroy, what a stack instruction moves or
loads, a destination, and what the decoder marks. -/
def WritesGpr (r : Fin 16) : Prop :=
  if insn.isBranch then insn.Marks r
  else match insn.id with
    | .call | .syscall | .sysenter | .int | .int1 | .into | .vmcall | .vmmcall => r ∈ kCallerSaved
    | .push | .pushfq | .popfq => r = kDWARFRsp
    | .pop => r = kDWARFRsp ∨ insn.popDest = some r
    | .leave => r = kDWARFRsp ∨ r = kDWARFRbp
    | .lea | .mov | .movq | .movsxd | .movzx | .movsx | .add | .sub =>
      insn.destGpr = some r ∨ insn.Marks r
    | .cmp | .nop | .endbr32 | .endbr64 => False
    | _ => insn.Marks r

end Instruction

/-- The table halves of registers outside `rs` are as before. -/
def KeepsTables (s s' : AbsState δ) (rs : Fin 16 → Prop) : Prop := ∀ r, ¬ rs r → s'.tbl r = s.tbl r

namespace KeepsTables
variable {s s' s'' : AbsState δ} {rs qs : Fin 16 → Prop} {insn : Instruction}

theorem of_eq (h : s'.tbl = s.tbl) : KeepsTables s s' rs := fun r _ => congrFun h r

theorem mono (h : KeepsTables s s' rs) (hsub : ∀ r, rs r → qs r) : KeepsTables s s' qs :=
  fun r hr => h r fun hrs => hr (hsub r hrs)

theorem trans (h : KeepsTables s s' rs) (h' : KeepsTables s' s'' rs) : KeepsTables s s'' rs :=
  fun r hr => (h' r hr).trans (h r hr)

theorem setReg (s : AbsState δ) (d : Fin 16) (v : AbsVal δ) (t : TableVal) :
    KeepsTables s (s.setReg d v t) (· = d) := by
  intro r hr
  rw [AbsState.setReg_tbl, Function.update_of_ne hr]

theorem of_writesReg {d : Fin 16} (h : WritesReg s s' d) : KeepsTables s s' (· = d) := by
  obtain ⟨v, t, rfl⟩ := h
  exact setReg s d v t

theorem foldl_clobberReg (rs : List (Fin 16)) (s : AbsState δ) :
    KeepsTables s (rs.foldl AbsState.clobberReg s) (· ∈ rs) := by
  induction rs generalizing s with
  | nil => exact of_eq rfl
  | cons r rs ih =>
    rw [List.foldl_cons]
    have hfirst : KeepsTables s (s.clobberReg r) (· ∈ r :: rs) := (setReg s r .top .none).mono (by simp)
    exact hfirst.trans ((ih _).mono fun q hq => List.mem_cons_of_mem r hq)

theorem callEffect (s : AbsState δ) : KeepsTables s (callEffect s) (· ∈ kCallerSaved) := by
  unfold UnwindCheck.callEffect
  refine trans (of_eq ?_) (foldl_clobberReg kCallerSaved _)
  split <;> rfl

theorem pushValue (s : AbsState δ) (v : AbsVal δ) : KeepsTables s (pushValue s v) (· = kDWARFRsp) := by
  unfold UnwindCheck.pushValue
  split
  · exact (setReg s kDWARFRsp _ _).trans (of_eq (AbsState.setSlot_tbl _ _ _))
  · exact of_eq rfl

theorem popValue (s : AbsState δ) : KeepsTables s (popValue s).2 (· = kDWARFRsp) := by
  unfold UnwindCheck.popValue
  split
  · dsimp only
    exact setReg s kDWARFRsp _ _
  · exact of_eq rfl

theorem popInto (hone : insn.opCount = 1) (v : AbsVal δ) (s : AbsState δ) :
    KeepsTables s (popInto insn v s) fun r => insn.popDest = some r := by
  unfold UnwindCheck.popInto Instruction.popDest
  rw [if_pos hone]
  cases hop : insn.op? 0 with
  | none => exact of_eq rfl
  | some op =>
    cases hkind : op.kind with
    | register q =>
      simp only [Option.map_some, hkind, Option.bind_some, Operand.reg?]
      cases hq : q.dwarfRegOf with
      | none => exact of_eq rfl
      | some d => exact (setReg s d _ _).mono fun r hr => hr ▸ rfl
    | memory mem =>
      simp only [Option.map_some, hkind]
      split
      · exact of_eq (AbsState.setSlot_tbl _ _ _)
      · exact of_eq rfl
    | immediate _ | pointer =>
      simp only [Option.map_some, hkind]
      exact of_eq rfl

theorem transferLeave (s : AbsState δ) :
    KeepsTables s (transferLeave s) fun r => r = kDWARFRsp ∨ r = kDWARFRbp := by
  have hset : ∀ (u : AbsState δ) (d : Fin 16) (v : AbsVal δ) (t : TableVal),
      d = kDWARFRsp ∨ d = kDWARFRbp →
      KeepsTables u (u.setReg d v t) fun r => r = kDWARFRsp ∨ r = kDWARFRbp := by
    intro u d v t hd
    exact (setReg u d v t).mono fun r hr => hr ▸ hd
  unfold UnwindCheck.transferLeave
  dsimp only
  split
  · exact ((hset s kDWARFRsp _ _ (.inl rfl)).trans (hset _ kDWARFRbp _ _ (.inr rfl))).trans
      (hset _ kDWARFRsp _ _ (.inl rfl))
  · exact (hset s kDWARFRsp _ _ (.inl rfl)).trans (hset _ kDWARFRbp _ _ (.inr rfl))

theorem clobberWrites (insn : Instruction) (s : AbsState δ) :
    KeepsTables s (clobberWrites insn s) insn.Marks :=
  fun r hr => ((clobberWrites_reg insn s r).2 hr).2

theorem of_writesDest (h : insn.WritesDest s s') :
    KeepsTables s s' fun r => insn.destGpr = some r ∨ insn.Marks r := by
  obtain ⟨dst, src, d, hops, ⟨x, hkind, hx⟩, hw⟩ := h
  refine (of_writesReg hw).mono fun r hr => .inl ?_
  subst hr
  simp [Instruction.destGpr, hops, Operand.reg?, hkind, hx]

/-- A case of the `switch` that writes its destination, with the generic clobber behind it. -/
theorem getD {named : Option (AbsState δ)} (h : ∀ u, named = some u →
      KeepsTables s u fun r => insn.destGpr = some r ∨ insn.Marks r) :
    KeepsTables s (named.getD (UnwindCheck.clobberWrites insn s)) fun r =>
      insn.destGpr = some r ∨ insn.Marks r := by
  cases hnamed : named with
  | none => exact (clobberWrites insn s).mono fun r => Or.inr
  | some u => exact h u hnamed

theorem movToMem (insn : Instruction) (s : AbsState δ) (mem : MemOperand) (size : ℕ) (src : Operand) :
    KeepsTables s (movToMem insn s mem size src) rs := by
  apply of_eq
  unfold UnwindCheck.movToMem
  split
  · rfl
  · dsimp only
    split
    · split_ifs
      · rw [AbsState.setSlot_tbl, eraseSlots_tbl]
      · exact eraseSlots_tbl _ _ _
    · exact eraseSlots_tbl _ _ _

end KeepsTables

theorem transferCmp_tbl (insn : Instruction) (s : AbsState δ) : (transferCmp insn s).tbl = s.tbl := by
  unfold transferCmp
  split
  · split <;> rfl
  · rfl

theorem transferPush_keepsTables (insn : Instruction) (s : AbsState δ) :
    KeepsTables s (transferPush insn s).2 (· = kDWARFRsp) := by
  unfold transferPush
  split_ifs
  · exact KeepsTables.setReg s kDWARFRsp _ _
  · exact KeepsTables.pushValue s _

theorem transferPop_keepsTables (insn : Instruction) (s : AbsState δ) :
    KeepsTables s (transferPop insn s).2 fun r => r = kDWARFRsp ∨ insn.popDest = some r := by
  unfold transferPop
  split_ifs with hodd
  · exact (KeepsTables.setReg s kDWARFRsp _ _).mono fun r => Or.inl
  · have hone : insn.opCount = 1 := by tauto
    exact ((KeepsTables.popValue s).mono fun r => Or.inl).trans
      ((KeepsTables.popInto hone _ _).mono fun r => Or.inr)

/-- The `switch` and the generic clobber behind it. -/
theorem transferNamed_keepsTables (z : Zydis) {insn : Instruction} (hbr : insn.isBranch = false)
    (htrap : isTrapMnemonic insn.id = false) (s : AbsState δ) :
    KeepsTables s ((transferNamed z insn s).getD ({}, clobberWrites insn s)).2 insn.WritesGpr := by
  unfold Instruction.WritesGpr
  simp only [hbr, Bool.false_eq_true, if_false]
  unfold transferNamed
  cases hid : insn.id with
  | call | syscall | sysenter | int | int1 | into | vmcall | vmmcall => exact KeepsTables.callEffect s
  | int3 =>
    rw [hid] at htrap
    cases htrap
  | push => exact transferPush_keepsTables insn s
  | pushfq => exact KeepsTables.pushValue s _
  | pop => exact transferPop_keepsTables insn s
  | popfq => exact KeepsTables.popValue s
  | leave => exact KeepsTables.transferLeave s
  | lea =>
    simp only [getD_map_plain]
    exact .getD fun u hu => .of_writesDest (transferLea_eq_some hu)
  | mov | movq =>
    simp only [getD_map_plain]
    refine .getD fun u hu => ?_
    rcases transferMov_eq_some hu with hw | ⟨dst, src, mem, -, -, rfl⟩
    · exact .of_writesDest hw
    · exact KeepsTables.movToMem insn s mem dst.size src
  | movsxd =>
    simp only [getD_map_plain]
    exact .getD fun u hu => .of_writesDest (transferMovsxd_eq_some hu)
  | add | sub =>
    simp only [getD_map_plain]
    exact .getD fun u hu => .of_writesDest (transferAddSub_eq_some hu)
  | movzx | movsx =>
    simp only [getD_map_plain]
    exact .getD fun u hu => .of_writesDest (transferMovx_eq_some hu)
  | cmp => exact KeepsTables.of_eq (transferCmp_tbl insn s)
  | nop | endbr32 | endbr64 => exact KeepsTables.of_eq rfl
  | ret | iret | iretd | iretq | jmp | jnbe | jnb | jbe | jb | ud0 | ud1 | ud2 | hlt | other _ =>
    exact KeepsTables.clobberWrites insn s

/-- An instruction leaves alone the table halves of the registers it does not write. -/
theorem transfer_keepsTables (z : Zydis) (insn : Instruction) (s : AbsState δ) :
    KeepsTables s (transfer z insn s).2 insn.WritesGpr := by
  have hdrop : KeepsTables s (dropStaleCmp insn s) insn.WritesGpr :=
    KeepsTables.of_eq (dropStaleCmp_tbl insn s)
  cases hret : isReturnMnemonic insn.id with
  | true =>
    unfold transfer
    rw [hret]
    exact hdrop
  | false =>
    cases hbr : insn.isBranch with
    | true =>
      rw [transfer_of_branch hret hbr]
      exact hdrop
    | false =>
      cases htrap : isTrapMnemonic insn.id with
      | true =>
        have hcat : ¬ (insn.insn.category = .condBr ∨ insn.insn.category = .uncondBr) := by
          simpa [Instruction.isBranch] using hbr
        unfold transfer
        rw [hret, if_neg (by simp), if_neg hcat, htrap]
        exact hdrop
      | false =>
        rw [transfer_of_switch hret hbr htrap]
        exact hdrop.trans (transferNamed_keepsTables z hbr htrap _)

/-- `movslq disp(%B,%I,4),%T` with the constant `value` in `B`: register `d` becomes an entry of the
table, at index `idx`. -/
structure Instruction.LoadsTable (insn : Instruction) (s : AbsState δ) (d idx : Fin 16)
    (mem : MemOperand) (value : Word) : Prop where
  mnemonic : insn.id = .movsxd
  isBranch : insn.isBranch = false
  ops : ∃ dst src x, insn.ops2? = some (dst, src) ∧ dst.kind = .register x ∧
    x.dwarfRegOf = some d ∧ x.isFull64 = true ∧ src.kind = .memory mem
  index : mem.index.dwarfRegOf = some idx
  scale : mem.scale = 4
  base : ∃ b, mem.base = .gpr64 b ∧ (s.tbl b.dwarf).kind = .const value

/-- `add %B,%T`, both in full, where `d` and `e` are an entry of a table and the constant it was
loaded from: `d` becomes the target `t`. -/
structure Instruction.Resolves (insn : Instruction) (s : AbsState δ) (d e : Fin 16) (t : TableVal) :
    Prop where
  mnemonic : insn.id = .add
  isBranch : insn.isBranch = false
  ops : ∃ dst src x q, insn.ops2? = some (dst, src) ∧ dst.kind = .register x ∧ src.kind = .register q ∧
    x.isFull64 = true ∧ q.isFull64 = true ∧ x.dwarfRegOf = some d ∧ q.dwarfRegOf = some e
  target : (resolveDispatch (s.tbl d) (s.tbl e)).or (resolveDispatch (s.tbl e) (s.tbl d)) = some t

/-- `jmp *%T` -/
structure Instruction.JumpsThrough (insn : Instruction) (r : Fin 16) : Prop where
  mnemonic : insn.id = .jmp
  isBranch : insn.isBranch = true
  op : ∃ op x, insn.op? 0 = some op ∧ op.kind = .register x ∧ x.dwarfRegOf = some r

section Dispatch
variable {z : Zydis} {insn : Instruction} {s : AbsState δ} {d e idx : Fin 16} {mem : MemOperand}
  {value : Word} {t : TableVal}

theorem tableLoad_eq {b : Gpr} (hidx : mem.index.dwarfRegOf = some idx) (hscale : mem.scale = 4)
    (hbase : mem.base = .gpr64 b) (hconst : (s.tbl b.dwarf).kind = .const value) :
    tableLoad s d mem = some (s.setTableReg d
      (.tableEntry (value + mem.disp.toBitVec) idx value (s.tbl idx).tableBound)) := by
  have hform : ¬ (mem.index = .none ∨ mem.scale ≠ 4 ∨ mem.base = .none) := by
    rintro (h | h | h)
    · rw [h] at hidx
      cases hidx
    · exact h hscale
    · rw [h] at hbase
      cases hbase
  have hdwarf : (ZydisRegister.gpr64 b).dwarfRegOf = some b.dwarf := rfl
  unfold tableLoad
  rw [if_neg hform]
  simp [hidx, hdwarf, hbase, ZydisRegister.isFull64, hconst]

/-- What is captured is the bound the index has at the load. -/
theorem Instruction.LoadsTable.tbl (h : insn.LoadsTable s d idx mem value) :
    (transfer z insn s).2.tbl d =
      .tableEntry (value + mem.disp.toBitVec) idx value (s.tbl idx).tableBound := by
  obtain ⟨⟨kind, size, write, condWrite⟩, src, x, hops, hkind, hx, hfull, hmem⟩ := h.ops
  obtain ⟨b, hbase, hconst⟩ := h.base
  dsimp only at hkind
  subst hkind
  have hconst' : ((dropStaleCmp insn s).tbl b.dwarf).kind = .const value := by
    rw [dropStaleCmp_tbl, hconst]
  rw [transfer_of_switch (by rw [h.mnemonic]; rfl) h.isBranch (by rw [h.mnemonic]; rfl)]
  simp only [transferNamed, h.mnemonic, getD_map_plain, transferMovsxd, hops, hx, hfull, hmem,
    Bool.not_true, Bool.false_eq_true, if_false, tableLoad_eq h.index h.scale hbase hconst',
    Option.getD_some]
  unfold AbsState.setTableReg
  rw [AbsState.setReg_tbl, Function.update_self, dropStaleCmp_tbl]

/-- What is resolved. -/
theorem Instruction.Resolves.tbl (h : insn.Resolves s d e t) : (transfer z insn s).2.tbl d = t := by
  obtain ⟨⟨kind, size, write, condWrite⟩, ⟨kind', size', write', condWrite'⟩, x, q, hops, hkind, hkind',
    hx, hq, hd, he⟩ := h.ops
  dsimp only at hkind hkind'
  subst hkind hkind'
  have htarget := h.target
  rw [transfer_of_switch (by rw [h.mnemonic]; rfl) h.isBranch (by rw [h.mnemonic]; rfl)]
  simp only [transferNamed, h.mnemonic, getD_map_plain, transferAddSub, hops, if_true, addDispatch, hd,
    he, Option.bind_eq_bind, Option.bind_some, hx, hq, Bool.and_true, dropStaleCmp_tbl, htarget,
    Option.getD_some]
  unfold AbsState.setTableReg
  rw [AbsState.setReg_tbl, Function.update_self]

/-- What `jmp *%T` reports of a table with so many entries, or of one whose size is not known. -/
def tableOutcome (addr : Word) (bound : ℕ) : TransferOutcome :=
  if bound ≠ kBoundTop then { fallsThrough := false, jumpTable := some (addr, bound + 1) }
  else { fallsThrough := false, unboundedJumpTarget := some addr, indirectBranch := true }

theorem Instruction.JumpsThrough.outcome {r : Fin 16} (h : insn.JumpsThrough r) {addr : Word} {i : ℕ}
    (hkind : (s.tbl r).kind = .jumpTarget addr i) :
    (transfer z insn s).1 = tableOutcome addr (s.tbl r).tableBound := by
  obtain ⟨op, x, hop, hreg, hx⟩ := h.op
  rw [transfer_of_branch (by rw [h.mnemonic]; rfl) h.isBranch]
  unfold branchOutcome tableOutcome
  simp only [hop, hreg, hx, AbsState.table, dropStaleCmp_tbl, hkind, h.mnemonic,
    TableVal.hasTableBound, decide_eq_true_eq]
  rfl

theorem tableOutcome_inj {addr : Word} {a b : ℕ} : tableOutcome addr a = tableOutcome addr b ↔ a = b := by
  unfold tableOutcome
  constructor
  · intro h
    split_ifs at h with ha hb hb
    · simpa using h
    · simp at h
    · simp at h
    · rw [not_not.mp ha, not_not.mp hb]
  · rintro rfl
    rfl

end Dispatch

end UnwindCheck
