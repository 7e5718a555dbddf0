import UnwindCheck.Insn.Agree
import UnwindCheck.Insn.Writes
import UnwindCheck.Machine.Clobber

/-! Balanced stack code: what is pushed comes back, at any nesting depth. -/
namespace UnwindCheck

section Offsets
variable {d k : Int64} {n : ℤ}

theorem toInt_sub_ofInt_of_le (hn : 0 ≤ n) (h : -2 ^ 63 ≤ d.toInt - n) :
    (d - Offset.ofInt n : Int64).toInt = d.toInt - n := by
  have hd := d.toInt_lt
  rw [toInt_sub_ofInt]
  exact Int.bmod_eq_of_le (by omega) (by omega)

theorem sub_ofInt_le (hn : 0 ≤ n) (h : -2 ^ 63 ≤ d.toInt - n) : d - (Offset.ofInt n : Int64) ≤ d := by
  rw [Int64.le_iff_toInt_le, toInt_sub_ofInt_of_le hn h]
  omega

/-- Nothing at or above rsp is in reach of the red zone's lower end. -/
theorem not_lt_redZone (h : -2 ^ 63 ≤ d.toInt - 128) (hk : d ≤ k) :
    ¬ k < d - (Offset.ofInt AbsState.kRedZoneBytes : Int64) := by
  have hbelow : (d - (Offset.ofInt AbsState.kRedZoneBytes : Int64)).toInt = d.toInt - 128 :=
    toInt_sub_ofInt_of_le (by decide) h
  rw [Int64.lt_iff_toInt_lt, hbelow]
  rw [Int64.le_iff_toInt_le] at hk
  omega

end Offsets

theorem Gpr.dwarf_injective : Function.Injective Gpr.dwarf := by
  intro a c h
  cases a <;> cases c <;> first | rfl | cases h

section Slots
variable (s : AbsState Int64)

theorem slot_setVal_rsp {d k : Int64} (h : -2 ^ 63 ≤ d.toInt - 128) (hk : d ≤ k) :
    (s.setVal kDWARFRsp (.cfaRel d)).slot k = s.slot k := by
  rw [AbsState.setVal, AbsState.slot_setReg]
  exact if_neg fun hdrop => not_lt_redZone h hk hdrop.2

theorem slot_setReg_of_ne {r : Fin 16} (hr : r ≠ kDWARFRsp) (v : AbsVal Int64) (t : TableVal) (k : Int64) :
    (s.setReg r v t).slot k = s.slot k := by
  rw [AbsState.slot_setReg]
  cases v with
  | cfaRel d => exact if_neg fun hdrop => hr hdrop.1
  | top | bottom | origReg | other => rfl

end Slots

namespace Instruction
variable (insn : Instruction)

/-- `push` of a whole register. -/
structure Pushes (g : Gpr) : Prop where
  mnemonic : insn.id = .push
  isBranch : insn.isBranch = false
  opCount : insn.opCount = 1
  width : insn.insn.operandWidth = 64
  operand : (insn.op? 0).map Operand.kind = some (.register (.gpr64 g))

/-- `pop` into a whole register. -/
structure Pops (g : Gpr) : Prop where
  mnemonic : insn.id = .pop
  isBranch : insn.isBranch = false
  opCount : insn.opCount = 1
  width : insn.insn.operandWidth = 64
  operand : (insn.op? 0).map Operand.kind = some (.register (.gpr64 g))

/-- `add $n,%rsp` or `sub $n,%rsp`. -/
structure Adjusts (id : ZydisMnemonic) (n : ℕ) : Prop where
  mnemonic : insn.id = id
  isBranch : insn.isBranch = false
  ops : ∃ dst src imm, insn.ops2? = some (dst, src) ∧ dst.kind = .register (.gpr64 .rsp) ∧
    src.kind = .immediate imm ∧ imm.toInt = n

/-- `mov %rsp,%rbp` -/
structure SetsFrame : Prop where
  mnemonic : insn.id = .mov
  isBranch : insn.isBranch = false
  ops : ∃ dst src, insn.ops2? = some (dst, src) ∧ dst.kind = .register (.gpr64 .rbp) ∧
    src.kind = .register (.gpr64 .rsp)

/-- `leave` or `call`. -/
structure Plainly (id : ZydisMnemonic) : Prop where
  mnemonic : insn.id = id
  isBranch : insn.isBranch = false

/-- Any other instruction that goes on to the next one and writes one register, in whole or in
part, and no memory. -/
structure Writes (g : Gpr) : Prop where
  isReturn : isReturnMnemonic insn.id = false
  isBranch : insn.isBranch = false
  isTrap : isTrapMnemonic insn.id = false
  mnemonic : insn.id ∉ [.call, .syscall, .sysenter, .int, .int1, .into, .vmcall, .vmmcall, .push,
    .pushfq, .pop, .popfq, .leave]
  writes : ∃ r, insn.insn.WritesOnly r ∧ r.parent = some g

end Instruction

section Spec
variable {z : Zydis} {insn : Instruction} {s : AbsState Int64} {d : Int64} {g : Gpr}

theorem readReg_gpr64 (s : AbsState Int64) (g : Gpr) : readReg s (.gpr64 g) = s.gpr g.dwarf := rfl

theorem Instruction.Pushes.spec (h : insn.Pushes g) (hd : s.gpr kDWARFRsp = .cfaRel d)
    (hfit : -2 ^ 63 ≤ d.toInt - 8 - 128) :
    (transfer z insn s).2.gpr = Function.update s.gpr kDWARFRsp (.cfaRel (d - Offset.ofInt 8)) ∧
      (transfer z insn s).2.slot (d - Offset.ofInt 8) = s.gpr g.dwarf ∧
      ∀ k, d ≤ k → (transfer z insn s).2.slot k = s.slot k := by
  have hat : (d - (Offset.ofInt 8 : Int64)).toInt = d.toInt - 8 := toInt_sub_ofInt_of_le (by decide) (by omega)
  have hpushed : pushedValue insn (dropStaleCmp insn s) = s.gpr g.dwarf := by
    rw [pushedValue, h.operand]
    simp [readReg_gpr64]
  rw [transfer_of_switch (by rw [h.mnemonic]; rfl) h.isBranch (by rw [h.mnemonic]; rfl)]
  simp only [transferNamed, h.mnemonic, Option.getD_some, transferPush, h.opCount, h.width,
    not_true_eq_false, or_self, if_false, ne_eq, hpushed, pushValue, dropStaleCmp_gpr, hd]
  refine ⟨by simp, by rw [AbsState.slot_setSlot, if_pos rfl], fun k hk => ?_⟩
  rw [Int64.le_iff_toInt_le] at hk
  rw [AbsState.slot_setSlot, if_neg, slot_setVal_rsp _ (by omega), slot_dropStaleCmp]
  · rw [Int64.le_iff_toInt_le]
    omega
  · rintro rfl
    omega

theorem Instruction.Pops.spec (h : insn.Pops g) (hg : g ≠ .rsp) (hd : s.gpr kDWARFRsp = .cfaRel d)
    (hfit : -2 ^ 63 ≤ (d + Offset.ofInt 8).toInt - 128) :
    (transfer z insn s).2.gpr = Function.update (Function.update s.gpr kDWARFRsp
        (.cfaRel (d + Offset.ofInt 8))) g.dwarf (s.slot d) ∧
      ∀ k, d + Offset.ofInt 8 ≤ k → (transfer z insn s).2.slot k = s.slot k := by
  have hne : g.dwarf ≠ kDWARFRsp := fun he => hg (Gpr.dwarf_injective he)
  rw [transfer_of_switch (by rw [h.mnemonic]; rfl) h.isBranch (by rw [h.mnemonic]; rfl)]
  have hdwarf : (ZydisRegister.gpr64 g).dwarfRegOf = some g.dwarf := rfl
  simp only [transferNamed, h.mnemonic, Option.getD_some, transferPop, h.opCount, h.width,
    not_true_eq_false, or_self, if_false, ne_eq, popValue, dropStaleCmp_gpr, hd, popInto, h.operand,
    hdwarf, ZydisRegister.isFull64, if_true]
  refine ⟨by simp [slot_dropStaleCmp], fun k hk => ?_⟩
  rw [AbsState.setVal, slot_setReg_of_ne _ hne, slot_setVal_rsp _ hfit hk, slot_dropStaleCmp]

/-- An adjustment moves rsp and leaves the slots above where it ends up. -/
theorem Instruction.Adjusts.spec {id : ZydisMnemonic} {n : ℕ} (h : insn.Adjusts id n)
    (hid : id = .add ∨ id = .sub) (hd : s.gpr kDWARFRsp = .cfaRel d) {e : Int64}
    (he : e = if id = .add then d + Offset.ofInt n else d - Offset.ofInt n)
    (hfit : -2 ^ 63 ≤ e.toInt - 128) :
    (transfer z insn s).2.gpr = Function.update s.gpr kDWARFRsp (.cfaRel e) ∧
      ∀ k, e ≤ k → (transfer z insn s).2.slot k = s.slot k := by
  obtain ⟨⟨kind, size, write, condWrite⟩, ⟨kind', size', write', condWrite'⟩, imm, hops, hdst, hsrc, himm⟩ :=
    h.ops
  dsimp only at hdst hsrc
  subst hdst hsrc
  have hdwarf : (ZydisRegister.gpr64 .rsp).dwarfRegOf = some kDWARFRsp := rfl
  have hnamed : (transferNamed z insn (dropStaleCmp insn s)).getD
      ({}, clobberWrites insn (dropStaleCmp insn s)) =
        ({}, (dropStaleCmp insn s).setVal kDWARFRsp (.cfaRel e)) := by
    rw [he]
    have hmn := h.mnemonic
    rcases hid with rfl | rfl <;>
      simp [transferNamed, hmn, transferAddSub, hops, addSubImm, hdwarf, ZydisRegister.isFull64, hd, himm]
  rw [transfer_of_switch (by rw [h.mnemonic]; rcases hid with rfl | rfl <;> rfl) h.isBranch
    (by rw [h.mnemonic]; rcases hid with rfl | rfl <;> rfl), hnamed]
  refine ⟨by simp, fun k hk => ?_⟩
  rw [slot_setVal_rsp _ hfit hk, slot_dropStaleCmp]

theorem Instruction.SetsFrame.spec (h : insn.SetsFrame) :
    (transfer z insn s).2.gpr = Function.update s.gpr kDWARFRbp (s.gpr kDWARFRsp) ∧
      ∀ k, (transfer z insn s).2.slot k = s.slot k := by
  obtain ⟨⟨kind, size, write, condWrite⟩, ⟨kind', size', write', condWrite'⟩, hops, hdst, hsrc⟩ := h.ops
  dsimp only at hdst hsrc
  subst hdst hsrc
  have hbp : (ZydisRegister.gpr64 .rbp).dwarfRegOf = some kDWARFRbp := rfl
  have hsp : (ZydisRegister.gpr64 .rsp).dwarfRegOf = some kDWARFRsp := rfl
  rw [transfer_of_switch (by rw [h.mnemonic]; rfl) h.isBranch (by rw [h.mnemonic]; rfl)]
  simp only [transferNamed, h.mnemonic, transferMov, hops, hbp, hsp, movToReg, ZydisRegister.isFull64,
    Option.map_some, Option.getD_some, Bool.not_true, Bool.false_eq_true, if_false, if_true]
  refine ⟨by simp, fun k => ?_⟩
  rw [AbsState.copyReg, slot_setReg_of_ne _ (by decide), slot_dropStaleCmp]

theorem Instruction.Plainly.leave_spec (h : insn.Plainly .leave) (hd : s.gpr kDWARFRbp = .cfaRel d)
    (hlow : -2 ^ 63 ≤ d.toInt - 128) (hfit : -2 ^ 63 ≤ (d + Offset.ofInt 8).toInt - 128)
    (hup : d ≤ d + Offset.ofInt 8) :
    (transfer z insn s).2.gpr = Function.update (Function.update s.gpr kDWARFRbp (s.slot d))
        kDWARFRsp (.cfaRel (d + Offset.ofInt 8)) ∧
      ∀ k, d + Offset.ofInt 8 ≤ k → (transfer z insn s).2.slot k = s.slot k := by
  have hne : kDWARFRbp ≠ kDWARFRsp := by decide
  have hcopy : (dropStaleCmp insn s).copyReg kDWARFRsp kDWARFRbp =
      (dropStaleCmp insn s).setReg kDWARFRsp (.cfaRel d) ((dropStaleCmp insn s).tbl kDWARFRbp) := by
    rw [AbsState.copyReg, dropStaleCmp_gpr, hd]
  have hslot : ∀ k, d ≤ k →
      ((dropStaleCmp insn s).copyReg kDWARFRsp kDWARFRbp).slot k = s.slot k := by
    intro k hk
    rw [hcopy, AbsState.slot_setReg, ← slot_dropStaleCmp s insn k]
    exact if_neg fun hdrop => not_lt_redZone hlow hk hdrop.2
  have hrsp : ((dropStaleCmp insn s).copyReg kDWARFRsp kDWARFRbp).gpr kDWARFRsp = .cfaRel d := by
    simp [hd]
  rw [transfer_of_switch (by rw [h.mnemonic]; rfl) h.isBranch (by rw [h.mnemonic]; rfl)]
  simp only [transferNamed, h.mnemonic, Option.getD_some, transferLeave, hrsp]
  refine ⟨?_, fun k hk => ?_⟩
  · rw [AbsState.setVal_gpr, AbsState.setVal_gpr, hslot d (Int64.le_refl d), AbsState.copyReg_gpr,
      dropStaleCmp_gpr, Function.update_comm hne, Function.update_idem, Function.update_comm hne]
  · rw [slot_setVal_rsp _ hfit hk, AbsState.setVal, slot_setReg_of_ne _ hne,
      hslot k (Int64.le_trans hup hk)]

theorem Instruction.Plainly.call_spec (h : insn.Plainly .call) (hd : s.gpr kDWARFRsp = .cfaRel d) :
    (∀ r, r ∉ kCallerSaved → (transfer z insn s).2.gpr r = s.gpr r) ∧
      ∀ k, d ≤ k → (transfer z insn s).2.slot k = s.slot k := by
  have hfold : ∀ (rs : List (Fin 16)) (u : AbsState Int64), kDWARFRsp ∉ rs →
      (∀ r, r ∉ rs → (rs.foldl AbsState.clobberReg u).gpr r = u.gpr r) ∧
        ∀ k, (rs.foldl AbsState.clobberReg u).slot k = u.slot k := by
    intro rs
    induction rs with
    | nil => exact fun _ _ => ⟨fun _ _ => rfl, fun _ => rfl⟩
    | cons q rs ih =>
      intro u hq
      obtain ⟨hgpr, hslot⟩ := ih (u.clobberReg q) fun hin => hq (List.mem_cons_of_mem _ hin)
      refine ⟨fun r hr => ?_, fun k => ?_⟩
      · have hrq : r ≠ q := fun he => hr (he ▸ List.mem_cons_self)
        rw [List.foldl_cons, hgpr r fun hin => hr (List.mem_cons_of_mem _ hin)]
        simp [hrq]
      · rw [List.foldl_cons, hslot]
        exact slot_setReg_of_ne _ (fun he => hq (he ▸ List.mem_cons_self)) _ _ k
  rw [transfer_of_switch (by rw [h.mnemonic]; rfl) h.isBranch (by rw [h.mnemonic]; rfl)]
  simp only [transferNamed, h.mnemonic, Option.getD_some, callEffect, dropStaleCmp_gpr, hd]
  obtain ⟨hgpr, hslot⟩ := hfold kCallerSaved ((dropStaleCmp insn s).dropSlotsBelow d) (by decide)
  refine ⟨fun r hr => ?_, fun k hk => ?_⟩
  · rw [hgpr r hr]
    simp
  · rw [hslot, AbsState.slot_dropSlotsBelow, if_neg (Int64.not_lt.mpr hk), slot_dropStaleCmp]

end Spec

/-- Nothing but register `d` differs. -/
structure OnlyReg (s s' : AbsState Int64) (d : Fin 16) : Prop where
  gpr : ∀ q, q ≠ d → s'.gpr q = s.gpr q
  slot : ∀ k, s'.slot k = s.slot k

section Writes
variable {z : Zydis} {insn : Instruction} {s u : AbsState Int64} {d : Fin 16} {g : Gpr}

theorem onlyReg_of_writesReg (h : WritesReg s u d) (hd : d ≠ kDWARFRsp) : OnlyReg s u d := by
  obtain ⟨v, t, rfl⟩ := h
  exact ⟨fun q hq => by simp [hq], slot_setReg_of_ne s hd v t⟩

/-- The destination of a two-operand instruction is what the decoder marks as written. -/
theorem onlyReg_of_writesDest {r : ZydisRegister} (h : insn.WritesDest s u)
    (hwrites : insn.insn.WritesOnly r) (hr : r.dwarfRegOf = some d) (hd : d ≠ kDWARFRsp) :
    OnlyReg s u d := by
  obtain ⟨dst, src, e, hops, ⟨q, hkind, hq⟩, hw⟩ := h
  obtain ⟨rest, hoperands⟩ := Instruction.operands_of_ops2? hops
  obtain ⟨dest, rest', hoperands', hdest, -, -⟩ := hwrites
  rw [hoperands] at hoperands'
  cases hoperands'
  rw [hkind] at hdest
  cases hdest
  obtain rfl := Option.some.inj (hr.symm.trans hq)
  exact onlyReg_of_writesReg hw hd

theorem onlyReg_getD {r : ZydisRegister} {s' : Option (AbsState Int64)}
    (h : ∀ u, s' = some u → insn.WritesDest s u) (hwrites : insn.insn.WritesOnly r)
    (hr : r.dwarfRegOf = some d) (hd : d ≠ kDWARFRsp) : OnlyReg s (s'.getD (clobberWrites insn s)) d := by
  cases hs : s' with
  | none =>
    rw [Option.getD_none, hwrites.clobberWrites hr]
    exact onlyReg_of_writesReg (.clobberWrittenReg s r d) hd
  | some u => exact onlyReg_of_writesDest (h u hs) hwrites hr hd

/-- A `mov` that writes a register is no store. -/
theorem transferMov_writesDest {r : ZydisRegister} (hwrites : insn.insn.WritesOnly r)
    (hu : transferMov insn s = some u) : insn.WritesDest s u := by
  rcases transferMov_eq_some hu with h | ⟨dst, src, mem, hops, hmem, -⟩
  · exact h
  · obtain ⟨rest, hoperands⟩ := Instruction.operands_of_ops2? hops
    obtain ⟨dest, rest', hoperands', hdest, -, -⟩ := hwrites
    rw [hoperands] at hoperands'
    cases hoperands'
    rw [hmem] at hdest
    cases hdest

theorem Instruction.Writes.spec (h : insn.Writes g) (hg : g ≠ .rsp) (s : AbsState Int64) :
    OnlyReg s (transfer z insn s).2 g.dwarf := by
  have hd : g.dwarf ≠ kDWARFRsp := fun he => hg (Gpr.dwarf_injective he)
  obtain ⟨r, hwrites, hparent⟩ := h.writes
  have hr : r.dwarfRegOf = some g.dwarf := by simp [ZydisRegister.dwarfRegOf, hparent]
  have hid := h.mnemonic
  have htrap := h.isTrap
  have hstep : OnlyReg (dropStaleCmp insn s) (transfer z insn s).2 g.dwarf := by
    rw [transfer_of_switch h.isReturn h.isBranch h.isTrap]
    generalize dropStaleCmp insn s = s₀
    unfold transferNamed
    split
    case h_15 => simpa only [getD_map_plain] using onlyReg_getD (fun u => transferLea_eq_some) hwrites hr hd
    case h_16 | h_17 =>
      simpa only [getD_map_plain] using onlyReg_getD (fun u => transferMov_writesDest hwrites) hwrites hr hd
    case h_18 =>
      simpa only [getD_map_plain] using onlyReg_getD (fun u => transferMovsxd_eq_some) hwrites hr hd
    case h_19 | h_20 =>
      simpa only [getD_map_plain] using onlyReg_getD (fun u => transferAddSub_eq_some) hwrites hr hd
    case h_21 =>
      rw [Option.getD_some]
      unfold transferCmp
      split
      · split <;> exact ⟨fun _ _ => rfl, fun _ => rfl⟩
      · exact ⟨fun _ _ => rfl, fun _ => rfl⟩
    case h_22 | h_23 =>
      simpa only [getD_map_plain] using onlyReg_getD (fun u => transferMovx_eq_some) hwrites hr hd
    case h_24 | h_25 | h_26 => exact ⟨fun _ _ => rfl, fun _ => rfl⟩
    case h_27 =>
      rw [Option.getD_none, hwrites.clobberWrites hr]
      exact onlyReg_of_writesReg (.clobberWrittenReg s₀ r _) hd
    all_goals
      rename_i hcase
      simp [hcase, isTrapMnemonic] at hid htrap
  refine ⟨fun q hq => ?_, fun k => ?_⟩
  · rw [hstep.gpr q hq, dropStaleCmp_gpr]
  · rw [hstep.slot k, slot_dropStaleCmp]

end Writes

mutual

/-- Balanced stack code. Inside a frame (`true`) rbp is the frame's: it is neither written nor popped
into, nested frames apart. -/
inductive Code : Bool → Type
  | empty {b : Bool} : Code b
  | seq {b : Bool} (p q : Code b) : Code b
  | save {b : Bool} (g g' : Gpr) (push : {i : Instruction // i.Pushes g}) (p : Code b)
      (pop : {i : Instruction // i.Pops g'}) (hrsp : g' ≠ .rsp) (hrbp : b = true → g' ≠ .rbp) : Code b
  | reserve {b : Bool} (n : ℕ) (sub : {i : Instruction // i.Adjusts .sub n}) (p : Code b)
      (add : {i : Instruction // i.Adjusts .add n}) : Code b
  | call {b : Bool} (call : {i : Instruction // i.Plainly .call}) : Code b
  | write {b : Bool} (g : Gpr) (insn : {i : Instruction // i.Writes g}) (hrsp : g ≠ .rsp)
      (hrbp : b = true → g ≠ .rbp) : Code b
  | frame {b : Bool} (push : {i : Instruction // i.Pushes .rbp}) (mov : {i : Instruction // i.SetsFrame})
      (q : Body) (leave : {i : Instruction // i.Plainly .leave}) : Code b

/-- The body of a frame, where rsp need not come back. -/
inductive Body : Type
  | nil : Body
  | code (p : Code true) (q : Body) : Body
  | sub (n : ℕ) (sub : {i : Instruction // i.Adjusts .sub n}) (q : Body) : Body

end

/-- `Transfer` over straight-line code. -/
def transferAll (z : Zydis) (insns : List Instruction) (s : AbsState Int64) : AbsState Int64 :=
  insns.foldl (fun s insn => (transfer z insn s).2) s

@[simp] theorem transferAll_nil (z : Zydis) (s : AbsState Int64) : transferAll z [] s = s := rfl

@[simp] theorem transferAll_cons (z : Zydis) (insn : Instruction) (insns : List Instruction)
    (s : AbsState Int64) :
    transferAll z (insn :: insns) s = transferAll z insns (transfer z insn s).2 := rfl

@[simp] theorem transferAll_append (z : Zydis) (a b : List Instruction) (s : AbsState Int64) :
    transferAll z (a ++ b) s = transferAll z b (transferAll z a s) := List.foldl_append ..

mutual

/-- The instructions, in order. -/
def Code.insns {b : Bool} : Code b → List Instruction
  | .empty => []
  | .seq p q => p.insns ++ q.insns
  | .save _ _ push p pop _ _ => push.1 :: (p.insns ++ [pop.1])
  | .reserve _ sub p add => sub.1 :: (p.insns ++ [add.1])
  | .call call => [call.1]
  | .write _ insn _ _ => [insn.1]
  | .frame push mov q leave => push.1 :: mov.1 :: (q.insns ++ [leave.1])

def Body.insns : Body → List Instruction
  | .nil => []
  | .code p q => p.insns ++ q.insns
  | .sub _ sub q => sub.1 :: q.insns

end

mutual

/-- How far below its start the code moves rsp. -/
def Code.depth {b : Bool} : Code b → ℕ
  | .empty | .call _ | .write _ _ _ _ => 0
  | .seq p q => max p.depth q.depth
  | .save _ _ _ p _ _ _ => 8 + p.depth
  | .reserve n _ p _ => n + p.depth
  | .frame _ _ q _ => 8 + q.depth

def Body.depth : Body → ℕ
  | .nil => 0
  | .code p q => max p.depth q.depth
  | .sub n _ q => n + q.depth

end

mutual

/-- Every pop gives its register what the matching push found in its own, and every `leave` gives
rbp what the frame's push found there. -/
def Code.Restores {b : Bool} (z : Zydis) : Code b → AbsState Int64 → Prop
  | .empty, _ | .call _, _ | .write _ _ _ _, _ => True
  | .seq p q, s => p.Restores z s ∧ q.Restores z (transferAll z p.insns s)
  | .save g g' push p pop _ _, s =>
    p.Restores z (transfer z push.1 s).2 ∧
      (transferAll z (push.1 :: (p.insns ++ [pop.1])) s).gpr g'.dwarf = s.gpr g.dwarf
  | .reserve _ sub p _, s => p.Restores z (transfer z sub.1 s).2
  | .frame push mov q leave, s =>
    q.Restores z (transferAll z [push.1, mov.1] s) ∧
      (transferAll z (push.1 :: mov.1 :: (q.insns ++ [leave.1])) s).gpr kDWARFRbp = s.gpr kDWARFRbp

def Body.Restores (z : Zydis) : Body → AbsState Int64 → Prop
  | .nil, _ => True
  | .code p q, s => p.Restores z s ∧ q.Restores z (transferAll z p.insns s)
  | .sub _ sub q, s => q.Restores z (transfer z sub.1 s).2

end

/-- rsp is back, what was at or above it is still there, and inside a frame so is rbp. -/
structure Keeps (b : Bool) (s s' : AbsState Int64) (d : Int64) : Prop where
  rsp : s'.gpr kDWARFRsp = .cfaRel d
  slot : ∀ k, d ≤ k → s'.slot k = s.slot k
  rbp : b = true → s'.gpr kDWARFRbp = s.gpr kDWARFRbp

section Keeps
variable {z : Zydis} {b : Bool} {s s' s'' : AbsState Int64} {d : Int64}

theorem Keeps.trans (h : Keeps b s s' d) (h' : Keeps b s' s'' d) : Keeps b s s'' d :=
  ⟨h'.rsp, fun k hk => (h'.slot k hk).trans (h.slot k hk), fun hb => (h'.rbp hb).trans (h.rbp hb)⟩

/-- What a push saved is what the pop finds, if the code between them keeps its slot. -/
theorem keeps_save {push pop : Instruction} {g g' : Gpr} (hpush : push.Pushes g) (hpop : pop.Pops g')
    (hrsp : g' ≠ .rsp) (hrbp : b = true → g' ≠ .rbp) (hd : s.gpr kDWARFRsp = .cfaRel d)
    (hfit : -2 ^ 63 ≤ d.toInt - 8 - 128)
    (h : Keeps b (transfer z push s).2 s' (d - Offset.ofInt 8)) :
    Keeps b s (transfer z pop s').2 d ∧ (transfer z pop s').2.gpr g'.dwarf = s.gpr g.dwarf := by
  have hback : d - Offset.ofInt 8 + Offset.ofInt 8 = d := Int64.sub_add_cancel d (Int64.ofInt 8)
  have hle : d - (Offset.ofInt 8 : Int64) ≤ d := sub_ofInt_le (by decide) (by omega)
  obtain ⟨hgpr, hsaved, hslots⟩ := hpush.spec (z := z) hd hfit
  obtain ⟨hgpr', hslots'⟩ := hpop.spec (z := z) hrsp h.rsp (by rw [hback]; omega)
  rw [hback] at hgpr' hslots'
  have hpopped : s'.slot (d - Offset.ofInt 8) = s.gpr g.dwarf :=
    (h.slot _ (Int64.le_refl _)).trans hsaved
  refine ⟨⟨?_, fun k hk => ?_, fun hb => ?_⟩, ?_⟩
  · have hne : kDWARFRsp ≠ g'.dwarf := fun he => hrsp (Gpr.dwarf_injective he.symm)
    simp [hgpr', hne]
  · rw [hslots' k hk, h.slot k (Int64.le_trans hle hk), hslots k hk]
  · have hne : kDWARFRbp ≠ g'.dwarf := fun he => hrbp hb (Gpr.dwarf_injective he.symm)
    have hsp : kDWARFRbp ≠ kDWARFRsp := by decide
    rw [hgpr', Function.update_of_ne hne, Function.update_of_ne hsp, h.rbp hb, hgpr,
      Function.update_of_ne hsp]
  · rw [hgpr', Function.update_self, hpopped]

theorem keeps_reserve {sub add : Instruction} {n : ℕ} (hsub : sub.Adjusts .sub n)
    (hadd : add.Adjusts .add n) (hd : s.gpr kDWARFRsp = .cfaRel d) (hfit : -2 ^ 63 ≤ d.toInt - n - 128)
    (h : Keeps b (transfer z sub s).2 s' (d - Offset.ofInt n)) : Keeps b s (transfer z add s').2 d := by
  have hback : d - Offset.ofInt n + Offset.ofInt n = d := Int64.sub_add_cancel d (Int64.ofInt n)
  have hle : d - (Offset.ofInt n : Int64) ≤ d := sub_ofInt_le (by omega) (by omega)
  have hlow : (d - (Offset.ofInt n : Int64)).toInt = d.toInt - n := toInt_sub_ofInt_of_le (by omega) (by omega)
  have hsp : kDWARFRbp ≠ kDWARFRsp := by decide
  obtain ⟨hgpr, hslots⟩ := hsub.spec (z := z) (Or.inr rfl) hd (e := d - Offset.ofInt n) rfl (by omega)
  obtain ⟨hgpr', hslots'⟩ := hadd.spec (z := z) (Or.inl rfl) h.rsp hback.symm (by omega)
  refine ⟨by simp [hgpr'], fun k hk => ?_, fun hb => ?_⟩
  · have hk' := Int64.le_trans hle hk
    rw [hslots' k hk, h.slot k hk', hslots k hk']
  · rw [hgpr', Function.update_of_ne hsp, h.rbp hb, hgpr, Function.update_of_ne hsp]

theorem keeps_call {call : Instruction} (hcall : call.Plainly .call) (hd : s.gpr kDWARFRsp = .cfaRel d) :
    Keeps b s (transfer z call s).2 d := by
  obtain ⟨hgpr, hslots⟩ := hcall.call_spec (z := z) hd
  exact ⟨(hgpr _ (by decide)).trans hd, hslots, fun _ => hgpr _ (by decide)⟩

theorem keeps_write {insn : Instruction} {g : Gpr} (hwrites : insn.Writes g) (hrsp : g ≠ .rsp)
    (hrbp : b = true → g ≠ .rbp) (hd : s.gpr kDWARFRsp = .cfaRel d) :
    Keeps b s (transfer z insn s).2 d := by
  have honly := hwrites.spec (z := z) hrsp s
  refine ⟨?_, fun k _ => honly.slot k, fun hb => ?_⟩
  · exact (honly.gpr _ fun he => hrsp (Gpr.dwarf_injective he.symm)).trans hd
  · exact honly.gpr _ fun he => hrbp hb (Gpr.dwarf_injective he.symm)

/-- The frame pointer finds what was pushed before it was set, wherever rsp has gone. -/
theorem keeps_frame {push mov leave : Instruction} (hpush : push.Pushes .rbp) (hmov : mov.SetsFrame)
    (hleave : leave.Plainly .leave) (hd : s.gpr kDWARFRsp = .cfaRel d)
    (hfit : -2 ^ 63 ≤ d.toInt - 8 - 128)
    (hslot : ∀ k, d - Offset.ofInt 8 ≤ k → s'.slot k = (transferAll z [push, mov] s).slot k)
    (hrbp : s'.gpr kDWARFRbp = (transferAll z [push, mov] s).gpr kDWARFRbp) :
    Keeps b s (transfer z leave s').2 d ∧ (transfer z leave s').2.gpr kDWARFRbp = s.gpr kDWARFRbp := by
  have hback : d - Offset.ofInt 8 + Offset.ofInt 8 = d := Int64.sub_add_cancel d (Int64.ofInt 8)
  have hle : d - (Offset.ofInt 8 : Int64) ≤ d := sub_ofInt_le (by decide) (by omega)
  have hlow : (d - (Offset.ofInt 8 : Int64)).toInt = d.toInt - 8 := toInt_sub_ofInt_of_le (by decide) (by omega)
  have hsp : kDWARFRbp ≠ kDWARFRsp := by decide
  obtain ⟨hgpr, hsaved, hslots⟩ := hpush.spec (z := z) hd hfit
  obtain ⟨hgpr₂, hslots₂⟩ := hmov.spec (z := z) (s := (transfer z push s).2)
  simp only [transferAll_cons, transferAll_nil] at hslot hrbp
  have hfp : s'.gpr kDWARFRbp = .cfaRel (d - Offset.ofInt 8) := by
    rw [hrbp, hgpr₂, Function.update_self, hgpr, Function.update_self]
  have hpopped : s'.slot (d - Offset.ofInt 8) = s.gpr kDWARFRbp := by
    rw [hslot _ (Int64.le_refl _), hslots₂, hsaved]
    rfl
  obtain ⟨hgpr₃, hslots₃⟩ := hleave.leave_spec (z := z) hfp (by omega) (by rw [hback]; omega)
    (by rwa [hback])
  rw [hback] at hgpr₃ hslots₃
  have hrestored : (transfer z leave s').2.gpr kDWARFRbp = s.gpr kDWARFRbp := by
    rw [hgpr₃, Function.update_of_ne hsp, Function.update_self, hpopped]
  refine ⟨⟨by simp [hgpr₃], fun k hk => ?_, fun _ => hrestored⟩, hrestored⟩
  rw [hslots₃ k hk, hslot k (Int64.le_trans hle hk), hslots₂, hslots k hk]

end Keeps

mutual

/-- By induction on the code: each construct keeps what lies above its start, which is all that the
enclosing ones rely on. -/
theorem Code.sound (z : Zydis) {b : Bool} (p : Code b) (s : AbsState Int64) (d : Int64)
    (hd : s.gpr kDWARFRsp = .cfaRel d) (hfit : -2 ^ 63 ≤ d.toInt - p.depth - 128) :
    Keeps b s (transferAll z p.insns s) d ∧ p.Restores z s := by
  match p with
  | .empty => exact ⟨⟨hd, fun _ _ => rfl, fun _ => rfl⟩, trivial⟩
  | .seq p q =>
    simp only [Code.depth] at hfit
    obtain ⟨hp, hpr⟩ := p.sound z s d hd (by omega)
    obtain ⟨hq, hqr⟩ := q.sound z _ d hp.rsp (by omega)
    simp only [Code.insns, Code.Restores, transferAll_append]
    exact ⟨hp.trans hq, hpr, hqr⟩
  | .save g g' push p pop hrsp hrbp =>
    simp only [Code.depth] at hfit
    have hlow : (d - (Offset.ofInt 8 : Int64)).toInt = d.toInt - 8 :=
      toInt_sub_ofInt_of_le (by decide) (by omega)
    have hpushed : (transfer z push.1 s).2.gpr kDWARFRsp = .cfaRel (d - Offset.ofInt 8) := by
      rw [(push.2.spec (z := z) hd (by omega)).1, Function.update_self]
    obtain ⟨hp, hpr⟩ := p.sound z _ _ hpushed (by omega)
    obtain ⟨hkeeps, hpopped⟩ := keeps_save push.2 pop.2 hrsp hrbp hd (by omega) hp
    simp only [Code.insns, Code.Restores, transferAll_cons, transferAll_append, transferAll_nil]
    exact ⟨hkeeps, hpr, hpopped⟩
  | .reserve n sub p add =>
    simp only [Code.depth] at hfit
    have hlow : (d - (Offset.ofInt n : Int64)).toInt = d.toInt - n :=
      toInt_sub_ofInt_of_le (by omega) (by omega)
    have hmoved : (transfer z sub.1 s).2.gpr kDWARFRsp = .cfaRel (d - Offset.ofInt n) := by
      rw [(sub.2.spec (z := z) (Or.inr rfl) hd (e := d - Offset.ofInt n) rfl (by omega)).1,
        Function.update_self]
    obtain ⟨hp, hpr⟩ := p.sound z _ _ hmoved (by omega)
    simp only [Code.insns, Code.Restores, transferAll_cons, transferAll_append, transferAll_nil]
    exact ⟨keeps_reserve sub.2 add.2 hd (by omega) hp, hpr⟩
  | .call call => exact ⟨keeps_call call.2 hd, trivial⟩
  | .write g insn hrsp hrbp => exact ⟨keeps_write insn.2 hrsp hrbp hd, trivial⟩
  | .frame push mov q leave =>
    simp only [Code.depth] at hfit
    have hlow : (d - (Offset.ofInt 8 : Int64)).toInt = d.toInt - 8 :=
      toInt_sub_ofInt_of_le (by decide) (by omega)
    have hset : (transferAll z [push.1, mov.1] s).gpr kDWARFRsp = .cfaRel (d - Offset.ofInt 8) := by
      have hsp : kDWARFRsp ≠ kDWARFRbp := by decide
      rw [transferAll_cons, transferAll_cons, transferAll_nil, (mov.2.spec (z := z)).1,
        Function.update_of_ne hsp, (push.2.spec (z := z) hd (by omega)).1, Function.update_self]
    obtain ⟨hslot, hrbp, hqr⟩ := q.sound z _ _ hset (by omega)
    obtain ⟨hkeeps, hleft⟩ := keeps_frame push.2 mov.2 leave.2 hd (by omega) hslot hrbp
    simp only [Code.insns, Code.Restores, transferAll_cons, transferAll_append, transferAll_nil]
    exact ⟨hkeeps, hqr, hleft⟩

theorem Body.sound (z : Zydis) (q : Body) (s : AbsState Int64) (d : Int64)
    (hd : s.gpr kDWARFRsp = .cfaRel d) (hfit : -2 ^ 63 ≤ d.toInt - q.depth - 128) :
    (∀ k, d ≤ k → (transferAll z q.insns s).slot k = s.slot k) ∧
      (transferAll z q.insns s).gpr kDWARFRbp = s.gpr kDWARFRbp ∧ q.Restores z s := by
  match q with
  | .nil => exact ⟨fun _ _ => rfl, rfl, trivial⟩
  | .code p q =>
    simp only [Body.depth] at hfit
    obtain ⟨hp, hpr⟩ := p.sound z s d hd (by omega)
    obtain ⟨hslot, hrbp, hqr⟩ := q.sound z _ d hp.rsp (by omega)
    simp only [Body.insns, Body.Restores, transferAll_append]
    exact ⟨fun k hk => (hslot k hk).trans (hp.slot k hk), hrbp.trans (hp.rbp rfl), hpr, hqr⟩
  | .sub n sub q =>
    simp only [Body.depth] at hfit
    have hlow : (d - (Offset.ofInt n : Int64)).toInt = d.toInt - n :=
      toInt_sub_ofInt_of_le (by omega) (by omega)
    have hle : d - (Offset.ofInt n : Int64) ≤ d := sub_ofInt_le (by omega) (by omega)
    have hsp : kDWARFRbp ≠ kDWARFRsp := by decide
    obtain ⟨hgpr, hslots⟩ :=
      sub.2.spec (z := z) (Or.inr rfl) hd (e := d - Offset.ofInt n) rfl (by omega)
    obtain ⟨hslot, hrbp, hqr⟩ := q.sound z (transfer z sub.1 s).2 (d - Offset.ofInt n)
      (by rw [hgpr, Function.update_self]) (by omega)
    simp only [Body.insns, Body.Restores, transferAll_cons]
    refine ⟨fun k hk => ?_, ?_, hqr⟩
    · have hk' := Int64.le_trans hle hk
      rw [hslot k hk', hslots k hk']
    · rw [hrbp, hgpr, Function.update_of_ne hsp]

end

/-- Balanced code brings rsp back, leaves the slots at and above it, and gives every popped register
and every frame pointer what was saved of it. -/
theorem balanced_restores (z : Zydis) (p : Code false) (s : AbsState Int64) (d : Int64)
    (hd : s.gpr kDWARFRsp = .cfaRel d) (hfit : -2 ^ 63 ≤ d.toInt - p.depth - 128) :
    (transferAll z p.insns s).gpr kDWARFRsp = .cfaRel d ∧
      (∀ k, d ≤ k → (transferAll z p.insns s).slot k = s.slot k) ∧ p.Restores z s := by
  obtain ⟨hkeeps, hrestores⟩ := p.sound z s d hd hfit
  exact ⟨hkeeps.rsp, hkeeps.slot, hrestores⟩

namespace Sample

/-- An instruction with its visible operands and, behind them, rsp and the top of the stack. -/
def stackInsn (mnemonic : ZydisMnemonic) (visible : List Operand) : Instruction :=
  ⟨0x1000,
    { length := 1
      mnemonic := mnemonic
      operandCountVisible := visible.length
      operands := visible ++ [⟨.register (.gpr64 .rsp), 64, true, false⟩,
        ⟨.memory ⟨.gpr64 .rsp, .none, 0, 0⟩, 64, mnemonic = .push, false⟩]
      category := .other
      hasSegment := false
      operandWidth := 64
      cpuFlags := some ⟨0, 0, 0, 0⟩ }⟩

def pushOf (g : Gpr) : {i : Instruction // i.Pushes g} :=
  ⟨stackInsn .push [⟨.register (.gpr64 g), 64, false, false⟩], ⟨rfl, rfl, rfl, rfl, rfl⟩⟩

def popOf (g : Gpr) : {i : Instruction // i.Pops g} :=
  ⟨stackInsn .pop [⟨.register (.gpr64 g), 64, true, false⟩], ⟨rfl, rfl, rfl, rfl, rfl⟩⟩

def subRsp : {i : Instruction // i.Adjusts .sub 24} :=
  ⟨⟨0x1000,
      { length := 4
        mnemonic := .sub
        operandCountVisible := 2
        operands := [⟨.register (.gpr64 .rsp), 64, true, false⟩, ⟨.immediate 24, 8, false, false⟩]
        category := .other
        hasSegment := false
        operandWidth := 64
        cpuFlags := some ⟨0x8d5, 0, 0, 0⟩ }⟩,
    ⟨rfl, rfl, _, _, 24, rfl, rfl, rfl, rfl⟩⟩

def movFrame : {i : Instruction // i.SetsFrame} :=
  ⟨⟨0x1000,
      { length := 3
        mnemonic := .mov
        operandCountVisible := 2
        operands := [⟨.register (.gpr64 .rbp), 64, true, false⟩,
          ⟨.register (.gpr64 .rsp), 64, false, false⟩]
        category := .other
        hasSegment := false
        operandWidth := 64
        cpuFlags := some ⟨0, 0, 0, 0⟩ }⟩,
    ⟨rfl, rfl, _, _, rfl, rfl, rfl⟩⟩

def callOf : {i : Instruction // i.Plainly .call} := ⟨stackInsn .call [], ⟨rfl, rfl⟩⟩

def leaveOf : {i : Instruction // i.Plainly .leave} := ⟨stackInsn .leave [], ⟨rfl, rfl⟩⟩

/-- push %rbx; push %rbp; mov %rsp,%rbp; sub $24,%rsp; call f; leave; pop %r12 -/
def nested : Code false :=
  .save .rbx .r12 (pushOf .rbx)
    (.frame (pushOf .rbp) movFrame (.sub 24 subRsp (.code (.call callOf) .nil)) leaveOf)
    (popOf .r12) (by decide) (by decide)

end Sample

/-- r12 ends up with what rbx held at entry. -/
theorem nested_restores :
    (transferAll (Zydis.ofTable []) Sample.nested.insns AbsState.entry).gpr kDWARFRsp = .cfaRel (-8) ∧
      (transferAll (Zydis.ofTable []) Sample.nested.insns AbsState.entry).gpr 12 = .origReg 3 := by
  obtain ⟨hrsp, -, -, hpopped⟩ :=
    balanced_restores (Zydis.ofTable []) Sample.nested AbsState.entry (-8) rfl (by decide)
  exact ⟨hrsp, hpopped⟩

end UnwindCheck
