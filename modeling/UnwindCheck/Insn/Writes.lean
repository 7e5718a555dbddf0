import UnwindCheck.Insn.Semantics

/-! Where a modelled instruction with a register destination writes that register, and nothing
else, as one `SetReg`. -/
namespace UnwindCheck
variable {δ : Type} [Offset δ]

/-- One register is written, in both halves. -/
def WritesReg (s u : AbsState δ) (d : Fin 16) : Prop := ∃ v t, u = s.setReg d v t

/-- A destination operand that is part of GPR `d`. -/
def Operand.Names (op : Operand) (d : Fin 16) : Prop :=
  ∃ r, op.kind = .register r ∧ r.dwarfRegOf = some d

section
variable {z : Zydis} {insn : Instruction} {s u : AbsState δ} {d : Fin 16}

theorem setReg_modifyTable (s : AbsState δ) (d : Fin 16) (v : AbsVal δ) (t : TableVal)
    (f : TableVal → TableVal) : (s.setReg d v t).modifyTable d f = s.setReg d v (f t) := by
  have hslots : (s.setReg d v t).slots = (s.setReg d v (f t)).slots := by
    unfold AbsState.setReg
    cases v with
    | cfaRel delta =>
      dsimp only
      split <;> simp [AbsState.dropDeadSlots, AbsState.dropSlotsBelow]
    | top | bottom | origReg | other => simp
  have hcmp : (s.setReg d v t).lastCmp = (s.setReg d v (f t)).lastCmp := by
    rw [AbsState.setReg_lastCmp, AbsState.setReg_lastCmp]
  unfold AbsState.modifyTable
  rw [AbsState.setReg_gpr, AbsState.setReg_tbl, Function.update_self, Function.update_idem, hslots, hcmp,
    ← AbsState.setReg_tbl s d v, ← AbsState.setReg_gpr s d v (f t)]

namespace WritesReg

theorem setReg (s : AbsState δ) (d : Fin 16) (v : AbsVal δ) (t : TableVal) :
    WritesReg s (s.setReg d v t) d := ⟨v, t, rfl⟩

theorem modifyTable (h : WritesReg s u d) (f : TableVal → TableVal) :
    WritesReg s (u.modifyTable d f) d := by
  obtain ⟨v, t, rfl⟩ := h
  exact ⟨v, f t, setReg_modifyTable s d v t f⟩

theorem clobberWrittenReg (s : AbsState δ) (r : ZydisRegister) (d : Fin 16) :
    WritesReg s (clobberWrittenReg s r d) d := (setReg s d .top .none).modifyTable _

theorem movToReg (insn : Instruction) (s : AbsState δ) (r : ZydisRegister) (d : Fin 16) (src : Operand) :
    WritesReg s (movToReg insn s r d src) d := by
  unfold UnwindCheck.movToReg
  split
  · dsimp only
    generalize (if r.widthBits = 32 then src.reg?.bind ZydisRegister.dwarfRegOf else none) = sr
    split
    · exact (clobberWrittenReg s r d).modifyTable _
    · exact clobberWrittenReg s r d
  · split
    · split
      · split
        · exact setReg s d _ _
        · exact setReg s d _ _
      · exact setReg s d _ _
    · split
      · exact setReg s d _ _
      · exact setReg s d _ _
    · exact setReg s d .top .none

end WritesReg

/-- A table load proves nothing about the entry itself. -/
theorem tableLoad_eq_some {mem : MemOperand} (hu : tableLoad s d mem = some u) :
    ∃ t, u = s.setTableReg d t ∧ t.valueBound = kBoundTop := by
  unfold tableLoad at hu
  split at hu
  · cases hu
  · simp only [Option.bind_eq_bind, Option.bind_eq_some_iff] at hu
    obtain ⟨idx, -, base, -, hu⟩ := hu
    split at hu
    · cases hu
    · split at hu
      · cases hu
        exact ⟨_, rfl, rfl⟩
      · cases hu

/-- A target keeps the bound of the entry. -/
theorem resolveDispatch_eq_some {base entry t : TableVal} (h : resolveDispatch base entry = some t) :
    ∃ addr i value, base.kind = .const value ∧ entry.kind = .tableEntry addr i value ∧
      t = .jumpTarget addr i entry.tableBound := by
  unfold resolveDispatch at h
  split at h
  · rename_i value addr i baseConst hbase hentry
    split_ifs at h with hsame
    cases h
    subst hsame
    exact ⟨addr, i, baseConst, hbase, hentry, rfl⟩
  · cases h

theorem addDispatch_eq_some {r q : ZydisRegister} (hu : addDispatch s r q = some u) :
    ∃ d, r.dwarfRegOf = some d ∧ WritesReg s u d := by
  unfold addDispatch at hu
  simp only [Option.bind_eq_bind, Option.bind_eq_some_iff] at hu
  obtain ⟨d, hd, e, -, hu⟩ := hu
  split at hu
  · obtain ⟨t, -, hu⟩ := Option.bind_eq_some_iff.mp hu
    cases hu
    exact ⟨d, hd, WritesReg.setReg s d _ _⟩
  · cases hu

theorem addSubImm_eq_some {r : ZydisRegister} {imm : Word} (hu : addSubImm insn s r imm = some u) :
    ∃ d, r.dwarfRegOf = some d ∧ WritesReg s u d := by
  unfold addSubImm at hu
  obtain ⟨d, hd, rfl⟩ := Option.map_eq_some_iff.mp hu
  refine ⟨d, hd, ?_⟩
  split
  · exact WritesReg.setReg s d _ _
  · exact WritesReg.clobberWrittenReg s r d

/-- The destination is the first of two operands. -/
def Instruction.WritesDest (insn : Instruction) (s u : AbsState δ) : Prop :=
  ∃ dst src d, insn.ops2? = some (dst, src) ∧ dst.Names d ∧ WritesReg s u d

theorem transferLea_eq_some (hu : transferLea z insn s = some u) : insn.WritesDest s u := by
  unfold transferLea at hu
  split at hu
  · rename_i r _ _ _ mem _ _ _ hops
    cases hr : r.dwarfRegOf with
    | none => simp [hr] at hu
    | some d =>
      refine ⟨_, _, d, hops, ⟨r, rfl, hr⟩, ?_⟩
      simp only [hr] at hu
      split at hu
      · cases hu
        exact WritesReg.clobberWrittenReg s r d
      · split at hu
        · cases hu
          exact WritesReg.setReg s d _ _
        · cases hu
          exact WritesReg.setReg s d _ _
  · cases hu

/-- `mov` is a store or writes its destination. -/
theorem transferMov_eq_some (hu : transferMov insn s = some u) :
    insn.WritesDest s u ∨ ∃ dst src mem, insn.ops2? = some (dst, src) ∧ dst.kind = .memory mem ∧
      u = movToMem insn s mem dst.size src := by
  unfold transferMov at hu
  split at hu
  · rename_i r _ _ _ src hops
    obtain ⟨d, hr, rfl⟩ := Option.map_eq_some_iff.mp hu
    exact Or.inl ⟨_, src, d, hops, ⟨r, rfl, hr⟩, WritesReg.movToReg insn s r d src⟩
  · rename_i mem size _ _ src hops
    cases hu
    exact Or.inr ⟨_, src, mem, hops, rfl, rfl⟩
  · cases hu

theorem transferMovsxd_eq_some (hu : transferMovsxd insn s = some u) : insn.WritesDest s u := by
  unfold transferMovsxd at hu
  split at hu
  · rename_i r _ _ _ src hops
    cases hr : r.dwarfRegOf with
    | none => simp [hr] at hu
    | some d =>
      refine ⟨_, src, d, hops, ⟨r, rfl, hr⟩, ?_⟩
      simp only [hr] at hu
      split at hu
      · cases hu
      · split at hu
        · cases hu
          split
          · exact (WritesReg.setReg s d .top .none).modifyTable _
          · exact WritesReg.setReg s d .top .none
        · obtain ⟨t, rfl, -⟩ := tableLoad_eq_some hu
          exact WritesReg.setReg s d _ _
        · cases hu
  · cases hu

theorem transferAddSub_eq_some (hu : transferAddSub insn s = some u) : insn.WritesDest s u := by
  unfold transferAddSub at hu
  split at hu
  · rename_i r _ _ _ q _ _ _ hops
    split at hu
    · obtain ⟨d, hr, hw⟩ := addDispatch_eq_some hu
      exact ⟨_, _, d, hops, ⟨r, rfl, hr⟩, hw⟩
    · cases hu
  · rename_i r _ _ _ imm _ _ _ hops
    obtain ⟨d, hr, hw⟩ := addSubImm_eq_some hu
    exact ⟨_, _, d, hops, ⟨r, rfl, hr⟩, hw⟩
  · cases hu

theorem transferMovx_eq_some (hu : transferMovx insn s = some u) : insn.WritesDest s u := by
  unfold transferMovx at hu
  split at hu
  · rename_i r _ _ _ src hops
    cases hr : r.dwarfRegOf with
    | none => simp [hr] at hu
    | some d =>
      refine ⟨_, src, d, hops, ⟨r, rfl, hr⟩, ?_⟩
      cases hk : src.kind with
      | register _ | memory _ =>
        simp only [hr, hk] at hu
        split at hu
        · cases hu
          exact WritesReg.clobberWrittenReg s r d
        · cases hu
          exact ((WritesReg.clobberWrittenReg s r d).modifyTable _).modifyTable _
      | immediate _ | pointer => simp [hr, hk] at hu
  · cases hu

end

end UnwindCheck
