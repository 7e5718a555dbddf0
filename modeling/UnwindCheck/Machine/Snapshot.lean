import UnwindCheck.Machine.Frame
import UnwindCheck.Machine.Spellings

/-! The bound that a table load captures for its index, on the way from the load to the jump. -/
namespace UnwindCheck
variable {δ : Type} [Offset δ]

/-- One step along a path: an instruction, or an edge out of one. -/
inductive PathStep where
  | insn (insn : Instruction)
  | edge (insn : Instruction) (edge : BranchEdge)

namespace PathStep

def run (z : Zydis) (s : AbsState δ) : PathStep → AbsState δ
  | insn i => (transfer z i s).2
  | edge i e => transferEdge i e s

/-- Register `r` is not written, or only by the addition that makes it a jump target. -/
def Spares (s : AbsState δ) (r : Fin 16) : PathStep → Prop
  | insn i => ¬ i.WritesGpr r ∨ ∃ e t, i.Resolves s r e t
  | edge _ _ => True

/-- The edge turns the comparison of `r` itself that is waiting into the bound `b` of the whole
register. -/
def Promotes (s : AbsState δ) (r : Fin 16) (b : ℕ) : PathStep → Prop
  | insn _ => False
  | edge i e => ∃ g, s.lastCmp = some g ∧ g.reg = r ∧ g.proven = false ∧
      (64 ≤ g.widthBits ∨ (s.tbl r).valueBound ≤ widthBound g.widthBits) ∧
      (inRangeEdgeOf i.id e = .atMostImm ∧ b = g.imm ∨
        inRangeEdgeOf i.id e = .belowImm ∧ g.imm ≠ 0 ∧ b = g.imm - 1)

end PathStep

/-- The state at the end of a path. -/
def runPath (z : Zydis) (s : AbsState δ) (path : List PathStep) : AbsState δ :=
  path.foldl (PathStep.run z) s

/-- Every step of the path spares `r`. -/
def SparesAlong (z : Zydis) (r : Fin 16) : AbsState δ → List PathStep → Prop
  | _, [] => True
  | s, step :: path => step.Spares s r ∧ SparesAlong z r (step.run z s) path

/-- Some edge of the path bounds `r` itself below `b`. -/
def TightensAlong (z : Zydis) (r : Fin 16) (b : ℕ) : AbsState δ → List PathStep → Prop
  | _, [] => False
  | s, step :: path =>
    (∃ ubound, step.Promotes s r ubound ∧ ubound < b) ∨ TightensAlong z r b (step.run z s) path

/-- `r` is an entry of the table at `addr`, or a target taken from it, with the bound `b` of the
index. -/
structure Captured (s : AbsState δ) (r : Fin 16) (addr : Word) (b : ℕ) : Prop where
  kind : (∃ i value, (s.tbl r).kind = .tableEntry addr i value) ∨
    ∃ i, (s.tbl r).kind = .jumpTarget addr i
  bound : (s.tbl r).tableBound = b

section Steps
variable {z : Zydis} {s : AbsState δ} {r : Fin 16} {addr : Word} {b : ℕ}

theorem Captured.of_tbl_eq {s' : AbsState δ} (h : Captured s r addr b) (htbl : s'.tbl r = s.tbl r) :
    Captured s' r addr b := by
  obtain ⟨hkind, hbound⟩ := h
  rw [← htbl] at hkind hbound
  exact ⟨hkind, hbound⟩

/-- Only the bounds of the compared register are tightened. -/
theorem transferEdge_tbl_of_promotes {insn : Instruction} {edge : BranchEdge} {ubound : ℕ}
    (h : (PathStep.edge insn edge).Promotes s r ubound) :
    (transferEdge insn edge s).tbl r = (s.tbl r).applyGuardBound ubound := by
  obtain ⟨g, hg, rfl, hp, hwide, hub⟩ := h
  unfold transferEdge
  rcases hub with ⟨hedge, rfl⟩ | ⟨hedge, hz, rfl⟩
  · simp [hedge, hg, hp, hwide, AbsState.applyGuardBound]
  · simp [hedge, hg, hp, hz, hwide, AbsState.applyGuardBound]

theorem transferEdge_tbl_of_not_promotes {insn : Instruction} {edge : BranchEdge}
    (h : ∀ ubound, ¬ (PathStep.edge insn edge).Promotes s r ubound) :
    (transferEdge insn edge s).tbl r = s.tbl r := by
  rcases transferEdge_cases insn edge s with heq | ⟨g, ubound, hg, hp, hub, heq⟩
  · rw [heq]
  · rw [heq]
    split_ifs with hwide
    · have hne : r ≠ g.reg := by
        rintro rfl
        exact h ubound ⟨g, hg, rfl, hp, hwide, hub⟩
      exact Function.update_of_ne hne _ _
    · rfl

theorem PathStep.Promotes.unique {step : PathStep} {a : ℕ} (h : step.Promotes s r a)
    (h' : step.Promotes s r b) : a = b := by
  cases step with
  | insn i => exact h.elim
  | edge i e =>
    obtain ⟨g, hg, -, -, -, hub⟩ := h
    obtain ⟨g', hg', -, -, -, hub'⟩ := h'
    rw [hg] at hg'
    cases hg'
    rcases hub with ⟨hedge, rfl⟩ | ⟨hedge, -, rfl⟩ <;>
      rcases hub' with ⟨hedge', rfl⟩ | ⟨hedge', -, rfl⟩ <;> first
      | rfl
      | rw [hedge] at hedge'
        cases hedge'

/-- An instruction that spares the register leaves the capture alone. -/
theorem Captured.insn {insn : Instruction} (h : Captured s r addr b)
    (hspares : (PathStep.insn insn).Spares s r) : Captured (transfer z insn s).2 r addr b := by
  rcases hspares with hkeep | ⟨e, t, hres⟩
  · exact h.of_tbl_eq (transfer_keepsTables z insn s r hkeep)
  · have htbl := hres.tbl (z := z)
    rcases Option.or_eq_some_iff.mp hres.target with hbase | ⟨-, hentry⟩
    · -- the register holds the entry, not the constant
      obtain ⟨_, _, value, hconst, -, -⟩ := resolveDispatch_eq_some hbase
      rcases h.kind with ⟨i, value', hkind⟩ | ⟨i, hkind⟩
      all_goals
        rw [hconst] at hkind
        cases hkind
    · obtain ⟨addr', i, value, -, hkind', rfl⟩ := resolveDispatch_eq_some hentry
      obtain rfl : addr' = addr := by
        rcases h.kind with ⟨j, value', hkind⟩ | ⟨j, hkind⟩
        · rw [hkind'] at hkind
          cases hkind
          rfl
        · rw [hkind'] at hkind
          cases hkind
      refine ⟨.inr ⟨i, ?_⟩, ?_⟩
      · rw [htbl]
        rfl
      · rw [htbl]
        exact h.bound

/-- What one step does to the bound: it is lowered by a comparison of the register itself and by
nothing else. -/
theorem Captured.step {step : PathStep} {a : ℕ} (h : Captured s r addr a) (hle : a ≤ b)
    (hspares : step.Spares s r) :
    ∃ a', Captured (step.run z s) r addr a' ∧ a' ≤ b ∧
      (a' = b ↔ a = b ∧ ¬ ∃ ubound, step.Promotes s r ubound ∧ ubound < b) := by
  cases step with
  | insn i =>
    refine ⟨a, h.insn hspares, hle, ?_⟩
    simp [PathStep.Promotes]
  | edge i e =>
    by_cases hprom : ∃ ubound, (PathStep.edge i e).Promotes s r ubound
    · obtain ⟨ubound, hprom⟩ := hprom
      have htbl := transferEdge_tbl_of_promotes hprom
      have hafter : Captured (transferEdge i e s) r addr (min a ubound) := by
        obtain ⟨hkind, hbound⟩ := h
        constructor
        · rw [htbl]
          exact hkind
        · rw [htbl, ← hbound]
          rfl
      refine ⟨min a ubound, hafter, by omega, ?_⟩
      · have hiff : (∃ u, (PathStep.edge i e).Promotes s r u ∧ u < b) ↔ ubound < b := by
          constructor
          · rintro ⟨u, hu, hlt⟩
            rw [hprom.unique hu]
            exact hlt
          · intro hlt
            exact ⟨ubound, hprom, hlt⟩
        rw [hiff]
        omega
    · have hno : ∀ ubound, ¬ (PathStep.edge i e).Promotes s r ubound := not_exists.mp hprom
      refine ⟨a, h.of_tbl_eq (transferEdge_tbl_of_not_promotes hno), hle, ?_⟩
      simp [hno]

/-- The same of a whole path. -/
theorem Captured.path {path : List PathStep} {a : ℕ} (h : Captured s r addr a) (hle : a ≤ b)
    (hspares : SparesAlong z r s path) :
    ∃ a', Captured (runPath z s path) r addr a' ∧
      (a' = b ↔ a = b ∧ ¬ TightensAlong z r b s path) := by
  induction path generalizing s a with
  | nil => exact ⟨a, h, by simp [TightensAlong]⟩
  | cons step path ih =>
    obtain ⟨hstep, hrest⟩ := hspares
    obtain ⟨a₁, h₁, hle₁, hiff₁⟩ := h.step (z := z) hle hstep
    obtain ⟨a₂, h₂, hiff₂⟩ := ih h₁ hle₁ hrest
    refine ⟨a₂, h₂, ?_⟩
    rw [hiff₂, hiff₁, TightensAlong, not_or, and_assoc]

end Steps

/-- Between the load and the jump nothing but a comparison of the target register itself changes how
many entries the table has. -/
theorem captured_bound_reported_iff {z : Zydis} {s : AbsState δ} {load jump : Instruction}
    {path : List PathStep} {r idx : Fin 16} {mem : MemOperand} {value : Word}
    (hload : load.LoadsTable s r idx mem value)
    (hspares : SparesAlong z r (transfer z load s).2 path) (hjump : jump.JumpsThrough r)
    (htarget : ∃ addr i, ((runPath z (transfer z load s).2 path).tbl r).kind = .jumpTarget addr i) :
    (transfer z jump (runPath z (transfer z load s).2 path)).1 =
        tableOutcome (value + mem.disp.toBitVec) (s.tbl idx).tableBound ↔
      ¬ TightensAlong z r (s.tbl idx).tableBound (transfer z load s).2 path := by
  have htbl := hload.tbl (z := z)
  have hstart : Captured (transfer z load s).2 r (value + mem.disp.toBitVec) (s.tbl idx).tableBound := by
    refine ⟨.inl ⟨idx, value, ?_⟩, ?_⟩
    · rw [htbl]
      rfl
    · rw [htbl]
      rfl
  obtain ⟨a, hend, hiff⟩ := hstart.path le_rfl hspares
  obtain ⟨addr, i, hkind⟩ := htarget
  obtain rfl : addr = value + mem.disp.toBitVec := by
    rcases hend.kind with ⟨j, v, hk⟩ | ⟨j, hk⟩
    · rw [hkind] at hk
      cases hk
    · rw [hkind] at hk
      cases hk
      rfl
  rw [hjump.outcome hkind, tableOutcome_inj, hend.bound, hiff]
  simp

namespace Sample

/-- movslq (%rbx,%rcx,4),%rax -/
def tableLoadInsn : DecodedInsn where
  length := 4
  mnemonic := .movsxd
  operandCountVisible := 2
  operands := [⟨.register (.gpr64 .rax), 64, true, false⟩,
    ⟨.memory ⟨.gpr64 .rbx, .gpr64 .rcx, 4, 0⟩, 32, false, false⟩]
  category := .other
  hasSegment := false
  operandWidth := 64
  cpuFlags := some ⟨0, 0, 0, 0⟩

/-- add %rbx,%rax -/
def addBaseInsn : DecodedInsn where
  length := 3
  mnemonic := .add
  operandCountVisible := 2
  operands := [⟨.register (.gpr64 .rax), 64, true, false⟩, ⟨.register (.gpr64 .rbx), 64, false, false⟩]
  category := .other
  hasSegment := false
  operandWidth := 64
  cpuFlags := some ⟨0x8d5, 0, 0, 0⟩

/-- jmp *%rax -/
def jumpInsn : DecodedInsn where
  length := 2
  mnemonic := .jmp
  operandCountVisible := 1
  operands := [⟨.register (.gpr64 .rax), 64, false, false⟩, ⟨.register .rip, 64, true, false⟩]
  category := .uncondBr
  hasSegment := false
  operandWidth := 64
  cpuFlags := some ⟨0, 0, 0, 0⟩

/-- A table in rbx, and rcx known to be at most 9. -/
def beforeLoad : AbsState Int64 :=
  (AbsState.entry.setTableReg 3 (.const 0x3000)).applyGuardBound 2 9

theorem loadsTable_tableLoadInsn :
    Instruction.LoadsTable ⟨0x1000, tableLoadInsn⟩ beforeLoad 0 2 ⟨.gpr64 .rbx, .gpr64 .rcx, 4, 0⟩ 0x3000
    where
  mnemonic := rfl
  isBranch := rfl
  ops := ⟨_, _, .gpr64 .rax, rfl, rfl, rfl, rfl, rfl⟩
  index := rfl
  scale := rfl
  base := ⟨.rbx, rfl, rfl⟩

theorem jumpsThrough_jumpInsn : Instruction.JumpsThrough ⟨0x100c, jumpInsn⟩ 0 where
  mnemonic := rfl
  isBranch := rfl
  op := ⟨_, .gpr64 .rax, rfl, rfl, rfl⟩

/-- cmp $5 of a register, ja, and then the addition of the table's base. -/
def guardThenAdd (x : ZydisRegister) : List PathStep :=
  [.insn ⟨0x1004, cmpOf x⟩, .insn ⟨0x1007, jaInsn⟩, .edge ⟨0x1007, jaInsn⟩ .fallThrough,
    .insn ⟨0x1009, addBaseInsn⟩]

theorem resolves_addBaseInsn {s : AbsState Int64} (hbase : (s.tbl 3).kind = .const 0x3000)
    (hentry : (s.tbl 0).kind = .tableEntry 0x3000 2 0x3000) :
    Instruction.Resolves ⟨0x1009, addBaseInsn⟩ s 0 3 (.jumpTarget 0x3000 2 (s.tbl 0).tableBound) where
  mnemonic := rfl
  isBranch := rfl
  ops := ⟨_, _, .gpr64 .rax, .gpr64 .rbx, rfl, rfl, rfl, rfl, rfl, rfl, rfl⟩
  target := by simp [resolveDispatch, hbase, hentry]

theorem sparesAlong_guardThenAdd (g : Gpr) :
    SparesAlong (Zydis.ofTable []) 0
      (transfer (Zydis.ofTable []) ⟨0x1000, tableLoadInsn⟩ beforeLoad).2 (guardThenAdd (.gpr64 g)) := by
  refine ⟨.inl id, .inl (jcc_jaInsn.writes 0), trivial, .inr ⟨3, _, resolves_addBaseInsn ?_ ?_⟩, trivial⟩
  · cases g <;> rfl
  · cases g <;> rfl

end Sample

/-- rcx compared again behind the load: the table has the ten entries it had. -/
theorem index_guard_reported :
    (transfer (Zydis.ofTable []) ⟨0x100c, Sample.jumpInsn⟩ (runPath (Zydis.ofTable [])
      (transfer (Zydis.ofTable []) ⟨0x1000, Sample.tableLoadInsn⟩ Sample.beforeLoad).2
      (Sample.guardThenAdd (.gpr64 .rcx)))).1 = tableOutcome 0x3000 9 := by
  refine (captured_bound_reported_iff Sample.loadsTable_tableLoadInsn
    (Sample.sparesAlong_guardThenAdd .rcx) Sample.jumpsThrough_jumpInsn ⟨0x3000, 2, rfl⟩).mpr ?_
  rintro (⟨_, h, -⟩ | ⟨_, h, -⟩ | ⟨_, ⟨g, hg, hreg, -⟩, -⟩ | ⟨_, h, -⟩ | h)
  · exact h
  · exact h
  · cases hg
    cases hreg
  · exact h
  · exact h

/-- rax itself compared: it has six, and not one more than the bound of rcx at the load. -/
theorem target_guard_reported :
    Instruction.LoadsTable ⟨0x1000, Sample.tableLoadInsn⟩ Sample.beforeLoad 0 2
        ⟨.gpr64 .rbx, .gpr64 .rcx, 4, 0⟩ 0x3000 ∧
      (Sample.beforeLoad.tbl 2).tableBound = 9 ∧
      SparesAlong (Zydis.ofTable []) 0
        (transfer (Zydis.ofTable []) ⟨0x1000, Sample.tableLoadInsn⟩ Sample.beforeLoad).2
        (Sample.guardThenAdd (.gpr64 .rax)) ∧
      Instruction.JumpsThrough ⟨0x100c, Sample.jumpInsn⟩ 0 ∧
      (transfer (Zydis.ofTable []) ⟨0x100c, Sample.jumpInsn⟩ (runPath (Zydis.ofTable [])
        (transfer (Zydis.ofTable []) ⟨0x1000, Sample.tableLoadInsn⟩ Sample.beforeLoad).2
        (Sample.guardThenAdd (.gpr64 .rax)))).1 = tableOutcome 0x3000 5 ∧
      tableOutcome 0x3000 5 ≠ tableOutcome 0x3000 9 :=
  ⟨Sample.loadsTable_tableLoadInsn, rfl, Sample.sparesAlong_guardThenAdd .rax,
    Sample.jumpsThrough_jumpInsn, rfl, by decide⟩

end UnwindCheck
