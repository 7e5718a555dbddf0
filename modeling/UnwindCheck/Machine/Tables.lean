import UnwindCheck.Machine.Outcome
import UnwindCheck.Machine.Snapshot
import UnwindCheck.State.Lattice

/-! The bounds that size a table, against the numbers in the registers: which steps leave a bound of
one register on another, or the bound of an index on the entry it selects. -/
namespace UnwindCheck
variable {δ : Type} [Offset δ]

/-- The index values that the entries of tables in the registers were loaded with, after an
instruction: a load has one, a full-width move and the addition of the base pass it on, and any other
write forgets it. -/
inductive IndexAfter (insn : Instruction) (s : AbsState δ) (c : Cpu) (index : Fin 16 → ℕ → Prop) :
    Fin 16 → ℕ → Prop
  | kept {r : Fin 16} {i : ℕ} : ¬ insn.WritesGpr r → index r i → IndexAfter insn s c index r i
  | loaded {r idx : Fin 16} {mem : MemOperand} {value : Word} : insn.LoadsTable s r idx mem value →
      IndexAfter insn s c index r (mem.index.value (c.regs idx))
  | copied {r e : Fin 16} {i : ℕ} : insn.Copies r e → index e i → IndexAfter insn s c index r i
  | resolved {r e : Fin 16} {t : TableVal} {i : ℕ} : insn.Resolves s r e t → index r i ∨ index e i →
      IndexAfter insn s c index r i

/-- A step that leaves every bound on a register it is one of: the flags answer for what is compared; a
32-bit write that may not happen is none to count on; nothing that is written unseen, and no frame
pointer that `leave` reads, has a bound; and neither a widening move nor a table load takes the bound of
an index for one of the entry it reads. -/
structure Instruction.KeepsBounds (z : Zydis) (insn : Instruction) (s : AbsState δ) : Prop where
  answers : insn.Answers s
  width : insn.Generic z s → ∀ d, endsIn32 d insn.insn.operands = true →
    clearsUpper d insn.insn.operands = true
  unseen : ∀ r, insn.WritesUnseen s r →
    (s.tbl r).Free ∧ ∀ g, (dropStaleCmp insn s).lastCmp = some g → g.reg ≠ r
  leave : insn.id = .leave → insn.isBranch = false → (∀ d, s.gpr kDWARFRbp ≠ .cfaRel d) →
    (s.tbl kDWARFRbp).Free
  source : ∀ x src e, insn.Move x src → insn.Widens x src (dropStaleCmp insn s) →
    src.reg?.bind ZydisRegister.dwarfRegOf = some e → (s.tbl e).indexed = true →
    src.readBound (dropStaleCmp insn s) ≤ (s.tbl e).tableBound
  index : ∀ r idx mem value, insn.LoadsTable s r idx mem value → (s.tbl idx).indexed = true →
    (s.tbl idx).valueBound ≤ (s.tbl idx).tableBound

/-- No entry and no target is compared below the bound of its index. -/
def BranchEdge.KeepsIndex (edge : BranchEdge) (insn : Instruction) (s : AbsState δ) : Prop :=
  ∀ r b, (PathStep.edge insn edge).Promotes s r b → (s.tbl r).indexed = true → (s.tbl r).tableBound ≤ b

/-- An entry or a target meets nothing else that has an identity, unless its own value is within the
larger of the two bounds. -/
def KeepsJoined (here there : AbsState δ) : Prop :=
  ∀ r, (here.tbl r).indexed = true → (there.tbl r).kind ≠ .none → (there.tbl r).kind ≠ (here.tbl r).kind →
    (here.tbl r).valueBound ≤ max (here.tbl r).tableBound (there.tbl r).tableBound

/-- Conditions on the steps of a path. -/
structure StepRules (δ : Type) [Offset δ] where
  insn : Instruction → AbsState δ → Prop
  edge : Instruction → BranchEdge → AbsState δ → Prop
  join : AbsState δ → AbsState δ → Prop

namespace StepRules

def any : StepRules δ := ⟨fun _ _ => True, fun _ _ _ => True, fun _ _ => True⟩

def keepBounds (z : Zydis) : StepRules δ :=
  ⟨fun insn s => insn.KeepsBounds z s, fun insn edge s => edge.KeepsIndex insn s, KeepsJoined⟩

end StepRules

/-- The paths whose steps all meet `P`, from a state that knows no tables: instructions, branches along
the edge that is taken, and joins with what other paths bring along. `index r i` says that register `r`
holds an entry loaded with index value `i`, or the target made of one. -/
inductive TableRun (P : StepRules δ) (z : Zydis) : AbsState δ → Cpu → (Fin 16 → ℕ → Prop) → Prop
  | start {s : AbsState δ} {c : Cpu} : (∀ r, s.tbl r = .none) → s.lastCmp = none →
      TableRun P z s c fun _ _ => False
  | step {s : AbsState δ} {c c' : Cpu} {index : Fin 16 → ℕ → Prop} {insn : Instruction} :
      TableRun P z s c index → P.insn insn s → insn.Runs c c' →
      TableRun P z (transfer z insn s).2 c' (IndexAfter insn s c index)
  | branch {s : AbsState δ} {c c' : Cpu} {index : Fin 16 → ℕ → Prop} {insn : Instruction}
      {edge : BranchEdge} : TableRun P z s c index → P.insn insn s → insn.Runs c c' →
      insn.isBranch = true → edge.TakenBy insn.id c.flags → P.edge insn edge (transfer z insn s).2 →
      TableRun P z (transferEdge insn edge (transfer z insn s).2) c' (IndexAfter insn s c index)
  | join_left {s t : AbsState δ} {c : Cpu} {index : Fin 16 → ℕ → Prop} : TableRun P z s c index →
      P.join s t → TableRun P z (join s t).state c index
  | join_right {s t : AbsState δ} {c : Cpu} {index : Fin 16 → ℕ → Prop} : TableRun P z s c index →
      P.join s t → TableRun P z (join t s).state c index

/-- The table bound of a table half is one of the register's own value `w`, or of every index value
its entry was loaded with. -/
structure TableVal.Speaks (t : TableVal) (w : Word) (index : ℕ → Prop) : Prop where
  own : t.indexed = false → w.toNat ≤ t.tableBound
  index : ∀ i, index i → t.kind = .conflict ∨ t.indexed = true ∧ i ≤ t.tableBound

/-- What a path keeps. -/
structure TableInv (s : AbsState δ) (c : Cpu) (index : Fin 16 → ℕ → Prop) : Prop extends NumInv s c where
  table : ∀ r, (s.tbl r).Speaks (c.regs r) (index r)

section Joins
variable {a b u : TableVal} {w : Word} {index : ℕ → Prop}

theorem TableVal.Kind.sup_eq_conflict {a b : TableVal.Kind} (ha : a ≠ .none) (hb : b ≠ .none)
    (hne : b ≠ a) : a ⊔ b = .conflict := by
  change (if a = .conflict ∨ b = .conflict then _ else _) = _
  split_ifs with hconf heq
  · rfl
  · exact absurd heq.symm hne
  · rfl

theorem TableVal.indexed_congr (h : u.kind = a.kind) : u.indexed = a.indexed := by
  unfold TableVal.indexed
  rw [h]

/-- Where two halves meet, seen from the side the processor comes from. -/
theorem TableVal.Speaks.joined (h : a.Speaks w index) (hvalue : w.toNat ≤ a.valueBound)
    (hmeet : a.indexed = true → b.kind ≠ .none → b.kind ≠ a.kind →
      a.valueBound ≤ max a.tableBound b.tableBound)
    (hkind : u.kind = a.kind ⊔ b.kind) (hbound : u.tableBound = max a.tableBound b.tableBound) :
    u.Speaks w index := by
  have hle : a.tableBound ≤ u.tableBound := by
    rw [hbound]
    exact le_max_left _ _
  by_cases hsame : b.kind = .none ∨ b.kind = a.kind
  · have hk : u.kind = a.kind := by
      rcases hsame with hnone | heq
      · rw [hkind, hnone, TableVal.Kind.sup_none]
      · rw [hkind, heq, sup_idem]
    constructor
    · intro hplain
      rw [TableVal.indexed_congr hk] at hplain
      exact (h.own hplain).trans hle
    · intro i hi
      rw [hk, TableVal.indexed_congr hk]
      exact (h.index i hi).imp_right fun hidx => ⟨hidx.1, hidx.2.trans hle⟩
  · obtain ⟨hnone, hne⟩ := not_or.mp hsame
    constructor
    · intro _
      cases hidx : a.indexed with
      | false => exact (h.own hidx).trans hle
      | true =>
        rw [hbound]
        exact hvalue.trans (hmeet hidx hnone hne)
    · intro i hi
      left
      have ha : a.kind ≠ .none := by
        intro ha
        rcases h.index i hi with hconf | ⟨hidx, -⟩
        · rw [ha] at hconf
          cases hconf
        · unfold TableVal.indexed at hidx
          rw [ha] at hidx
          cases hidx
      rw [hkind]
      exact TableVal.Kind.sup_eq_conflict ha hnone hne

end Joins

section Steps
variable {z : Zydis} {s : AbsState δ} {c c' : Cpu} {index : Fin 16 → ℕ → Prop} {insn : Instruction}
  {r : Fin 16}

/-- `t` is a target made of the entry in register `e`, with the constant in register `b`. -/
structure TargetOf (s : AbsState δ) (b e : Fin 16) (t : TableVal) : Prop where
  indexed : t.indexed = true
  value : t.valueBound = kBoundTop
  base : ∃ value, (s.tbl b).kind = .const value
  entry : (s.tbl e).kind ≠ .conflict
  bound : t.tableBound = (s.tbl e).tableBound

theorem TargetOf.free {b e : Fin 16} {t : TableVal} (h : TargetOf s b e t) : t.Free :=
  ⟨h.value, .inl h.indexed⟩

theorem targetOf_resolveDispatch {b e : Fin 16} {t : TableVal}
    (h : resolveDispatch (s.tbl b) (s.tbl e) = some t) : TargetOf s b e t := by
  obtain ⟨addr, i, value, hconst, hentry, rfl⟩ := resolveDispatch_eq_some h
  refine ⟨rfl, rfl, ⟨value, hconst⟩, ?_, rfl⟩
  rw [hentry]
  simp

theorem Instruction.Resolves.targetOf {e : Fin 16} {t : TableVal} (h : insn.Resolves s r e t) :
    TargetOf s r e t ∨ TargetOf s e r t := by
  rcases Option.or_eq_some_iff.mp h.target with hbase | ⟨-, hbase⟩
  · exact .inl (targetOf_resolveDispatch hbase)
  · exact .inr (targetOf_resolveDispatch hbase)

/-- A constant is no entry. -/
theorem TableVal.Speaks.not_index {t : TableVal} {w : Word} {index : ℕ → Prop} (h : t.Speaks w index)
    {value : Word} (hconst : t.kind = .const value) (i : ℕ) : ¬ index i := by
  intro hi
  rcases h.index i hi with hconf | ⟨hidx, -⟩
  · rw [hconst] at hconf
    cases hconf
  · unfold TableVal.indexed at hidx
    rw [hconst] at hidx
    cases hidx

theorem TargetOf.indexAfter {b e : Fin 16} {t : TableVal} {w w' : Word} {atBase atEntry : ℕ → Prop}
    (h : TargetOf s b e t) (hbase : (s.tbl b).Speaks w atBase) (hentry : (s.tbl e).Speaks w' atEntry) {i : ℕ}
    (hi : atBase i ∨ atEntry i) : t.indexed = true ∧ i ≤ t.tableBound := by
  obtain ⟨value, hconst⟩ := h.base
  have hi := hi.resolve_left (hbase.not_index hconst i)
  refine ⟨h.indexed, ?_⟩
  rw [h.bound]
  exact ((hentry.index i hi).resolve_left h.entry).2

theorem TableVal.Free.bounds {t : TableVal} (h : t.Free) (w : Word) :
    w.toNat ≤ t.valueBound ∧ (t.indexed = false → w.toNat ≤ t.tableBound) := by
  obtain ⟨hvalue, htable⟩ := h
  constructor
  · rw [hvalue]
    exact toNat_le_kBoundTop w
  · intro hplain
    rw [htable.resolve_left (by simp [hplain])]
    exact toNat_le_kBoundTop w

/-- Both bounds of one register, after a step. -/
theorem TableInv.register (h : TableInv s c index) (hk : insn.KeepsBounds z s) (hrun : insn.Runs c c')
    (r : Fin 16) :
    (c'.regs r).toNat ≤ ((transfer z insn s).2.tbl r).valueBound ∧
      (((transfer z insn s).2.tbl r).indexed = false →
        (c'.regs r).toNat ≤ ((transfer z insn s).2.tbl r).tableBound) := by
  cases hrun.stepOutcome (z := z) h.toNumInv hk.width r with
  | kept hregs htbl =>
    rw [hregs, htbl]
    exact ⟨h.value r, (h.table r).own⟩
  | unseen hunseen htbl =>
    rw [htbl]
    exact (hk.unseen r hunseen).1.bounds _
  | cleared hplain htop hvalue =>
    refine ⟨hvalue, fun _ => ?_⟩
    rw [htop]
    exact toNat_le_kBoundTop _
  | left hid hbr hrbp htbl =>
    rw [htbl]
    exact (hk.leave hid hbr hrbp).bounds _
  | @copied e hregs htbl =>
    rw [hregs, htbl]
    exact ⟨h.value e, (h.table e).own⟩
  | @widened x src e v hm hwidens hsrc hv hread hvalue htable =>
    refine ⟨hvalue, fun _ => htable ?_⟩
    cases hidx : (s.tbl e).indexed with
    | false => exact hv.trans ((h.table e).own hidx)
    | true => exact hread.trans (hk.source x src e hm hwidens hsrc hidx)
  | loaded hload =>
    rw [hload.tbl]
    exact TableVal.Free.bounds ⟨rfl, .inl rfl⟩ _
  | resolved hres =>
    rw [hres.tbl]
    rcases hres.targetOf with htarget | htarget
    · exact htarget.free.bounds _
    · exact htarget.free.bounds _

/-- The index values of one register, after a step. -/
theorem TableInv.indexAfter (h : TableInv s c index) (hk : insn.KeepsBounds z s) {i : ℕ}
    (hi : IndexAfter insn s c index r i) :
    ((transfer z insn s).2.tbl r).kind = .conflict ∨
      ((transfer z insn s).2.tbl r).indexed = true ∧ i ≤ ((transfer z insn s).2.tbl r).tableBound := by
  cases hi with
  | kept hw hi =>
    rw [transfer_keepsTables z insn s r hw]
    exact (h.table r).index i hi
  | @loaded idx mem value hload =>
    right
    rw [hload.tbl]
    refine ⟨rfl, ?_⟩
    have hle := mem.index.value_le (c.regs idx)
    cases hidx : (s.tbl idx).indexed with
    | false => exact hle.trans ((h.table idx).own hidx)
    | true => exact hle.trans ((h.value idx).trans (hk.index r idx mem value hload hidx))
  | copied hcopies hi =>
    rw [hcopies.tbl]
    exact (h.table _).index i hi
  | @resolved e t _ hres hi =>
    right
    rw [hres.tbl]
    rcases hres.targetOf with htarget | htarget
    · exact htarget.indexAfter (h.table _) (h.table _) hi
    · exact htarget.indexAfter (h.table _) (h.table _) hi.symm

/-- A proven guard survives only on a register that the step leaves alone. -/
theorem TableInv.proven_after (h : TableInv s c index) (hk : insn.KeepsBounds z s) (hrun : insn.Runs c c')
    {g : FlagsGuard} (hg : (transfer z insn s).2.lastCmp = some g) (hp : g.proven = true) :
    lowBits g.widthBits (c'.regs g.reg) ≤ g.provenBound := by
  rcases insn.compares_or_not with ⟨x, d, imm, hcmp, hd⟩ | hno
  · rw [hcmp.transfer_eq hd] at hg
    cases hg
    simp [FlagsGuard.proven] at hp
  · obtain ⟨hbefore, hsame⟩ := transfer_forgets hrun.toSteps hno g hg
    have hreg : c'.regs g.reg = c.regs g.reg := by
      by_contra hne
      exact hsame ⟨hne, fun hunseen => (hk.unseen g.reg hunseen).2 g hbefore rfl⟩
    rw [hreg]
    exact h.proven g (dropStaleCmp_lastCmp hbefore) hp

theorem TableInv.step (h : TableInv s c index) (hk : insn.KeepsBounds z s) (hrun : insn.Runs c c') :
    TableInv (transfer z insn s).2 c' (IndexAfter insn s c index) where
  value r := (h.register hk hrun r).1
  proven _ hg hp := h.proven_after hk hrun hg hp
  flags := h.flags.step hk.answers hrun.toSteps
  table r := ⟨(h.register hk hrun r).2, fun _ hi => h.indexAfter hk hi⟩

/-- An edge that keeps to the rules lowers no bound of an index. -/
theorem tableBound_transferEdge {edge : BranchEdge} (hedge : edge.KeepsIndex insn s)
    (hidx : (s.tbl r).indexed = true) :
    ((transferEdge insn edge s).tbl r).tableBound = (s.tbl r).tableBound := by
  by_cases hprom : ∃ b, (PathStep.edge insn edge).Promotes s r b
  · obtain ⟨b, hprom⟩ := hprom
    rw [transferEdge_tbl_of_promotes hprom]
    exact min_eq_left (hedge r b hprom hidx)
  · rw [transferEdge_tbl_of_not_promotes (not_exists.mp hprom)]

theorem TableInv.edge {edge : BranchEdge} (h : TableInv s c index) (hedge : edge.KeepsIndex insn s)
    (htrue : RecordsTrue s (transferEdge insn edge s) c) : TableInv (transferEdge insn edge s) c index := by
  refine ⟨h.toNumInv.of_recordsTrue htrue, fun r => ?_⟩
  have hkind : ((transferEdge insn edge s).tbl r).kind = (s.tbl r).kind := by
    rcases htrue.promoted r with heq | ⟨b, heq, -⟩
    · rw [heq]
    · rw [heq]
      rfl
  have hsame := TableVal.indexed_congr hkind
  constructor
  · intro hplain
    rw [hsame] at hplain
    rcases htrue.promoted r with heq | ⟨b, heq, hb⟩
    · rw [heq]
      exact (h.table r).own hplain
    · rw [heq]
      exact le_min ((h.table r).own hplain) (hb (h.value r))
  · intro i hi
    rw [hkind, hsame]
    refine ((h.table r).index i hi).imp_right fun hidx => ⟨hidx.1, ?_⟩
    rw [tableBound_transferEdge hedge hidx.1]
    exact hidx.2

theorem TableInv.join_left {t : AbsState δ} (h : TableInv s c index) (hjoin : KeepsJoined s t) :
    TableInv (join s t).state c index := by
  refine ⟨h.toNumInv.join_left t, fun r => ?_⟩
  refine (h.table r).joined (h.value r) (hjoin r) ?_ ?_
  · exact (TableVal.kind_joinTableValue _ _).trans (sup_comm _ _)
  · exact max_comm _ _

theorem TableInv.join_right {t : AbsState δ} (h : TableInv s c index) (hjoin : KeepsJoined s t) :
    TableInv (join t s).state c index := by
  refine ⟨h.toNumInv.join_right t, fun r => ?_⟩
  exact (h.table r).joined (h.value r) (hjoin r) (TableVal.kind_joinTableValue _ _) rfl

theorem TableRun.inv (h : TableRun (.keepBounds z) z s c index) : TableInv s c index := by
  induction h with
  | start htbl hcmp =>
    refine ⟨⟨⟨fun r => ?_, fun g hg => ?_⟩, fun g hg => ?_⟩, fun r => ⟨fun _ => ?_, fun i hi => hi.elim⟩⟩
    · rw [htbl r]
      exact toNat_le_kBoundTop _
    · rw [hcmp] at hg
      cases hg
    · rw [hcmp] at hg
      cases hg
    · rw [htbl r]
      exact toNat_le_kBoundTop _
  | step _ hk hrun ih => exact ih.step hk hrun
  | branch _ hk hrun hbr htaken hedge ih =>
    exact (ih.step hk hrun).edge hedge (ih.flags.branch_recordsTrue hbr hk.answers hrun.toSteps htaken)
  | join_left _ hjoin ih => exact ih.join_left hjoin
  | join_right _ hjoin ih => exact ih.join_right hjoin

end Steps

/-- Only a real bound sizes a table: a register that is no entry and no target is at most its table
bound, and a table that a jump reports is longer than the index its target was loaded with. -/
structure RealBounds (z : Zydis) (s : AbsState δ) (c : Cpu) (index : Fin 16 → ℕ → Prop) : Prop where
  own : ∀ r, (s.tbl r).indexed = false → (s.tbl r).hasTableBound = true →
    (c.regs r).toNat ≤ (s.tbl r).tableBound
  sized : ∀ jump r addr n, Instruction.JumpsThrough jump r →
    (transfer z jump s).1.jumpTable = some (addr, n) → ∀ i, index r i → i < n

theorem Instruction.JumpsThrough.jumpTable {z : Zydis} {s : AbsState δ} {jump : Instruction} {r : Fin 16}
    {addr : Word} {n : ℕ} (h : jump.JumpsThrough r) (htable : (transfer z jump s).1.jumpTable = some (addr, n)) :
    (∃ i, (s.tbl r).kind = .jumpTarget addr i) ∧ n = (s.tbl r).tableBound + 1 := by
  obtain ⟨op, x, hop, hreg, hx⟩ := h.op
  rw [transfer_of_branch (by rw [h.mnemonic]; rfl) h.isBranch] at htable
  unfold branchOutcome at htable
  simp only [hop, hreg, hx, AbsState.table, dropStaleCmp_tbl] at htable
  split at htable
  · rename_i addr' i hkind
    split at htable
    · cases htable
      exact ⟨⟨i, hkind⟩, rfl⟩
    · cases htable
  · cases htable

/-- In every state of every path whose steps leave each bound on a register it is one of. -/
theorem tableRun_realBounds {z : Zydis} {s : AbsState δ} {c : Cpu} {index : Fin 16 → ℕ → Prop}
    (h : TableRun (.keepBounds z) z s c index) : RealBounds z s c index := by
  have hinv := h.inv
  constructor
  · intro r hplain _
    exact (hinv.table r).own hplain
  · intro jump r addr n hjump htable i hi
    obtain ⟨⟨k, hkind⟩, rfl⟩ := hjump.jumpTable htable
    rcases (hinv.table r).index i hi with hconf | ⟨-, hle⟩
    · rw [hkind] at hconf
      cases hconf
    · omega

namespace Sample

/-- lea 0x2000(%rip),%rbx -/
def leaTableInsn : DecodedInsn where
  length := 7
  mnemonic := .lea
  operandCountVisible := 2
  operands := [⟨.register (.gpr64 .rbx), 64, true, false⟩, ⟨.memory ⟨.rip, .none, 0, 0x2000⟩, 0, false, false⟩]
  category := .other
  hasSegment := false
  operandWidth := 64
  cpuFlags := some ⟨0, 0, 0, 0⟩

/-- Behind `lea 0x2000(%rip),%rbx`. -/
def tableBased : AbsState Int64 := (transfer (Zydis.ofTable []) ⟨0xff9, leaTableInsn⟩ AbsState.entry).2

/-- And behind `cmp $5,%rcx`. -/
def indexCompared : AbsState Int64 :=
  (transfer (Zydis.ofTable []) ⟨0x1000, cmpOf (.gpr64 .rcx)⟩ tableBased).2

/-- And behind a `ja` that falls through. -/
def indexGuarded : AbsState Int64 :=
  transferEdge ⟨0x1003, jaInsn⟩ .fallThrough (transfer (Zydis.ofTable []) ⟨0x1003, jaInsn⟩ indexCompared).2

/-- And behind `movslq (%rbx,%rcx,4),%rax`. -/
def entryLoaded : AbsState Int64 := (transfer (Zydis.ofTable []) ⟨0x1005, tableLoadInsn⟩ indexGuarded).2

/-- And then `movzbl %al,%ecx`. -/
def entryWidened : AbsState Int64 :=
  (transfer (Zydis.ofTable []) ⟨0x1009, movzxOf (.gpr8 .rax)⟩ entryLoaded).2

/-- Or, instead, `add %rbx,%rax`. -/
def dispatched : AbsState Int64 := (transfer (Zydis.ofTable []) ⟨0x1009, addBaseInsn⟩ entryLoaded).2

/-- A two-operand instruction that writes `x`, its first operand, and no other GPR. -/
theorem runs_dest {insn : Instruction} {dst src : Operand} {x : ZydisRegister} {d : Fin 16} {w : Word}
    {c : Cpu} {flags : CpuFlags} (hoperands : insn.insn.operands = [dst, src])
    (hops : insn.ops2? = some (dst, src)) (hkind : dst.kind = .register x) (hx : x.dwarfRegOf = some d)
    (hdst : dst.writes = true) (hsrc : src.writes = false)
    (hid : insn.id ∈ [.lea, .mov, .movq, .movsxd, .movzx, .movsx, .add, .sub])
    (hbr : insn.isBranch = false)
    (hexec : ∃ mem mem', insn.Exec ⟨c.regs, mem⟩ ⟨Function.update c.regs d (x.put (c.regs d) w), mem'⟩)
    (hflags : writesEflags insn = true ∨ flags = c.flags)
    (hlow : dst.size = x.widthBits ∧ x.isLow = true) (hlow' : src.ReadsLow)
    (hmoved : insn.id ∈ [.mov, .movq, .movzx, .movsx, .movsxd] →
      ∃ v, src.Supplies c.regs v ∧ w = insn.moved src.size v) :
    insn.Runs c ⟨Function.update c.regs d (x.put (c.regs d) w), flags⟩ := by
  have honly : insn.insn.WritesOnly x := by
    refine ⟨dst, [src], hoperands, hkind, hdst, fun op hin hw => ?_⟩
    obtain rfl := List.mem_singleton.mp hin
    rw [hsrc] at hw
    cases hw
  have hput : Function.update c.regs d (x.put (c.regs d) w) d = x.put (c.regs d) w := Function.update_self _ _ _
  have hone : ∀ dst' src' x' d', insn.ops2? = some (dst', src') → dst'.kind = .register x' →
      x'.dwarfRegOf = some d' → src' = src ∧ x' = x ∧ d' = d := by
    intro dst' src' x' d' hops' hkind' hx'
    rw [hops] at hops'
    cases hops'
    rw [hkind] at hkind'
    cases hkind'
    exact ⟨rfl, rfl, Option.some.inj (hx'.symm.trans hx)⟩
  have hplain : isReturnMnemonic insn.id = false ∧ isTrapMnemonic insn.id = false ∧ insn.id ≠ .call ∧
      insn.id ≠ .cmp := by
    simp only [List.mem_cons, List.not_mem_nil, or_false] at hid
    rcases hid with hid | hid | hid | hid | hid | hid | hid | hid <;> rw [hid] <;> decide
  obtain ⟨hret, htrap, hcall, hcmp⟩ := hplain
  have hspelled : ∀ op ∈ insn.insn.operands, ∀ y, op.kind = .register y → y.dwarfRegOf ≠ none →
      op.size = y.widthBits ∧ y.isLow = true := by
    intro op hin y hy hdwarf
    rw [hoperands] at hin
    simp only [List.mem_cons, List.not_mem_nil, or_false] at hin
    rcases hin with rfl | rfl
    · rw [hkind] at hy
      cases hy
      exact hlow
    · exact (hlow' y (by simp [Operand.reg?, hy]) hdwarf).symm
  refine ⟨⟨hret, fun _ => htrap, ?_, ?_, fun _ => .inr hflags, ?_, ?_⟩, ?_, ?_, ?_, ?_⟩
  · unfold Instruction.ChangesRegs
    rw [if_neg (by simp [hbr]), if_neg hcall]
    exact hexec
  · intro y e imm h
    exact absurd h.mnemonic hcmp
  · exact fun op hin y hy hdwarf => (hspelled op hin y hy hdwarf).1
  · intro _ dest src' rest y hoperands' hy
    rw [hoperands] at hoperands'
    cases hoperands'
    rw [hkind] at hy
    cases hy
    exact honly
  · intro _ dst' src' x' d' hops' hkind' hx'
    obtain ⟨-, rfl, rfl⟩ := hone dst' src' x' d' hops' hkind' hx'
    exact ⟨honly, w, hput⟩
  · intro x' d' src' hm hx' _
    obtain ⟨dst', hops', hkind'⟩ := hm.ops
    obtain ⟨rfl, rfl, rfl⟩ := hone dst' src' x' d' hops' hkind' hx'
    obtain ⟨v, hv, hw⟩ := hmoved hm.mnemonic
    refine ⟨v, hv, ?_⟩
    rw [← hw]
    exact hput
  · intro hlisted
    have hdest : insn.destGpr = some d := (destGpr_eq hops hkind).trans hx
    have hnone : insn.destGpr = none := by
      have hmatch := hlisted.2
      simp only [List.mem_cons, List.not_mem_nil, or_false] at hid
      rcases hid with hid | hid | hid | hid | hid | hid | hid | hid
      all_goals
        rw [hid] at hmatch
        exact hmatch
    rw [hdest] at hnone
    cases hnone
  · exact fun op hin y hy hdwarf => (hspelled op hin y hy hdwarf).2

theorem changesOnly_update {insn : Instruction} {d : Fin 16} (hmarks : insn.Marks d) (regs : Fin 16 → Word)
    (mem mem' : Word → Byte) (w : Word) :
    Machine.ChangesOnly ⟨regs, mem⟩ ⟨Function.update regs d w, mem'⟩ fun q => q = d ∧ insn.Marks q := by
  intro q hq
  refine Function.update_of_ne ?_ _ _
  rintro rfl
  exact hq ⟨rfl, hmarks⟩

theorem runs_leaTableInsn (c : Cpu) (w : Word) :
    Instruction.Runs ⟨0xff9, leaTableInsn⟩ c ⟨Function.update c.regs 3 w, c.flags⟩ := by
  refine runs_dest (x := .gpr64 .rbx) rfl rfl rfl rfl rfl rfl (by decide) rfl ⟨fun _ => 0, fun _ => 0, ?_⟩
    (.inr rfl) ⟨rfl, rfl⟩ ?_ ?_
  · exact Machine.ChangesOnly.of_update rfl
  · intro y hy
    cases hy
  · intro hid
    exact absurd hid (by decide)

theorem runs_cmpOf {x : ZydisRegister} {d : Fin 16} (hx : x.dwarfRegOf = some d) (hlow : x.isLow = true)
    (c : Cpu) : Instruction.Runs ⟨0x1000, cmpOf x⟩ c
      ⟨c.regs, cmpFlags x.widthBits (x.value (c.regs d)) (5 % 2 ^ x.widthBits)⟩ where
  toSteps := steps_cmpOf hx c
  dest h := by
    rw [show (⟨0x1000, cmpOf x⟩ : Instruction).id = .cmp from rfl] at h
    exact absurd h (by decide)
  moved y e src hm := by
    have h := hm.mnemonic
    rw [show (⟨0x1000, cmpOf x⟩ : Instruction).id = .cmp from rfl] at h
    exact absurd h (by decide)
  listed _ := (RunsOperands.nil.snoc (.none rfl)).snoc (.none rfl)
  low := by
    intro op hin y hkind _
    simp only [cmpOf, List.mem_cons, List.not_mem_nil, or_false] at hin
    rcases hin with rfl | rfl
    · cases hkind
      exact hlow
    · cases hkind

theorem runs_jaInsn (c : Cpu) : Instruction.Runs ⟨0x1003, jaInsn⟩ c c where
  isReturn := rfl
  isTrap _ := rfl
  regs := fun _ _ => rfl
  compared y e imm hcmp := by cases hcmp.mnemonic
  flags _ := .inr (.inr rfl)
  sized op hin y hkind hy := by
    simp only [jaInsn, List.mem_cons, List.not_mem_nil, or_false] at hin
    rcases hin with rfl | rfl
    · cases hkind
    · cases hkind
      exact absurd rfl hy
  marksDest h := by rcases h with h | h <;> cases h
  dest h := absurd h (by decide)
  moved y e src hm := by cases hm.isBranch
  listed h := by cases h.1
  low op hin y hkind hy := by
    simp only [jaInsn, List.mem_cons, List.not_mem_nil, or_false] at hin
    rcases hin with rfl | rfl
    · cases hkind
    · cases hkind
      exact absurd rfl hy

/-- The entry that is loaded is any number of 32 bits. -/
theorem runs_tableLoadInsn (c : Cpu) {v : ℕ} (hv : v < 2 ^ 32) :
    Instruction.Runs ⟨0x1005, tableLoadInsn⟩ c ⟨Function.update c.regs 0 (signExtend 32 v), c.flags⟩ := by
  have hmarks : Instruction.Marks ⟨0x1005, tableLoadInsn⟩ 0 :=
    ⟨⟨.register (.gpr64 .rax), 64, true, false⟩, by simp [tableLoadInsn], rfl⟩
  refine runs_dest (x := .gpr64 .rax) rfl rfl rfl rfl rfl rfl (by decide) rfl ⟨fun _ => 0, fun _ => 0, ?_⟩
    (.inr rfl) ⟨rfl, rfl⟩ ?_ ?_
  · exact changesOnly_update hmarks _ _ _ _
  · intro y hy
    cases hy
  · intro _
    exact ⟨v, hv, rfl⟩

theorem runs_movzxOf (c : Cpu) :
    Instruction.Runs ⟨0x1009, movzxOf (.gpr8 .rax)⟩ c
      ⟨Function.update c.regs 2 ((ZydisRegister.gpr32 .rcx).put (c.regs 2)
        (BitVec.ofNat 64 ((c.regs 0).toNat % 2 ^ 8))), c.flags⟩ := by
  have hmarks : Instruction.Marks ⟨0x1009, movzxOf (.gpr8 .rax)⟩ 2 :=
    ⟨⟨.register (.gpr32 .rcx), 32, true, false⟩, by simp [movzxOf], rfl⟩
  refine runs_dest (x := .gpr32 .rcx) rfl rfl rfl rfl rfl rfl (by decide) rfl ⟨fun _ => 0, fun _ => 0, ?_⟩
    (.inr rfl) ⟨rfl, rfl⟩ ?_ ?_
  · exact changesOnly_update hmarks _ _ _ _
  · intro y hy
    cases hy
    exact fun _ => ⟨rfl, rfl⟩
  · intro _
    exact ⟨_, rfl, rfl⟩

theorem runs_addBaseInsn (c : Cpu) (w : Word) :
    Instruction.Runs ⟨0x1009, addBaseInsn⟩ c ⟨Function.update c.regs 0 w, c.flags⟩ := by
  have hmarks : Instruction.Marks ⟨0x1009, addBaseInsn⟩ 0 :=
    ⟨⟨.register (.gpr64 .rax), 64, true, false⟩, by simp [addBaseInsn], rfl⟩
  refine runs_dest (x := .gpr64 .rax) rfl rfl rfl rfl rfl rfl (by decide) rfl ⟨fun _ => 0, fun _ => 0, ?_⟩
    (.inr rfl) ⟨rfl, rfl⟩ ?_ ?_
  · exact fun q hq => changesOnly_update hmarks _ _ _ _ q fun h => hq h.2
  · intro y hy
    cases hy
    exact fun _ => ⟨rfl, rfl⟩
  · intro hid
    exact absurd hid (by decide)

theorem loadsTable_indexGuarded :
    Instruction.LoadsTable ⟨0x1005, tableLoadInsn⟩ indexGuarded 0 2 ⟨.gpr64 .rbx, .gpr64 .rcx, 4, 0⟩ 0x3000
    where
  mnemonic := rfl
  isBranch := rfl
  ops := ⟨_, _, .gpr64 .rax, rfl, rfl, rfl, rfl, rfl⟩
  index := rfl
  scale := rfl
  base := ⟨.rbx, rfl, rfl⟩

/-- A path up to the load, with three in rcx and the entry `v`. -/
theorem tableRun_entryLoaded {P : StepRules Int64} {v : ℕ} (hv : v < 2 ^ 32)
    (hlea : P.insn ⟨0xff9, leaTableInsn⟩ .entry) (hcmp : P.insn ⟨0x1000, cmpOf (.gpr64 .rcx)⟩ tableBased)
    (hja : P.insn ⟨0x1003, jaInsn⟩ indexCompared)
    (hedge : P.edge ⟨0x1003, jaInsn⟩ .fallThrough
      (transfer (Zydis.ofTable []) ⟨0x1003, jaInsn⟩ indexCompared).2)
    (hload : P.insn ⟨0x1005, tableLoadInsn⟩ indexGuarded) :
    ∃ index : Fin 16 → ℕ → Prop, index 0 3 ∧ TableRun P (Zydis.ofTable []) entryLoaded
      ⟨Function.update (Function.update (fun _ => 3) 3 0x3000) 0 (signExtend 32 v), cmpFlags 64 3 5⟩ index := by
  have hstart : TableRun P (Zydis.ofTable []) .entry ⟨fun _ => 3, cmpFlags 64 0 0⟩ fun _ _ => False :=
    .start (fun r => rfl) rfl
  have htaken : BranchEdge.fallThrough.TakenBy .jnbe (cmpFlags 64 3 5) := by
    intro jump hjump
    cases hjump
    rfl
  have hbased := hstart.step hlea (runs_leaTableInsn _ 0x3000)
  have hcompared := hbased.step hcmp (runs_cmpOf (x := .gpr64 .rcx) rfl rfl _)
  have hguarded := hcompared.branch hja (runs_jaInsn _) rfl htaken hedge
  exact ⟨_, .loaded loadsTable_indexGuarded, hguarded.step hload (runs_tableLoadInsn _ hv)⟩

end Sample

/-- `movzbl %al,%ecx` of an entry that ends in 0xf0 leaves rcx bounded by five, the bound of the index. -/
theorem entryWidened_not_realBounds :
    ∃ c index, TableRun .any (Zydis.ofTable []) Sample.entryWidened c index ∧ c.regs 2 = 0xf0 ∧
      ¬ RealBounds (Zydis.ofTable []) Sample.entryWidened c index := by
  obtain ⟨index, -, hrun⟩ := Sample.tableRun_entryLoaded (P := .any) (v := 0xf0) (by decide) trivial trivial
    trivial trivial trivial
  refine ⟨_, _, hrun.step trivial (Sample.runs_movzxOf _), by decide, fun h => ?_⟩
  have hle : 0xf0 ≤ 5 := h.own 2 rfl rfl
  omega

namespace Sample

/-- An instruction that is no call and no `leave`, writes nothing unseen and nothing in 32 bits, moves no
register, and loads no entry by way of another. -/
theorem keepsBounds_of_plain {z : Zydis} {insn : Instruction} {s : AbsState Int64}
    (hid : insn.id ≠ .call ∧ insn.id ≠ .leave) (hunseen : ∀ r, ¬ insn.WritesUnseen s r)
    (hlow : ∀ x imm, insn.Compares x imm → x.dwarfRegOf ≠ none → x.isLow = true)
    (h32 : ∀ d, endsIn32 d insn.insn.operands = false) (hsrc : ∀ x src, insn.Move x src → src.reg? = none)
    (hidx : ∀ r idx mem value, insn.LoadsTable s r idx mem value → (s.tbl idx).indexed = false) :
    insn.KeepsBounds z s where
  answers := ⟨fun hcall => absurd hcall hid.1, fun _ g _ _ => hunseen g.reg, hlow⟩
  width _ d h := by
    rw [h32 d] at h
    cases h
  unseen r h := absurd h (hunseen r)
  leave h := absurd h hid.2
  source x src e hm _ he _ := by
    rw [hsrc x src hm] at he
    cases he
  index r idx mem value hload h := by
    rw [hidx r idx mem value hload] at h
    cases h

theorem keepsBounds_leaTableInsn :
    Instruction.KeepsBounds (Zydis.ofTable []) ⟨0xff9, leaTableInsn⟩ (AbsState.entry : AbsState Int64) := by
  refine keepsBounds_of_plain (by decide) (fun r => id) (fun x imm h => ?_) (by decide) (fun x src h => ?_)
    fun r idx mem value h => ?_
  · cases h.mnemonic
  · exact absurd h.mnemonic (by decide)
  · cases h.mnemonic

theorem keepsBounds_cmpOf (s : AbsState Int64) :
    Instruction.KeepsBounds (Zydis.ofTable []) ⟨0x1000, cmpOf (.gpr64 .rcx)⟩ s := by
  refine keepsBounds_of_plain (by decide) (fun r => id) (fun x imm h _ => ?_) (by decide) (fun x src h => ?_)
    fun r idx mem value h => ?_
  · obtain ⟨rfl, -⟩ := (compares_cmpOf _).unique h
    rfl
  · exact absurd h.mnemonic (by decide)
  · cases h.mnemonic

theorem keepsBounds_jaInsn (s : AbsState Int64) :
    Instruction.KeepsBounds (Zydis.ofTable []) ⟨0x1003, jaInsn⟩ s := by
  refine keepsBounds_of_plain (by decide) (fun r => jcc_jaInsn.writes r) (fun x imm h _ => ?_) (by decide)
    (fun x src h => ?_) fun r idx mem value h => ?_
  · cases h.mnemonic
  · cases h.isBranch
  · cases h.mnemonic

theorem keepsBounds_tableLoadInsn :
    Instruction.KeepsBounds (Zydis.ofTable []) ⟨0x1005, tableLoadInsn⟩ indexGuarded := by
  refine keepsBounds_of_plain (by decide) (fun r => id) (fun x imm h _ => ?_) (by decide) (fun x src h => ?_)
    fun r idx mem value h => ?_
  · cases h.mnemonic
  · obtain ⟨dst, hops, -⟩ := h.ops
    cases hops
    rfl
  · obtain ⟨dst, src, x, hops, -, -, -, hmem⟩ := h.ops
    cases hops
    cases hmem
    cases h.index
    rfl

theorem keepsBounds_addBaseInsn (s : AbsState Int64) :
    Instruction.KeepsBounds (Zydis.ofTable []) ⟨0x1009, addBaseInsn⟩ s := by
  refine keepsBounds_of_plain (by decide) (fun r => id) (fun x imm h _ => ?_) (by decide) (fun x src h => ?_)
    fun r idx mem value h => ?_
  · cases h.mnemonic
  · exact absurd h.mnemonic (by decide)
  · cases h.mnemonic

theorem resolves_entryLoaded :
    Instruction.Resolves ⟨0x1009, addBaseInsn⟩ entryLoaded 0 3 (.jumpTarget 0x3000 2 5) :=
  resolves_addBaseInsn rfl rfl

end Sample

/-- The whole dispatch with three in rcx: its table has six entries. -/
theorem dispatched_realBounds :
    ∃ c index, index 0 3 ∧ RealBounds (Zydis.ofTable []) Sample.dispatched c index ∧
      (transfer (Zydis.ofTable []) ⟨0x100c, Sample.jumpInsn⟩ Sample.dispatched).1.jumpTable =
        some (0x3000, 6) := by
  have hedge : BranchEdge.fallThrough.KeepsIndex ⟨0x1003, Sample.jaInsn⟩
      (transfer (Zydis.ofTable []) ⟨0x1003, Sample.jaInsn⟩ Sample.indexCompared).2 := by
    rintro r b ⟨g, hg, rfl, -⟩ hidx
    cases hg
    cases hidx
  obtain ⟨index, hindex, hrun⟩ := Sample.tableRun_entryLoaded (P := .keepBounds (Zydis.ofTable []))
    (v := 0x40) (by decide) Sample.keepsBounds_leaTableInsn (Sample.keepsBounds_cmpOf _)
    (Sample.keepsBounds_jaInsn _) hedge Sample.keepsBounds_tableLoadInsn
  have hdispatched := hrun.step (Sample.keepsBounds_addBaseInsn _) (Sample.runs_addBaseInsn _ 0x3040)
  exact ⟨_, _, .resolved Sample.resolves_entryLoaded (.inl hindex), tableRun_realBounds hdispatched, rfl⟩

end UnwindCheck
