import UnwindCheck.Checker.Walk
import UnwindCheck.Insn.Monotone

/-! One iteration of `Drain` in a state and in a higher one: under which conditions it propagates
to the same successors, at least what it propagated to them. -/
namespace UnwindCheck
variable {δ : Type} [Offset δ]

/-- Both states know the CFA register of the row at the next address before and after the
instruction, or the higher one does not prune the edge to it. -/
def SteadyFallThrough (cfi : CFI δ) (here : Option (Fin cfi.rows.length)) (next : Word)
    (before before' : Fin 16 → AbsVal δ) (after after' : AbsState δ) : Prop :=
  ∀ i, cfi.rowIndexAt next = some i → some i ≠ here → (cfi.rows.get i).cfa.kind = .regOffset →
    ∀ h : (cfi.rows.get i).cfa.reg < 16, ∀ was now : δ,
      before' ⟨_, h⟩ = .cfaRel was → after'.gpr ⟨_, h⟩ = .cfaRel now →
        was + (cfi.rows.get i).cfa.offset ≠ Offset.ofInt 0 →
          now + (cfi.rows.get i).cfa.offset ≠ Offset.ofInt 0 →
            before ⟨_, h⟩ ≠ .top ∧ after.gpr ⟨_, h⟩ ≠ .top

theorem fallThroughIsReal_mono {cfi : CFI δ} {here : Option (Fin cfi.rows.length)} {next : Word}
    {before before' : Fin 16 → AbsVal δ} {after after' : AbsState δ}
    (hb : ∀ r, before r ≤ before' r) (ha : after ≤ after')
    (hst : SteadyFallThrough cfi here next before before' after after') {afterCall : Bool}
    (h : fallThroughIsReal cfi here next before after afterCall = some true) :
    fallThroughIsReal cfi here next before' after' afterCall = some true := by
  have hshape : ∀ (c : Bool) (f : Fin cfi.rows.length → Bool) (x y : Bool), (x = true → y = true) →
      (if c then here.map fun j => if f j then x else false else some x) = some true →
        (if c then here.map fun j => if f j then y else false else some y) = some true := by
    intro c f x y hxy hx
    cases here <;> cases c <;> simp_all
  unfold fallThroughIsReal at h ⊢
  cases hi : cfi.rowIndexAt next with
  | none => rfl
  | some i =>
    simp only [hi] at h ⊢
    by_cases hsame : some i = here
    · rw [if_pos hsame]
    · rw [if_neg hsame] at h ⊢
      refine hshape _ _ _ _ ?_ h
      by_cases hcfa : (cfi.rows.get i).cfa.kind = .regOffset ∧ (cfi.rows.get i).cfa.reg < 16
      · rw [dif_pos hcfa, dif_pos hcfa]
        have hwas := hb ⟨_, hcfa.2⟩
        have hnow := (AbsState.le_iff.mp ha).1 ⟨_, hcfa.2⟩
        have hboth := hst i hi hsame hcfa.1 hcfa.2
        intro hagrees
        split
        · rename_i was now hwas' hnow'
          by_contra hno
          rw [hwas', hnow'] at hno
          simp only [Bool.or_eq_true, not_or, cfaSatisfiedBy, decide_eq_true_eq] at hno
          obtain ⟨hknown, hknown'⟩ := hboth was now hwas' hnow' hno.2 hno.1
          -- what the lower state knows is what the higher one knows
          have hwas₀ : before ⟨_, hcfa.2⟩ = .cfaRel was := by
            rw [hwas', AbsVal.le_def] at hwas
            exact (hwas.resolve_left hknown).resolve_left (by simp)
          have hnow₀ : after.gpr ⟨_, hcfa.2⟩ = .cfaRel now := by
            rw [hnow', AbsVal.le_def] at hnow
            exact (hnow.resolve_left hknown').resolve_left (by simp)
          simp only [hwas₀, hnow₀, Bool.or_eq_true, cfaSatisfiedBy, decide_eq_true_eq] at hagrees
          exact hagrees.elim hno.1 hno.2
        · rfl
      · simp only [dif_neg hcfa, implies_true]

/-- The table half that a jump through a register is resolved with. -/
def jumpedThrough (insn : Instruction) (s : AbsState δ) : TableVal :=
  match (insn.op? 0).map Operand.kind with
  | some (.register r) => s.table r.dwarfRegOf
  | _ => .none

theorem jumpedThrough_mono {s t : AbsState δ} (h : s ≤ t) (insn : Instruction) :
    jumpedThrough insn s ≤ jumpedThrough insn t := by
  unfold jumpedThrough
  split
  · exact AbsState.table_mono h _
  · exact le_rfl

/-- A jump's table in two states, one above the other, is the same one, and no shorter above. -/
theorem jumpTarget_mono {s t : AbsState δ} (h : s ≤ t) {insn : Instruction} {addr addr' : Word} {i i' : ℕ}
    (hs : (jumpedThrough insn s).kind = .jumpTarget addr i)
    (ht : (jumpedThrough insn t).kind = .jumpTarget addr' i') : addr = addr' ∧
      (jumpedThrough insn s).tableBound ≤ (jumpedThrough insn t).tableBound := by
  obtain ⟨hkind, -, hbound⟩ := TableVal.le_iff.mp (jumpedThrough_mono h insn)
  rw [hs, ht, TableVal.Kind.le_def] at hkind
  simp only [reduceCtorEq, TableVal.Kind.jumpTarget.injEq, false_or] at hkind
  exact ⟨hkind.1, hbound⟩

section Table
variable {z : Zydis} {insn : Instruction} {s : AbsState δ} {addr : Word}

theorem branchOutcome_table (z : Zydis) (insn : Instruction) (s : AbsState δ) :
    (branchOutcome z insn s).jumpTable = none ∧ (branchOutcome z insn s).unboundedJumpTarget = none ∨
    ∃ addr i, (jumpedThrough insn s).kind = .jumpTarget addr i ∧
      ((branchOutcome z insn s).jumpTable = some (addr, (jumpedThrough insn s).tableBound + 1) ∧
          (branchOutcome z insn s).unboundedJumpTarget = none ∨
        (branchOutcome z insn s).jumpTable = none ∧
          (branchOutcome z insn s).unboundedJumpTarget = some addr) := by
  unfold branchOutcome jumpedThrough
  cases insn.op? 0 with
  | none => exact Or.inl ⟨rfl, rfl⟩
  | some op =>
    cases hk : op.kind with
    | immediate imm =>
      left
      simp only [hk]
      split <;> exact ⟨rfl, rfl⟩
    | register r =>
      simp only [hk, Option.map_some]
      split
      · rename_i addr i hkind
        right
        refine ⟨addr, i, hkind, ?_⟩
        split
        · exact Or.inl ⟨rfl, rfl⟩
        · exact Or.inr ⟨rfl, rfl⟩
      · exact Or.inl ⟨rfl, rfl⟩
    | memory mem | pointer => simp [hk]

theorem transfer_table (z : Zydis) (insn : Instruction) (s : AbsState δ) :
    (transfer z insn s).1.jumpTable = none ∧ (transfer z insn s).1.unboundedJumpTarget = none ∨
    ∃ addr i, (jumpedThrough insn s).kind = .jumpTarget addr i ∧
      ((transfer z insn s).1.jumpTable = some (addr, (jumpedThrough insn s).tableBound + 1) ∧
          (transfer z insn s).1.unboundedJumpTarget = none ∨
        (transfer z insn s).1.jumpTable = none ∧
          (transfer z insn s).1.unboundedJumpTarget = some addr) := by
  have hdrop : jumpedThrough insn (dropStaleCmp insn s) = jumpedThrough insn s := by
    unfold jumpedThrough
    split
    · rename_i r _
      cases r.dwarfRegOf <;> simp [AbsState.table]
    · rfl
  unfold transfer
  dsimp only
  split_ifs
  · exact Or.inl ⟨rfl, rfl⟩
  · rw [← hdrop]
    exact branchOutcome_table z insn (dropStaleCmp insn s)
  · exact Or.inl ⟨rfl, rfl⟩
  · left
    cases hn : transferNamed z insn (dropStaleCmp insn s) with
    | none => exact ⟨rfl, rfl⟩
    | some u => exact ⟨(transferNamed_plain hn).jumpTable, (transferNamed_plain hn).unboundedJumpTarget⟩

end Table

namespace Env
variable {env : Env δ}

omit [Offset δ] in
/-- A table that resolves has the target of each of its entries, and no other. -/
theorem mem_resolveJumpTable {addr target : Word} {entries : ℕ}
    (hne : env.resolveJumpTable addr entries ≠ []) : target ∈ env.resolveJumpTable addr entries ↔
      ∃ i < entries, env.resolveTableEntry addr i = some target := by
  unfold resolveJumpTable at hne ⊢
  split_ifs at hne ⊢
  · exact absurd rfl hne
  · exact absurd rfl hne
  · cases hmap : (List.range entries).mapM (env.resolveTableEntry addr) with
    | none => simp [hmap] at hne
    | some targets =>
      have hall := exists_mapM_iff (p := (· ∈ targets)).mp ⟨targets, hmap, fun _ h => h⟩
      rw [Option.getD_some]
      constructor
      · intro ht
        obtain ⟨rs, hrs, hfrom⟩ := exists_mapM_iff
          (p := fun x => ∃ i < entries, env.resolveTableEntry addr i = some x).mpr fun i hi => by
            obtain ⟨r, hr, -⟩ := hall i hi
            exact ⟨r, hr, i, List.mem_range.mp hi, hr⟩
        rw [hmap, Option.some.injEq] at hrs
        exact hfrom target (hrs ▸ ht)
      · rintro ⟨i, hi, hentry⟩
        obtain ⟨r, hr, hmem⟩ := hall i (List.mem_range.mpr hi)
        rw [hentry, Option.some.injEq] at hr
        exact hr ▸ hmem

omit [Offset δ] in
/-- More entries of a table, as long as they resolve, are more targets. -/
theorem resolveJumpTable_mono {addr : Word} {entries more : ℕ} (h : entries ≤ more)
    (hne : env.resolveJumpTable addr more ≠ []) {target : Word}
    (ht : target ∈ env.resolveJumpTable addr entries) : target ∈ env.resolveJumpTable addr more := by
  obtain ⟨i, hi, hentry⟩ := (mem_resolveJumpTable (List.ne_nil_of_mem ht)).mp ht
  exact (mem_resolveJumpTable hne).mpr ⟨i, by omega, hentry⟩

/-- A guess goes on while the rows it lands on accept the state. -/
theorem probeFrom_mono {addr jmpPc : Word} {s t : AbsState δ} {fuel index : ℕ}
    (h : ∀ target ∈ env.probeFrom addr jmpPc s fuel index, env.probeAccepts jmpPc target t = true)
    {target : Word} (ht : target ∈ env.probeFrom addr jmpPc s fuel index) :
    target ∈ env.probeFrom addr jmpPc t fuel index := by
  induction fuel generalizing index with
  | zero => cases ht
  | succ fuel ih =>
    rw [probeFrom] at h ht ⊢
    cases hentry : env.resolveTableEntry addr index with
    | none => simp [hentry] at ht
    | some next =>
      simp only [hentry] at h ht ⊢
      split at ht
      · rename_i hs
        rw [if_pos hs] at h
        have hnext := h next List.mem_cons_self
        rw [if_pos hnext]
        rcases List.mem_cons.mp ht with rfl | ht
        · exact List.mem_cons_self
        · exact List.mem_cons_of_mem _ (ih (fun x hx => h x (List.mem_cons_of_mem _ hx)) ht)
      · cases ht

/-- Serving `pc` in `t` makes every call that serving it in `s` makes, with at least its state. -/
def Reproduces (env : Env δ) (pc : Word) (s t : AbsState δ) : Prop :=
  ∀ call ∈ env.callsFrom pc s, ∃ call' ∈ env.callsFrom pc t, call'.1 = call.1 ∧ call.2 ≤ call'.2

/-- A table that is resolved in the lower state is resolved in the higher one, and one that is
guessed at is guessed at there, from entries that accept the higher state as well. -/
def SteadyTable (env : Env δ) (insn : Instruction) (s t : AbsState δ) : Prop :=
  env.tableTargets insn s ≠ [] →
    ((transfer env.z insn s).1.jumpTable.isSome = true →
      (transfer env.z insn t).1.jumpTable.isSome = true ∧ env.tableTargets insn t ≠ []) ∧
    ((transfer env.z insn s).1.jumpTable = none →
      (transfer env.z insn t).1.unboundedJumpTarget.isSome = true ∧
        ∀ target ∈ env.tableTargets insn s,
          env.probeAccepts insn.address target (transfer env.z insn t).2 = true)

/-- The condition on two states an address is served in, beside that one is above the other. -/
def Steady (env : Env δ) (pc : Word) (s t : AbsState δ) : Prop :=
  ∀ insn, env.decodeAt pc = some insn →
    insn.Steady env.z s t ∧
    SteadyFallThrough env.cfi (env.cfi.rowIndexAt insn.address) insn.next s.gpr t.gpr
      (transfer env.z insn s).2 (transfer env.z insn t).2 ∧
    env.SteadyTable insn s t

section Edges
variable {insn : Instruction} {s t : AbsState δ} (h : s ≤ t)
include h

theorem edgeState_mono (hst : insn.Steady env.z s t) (kind : EdgeKind) :
    env.edgeState insn kind s ≤ env.edgeState insn kind t := by
  have hafter := transfer_mono h hst
  cases kind with
  | landingPad | table => exact hafter
  | fallThrough => exact transferEdge_mono hafter insn .fallThrough
  | taken => exact transferEdge_mono hafter insn .taken

theorem tableTargets_mono (hst : env.SteadyTable insn s t) {target : Word}
    (ht : target ∈ env.tableTargets insn s) : target ∈ env.tableTargets insn t := by
  obtain ⟨hbounded, hguessed⟩ := hst (List.ne_nil_of_mem ht)
  rcases transfer_table env.z insn s with
    ⟨hnone, hnone'⟩ | ⟨addr, i, hkind, ⟨hjump, -⟩ | ⟨hjump, hguess⟩⟩
  · simp [tableTargets, hnone, hnone'] at ht
  · obtain ⟨hsome, hne⟩ := hbounded (by simp [hjump])
    rcases transfer_table env.z insn t with
      ⟨hnone, -⟩ | ⟨addr', i', hkind', ⟨hjump', -⟩ | ⟨hnone, -⟩⟩
    · simp [hnone] at hsome
    · obtain ⟨rfl, hbound⟩ := jumpTarget_mono h hkind hkind'
      simp only [tableTargets, hjump] at ht
      simp only [tableTargets, hjump'] at hne ⊢
      exact resolveJumpTable_mono (by omega) hne ht
    · simp [hnone] at hsome
  · obtain ⟨hsome, haccepts⟩ := hguessed hjump
    rcases transfer_table env.z insn t with
      ⟨-, hnone⟩ | ⟨addr', i', hkind', ⟨-, hnone⟩ | ⟨hjump', hguess'⟩⟩
    · simp [hnone] at hsome
    · simp [hnone] at hsome
    · obtain ⟨rfl, -⟩ := jumpTarget_mono h hkind hkind'
      simp only [tableTargets, hjump, hguess] at ht haccepts
      simp only [tableTargets, hjump', hguess']
      split_ifs at ht haccepts ⊢ with hg
      · exact probeFrom_mono haccepts ht
      · cases ht

theorem edges_mono (hsteady : insn.Steady env.z s t)
    (hfall : SteadyFallThrough env.cfi (env.cfi.rowIndexAt insn.address) insn.next s.gpr t.gpr
      (transfer env.z insn s).2 (transfer env.z insn t).2)
    (htable : env.SteadyTable insn s t) {e : EdgeKind × Word} (he : e ∈ env.edges insn s) :
    e ∈ env.edges insn t := by
  obtain ⟨hcall, hfalls, htarget⟩ := transfer_control env.z insn s t
  have hpads : env.padEdges insn s = env.padEdges insn t := by
    unfold padEdges
    rw [hcall]
  have htaken : env.takenEdges insn s = env.takenEdges insn t := by
    unfold takenEdges
    rw [htarget]
  unfold edges at he ⊢
  rw [hpads, htaken] at he
  simp only [List.mem_append] at he ⊢
  rcases he with ((he | he) | he) | he
  · exact Or.inl (Or.inl (Or.inl he))
  · left; left; right
    unfold fallThroughEdges at he ⊢
    dsimp only at he ⊢
    rw [← hcall, ← hfalls]
    split_ifs at he with hreal
    · rw [if_pos ⟨hreal.1, hreal.2.1, fallThroughIsReal_mono (AbsState.le_iff.mp h).1
        (transfer_mono h hsteady) hfall hreal.2.2⟩]
      exact he
    · cases he
  · exact Or.inl (Or.inr he)
  · right
    unfold tableEdges at he ⊢
    obtain ⟨target, hmem, rfl⟩ := List.mem_map.mp he
    obtain ⟨hmem, hcovers⟩ := List.mem_filter.mp hmem
    exact List.mem_map.mpr ⟨target, List.mem_filter.mpr ⟨tableTargets_mono h htable hmem, hcovers⟩, rfl⟩

/-- What is served in a higher state propagates no less. -/
theorem Steady.reproduces {pc : Word} (hst : env.Steady pc s t) : env.Reproduces pc s t := by
  intro call hcall
  unfold callsFrom at hcall ⊢
  cases hd : env.decodeAt pc with
  | none => simp [hd] at hcall
  | some insn =>
    simp only [hd] at hcall ⊢
    obtain ⟨hsteady, hfall, htable⟩ := hst insn hd
    obtain ⟨e, he, rfl⟩ := List.mem_map.mp hcall
    have he' := edges_mono h hsteady hfall htable he
    exact ⟨_, List.mem_map.mpr ⟨e, he', rfl⟩, rfl, edgeState_mono h hsteady e.1⟩

end Edges

end Env

end UnwindCheck
