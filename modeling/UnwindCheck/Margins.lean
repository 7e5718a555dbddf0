import UnwindCheck.Arithmetic
import UnwindCheck.Checker.Paths
import UnwindCheck.EhFrame.Lazy
import UnwindCheck.EhFrame.Near
import UnwindCheck.Insn.Near

/-! Runs that keep clear of the ends of the range. From rows that stay near the CFA, each iteration of the
walk adds at most 2^31 and the iterations are capped, so every step of both checkers has room. -/
namespace UnwindCheck
open Lib

/-- What is decoded has fields of 32 bits. -/
def Zydis.Narrow (z : Zydis) : Prop :=
  ∀ bytes address insn, z.decode bytes address = some insn → insn.Narrow

section Seeds
variable {B : ℤ} {s : State}

theorem AbsState.Near.init : (AbsState.init : State).Near B := by
  refine .mk (fun r => trivial) fun k => ?_
  unfold AbsState.slot
  simp [AbsState.init, AbsVal.Near]

theorem AbsState.Near.reg (h : s.Near B) (r : ℕ) : (s.reg r).Near B := by
  unfold AbsState.reg
  split
  · exact h.gpr _
  · trivial

theorem AbsState.Near.putGpr (h : s.Near B) (r : ℕ) {v : AbsVal Int64} (hv : v.Near B) :
    (s.putGpr r v).Near B := by
  unfold AbsState.putGpr
  split
  · refine .mk (fun q => ?_) fun k => h.slot k
    show (Function.update s.gpr _ v q).Near B
    rw [Function.update_apply]
    split
    · exact hv
    · exact h.gpr q
  · exact h

theorem AbsState.Near.seedReg {row : CFIRow Int64} (hrow : row.Near B) (atFunctionEntry : Bool)
    (h : s.Near B) (r : Fin 17) : (AbsState.seedReg row atFunctionEntry s r).Near B := by
  unfold AbsState.seedReg
  split
  · split
    · exact h
    · exact h.putGpr _ trivial
  · exact h
  · refine .mk (fun q => h.gpr q) fun k => ?_
    unfold AbsState.slot
    rw [Std.ExtTreeMap.getElem?_insert]
    split
    · trivial
    · exact h.slot k
  · exact h.putGpr _ trivial
  · rename_i offset hr
    exact h.putGpr _ (hrow.regs r offset hr)
  · exact h.putGpr _ trivial
  · exact h.putGpr _ trivial
  · exact h.putGpr _ trivial

theorem AbsState.Near.seedFromRow {row : CFIRow Int64} (hrow : row.Near B) (hB : B < 2 ^ 63)
    (atFunctionEntry : Bool) : (AbsState.seedFromRow row atFunctionEntry).Near B := by
  have hfold : ∀ (rs : List (Fin 17)) (s : State), s.Near B →
      (rs.foldl (AbsState.seedReg row atFunctionEntry) s).Near B := by
    intro rs
    induction rs with
    | nil => exact fun s h => h
    | cons r rs ih => exact fun s h => ih _ (h.seedReg hrow atFunctionEntry r)
  have hstart : AbsState.Near B { (AbsState.init : State) with gpr := fun r => .origReg r } := by
    exact .mk (fun r => trivial) fun k => AbsState.Near.init.slot k
  have hrules := (hfold (List.finRange 17) _ hstart).putGpr kDWARFRsp (v := .top) trivial
  have hneg : (-row.cfa.offset).toInt = -row.cfa.offset.toInt := by
    have hlo := hrow.cfa.1
    have hhi := hrow.cfa.2
    rw [Int64.toInt_neg, representable_iff_bmod.mp ⟨by omega, by omega⟩]
  have hcfa : (AbsVal.cfaRel (-row.cfa.offset)).Near B := by
    have hlo := hrow.cfa.1
    have hhi := hrow.cfa.2
    show -B ≤ (-row.cfa.offset).toInt ∧ (-row.cfa.offset).toInt ≤ B
    rw [hneg]
    constructor
    · omega
    · omega
  unfold AbsState.seedFromRow
  dsimp only
  split
  · exact hrules.putGpr _ hcfa
  · exact hrules

end Seeds

section Walks
variable {env : Env Int64} {B : ℤ}

/-- Every state a visit propagates has moved by at most 2^31. -/
theorem Env.near_callsFrom (hdecode : env.z.Narrow) (hB : B + 2 ^ 31 < 2 ^ 63) {pc : Word} {state : State}
    (h : state.Near B) {call : Word × State} (hcall : call ∈ env.callsFrom pc state) :
    call.2.Near (B + 2 ^ 31) := by
  unfold Env.callsFrom at hcall
  cases hd : env.decodeAt pc with
  | none =>
    rw [hd] at hcall
    cases hcall
  | some insn =>
    rw [hd] at hcall
    obtain ⟨e, -, rfl⟩ := List.mem_map.mp hcall
    have hafter := h.transfer env.z hB (hdecode _ _ _ hd)
    unfold Env.edgeState
    dsimp only
    split
    · exact hafter.transferEdge .fallThrough
    · exact hafter.transferEdge .taken
    · exact hafter
    · exact hafter

/-- An address that is on the worklist without a state would be taken up in the initial one. -/
theorem Walk.near_popped {w : Walk Int64} (h : w.Every fun _ s => s.Near B) {visit : Word × State}
    (hp : w.popped = some visit) : visit.2.Near B := by
  unfold Walk.popped at hp
  obtain ⟨pc, -, rfl⟩ := Option.map_eq_some_iff.mp hp
  dsimp only
  cases hst : w.inStates[pc]? with
  | none => exact AbsState.Near.init
  | some st => exact h pc st hst

theorem Walk.near_visit (hdecode : env.z.Narrow) (hB : B + 2 ^ 31 < 2 ^ 63) {w : Walk Int64}
    (h : w.Every fun _ s => s.Near B) {visit : Word × State} (hp : w.popped = some visit) :
    (w.visit env visit.1 visit.2).Every fun _ s => s.Near (B + 2 ^ 31) := by
  rw [Walk.visit_eq]
  refine Walk.Every.propagateAll (fun _ _ _ hs ht => ht.join hs) ?_ ?_
  · intro pc st hst
    rw [Walk.begin_inStates] at hst
    exact (h pc st hst).mono (by omega)
  · exact fun call hcall => env.near_callsFrom hdecode hB (Walk.near_popped h hp) hcall

/-- A loop of `fuel` iterations ends, and visits only states, within 2^31 for each iteration of where it
started. -/
theorem Walk.near_drainFor (hdecode : env.z.Narrow) {fuel : ℕ} {w : Walk Int64}
    (h : w.Every fun _ s => s.Near B) (hB : B + 2 ^ 31 * fuel < 2 ^ 63) :
    ((w.drainFor env fuel).Every fun _ s => s.Near (B + 2 ^ 31 * fuel)) ∧
      ∀ visit ∈ w.popsFor env fuel, visit.2.Near (B + 2 ^ 31 * fuel) := by
  induction fuel generalizing B w with
  | zero =>
    have hw : w.Every fun _ s => s.Near (B + 2 ^ 31 * (0 : ℕ)) :=
      fun pc st hst => (h pc st hst).mono (by omega)
    refine ⟨?_, fun visit hv => by cases hv⟩
    rw [Walk.drainFor]
    split
    · exact hw
    · exact hw
  | succ fuel ih =>
    rw [Walk.drainFor, Walk.popsFor]
    cases hp : w.popped with
    | none => exact ⟨fun pc st hst => (h pc st hst).mono (by omega), fun visit hv => by cases hv⟩
    | some v =>
      have hvisit := Walk.near_visit hdecode (by push_cast at hB; omega) h hp
      obtain ⟨hend, hrest⟩ := ih hvisit (by push_cast at hB; omega)
      have hsum : B + 2 ^ 31 + 2 ^ 31 * (fuel : ℤ) = B + 2 ^ 31 * (fuel + 1 : ℕ) := by
        push_cast
        ring
      rw [hsum] at hend hrest
      refine ⟨hend, fun visit hv => ?_⟩
      rcases List.mem_cons.mp hv with rfl | hv
      · exact (Walk.near_popped h hp).mono (by omega)
      · exact hrest visit hv

theorem Walk.near_drain (hdecode : env.z.Narrow) {w : Walk Int64} (h : w.Every fun _ s => s.Near B)
    (hB : B + 2 ^ 31 * env.options.maxIterations < 2 ^ 63) :
    ((w.drain env).Every fun _ s => s.Near (B + 2 ^ 31 * env.options.maxIterations)) ∧
      ∀ visit ∈ w.pops env, visit.2.Near (B + 2 ^ 31 * env.options.maxIterations) := by
  have hle : env.options.maxIterations - w.iterations ≤ env.options.maxIterations := Nat.sub_le _ _
  have hfuel : B + 2 ^ 31 * (env.options.maxIterations - w.iterations : ℕ) < 2 ^ 63 := by omega
  obtain ⟨hend, hpops⟩ := Walk.near_drainFor hdecode h hfuel
  constructor
  · exact fun pc st hst => (hend pc st hst).mono (by omega)
  · exact fun visit hv => (hpops visit hv).mono (by omega)

end Walks

/-- Rows near the CFA and fields of 32 bits, with room for the iterations that are allowed. -/
structure Ordinary (B : ℕ) (options : FDECheckerOptions Int64) (cfi : CFI Int64) : Prop where
  rows : ∀ row ∈ cfi.rows, row.Near B
  indexed : ∀ e ∈ options.allCfis, ∀ row ∈ e.2.rows, row.Near B
  disasm : options.disasm.Narrow
  room : 2 * B + 2 ^ 32 * (options.maxIterations + 2) ≤ 2 ^ 63

/-- How far a run can get from the CFA in the iterations allowed, before the pads and after. -/
def reach (B : ℕ) (options : FDECheckerOptions Int64) : ℤ := B + 2 ^ 32 * options.maxIterations

section Settled
variable {env : Env Int64} {B : ℕ} (h : Ordinary B env.options env.cfi)
include h

theorem Env.near_unreachedPads {w : Walk Int64} {call : Word × State} (hcall : call ∈ env.unreachedPads w) :
    call.2.Near B := by
  have hroom := h.room
  obtain ⟨lp, -, hlp⟩ := List.mem_filterMap.mp hcall
  split_ifs at hlp
  obtain ⟨row, hat, rfl⟩ := Option.map_eq_some_iff.mp hlp
  have hnear := h.rows row (env.cfi.mem_rows_of_rowAt hat)
  exact .seedFromRow hnear (by omega) false

/-- Everything a run visits and settles on stays within reach. -/
theorem Env.near_settle {row : CFIRow Int64} (hrow : row ∈ env.cfi.rows) :
    ((env.settle row).Every fun _ s => s.Near (reach B env.options)) ∧
      ∀ visit ∈ env.runPops row, visit.2.Near (reach B env.options) := by
  have hroom := h.room
  have hseed : (Walk.init.propagate (env.cfi.pcBegin, AbsState.seedFromRow row row.isCanonicalEntry)).Every
      fun _ s => AbsState.Near B s := by
    refine Walk.Every.propagate (fun _ _ _ hs ht => ht.join hs) ?_ ?_
    · intro pc st hst
      simp [Walk.init] at hst
    · exact AbsState.Near.seedFromRow (h.rows row hrow) (by omega) _
  obtain ⟨hfirst, hpops⟩ := Walk.near_drain h.disasm hseed (by omega)
  have hfirst : (env.firstWalk row).Every fun _ s => s.Near (B + 2 ^ 31 * env.options.maxIterations) :=
    hfirst
  have hpads : ((env.firstWalk row).propagateAll (env.unreachedPads (env.firstWalk row))).Every
      fun _ s => s.Near (B + 2 ^ 31 * env.options.maxIterations) := by
    refine Walk.Every.propagateAll (fun _ _ _ hs ht => ht.join hs) hfirst fun call hcall => ?_
    exact (Env.near_unreachedPads h hcall).mono (by omega)
  obtain ⟨hsecond, hpops'⟩ := Walk.near_drain h.disasm hpads (by omega)
  -- each of the two loops takes half of the reach
  have hsum : (B : ℤ) + 2 ^ 31 * env.options.maxIterations + 2 ^ 31 * env.options.maxIterations =
      reach B env.options := by
    unfold reach
    ring
  rw [hsum] at hsecond hpops'
  have hle : (B : ℤ) + 2 ^ 31 * env.options.maxIterations ≤ reach B env.options := by
    unfold reach
    omega
  constructor
  · intro pc st hst
    unfold Env.settle Env.seedUnreachedLandingPads at hst
    dsimp only at hst
    split_ifs at hst
    · exact (hfirst pc st hst).mono hle
    · exact hsecond pc st hst
  · intro visit hv
    unfold Env.runPops at hv
    rcases List.mem_append.mp hv with hv | hv
    · exact (hpops visit hv).mono hle
    · dsimp only at hv
      split_ifs at hv
      · cases hv
      · exact hpops' visit hv

end Settled

namespace SignedStep
variable {z : Zydis} {B D : ℤ} {s : State} {row : CFIRow Int64}

theorem seedFromRow_fits (hrow : row.Near B) (hB : B < 2 ^ 63) (atFunctionEntry : Bool) :
    (seedFromRow row atFunctionEntry).Fits z := by
  intro _ _
  have hlo := hrow.cfa.1
  omega

theorem cfaSatisfiedBy_fits (hrow : row.Near B) {v : AbsVal Int64} (hv : v.Near D) (hBD : D + B < 2 ^ 63) :
    (cfaSatisfiedBy row.cfa v).Fits z := by
  intro delta hdelta
  rw [hdelta] at hv
  obtain ⟨hlo, hhi⟩ := hv
  obtain ⟨hlo', hhi'⟩ := hrow.cfa
  constructor
  · omega
  · omega

theorem checkCFA_fits (hrow : row.Near B) (hs : s.Near D) (hBD : D + B < 2 ^ 63) (rc : RowChecker) :
    (checkCFA rc row.cfa s).Fits z := by
  have hfits : (cfaSatisfiedBy row.cfa (s.reg row.cfa.reg)).Fits z :=
    cfaSatisfiedBy_fits hrow (hs.reg row.cfa.reg) hBD
  exact fun _ delta hdelta => hfits delta hdelta

theorem compareSteps_fit (hrow : row.Near B) (hs : s.Near D) (hBD : D + B < 2 ^ 63) :
    ∀ step ∈ Light.compareSteps row.cfa s, step.Fits z := by
  intro step hstep
  unfold Light.compareSteps at hstep
  split_ifs at hstep
  · obtain rfl := List.mem_singleton.mp hstep
    exact cfaSatisfiedBy_fits hrow (hs.reg _) hBD
  · cases hstep

end SignedStep

namespace Ordinary
variable {B : ℕ}

section Rows
variable {options : FDECheckerOptions Int64} {cfi : CFI Int64} (h : Ordinary B options cfi)
include h

/-- The rows of other FDEs come from the index. -/
theorem near_of_cfiContaining {pc target : Word} {targetCfi : CFI Int64} {row : CFIRow Int64}
    (hcfi : cfiContaining options.allCfis pc = some targetCfi) (hrow : targetCfi.rowAt target = some row) :
    row.Near B := by
  unfold cfiContaining at hcfi
  dsimp only at hcfi
  split_ifs at hcfi
  split at hcfi
  · rename_i e he
    split_ifs at hcfi
    cases hcfi
    exact h.indexed e (List.mem_of_getElem? he) row (e.2.mem_rows_of_rowAt hrow)
  · cases hcfi

theorem near_rowAt {pc : Word} {row : CFIRow Int64} (hrow : cfi.rowAt pc = some row) : row.Near B :=
  h.rows row (cfi.mem_rows_of_rowAt hrow)

end Rows

section Full
variable {env : Env Int64} (h : Ordinary B env.options env.cfi)
include h

theorem near_probedRow {jmpPc target : Word} {e : RowChecker × CFIRow Int64}
    (he : env.probedRow jmpPc target = some e) : e.2.Near B := by
  unfold Env.probedRow at he
  split_ifs at he
  · obtain ⟨row, hrow, rfl⟩ := Option.map_eq_some_iff.mp he
    exact h.near_rowAt hrow
  · obtain ⟨targetCfi, hcfi, he⟩ := Option.bind_eq_some_iff.mp he
    obtain ⟨row, hrow, he⟩ := Option.bind_eq_some_iff.mp he
    cases he
    exact h.near_of_cfiContaining hcfi hrow

theorem near_crossRow {edgePc target : Word} {e : RowChecker × CFIRow Int64}
    (he : env.crossRow edgePc target = some e) : e.2.Near B := by
  unfold Env.crossRow at he
  split at he
  · cases he
  · rename_i targetCfi hcfi
    obtain ⟨row, hrow, rfl⟩ := Option.map_eq_some_iff.mp he
    exact h.near_of_cfiContaining hcfi hrow

theorem probeSteps_fit {D : ℤ} (hD : D + B < 2 ^ 63) {tableAddr jmpPc : Word} {state : State}
    (hs : state.Near D) (fuel index : ℕ) :
    ∀ step ∈ env.probeSteps tableAddr jmpPc state fuel index, step.Fits env.z := by
  induction fuel generalizing index with
  | zero =>
    intro step hstep
    cases hstep
  | succ fuel ih =>
    intro step hstep
    rw [Env.probeSteps] at hstep
    split at hstep
    · cases hstep
    · rcases List.mem_append.mp hstep with hstep | hstep
      · obtain ⟨e, he, rfl⟩ := List.mem_map.mp hstep
        exact SignedStep.checkCFA_fits (h.near_probedRow (Option.mem_toList.mp he)) hs hD _
      · split_ifs at hstep
        · exact ih (index + 1) step hstep
        · cases hstep

theorem tableSteps_fit {D : ℤ} (hD : D + B < 2 ^ 63) {state : State} (hs : state.Near D) (pc : Word)
    (outcome : TransferOutcome) : ∀ step ∈ env.tableSteps pc outcome state, step.Fits env.z := by
  intro step hstep
  unfold Env.tableSteps at hstep
  split at hstep
  · split_ifs at hstep
    · exact h.probeSteps_fit hD hs _ _ step hstep
    · cases hstep
  · cases hstep

theorem fallThroughSteps_fit {D : ℤ} (hD : D + B < 2 ^ 63) {insn : Instruction} {state : State}
    (hs : state.Near D) (hafter : (transfer env.z insn state).2.Near D) :
    ∀ step ∈ env.fallThroughSteps insn state, step.Fits env.z := by
  intro step hstep
  unfold Env.fallThroughSteps at hstep
  dsimp only at hstep
  split_ifs at hstep
  · split at hstep
    · cases hstep
    · rename_i i hi
      have hrow : (env.cfi.rows.get i).Near B := h.rows _ (List.get_mem _ _)
      split_ifs at hstep with hhere hfresh hreg hnow
      · cases hstep
      · cases hstep
      · split at hstep
        · obtain rfl := List.mem_singleton.mp hstep
          exact SignedStep.cfaSatisfiedBy_fits hrow (hafter.gpr _) hD
        · cases hstep
      · split at hstep
        · rcases List.mem_cons.mp hstep with rfl | hstep
          · exact SignedStep.cfaSatisfiedBy_fits hrow (hafter.gpr _) hD
          · obtain rfl := List.mem_singleton.mp hstep
            exact SignedStep.cfaSatisfiedBy_fits hrow (hs.gpr _) hD
        · cases hstep
      · cases hstep
  · cases hstep

/-- One iteration of the walk has room in any state within reach. -/
theorem visitSteps_fit {pc : Word} {state : State} (hs : state.Near (reach B env.options)) :
    ∀ step ∈ env.visitSteps pc state, step.Fits env.z := by
  have hroom := h.room
  intro step hstep
  unfold Env.visitSteps at hstep
  split at hstep
  · cases hstep
  · rename_i insn hd
    have hinsn : insn.Narrow := h.disasm _ _ _ hd
    have hafter := hs.transfer env.z (by unfold reach; omega) hinsn
    have hwide : state.Near (reach B env.options + 2 ^ 31) := hs.mono (by omega)
    have hsum : reach B env.options + 2 ^ 31 + B < 2 ^ 63 := by
      unfold reach
      omega
    dsimp only at hstep
    rcases List.mem_cons.mp hstep with rfl | hstep
    · exact Signed.transferFits_of_near env.z (by unfold reach; omega) hs hinsn
    · rcases List.mem_append.mp hstep with hstep | hstep
      · exact h.fallThroughSteps_fit hsum hwide hafter step hstep
      · exact h.tableSteps_fit hsum hafter pc _ step hstep

/-- So has the second pass. -/
theorem verifySteps_fit {pc : Word} {state : State} (hs : state.Near (reach B env.options)) :
    ∀ step ∈ env.verifySteps pc state, step.Fits env.z := by
  have hroom := h.room
  have hsum : reach B env.options + B < 2 ^ 63 := by
    unfold reach
    omega
  intro step hstep
  unfold Env.verifySteps at hstep
  split at hstep
  · cases hstep
  · rename_i insn hd
    have hinsn : insn.Narrow := h.disasm _ _ _ hd
    split_ifs at hstep
    · cases hstep
    · rcases List.mem_append.mp hstep with hstep | hstep
      · obtain ⟨row, hrow, rfl⟩ := List.mem_map.mp hstep
        exact SignedStep.checkCFA_fits (h.near_rowAt (Option.mem_toList.mp hrow)) hs hsum _
      · rcases List.mem_cons.mp hstep with rfl | hstep
        · exact Signed.transferFits_of_near env.z (by unfold reach; omega) hs hinsn
        · rcases List.mem_append.mp hstep with hstep | hstep
          · exact h.tableSteps_fit hsum hs pc _ step hstep
          · obtain ⟨target, -, hstep⟩ := List.mem_flatMap.mp hstep
            obtain ⟨e, he, rfl⟩ := List.mem_map.mp hstep
            exact SignedStep.checkCFA_fits (h.near_crossRow (Option.mem_toList.mp he)) hs hsum _

/-- Every step of a run of the full checker has room. -/
theorem steps_fit {row : CFIRow Int64} (hrow : row ∈ env.cfi.rows) :
    ∀ step ∈ env.steps row, step.Fits env.z := by
  have hroom := h.room
  obtain ⟨hsettled, hpops⟩ := Env.near_settle h hrow
  intro step hstep
  unfold Env.steps at hstep
  rcases List.mem_append.mp hstep with hstep | hstep
  · rcases List.mem_append.mp hstep with hstep | hstep
    · rcases List.mem_cons.mp hstep with rfl | hstep
      · exact SignedStep.seedFromRow_fits (h.rows row hrow) (by omega) _
      · obtain ⟨padRow, hpad, rfl⟩ := List.mem_map.mp hstep
        obtain ⟨lp, -, hlp⟩ := List.mem_filterMap.mp hpad
        split_ifs at hlp
        exact SignedStep.seedFromRow_fits (h.near_rowAt hlp) (by omega) _
    · obtain ⟨visit, hvisit, hstep⟩ := List.mem_flatMap.mp hstep
      exact h.visitSteps_fit (hpops visit hvisit) step hstep
  · obtain ⟨e, he, hstep⟩ := List.mem_flatMap.mp hstep
    have hst : (env.settle row).inStates[e.1]? = some e.2 := Std.ExtTreeMap.mem_toList_iff_getElem?_eq_some.mp he
    exact h.verifySteps_fit (hsettled e.1 e.2 hst) step hstep

end Full

section Light
variable {options : FDECheckerOptions Int64} {cfi : CFI Int64} (h : Ordinary B options cfi)
include h

theorem near_compared {row nextRow : CFIRow Int64} {insn : Instruction} {outcome : TransferOutcome}
    (hft : Light.fallThrough cfi row insn outcome = .compare nextRow) : nextRow.Near B := by
  unfold Light.fallThrough at hft
  split at hft
  · split at hft
    · cases hft
    · rename_i hrow
      split_ifs at hft
      cases hft
      exact h.near_rowAt hrow
  · cases hft

theorem near_directRow {outcome : TransferOutcome} {e : Word × CFIRow Int64 × String}
    (he : Light.directRow options cfi outcome = some e) : e.2.1.Near B := by
  unfold Light.directRow at he
  obtain ⟨target, -, he⟩ := Option.bind_eq_some_iff.mp he
  obtain ⟨targetCfi, hcfi, he⟩ := Option.bind_eq_some_iff.mp he
  obtain ⟨row, hrow, he⟩ := Option.bind_eq_some_iff.mp he
  cases he
  exact h.near_of_cfiContaining hcfi hrow

/-- The sweep takes every instruction from the row itself, so it never gets further than one of them. -/
theorem light_visitSteps_fit {row : CFIRow Int64} (hrow : row ∈ cfi.rows) {insn : Instruction}
    (hinsn : insn.Narrow) : ∀ step ∈ Light.visitSteps options cfi row insn, step.Fits options.disasm := by
  have hroom := h.room
  have hnear := h.rows row hrow
  have hseeded : (AbsState.seedFromRow row false).Near B := .seedFromRow hnear (by omega) false
  have hafter := hseeded.transfer options.disasm (by omega) hinsn
  have hsum : (B : ℤ) + 2 ^ 31 + B < 2 ^ 63 := by omega
  intro step hstep
  unfold Light.visitSteps at hstep
  dsimp only at hstep
  rcases List.mem_cons.mp hstep with rfl | hstep
  · exact SignedStep.seedFromRow_fits hnear (by omega) _
  · rcases List.mem_cons.mp hstep with rfl | hstep
    · exact Signed.transferFits_of_near options.disasm (by omega) hseeded hinsn
    · rcases List.mem_append.mp hstep with hstep | hstep
      · split at hstep
        · rename_i nextRow hft
          exact SignedStep.compareSteps_fit (h.near_compared hft) hafter hsum step hstep
        · cases hstep
      · split at hstep
        · obtain ⟨e, he, hstep⟩ := List.mem_flatMap.mp hstep
          have hrow' := h.near_directRow (Option.mem_toList.mp he)
          exact SignedStep.compareSteps_fit hrow' hafter hsum step hstep
        · cases hstep

theorem stepsFrom_fit (fuel : ℕ) (pc : Word) :
    ∀ step ∈ Light.stepsFrom options cfi fuel pc, step.Fits options.disasm := by
  induction fuel generalizing pc with
  | zero =>
    intro step hstep
    cases hstep
  | succ fuel ih =>
    intro step hstep
    rw [Light.stepsFrom] at hstep
    split_ifs at hstep
    · split at hstep
      · rename_i row insn hrow hd
        rcases List.mem_append.mp hstep with hstep | hstep
        · exact h.light_visitSteps_fit (cfi.mem_rows_of_rowAt hrow) (h.disasm _ _ _ hd) step hstep
        · split at hstep
          · exact ih _ step hstep
          · cases hstep
      · cases hstep
    · cases hstep

end Light

end Ordinary

section Reading
variable {z : Zydis} {B : ℤ} (hB : B < 2 ^ 63)
include hB

theorem runOp_fits {isCie : Bool} {op : CfaOp} {st : EHReaderState} (h : op.Near B st.dataAlign)
    (b : TableBuilder Int64) : (SignedStep.runOp isCie op st b).Fits z := by
  intro offset hfactored
  have hcarried : op.carried st.dataAlign = some (offset.toInt * st.dataAlign.toInt) := by
    cases op <;> cases hfactored <;> rfl
  obtain ⟨hlo, hhi⟩ := h _ hcarried
  constructor
  · omega
  · omega

theorem streamSteps_fit {isCie : Bool} {ops : List CfaOp} {st : EHReaderState} {b : TableBuilder Int64}
    (h : ∀ op ∈ ops, op.Near B st.dataAlign) : ∀ step ∈ streamSteps isCie ops st b, step.Fits z := by
  induction ops generalizing st b with
  | nil =>
    intro step hstep
    cases hstep
  | cons op ops ih =>
    intro step hstep
    rw [streamSteps] at hstep
    rcases List.mem_cons.mp hstep with rfl | hstep
    · exact runOp_fits hB (h op List.mem_cons_self) b
    · split at hstep
      · rename_i st' b' hrun
        refine ih ?_ step hstep
        rw [runOp_dataAlign hrun]
        exact fun op' hop' => h op' (List.mem_cons_of_mem _ hop')
      · cases hstep

/-- Both streams of a record are scaled by the alignment of its CIE. -/
theorem FDERecord.steps_fit {r : FDERecord} {bias : Word} (h : (r.program bias).Near B)
    (b : TableBuilder Int64) : ∀ step ∈ r.steps b, step.Fits z := by
  intro step hstep
  unfold FDERecord.steps at hstep
  rcases List.mem_append.mp hstep with hstep | hstep
  · exact streamSteps_fit hB (fun op hop => h op (List.mem_append_left _ hop)) step hstep
  · split at hstep
    · rename_i st b' hrun
      obtain ⟨rfl, -⟩ := runStream_cie hrun
      exact streamSteps_fit hB (fun op hop => h op (List.mem_append_right _ hop)) step hstep
    · cases hstep

end Reading

/-- Where the program of the FDE and the rows of the others stay near the CFA, and the code has fields of
32 bits, nothing overflows in reading the FDE and analysing it. -/
theorem noSignedOverflow_of_near {mem : Word → Byte} {fdeVaddr ehFrameStart ehFrameEnd bias : Word}
    {options : FDECheckerOptions Int64} {B : ℕ}
    (hprog : ∀ prog, readProgram mem fdeVaddr ehFrameStart ehFrameEnd bias = .ok prog → prog.Near B)
    (hindex : ∀ e ∈ options.allCfis, ∀ row ∈ e.2.rows, row.Near B) (hdisasm : options.disasm.Narrow)
    (hroom : 2 * B + 2 ^ 32 * (options.maxIterations + 2) ≤ 2 ^ 63) (guessing : Bool) :
    NoSignedOverflow options.disasm (pipeline mem fdeVaddr ehFrameStart ehFrameEnd bias options guessing) := by
  have hB : (0 : ℤ) ≤ B ∧ (B : ℤ) < 2 ^ 63 := by omega
  intro step hstep
  refine (step.ops_inRange_iff options.disasm).mpr ?_
  unfold pipeline at hstep
  split at hstep
  · rename_i cfi hok
    obtain ⟨prog, -, -, -, -, -, hread, -⟩ := readFDE_yields hok
    have h : Ordinary B options cfi := ⟨readFDE_near hB hok hread (hprog prog hread), hindex, hdisasm, hroom⟩
    rcases List.mem_append.mp hstep with hstep | hstep
    · rcases List.mem_append.mp hstep with hstep | hstep
      · unfold readSteps at hstep
        split at hstep
        · rename_i r hr
          have hr : readProgram mem fdeVaddr ehFrameStart ehFrameEnd bias = .ok (r.program bias) := by
            rw [readProgram, hr]
            rfl
          exact FDERecord.steps_fit hB.2 (hprog _ hr) _ step hstep
        · cases hstep
      · unfold checkSteps at hstep
        split at hstep
        · cases hstep
        · rename_i row hrow
          split_ifs at hstep
          · cases hstep
          · have henv : Ordinary B (Env.of options cfi guessing).options (Env.of options cfi guessing).cfi := h
            exact henv.steps_fit (cfi.mem_rows_of_rowAt hrow) step hstep
    · unfold lightSteps at hstep
      split_ifs at hstep
      · cases hstep
      · exact h.stepsFrom_fit _ _ step hstep
  · cases hstep

namespace Sample

/-- `push` at the entry of an FDE, its CFA told again. -/
def pushMem : Word → Byte := ehFrameMem [0x41, 0x0e, 0x10]

theorem row_near (pcStart : Word) {offset : Int64} (h : -2 ^ 61 ≤ offset.toInt ∧ offset.toInt ≤ 2 ^ 61) :
    (row pcStart offset).Near (2 ^ 61) := by
  constructor
  · exact h
  · intro r n hr
    unfold row at hr
    dsimp only at hr
    split_ifs at hr

def inMemory (op : Operand) : Bool :=
  match op.kind with
  | .memory _ => true
  | _ => false

theorem decoder_narrow : decoder.Narrow := by
  intro bytes address insn hd
  obtain ⟨i, hi, rfl⟩ := Option.map_eq_some_iff.mp hd
  obtain ⟨e, he, rfl⟩ := Option.map_eq_some_iff.mp hi
  have hplain : ∀ e ∈ encodings, (e.2.mnemonic ≠ .add ∧ e.2.mnemonic ≠ .sub) ∧
      ∀ op ∈ e.2.operands, inMemory op = false := by
    decide
  obtain ⟨⟨hadd, hsub⟩, hmem⟩ := hplain e (List.mem_of_find?_eq_some he)
  constructor
  · intro op hop mem hkind
    have hnone := hmem op hop
    unfold inMemory at hnone
    rw [hkind] at hnone
    cases hnone
  · intro hid
    rcases hid with hid | hid
    · exact absurd hid hadd
    · exact absurd hid hsub

theorem pushMem_near {prog : FDEProgram}
    (h : readProgram pushMem 0x2018 0x2000 0x2034 0 = .ok prog) : prog.Near (2 ^ 61) := by
  have hread : readProgram pushMem 0x2018 0x2000 0x2034 0 = .ok pushProgram := rfl
  obtain rfl : pushProgram = prog := Except.ok.inj (hread.symm.trans h)
  have hops : ∀ op ∈ pushProgram.cieOps ++ pushProgram.fdeOps,
      (op.carried pushProgram.state.dataAlign).all fun n => -2 ^ 61 ≤ n && n ≤ 2 ^ 61 := by
    decide
  intro op hop n hn
  have := hops op hop
  rw [hn] at this
  simpa using this

end Sample

/-- Under the default cap there is room for offsets of 2^61. -/
theorem push_noSignedOverflow :
    (readFDE (δ := Int64) Sample.pushMem 0x2018 0x2000 0x2034 0).isOk = true ∧
      NoSignedOverflow Sample.decoder
        (pipeline Sample.pushMem 0x2018 0x2000 0x2034 0 Sample.leafOptions true) := by
  refine ⟨by decide +kernel, ?_⟩
  have hindex : ∀ e ∈ Sample.leafOptions.allCfis, ∀ row ∈ e.2.rows, row.Near (2 ^ 61) := by
    intro e he row hrow
    obtain rfl := List.mem_singleton.mp he
    obtain rfl := List.mem_singleton.mp hrow
    exact Sample.row_near 0x1000 (by decide)
  exact noSignedOverflow_of_near (B := 2 ^ 61) (fun prog => Sample.pushMem_near) hindex
    Sample.decoder_narrow (by decide) true

end UnwindCheck
