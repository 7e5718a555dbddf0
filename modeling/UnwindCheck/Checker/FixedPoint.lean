import UnwindCheck.Checker.Coverage
import UnwindCheck.State.Lattice

/-! The walk as a fixed-point iteration: what is left of the work at every iteration, whichever
pending address is served next, and that nothing is left when `Drain` is done. -/
namespace UnwindCheck
variable {δ : Type} [Offset δ]

namespace Walk

/-- Joining the call's state in would change nothing. -/
def Settled (w : Walk δ) (call : Word × AbsState δ) : Prop :=
  ∃ old, w.inStates[call.1]? = some old ∧ (join call.2 old).changed = false

/-- Addresses stay reached and their states only go up, in every component. -/
def Rises (w w' : Walk δ) : Prop :=
  ∀ (pc : Word) (st : AbsState δ), w.inStates[pc]? = some st →
    ∃ st', w'.inStates[pc]? = some st' ∧ st ≤ st'

theorem Rises.refl (w : Walk δ) : w.Rises w := fun _ st h => ⟨st, h, le_refl st⟩

theorem Rises.trans {w w' w'' : Walk δ} (h : w.Rises w') (h' : w'.Rises w'') : w.Rises w'' := by
  intro pc st hst
  obtain ⟨st', hst', hle⟩ := h pc st hst
  obtain ⟨st'', hst'', hle'⟩ := h' pc st' hst'
  exact ⟨st'', hst'', hle.trans hle'⟩

theorem Rises.settled {w w' : Walk δ} (h : w.Rises w') {call : Word × AbsState δ}
    (hs : w.Settled call) : w'.Settled call := by
  obtain ⟨old, hold, hc⟩ := hs
  obtain ⟨old', hold', hle⟩ := h _ old hold
  refine ⟨old', hold', ?_⟩
  rw [join_unchanged_iff] at hc ⊢
  exact hc.trans hle

theorem rises_insert {w w' : Walk δ} {pc : Word} {st : AbsState δ}
    (h : w'.inStates = w.inStates.insert pc st)
    (hle : ∀ old, w.inStates[pc]? = some old → old ≤ st) : w.Rises w' := by
  intro q old hold
  rw [h, Std.ExtTreeMap.getElem?_insert]
  by_cases hq : pc = q
  · subst hq
    exact ⟨st, by simp, hle old hold⟩
  · exact ⟨old, by simpa [hq] using hold, le_refl old⟩

theorem rises_propagate (w : Walk δ) (call : Word × AbsState δ) : w.Rises (w.propagate call) := by
  obtain ⟨pc, state⟩ := call
  rcases propagate_cases w pc state with ⟨hnone, hin, -⟩ | ⟨old, hold, hin, -⟩
  · exact rises_insert hin fun old hold => by simp [hnone] at hold
  · refine rises_insert hin fun old' hold' => ?_
    rw [hold, Option.some.injEq] at hold'
    exact hold' ▸ le_sup_left

theorem settled_propagate (w : Walk δ) (call : Word × AbsState δ) :
    (w.propagate call).Settled call := by
  obtain ⟨pc, state⟩ := call
  rcases propagate_cases w pc state with ⟨-, hin, -⟩ | ⟨old, -, hin, -⟩
  · refine ⟨state, by simp [hin], ?_⟩
    exact (join_unchanged_iff _ _).mpr le_rfl
  · refine ⟨(join state old).state, by simp [hin], ?_⟩
    exact (join_unchanged_iff _ _).mpr le_sup_right

theorem rises_propagateAll (w : Walk δ) (calls : List (Word × AbsState δ)) :
    w.Rises (w.propagateAll calls) := by
  induction calls generalizing w with
  | nil => exact .refl w
  | cons call calls ih => exact (rises_propagate w call).trans (ih _)

theorem settled_propagateAll (w : Walk δ) {calls : List (Word × AbsState δ)}
    {call : Word × AbsState δ} (h : call ∈ calls) : (w.propagateAll calls).Settled call := by
  induction calls generalizing w with
  | nil => cases h
  | cons first calls ih =>
    rcases List.mem_cons.mp h with rfl | h
    · exact (rises_propagateAll _ calls).settled (settled_propagate w call)
    · exact ih _ h

/-- The addresses off the worklist, `busy` apart, have propagated the state they have now. -/
def Passed (env : Env δ) (busy : Option Word) (w : Walk δ) : Prop :=
  ∀ (pc : Word) (st : AbsState δ), w.inStates[pc]? = some st → pc ∉ w.worklist → some pc ≠ busy →
    ∀ call ∈ env.callsFrom pc st, w.Settled call

variable {env : Env δ} {busy : Option Word} {w : Walk δ}

/-- An address that a call leaves off the worklist has kept its state. -/
theorem Inv.kept (h : Inv env busy w) {call : Word × AbsState δ} {pc : Word} {st : AbsState δ}
    (hst : (w.propagate call).inStates[pc]? = some st) (hpc : pc ∉ (w.propagate call).worklist) :
    w.inStates[pc]? = some st ∧ pc ∉ w.worklist := by
  obtain ⟨q, state⟩ := call
  rcases propagate_cases w q state with
    ⟨hnone, hin, hwl, -⟩ | ⟨old, hold, hin, ⟨hsame, hwl, -⟩ | ⟨-, hwl, -⟩⟩
  · rw [hwl, List.mem_cons, not_or] at hpc
    rw [hin, Std.ExtTreeMap.getElem?_insert] at hst
    exact ⟨by simpa [Ne.symm hpc.1] using hst, hpc.2⟩
  · rw [hwl] at hpc
    refine ⟨?_, hpc⟩
    rw [hin, Std.ExtTreeMap.getElem?_insert] at hst
    by_cases hq : q = pc
    · subst hq
      rcases hsame with hsame | hsame
      · rw [join_state_eq_of_not_changed hsame] at hst
        simpa [hold] using hst
      · exact absurd ((h.pending_iff q).mp hsame) hpc
    · simpa [hq] using hst
  · rw [hwl, List.mem_cons, not_or] at hpc
    rw [hin, Std.ExtTreeMap.getElem?_insert] at hst
    exact ⟨by simpa [Ne.symm hpc.1] using hst, hpc.2⟩

theorem Passed.propagate (h : Passed env busy w) (hi : Inv env busy w) (call : Word × AbsState δ) :
    Passed env busy (w.propagate call) := by
  intro pc st hst hpc hbusy c hc
  obtain ⟨hst', hpc'⟩ := hi.kept hst hpc
  exact (rises_propagate w call).settled (h pc st hst' hpc' hbusy c hc)

theorem Passed.propagateAll (h : Passed env busy w) (hi : Inv env busy w)
    {calls : List (Word × AbsState δ)} (hc : ∀ call ∈ calls, env.cfi.Covers call.1) :
    Passed env busy (w.propagateAll calls) := by
  induction calls generalizing w with
  | nil => exact h
  | cons call calls ih =>
    exact ih (h.propagate hi call) (hi.propagate (hc call List.mem_cons_self))
      fun c hm => hc c (List.mem_cons_of_mem _ hm)

/-- One iteration: the popped address has propagated what it was popped with, and if that moved
its own state it is back on the worklist. -/
theorem Passed.visit (h : Passed env none w) (hi : Inv env none w) {pc : Word} {state : AbsState δ}
    (hp : w.popped = some (pc, state)) : Passed env none (w.visit env pc state) := by
  have hst := hi.popped hp
  have hcov := hi.covered pc state hst
  have hcalls : ∀ call ∈ env.callsFrom pc state, env.cfi.Covers call.1 :=
    fun call hm => Env.covers_of_mem_callsFrom hcov hm
  obtain ⟨rest, hw, -⟩ := popped_eq_some hp
  have hb := hi.begin hp
  have hpassed : Passed env (some pc) (w.begin env pc) := by
    intro q st hq hwl hbusy call hcall
    have hwl' : q ∉ w.worklist := by
      rw [hw, List.mem_cons, not_or]
      exact ⟨fun he => hbusy (by rw [he]), by simpa [hw] using hwl⟩
    simpa [Settled] using h q st (by simpa using hq) hwl' (by simp) call hcall
  have hall := hpassed.propagateAll hb hcalls
  rw [visit_eq]
  intro q st hq hwl _ call hcall
  by_cases hqp : q = pc
  · subst hqp
    have hkeep := propagateAll_keeps_or_pends hb hcalls
      (Or.inl (show (w.begin env q).inStates[q]? = some state by simpa using hst))
    rcases hkeep with hkeep | hkeep
    · rw [hq, Option.some.injEq] at hkeep
      subst hkeep
      exact settled_propagateAll _ hcall
    · exact absurd hkeep hwl
  · exact hall q st hq hwl (by simpa using hqp) call hcall

theorem passed_init (env : Env δ) : Passed env none Walk.init := by
  intro pc st hst
  simp [init] at hst

/-- Both halves of the bookkeeping, through the whole loop. -/
theorem Passed.drainFor (h : Passed env none w) (hi : Inv env none w) (fuel : ℕ) :
    Passed env none (w.drainFor env fuel) := by
  have hboth := drainFor_preserves (P := fun w => Inv env none w ∧ Passed env none w)
    (fun _ _ _ hp hw => ⟨hw.1.visit hp, hw.2.visit hw.1 hp⟩)
    (fun _ hw => ⟨⟨hw.1.nodup, hw.1.pending_iff, hw.1.reached, hw.1.covered, hw.1.sized, hw.1.done⟩,
      hw.2⟩) fuel w ⟨hi, h⟩
  exact hboth.2

end Walk

namespace Env
variable (env : Env δ) (row : CFIRow δ)

/-- The walk at the heads of the loop of `Drain`: where the first call starts, after any
iteration, and where the second call starts. -/
inductive LoopHead : Walk δ → Prop
  | first : LoopHead (Walk.init.propagate
      (env.cfi.pcBegin, AbsState.seedFromRow row row.isCanonicalEntry))
  | next {w : Walk δ} {pc : Word} {state : AbsState δ} :
      LoopHead w → w.popped = some (pc, state) → LoopHead (w.visit env pc state)
  | reseeded : LoopHead ((env.firstWalk row).propagateAll (env.unreachedPads (env.firstWalk row)))

variable {env row}

theorem passed_firstWalk (hc : env.cfi.Covers env.cfi.pcBegin) :
    (env.firstWalk row).Passed env none :=
  Walk.Passed.drainFor ((Walk.passed_init env).propagate (Walk.inv_init env) _)
    ((Walk.inv_init env).propagate hc) _

theorem LoopHead.inv (hc : env.cfi.Covers env.cfi.pcBegin) {w : Walk δ} (h : env.LoopHead row w) :
    w.Inv env none ∧ w.Passed env none := by
  induction h with
  | first =>
    exact ⟨(Walk.inv_init env).propagate hc, (Walk.passed_init env).propagate (Walk.inv_init env) _⟩
  | next _ hp ih => exact ⟨ih.1.visit hp, ih.2.visit ih.1 hp⟩
  | reseeded =>
    have hi : (env.firstWalk row).Inv env none := inv_firstWalk row hc
    have hpads : ∀ seed ∈ env.unreachedPads (env.firstWalk row), env.cfi.Covers seed.1 :=
      fun _ hm => covers_of_mem_unreachedPads hm
    exact ⟨hi.propagateAll hpads, (passed_firstWalk hc).propagateAll hi hpads⟩

/-- Joining what `pc` hands to any of its successors changes nothing, and they are all reached. -/
def PostFixed (env : Env δ) (w : Walk δ) : Prop :=
  ∀ (pc : Word) (st : AbsState δ) (insn : Instruction), w.inStates[pc]? = some st →
    env.decodeAt pc = some insn → ∀ e ∈ env.edges insn st, ∃ old, w.inStates[e.2]? = some old ∧
      (join (env.edgeState insn e.1 st) old).changed = false ∧
      (join (env.edgeState insn e.1 st) old).state = old

theorem postFixed_of_passed {w : Walk δ} (h : w.Passed env none) (hw : w.worklist = []) :
    env.PostFixed w := by
  intro pc st insn hst hd e he
  have hmem : (e.2, env.edgeState insn e.1 st) ∈ env.callsFrom pc st := by
    simp only [callsFrom, hd]
    exact List.mem_map.mpr ⟨e, he, rfl⟩
  obtain ⟨old, hold, hc⟩ := h pc st hst (by simp [hw]) (by simp) _ hmem
  exact ⟨old, hold, hc, join_state_eq_of_not_changed hc⟩

/-- `Drain` ends in a post-fixed point unless it ran into the cap, both times it is called; and
at every head of its loop the worklist holds each pending address once and every address off it
has propagated the state it has. -/
theorem drain_postFixed (env : Env δ) (row : CFIRow δ)
    (hrow : env.cfi.rowAt env.cfi.pcBegin = some row) :
    ((env.firstWalk row).hitCap = false → env.PostFixed (env.firstWalk row)) ∧
    ((env.settle row).hitCap = false → env.PostFixed (env.settle row)) ∧
    ∀ w, env.LoopHead row w → w.worklist.Nodup ∧
      (∀ pc : Word, (w.pendingPushes[pc]?).getD false = true ↔ pc ∈ w.worklist) ∧
      ∀ (pc : Word) (st : AbsState δ), w.inStates[pc]? = some st → pc ∉ w.worklist →
        ∀ call ∈ env.callsFrom pc st, w.Settled call := by
  have hc := env.cfi.covers_of_rowAt hrow
  refine ⟨?_, ?_, ?_⟩
  · intro hcap
    exact postFixed_of_passed (passed_firstWalk hc) (Walk.worklist_drainFor _ _ hcap)
  · intro hcap
    refine postFixed_of_passed ?_ (worklist_settle hcap)
    unfold settle seedUnreachedLandingPads
    dsimp only
    split
    · exact passed_firstWalk hc
    · exact (LoopHead.reseeded.inv hc).2.drainFor (LoopHead.reseeded.inv hc).1 _
  · intro w hw
    obtain ⟨hi, hp⟩ := hw.inv hc
    exact ⟨hi.nodup, hi.pending_iff, fun pc st hst hpc => hp pc st hst hpc (by simp)⟩

end Env

theorem leaf_drain_postFixed :
    ((Env.of Sample.leafOptions Sample.leaf false).settle (Sample.row 0x1000 8)).hitCap = false ∧
      (Env.of Sample.leafOptions Sample.leaf false).PostFixed
        ((Env.of Sample.leafOptions Sample.leaf false).settle (Sample.row 0x1000 8)) := by
  have hcap : ((Env.of Sample.leafOptions Sample.leaf false).settle (Sample.row 0x1000 8)).hitCap =
      false := by decide +kernel
  have hrow : Sample.leaf.rowAt Sample.leaf.pcBegin = some (Sample.row 0x1000 8) := by
    decide +kernel
  exact ⟨hcap, (Env.drain_postFixed (Env.of Sample.leafOptions Sample.leaf false) _ hrow).2.1 hcap⟩

end UnwindCheck
