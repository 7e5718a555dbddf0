import UnwindCheck.Checker.Walk

/-! What every walk maintains, whatever it meets: the worklist bookkeeping, and that the state of
an address lies above everything that was ever propagated to it. -/
namespace UnwindCheck
variable {δ : Type} [Offset δ]

/-- Componentwise order of states, the CFI half only. -/
def AbsState.Below (s t : AbsState δ) : Prop := ∀ c, s.get c ≤ t.get c

theorem AbsState.Below.refl (s : AbsState δ) : s.Below s := fun _ => le_refl _

theorem AbsState.Below.trans {s t u : AbsState δ} (h : s.Below t) (h' : t.Below u) : s.Below u :=
  fun c => (h c).trans (h' c)

theorem below_join (incoming state : AbsState δ) : state.Below (join incoming state).state := by
  intro c
  rw [join_get]
  exact le_sup_left

theorem incoming_below_join (incoming state : AbsState δ) :
    incoming.Below (join incoming state).state := by
  intro c
  rw [join_get]
  exact le_sup_right

namespace Walk

/-- The call would find a state above its own. -/
def Absorbs (w : Walk δ) (call : Word × AbsState δ) : Prop :=
  ∃ st, w.inStates[call.1]? = some st ∧ call.2.Below st

/-- Addresses stay reached and their states only go up. -/
def Grows (w w' : Walk δ) : Prop :=
  ∀ (pc : Word) (st : AbsState δ), w.inStates[pc]? = some st →
    ∃ st', w'.inStates[pc]? = some st' ∧ st.Below st'

theorem Grows.refl (w : Walk δ) : w.Grows w := fun _ st h => ⟨st, h, .refl st⟩

theorem Grows.trans {w w' w'' : Walk δ} (h : w.Grows w') (h' : w'.Grows w'') : w.Grows w'' := by
  intro pc st hst
  obtain ⟨st', hst', hb⟩ := h pc st hst
  obtain ⟨st'', hst'', hb'⟩ := h' pc st' hst'
  exact ⟨st'', hst'', hb.trans hb'⟩

theorem Grows.absorbs {w w' : Walk δ} (h : w.Grows w') {call : Word × AbsState δ}
    (ha : w.Absorbs call) : w'.Absorbs call := by
  obtain ⟨st, hst, hb⟩ := ha
  obtain ⟨st', hst', hb'⟩ := h _ st hst
  exact ⟨st', hst', hb.trans hb'⟩

/-- Everything `Propagate` can do. -/
theorem propagate_cases (w : Walk δ) (pc : Word) (state : AbsState δ) :
    (w.inStates[pc]? = none ∧
      (w.propagate (pc, state)).inStates = w.inStates.insert pc state ∧
      (w.propagate (pc, state)).worklist = pc :: w.worklist ∧
      (w.propagate (pc, state)).pendingPushes = w.pendingPushes.insert pc true) ∨
    (∃ old, w.inStates[pc]? = some old ∧
      (w.propagate (pc, state)).inStates = w.inStates.insert pc (join state old).state ∧
      (((join state old).changed = false ∨ (w.pendingPushes[pc]?).getD false = true) ∧
          (w.propagate (pc, state)).worklist = w.worklist ∧
          (w.propagate (pc, state)).pendingPushes = w.pendingPushes ∨
        (w.pendingPushes[pc]?).getD false = false ∧
          (w.propagate (pc, state)).worklist = pc :: w.worklist ∧
          (w.propagate (pc, state)).pendingPushes = w.pendingPushes.insert pc true)) := by
  cases hold : w.inStates[pc]? with
  | none => simp [propagate, hold]
  | some old =>
    right
    refine ⟨old, rfl, ?_⟩
    cases hc : (join state old).changed with
    | false => simp [propagate, hold, hc]
    | true => cases hp : (w.pendingPushes[pc]?).getD false <;> simp [propagate, hold, hc, hp]

@[simp] theorem propagate_insnSizes (w : Walk δ) (call : Word × AbsState δ) :
    (w.propagate call).insnSizes = w.insnSizes := by
  unfold propagate
  dsimp only
  split
  · rfl
  · split_ifs <;> rfl

@[simp] theorem propagate_hitCap (w : Walk δ) (call : Word × AbsState δ) :
    (w.propagate call).hitCap = w.hitCap := by
  unfold propagate
  dsimp only
  split
  · rfl
  · split_ifs <;> rfl

theorem grows_insert {w w' : Walk δ} {pc : Word} {st : AbsState δ}
    (h : w'.inStates = w.inStates.insert pc st)
    (hb : ∀ old, w.inStates[pc]? = some old → old.Below st) : w.Grows w' := by
  intro q old hold
  rw [h, Std.ExtTreeMap.getElem?_insert]
  by_cases hq : pc = q
  · subst hq
    exact ⟨st, by simp, hb old hold⟩
  · exact ⟨old, by simpa [hq] using hold, .refl old⟩

theorem grows_propagate (w : Walk δ) (call : Word × AbsState δ) : w.Grows (w.propagate call) := by
  obtain ⟨pc, state⟩ := call
  rcases propagate_cases w pc state with ⟨hnone, hin, -⟩ | ⟨old, hold, hin, -⟩
  · exact grows_insert hin fun old hold => by simp [hnone] at hold
  · refine grows_insert hin fun old' hold' => ?_
    rw [hold, Option.some.injEq] at hold'
    exact hold' ▸ below_join state old

theorem absorbs_propagate (w : Walk δ) (call : Word × AbsState δ) :
    (w.propagate call).Absorbs call := by
  obtain ⟨pc, state⟩ := call
  rcases propagate_cases w pc state with ⟨-, hin, -⟩ | ⟨old, -, hin, -⟩
  · exact ⟨state, by simp [hin], .refl state⟩
  · exact ⟨(join state old).state, by simp [hin], incoming_below_join state old⟩

theorem grows_propagateAll (w : Walk δ) (calls : List (Word × AbsState δ)) :
    w.Grows (w.propagateAll calls) := by
  induction calls generalizing w with
  | nil => exact .refl w
  | cons call calls ih => exact (grows_propagate w call).trans (ih _)

theorem absorbs_propagateAll (w : Walk δ) {calls : List (Word × AbsState δ)}
    {call : Word × AbsState δ} (h : call ∈ calls) : (w.propagateAll calls).Absorbs call := by
  induction calls generalizing w with
  | nil => cases h
  | cons first calls ih =>
    rcases List.mem_cons.mp h with rfl | h
    · exact (grows_propagateAll _ calls).absorbs (absorbs_propagate w call)
    · exact ih _ h

@[simp] theorem propagateAll_insnSizes (w : Walk δ) (calls : List (Word × AbsState δ)) :
    (w.propagateAll calls).insnSizes = w.insnSizes := by
  induction calls generalizing w with
  | nil => rfl
  | cons call calls ih => exact (ih _).trans (propagate_insnSizes w call)

@[simp] theorem propagateAll_hitCap (w : Walk δ) (calls : List (Word × AbsState δ)) :
    (w.propagateAll calls).hitCap = w.hitCap := by
  induction calls generalizing w with
  | nil => rfl
  | cons call calls ih => exact (ih _).trans (propagate_hitCap w call)

/-- The bookkeeping between two `Propagate` calls. `busy` is the address being processed, whose
own successors are not settled yet. -/
structure Inv (env : Env δ) (busy : Option Word) (w : Walk δ) : Prop where
  nodup : w.worklist.Nodup
  pending_iff : ∀ pc : Word, (w.pendingPushes[pc]?).getD false = true ↔ pc ∈ w.worklist
  reached : ∀ pc ∈ w.worklist, ∃ st : AbsState δ, w.inStates[pc]? = some st
  covered : ∀ (pc : Word) (st : AbsState δ), w.inStates[pc]? = some st → env.cfi.Covers pc
  sized : ∀ (pc : Word) (size : ℕ), w.insnSizes[pc]? = some size →
    (∃ st : AbsState δ, w.inStates[pc]? = some st) ∧
      ∃ insn, env.decodeAt pc = some insn ∧ insn.size = size
  done : ∀ (pc : Word) (st : AbsState δ), w.inStates[pc]? = some st → pc ∉ w.worklist →
    some pc ≠ busy → ∀ call ∈ env.callsFrom pc st, w.Absorbs call

theorem inv_init (env : Env δ) : Inv env none Walk.init where
  nodup := List.nodup_nil
  pending_iff := by simp [init]
  reached := by simp [init]
  covered := by simp [init]
  sized := by simp [init]
  done := by simp [init]

theorem Grows.reached {w w' : Walk δ} (h : w.Grows w') {pc : Word}
    (hr : ∃ st : AbsState δ, w.inStates[pc]? = some st) :
    ∃ st : AbsState δ, w'.inStates[pc]? = some st := by
  obtain ⟨st, hst⟩ := hr
  obtain ⟨st', hst', -⟩ := h pc st hst
  exact ⟨st', hst'⟩

/-- Pushing an address whose state has just been written. -/
theorem Inv.push {env : Env δ} {busy : Option Word} {w w' : Walk δ} {pc : Word} {st : AbsState δ}
    (h : Inv env busy w) (hc : env.cfi.Covers pc) (hfresh : pc ∉ w.worklist)
    (hg : w.Grows w') (hin : w'.inStates = w.inStates.insert pc st)
    (hwl : w'.worklist = pc :: w.worklist)
    (hpend : w'.pendingPushes = w.pendingPushes.insert pc true)
    (hsize : w'.insnSizes = w.insnSizes) : Inv env busy w' where
  nodup := by
    rw [hwl]
    exact List.nodup_cons.mpr ⟨hfresh, h.nodup⟩
  pending_iff q := by
    rw [hwl, hpend, Std.ExtTreeMap.getElem?_insert, List.mem_cons]
    by_cases hq : pc = q
    · simp [hq]
    · simpa [hq, Ne.symm hq] using h.pending_iff q
  reached q hq := by
    rw [hwl, List.mem_cons] at hq
    rcases hq with rfl | hq
    · exact ⟨st, by simp [hin]⟩
    · exact hg.reached (h.reached q hq)
  covered q old hold := by
    rw [hin, Std.ExtTreeMap.getElem?_insert] at hold
    by_cases hq : pc = q
    · exact hq ▸ hc
    · exact h.covered q old (by simpa [hq] using hold)
  sized q size hs := by
    rw [hsize] at hs
    exact ⟨hg.reached (h.sized q size hs).1, (h.sized q size hs).2⟩
  done q old hold hq hbusy call hcall := by
    rw [hwl, List.mem_cons, not_or] at hq
    rw [hin, Std.ExtTreeMap.getElem?_insert] at hold
    have hold' : w.inStates[q]? = some old := by simpa [Ne.symm hq.1] using hold
    exact hg.absorbs (h.done q old hold' hq.2 hbusy call hcall)

/-- A step that leaves the worklist alone: either no state moves, or the one that does belongs
to an address that is already pending. -/
theorem Inv.stay {env : Env δ} {busy : Option Word} {w w' : Walk δ} {pc : Word} {st : AbsState δ}
    (h : Inv env busy w) (hc : env.cfi.Covers pc)
    (hstay : pc ∈ w.worklist ∨ w.inStates[pc]? = some st) (hg : w.Grows w')
    (hin : w'.inStates = w.inStates.insert pc st) (hwl : w'.worklist = w.worklist)
    (hpend : w'.pendingPushes = w.pendingPushes) (hsize : w'.insnSizes = w.insnSizes) :
    Inv env busy w' where
  nodup := hwl ▸ h.nodup
  pending_iff q := by
    rw [hwl, hpend]
    exact h.pending_iff q
  reached q hq := hg.reached (h.reached q (hwl ▸ hq))
  covered q old hold := by
    rw [hin, Std.ExtTreeMap.getElem?_insert] at hold
    by_cases hq : pc = q
    · exact hq ▸ hc
    · exact h.covered q old (by simpa [hq] using hold)
  sized q size hs := by
    rw [hsize] at hs
    exact ⟨hg.reached (h.sized q size hs).1, (h.sized q size hs).2⟩
  done q old hold hq hbusy call hcall := by
    rw [hwl] at hq
    rw [hin, Std.ExtTreeMap.getElem?_insert] at hold
    refine hg.absorbs (h.done q old ?_ hq hbusy call hcall)
    by_cases hpq : pc = q
    · subst hpq
      rcases hstay with hmem | hsame
      · exact absurd hmem hq
      · simpa [hsame] using hold
    · simpa [hpq] using hold

theorem Inv.propagate {env : Env δ} {busy : Option Word} {w : Walk δ} (h : Inv env busy w)
    {call : Word × AbsState δ} (hc : env.cfi.Covers call.1) :
    Inv env busy (w.propagate call) := by
  obtain ⟨pc, state⟩ := call
  have hg := grows_propagate w (pc, state)
  have hsize := propagate_insnSizes w (pc, state)
  rcases propagate_cases w pc state with
    ⟨hnone, hin, hwl, hpend⟩ | ⟨old, hold, hin, ⟨hsame, hwl, hpend⟩ | ⟨hp, hwl, hpend⟩⟩
  · have hfresh : pc ∉ w.worklist := by
      intro hmem
      obtain ⟨st, hst⟩ := h.reached pc hmem
      simp [hnone] at hst
    exact h.push hc hfresh hg hin hwl hpend hsize
  · refine h.stay hc ?_ hg hin hwl hpend hsize
    rcases hsame with hsame | hsame
    · exact Or.inr (by rw [join_state_eq_of_not_changed hsame]; exact hold)
    · exact Or.inl ((h.pending_iff pc).mp hsame)
  · have hfresh : pc ∉ w.worklist := by
      intro hmem
      rw [(h.pending_iff pc).mpr hmem] at hp
      exact Bool.false_ne_true hp.symm
    exact h.push hc hfresh hg hin hwl hpend hsize

theorem Inv.propagateAll {env : Env δ} {busy : Option Word} {w : Walk δ} (h : Inv env busy w)
    {calls : List (Word × AbsState δ)} (hc : ∀ call ∈ calls, env.cfi.Covers call.1) :
    Inv env busy (w.propagateAll calls) := by
  induction calls generalizing w with
  | nil => exact h
  | cons call calls ih =>
    exact ih (h.propagate (hc call List.mem_cons_self))
      fun c hm => hc c (List.mem_cons_of_mem _ hm)

/-- A state moves only if its address becomes pending. -/
theorem propagate_keeps_or_pends {env : Env δ} {busy : Option Word} {w : Walk δ}
    (h : Inv env busy w) (call : Word × AbsState δ) {pc : Word} {st : AbsState δ}
    (hst : w.inStates[pc]? = some st ∨ pc ∈ w.worklist) :
    (w.propagate call).inStates[pc]? = some st ∨ pc ∈ (w.propagate call).worklist := by
  obtain ⟨q, state⟩ := call
  rcases propagate_cases w q state with
    ⟨hnone, hin, hwl, -⟩ | ⟨old, hold, hin, ⟨hsame, hwl, -⟩ | ⟨-, hwl, -⟩⟩
  · rw [hin, hwl, Std.ExtTreeMap.getElem?_insert]
    by_cases hq : q = pc
    · simp [hq]
    · simpa [hq, Ne.symm hq] using hst
  · rw [hin, hwl, Std.ExtTreeMap.getElem?_insert]
    by_cases hq : q = pc
    · subst hq
      rcases hsame with hsame | hsame
      · rw [join_state_eq_of_not_changed hsame]
        simpa [hold] using hst
      · exact Or.inr ((h.pending_iff q).mp hsame)
    · simpa [hq] using hst
  · rw [hin, hwl, Std.ExtTreeMap.getElem?_insert]
    by_cases hq : q = pc
    · simp [hq]
    · simpa [hq, Ne.symm hq] using hst

theorem propagateAll_keeps_or_pends {env : Env δ} {busy : Option Word} {w : Walk δ}
    (h : Inv env busy w) {calls : List (Word × AbsState δ)}
    (hc : ∀ call ∈ calls, env.cfi.Covers call.1) {pc : Word} {st : AbsState δ}
    (hst : w.inStates[pc]? = some st ∨ pc ∈ w.worklist) :
    (w.propagateAll calls).inStates[pc]? = some st ∨ pc ∈ (w.propagateAll calls).worklist := by
  induction calls generalizing w with
  | nil => exact hst
  | cons call calls ih =>
    exact ih (h.propagate (hc call List.mem_cons_self))
      (fun c hm => hc c (List.mem_cons_of_mem _ hm)) (propagate_keeps_or_pends h call hst)

end Walk

namespace Env
variable {env : Env δ}

omit [Offset δ] in
theorem decodeAt_address {pc : Word} {insn : Instruction} (h : env.decodeAt pc = some insn) :
    insn.address = pc := Zydis.decode_address h

omit [Offset δ] in
theorem one_le_size {pc : Word} {insn : Instruction} (h : env.decodeAt pc = some insn) :
    1 ≤ insn.size := Zydis.one_le_size h

omit [Offset δ] in
/-- An instruction never reaches past the end of the FDE it was decoded from. -/
theorem size_le {pc : Word} {insn : Instruction} (h : env.decodeAt pc = some insn) :
    insn.size ≤ (env.cfi.pcEnd - pc).toNat := by
  have h₁ := Zydis.size_le h
  have h₂ := env.image.length_bytesAt_le pc (min 16 (env.cfi.pcEnd - pc).toNat)
  omega

omit [Offset δ] in
/-- The address after an instruction of the FDE, as a number. -/
theorem next_toNat {pc : Word} {insn : Instruction} (h : env.decodeAt pc = some insn)
    (hc : env.cfi.Covers pc) : insn.next.toNat = pc.toNat + insn.size ∧
      pc.toNat + insn.size ≤ env.cfi.pcEnd.toNat := by
  have hs := size_le h
  have ha := decodeAt_address h
  obtain ⟨-, hhi⟩ := hc
  have hend := env.cfi.pcEnd.isLt
  have hsub : (env.cfi.pcEnd - pc).toNat = env.cfi.pcEnd.toNat - pc.toNat := by
    rw [BitVec.toNat_sub_of_le (by bv_omega)]
  rw [hsub] at hs
  rw [BitVec.lt_def] at hhi
  refine ⟨?_, by omega⟩
  rw [Instruction.next, ha, BitVec.toNat_add, BitVec.toNat_ofNat]
  omega

theorem covers_of_mem_edges {pc : Word} {insn : Instruction} {state : AbsState δ}
    (h : env.decodeAt pc = some insn) (hc : env.cfi.Covers pc) {e : EdgeKind × Word}
    (he : e ∈ env.edges insn state) : env.cfi.Covers e.2 := by
  simp only [edges, List.mem_append] at he
  rcases he with ((he | he) | he) | he
  · unfold padEdges at he
    split at he
    · simp only [List.mem_map, Option.mem_toList] at he
      obtain ⟨lp, hlp, rfl⟩ := he
      unfold landingPadForCall at hlp
      dsimp only at hlp
      split_ifs at hlp with hz
      cases hcs : env.callSites[Lib.upperBound (fun i => (env.callSites[i]?).any fun cs =>
        insn.address < cs.start) env.callSites.length - 1]? with
      | none => simp [hcs] at hlp
      | some cs =>
        simp only [hcs, Option.ite_none_right_eq_some, Option.some.injEq] at hlp
        exact hlp.2 ▸ env.pads_covered cs (List.mem_of_getElem? hcs)
    · cases he
  · unfold fallThroughEdges at he
    dsimp only at he
    split at he
    · rename_i hcond
      rw [List.mem_singleton] at he
      subst he
      have hn := next_toNat h hc
      exact ⟨by have := hc.1; bv_omega, hcond.2.1⟩
    · cases he
  · simp only [takenEdges, List.mem_map, List.mem_filter] at he
    obtain ⟨t, ht, rfl⟩ := he
    simpa using ht.2
  · simp only [tableEdges, List.mem_map, List.mem_filter] at he
    obtain ⟨t, ht, rfl⟩ := he
    simpa using ht.2

theorem covers_of_mem_callsFrom {pc : Word} {state : AbsState δ} (hc : env.cfi.Covers pc)
    {call : Word × AbsState δ} (h : call ∈ env.callsFrom pc state) : env.cfi.Covers call.1 := by
  unfold callsFrom at h
  split at h
  · cases h
  · rename_i insn hd
    obtain ⟨e, he, rfl⟩ := List.mem_map.mp h
    exact covers_of_mem_edges hd hc he

end Env

namespace Walk
variable {env : Env δ} {w : Walk δ}

theorem popped_eq_some {pc : Word} {state : AbsState δ} (h : w.popped = some (pc, state)) :
    ∃ rest, w.worklist = pc :: rest ∧ state = (w.inStates[pc]?).getD .init := by
  unfold popped at h
  cases hw : w.worklist with
  | nil => simp [hw] at h
  | cons q rest =>
    simp only [hw, List.head?_cons, Option.map_some, Option.some.injEq, Prod.mk.injEq] at h
    obtain ⟨rfl, rfl⟩ := h
    exact ⟨rest, rfl, rfl⟩

/-- The state an iteration reads is the settled one. -/
theorem Inv.popped {busy : Option Word} (h : Inv env busy w) {pc : Word} {state : AbsState δ}
    (hp : w.popped = some (pc, state)) : w.inStates[pc]? = some state := by
  obtain ⟨rest, hw, rfl⟩ := popped_eq_some hp
  obtain ⟨st, hst⟩ := h.reached pc (by simp [hw])
  simp [hst]

/-- The state between taking an address off the worklist and propagating from it. -/
def begin (env : Env δ) (w : Walk δ) (pc : Word) : Walk δ :=
  match env.decodeAt pc with
  | none => w.pop pc
  | some insn => { w.pop pc with insnSizes := (w.pop pc).insnSizes.insert pc insn.size }

theorem visit_eq (env : Env δ) (w : Walk δ) (pc : Word) (state : AbsState δ) :
    w.visit env pc state = (w.begin env pc).propagateAll (env.callsFrom pc state) := rfl

@[simp] theorem begin_inStates (pc : Word) : (w.begin env pc).inStates = w.inStates := by
  unfold begin
  split <;> rfl

@[simp] theorem begin_worklist (pc : Word) : (w.begin env pc).worklist = w.worklist.tail := by
  unfold begin
  split <;> rfl

@[simp] theorem begin_pendingPushes (pc : Word) :
    (w.begin env pc).pendingPushes = w.pendingPushes.insert pc false := by
  unfold begin
  split <;> rfl

@[simp] theorem begin_hitCap (pc : Word) : (w.begin env pc).hitCap = w.hitCap := by
  unfold begin
  split <;> rfl

theorem begin_insnSizes {pc q : Word} {size : ℕ} (h : (w.begin env pc).insnSizes[q]? = some size) :
    w.insnSizes[q]? = some size ∨
      q = pc ∧ ∃ insn, env.decodeAt pc = some insn ∧ insn.size = size := by
  unfold begin at h
  split at h
  · exact Or.inl h
  · rename_i insn hd
    rw [Std.ExtTreeMap.getElem?_insert] at h
    by_cases hq : pc = q
    · exact Or.inr ⟨hq.symm, insn, hd, by simpa [hq] using h⟩
    · exact Or.inl (by simpa [hq, pop] using h)

theorem grows_begin (pc : Word) : w.Grows (w.begin env pc) := by
  intro q st hst
  exact ⟨st, by simpa using hst, .refl st⟩

theorem Absorbs.begin {call : Word × AbsState δ} (pc : Word) :
    (w.begin env pc).Absorbs call ↔ w.Absorbs call := by
  simp [Absorbs]

theorem Inv.begin (h : Inv env none w) {pc : Word} {state : AbsState δ}
    (hp : w.popped = some (pc, state)) : Inv env (some pc) (w.begin env pc) := by
  obtain ⟨rest, hw, -⟩ := popped_eq_some hp
  have hnodup := h.nodup
  rw [hw, List.nodup_cons] at hnodup
  refine ⟨?_, ?_, ?_, ?_, ?_, ?_⟩
  · simpa [hw] using hnodup.2
  · intro q
    rw [begin_pendingPushes, begin_worklist, hw, List.tail_cons, Std.ExtTreeMap.getElem?_insert]
    by_cases hq : pc = q
    · subst hq
      simpa using hnodup.1
    · have hpend := h.pending_iff q
      rw [hw, List.mem_cons] at hpend
      simpa [hq, Ne.symm hq] using hpend
  · intro q hq
    rw [begin_worklist, hw, List.tail_cons] at hq
    simpa using h.reached q (by simp [hw, hq])
  · intro q st hst
    exact h.covered q st (by simpa using hst)
  · intro q size hs
    rcases begin_insnSizes hs with hs | ⟨rfl, hd⟩
    · simpa using h.sized q size hs
    · exact ⟨⟨state, by simpa using h.popped hp⟩, hd⟩
  · intro q st hst hq hbusy call hcall
    rw [Absorbs.begin]
    refine h.done q st (by simpa using hst) ?_ (by simp) call hcall
    rw [hw, List.mem_cons, not_or]
    exact ⟨fun he => hbusy (by rw [he]), by simpa [hw] using hq⟩

/-- One iteration keeps the bookkeeping, self-loops included: either the address went back on
the worklist, or its state is still the one its successors have seen. -/
theorem Inv.visit (h : Inv env none w) {pc : Word} {state : AbsState δ}
    (hp : w.popped = some (pc, state)) : Inv env none (w.visit env pc state) := by
  have hst := h.popped hp
  have hcov := h.covered pc state hst
  have hcalls : ∀ call ∈ env.callsFrom pc state, env.cfi.Covers call.1 :=
    fun call hm => Env.covers_of_mem_callsFrom hcov hm
  have hb := h.begin hp
  have hall := hb.propagateAll hcalls
  rw [visit_eq]
  refine ⟨hall.nodup, hall.pending_iff, hall.reached, hall.covered, hall.sized, ?_⟩
  intro q st hq hwl _ call hcall
  by_cases hqp : q = pc
  · subst hqp
    have hkeep := propagateAll_keeps_or_pends hb hcalls
      (Or.inl (show (w.begin env q).inStates[q]? = some state by simpa using hst))
    rcases hkeep with hkeep | hkeep
    · rw [hq, Option.some.injEq] at hkeep
      subst hkeep
      exact absorbs_propagateAll _ hcall
    · exact absurd hkeep hwl
  · exact hall.done q st hq hwl (by simpa using hqp) call hcall

theorem grows_visit (env : Env δ) (w : Walk δ) (pc : Word) (state : AbsState δ) :
    w.Grows (w.visit env pc state) :=
  (grows_begin pc).trans (grows_propagateAll _ _)

/-- What every iteration preserves holds when the loop stops. -/
theorem drainFor_preserves {P : Walk δ → Prop}
    (hvisit : ∀ w pc state, w.popped = some (pc, state) → P w → P (w.visit env pc state))
    (hcap : ∀ w, P w → P { w with iterations := w.iterations + 1, hitCap := true })
    (fuel : ℕ) (w : Walk δ) (hw : P w) : P (w.drainFor env fuel) := by
  induction fuel generalizing w with
  | zero =>
    rw [drainFor]
    split
    · exact hw
    · exact hcap w hw
  | succ fuel ih =>
    rw [drainFor]
    split
    · exact hw
    · rename_i pc state hp
      exact ih _ (hvisit w pc state hp hw)

theorem Inv.drain (h : Inv env none w) : Inv env none (w.drain env) :=
  drainFor_preserves (fun _ _ _ hp hi => hi.visit hp)
    (fun _ hi => ⟨hi.nodup, hi.pending_iff, hi.reached, hi.covered, hi.sized, hi.done⟩) _ w h

theorem grows_drainFor (env : Env δ) (fuel : ℕ) (w : Walk δ) : w.Grows (w.drainFor env fuel) :=
  drainFor_preserves (P := fun w' => w.Grows w')
    (fun _ _ _ _ hg => hg.trans (grows_visit env _ _ _)) (fun _ hg => hg) fuel w (.refl w)

/-- Everything the loop's visits propagate is absorbed when it stops. -/
theorem absorbs_drainFor {fuel : ℕ} {visit : Word × AbsState δ} (hv : visit ∈ w.popsFor env fuel)
    {call : Word × AbsState δ} (hc : call ∈ env.callsFrom visit.1 visit.2) :
    (w.drainFor env fuel).Absorbs call := by
  induction fuel generalizing w with
  | zero => cases hv
  | succ fuel ih =>
    rw [popsFor] at hv
    rw [drainFor]
    cases hp : w.popped with
    | none => simp [hp] at hv
    | some v =>
      simp only [hp] at hv
      rcases List.mem_cons.mp hv with rfl | hv
      · exact (grows_drainFor env fuel _).absorbs (absorbs_propagateAll _ hc)
      · exact ih hv

/-- The loop only ever visits addresses of the FDE. -/
theorem covers_of_mem_popsFor (h : Inv env none w) {fuel : ℕ} {visit : Word × AbsState δ}
    (hv : visit ∈ w.popsFor env fuel) : env.cfi.Covers visit.1 := by
  induction fuel generalizing w with
  | zero => cases hv
  | succ fuel ih =>
    rw [popsFor] at hv
    cases hp : w.popped with
    | none => simp [hp] at hv
    | some v =>
      simp only [hp] at hv
      rcases List.mem_cons.mp hv with rfl | hv
      · exact h.covered _ _ (h.popped hp)
      · exact ih (h.visit hp) hv

/-- The loop stops with an empty worklist unless it ran into the cap. -/
theorem worklist_drainFor (fuel : ℕ) (w : Walk δ)
    (hcap : (w.drainFor env fuel).hitCap = false) : (w.drainFor env fuel).worklist = [] := by
  induction fuel generalizing w with
  | zero =>
    rw [drainFor] at hcap ⊢
    cases hp : w.popped with
    | none => simpa [popped] using hp
    | some v => simp [hp] at hcap
  | succ fuel ih =>
    rw [drainFor] at hcap ⊢
    cases hp : w.popped with
    | none => simpa [popped] using hp
    | some v =>
      simp only [hp] at hcap ⊢
      exact ih _ hcap

end Walk

end UnwindCheck
