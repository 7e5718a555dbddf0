import UnwindCheck.Lib.Rising
import UnwindCheck.Insn.Footprint
import UnwindCheck.Checker.FixedPoint

/-! `Drain` ends without its cap, whichever pending address it serves next. -/
namespace UnwindCheck

instance instFiniteWord : Finite Word := Finite.of_injective BitVec.toFin fun _ _ => BitVec.eq_of_toFin_eq

section Heights
variable {δ : Type} [DecidableEq δ]

def AbsVal.height : AbsVal δ → Fin 3
  | .top => 0
  | .bottom => 2
  | _ => 1

def TableVal.Kind.height : TableVal.Kind → Fin 3
  | .none => 0
  | .conflict => 2
  | _ => 1

theorem AbsVal.height_strictMono : StrictMono (AbsVal.height : AbsVal δ → Fin 3) := by
  intro a b h
  obtain ⟨hle, hne⟩ := lt_iff_le_and_ne.mp h
  cases a <;> cases b <;> simp_all [AbsVal.le_def, AbsVal.height]

theorem TableVal.Kind.height_strictMono : StrictMono TableVal.Kind.height := by
  intro a b h
  obtain ⟨hle, hne⟩ := lt_iff_le_and_ne.mp h
  cases a <;> cases b <;> simp_all [TableVal.Kind.le_def, TableVal.Kind.height]

instance instWellFoundedGTAbsVal : WellFoundedGT (AbsVal δ) :=
  AbsVal.height_strictMono.wellFoundedGT

instance instWellFoundedGTKind : WellFoundedGT TableVal.Kind :=
  TableVal.Kind.height_strictMono.wellFoundedGT

end Heights

variable {δ : Type} [Offset δ]

/-- A bound as a point of a finite chain. -/
def clampBound (b : ℕ) : Fin (kBoundTop + 1) := ⟨min b kBoundTop, Nat.lt_succ_of_le (min_le_right _ _)⟩

theorem clampBound_mono : Monotone clampBound := fun _ _ h => min_le_min_right _ h

theorem eq_of_clampBound {b c : ℕ} (hb : b ≤ kBoundTop) (hc : c ≤ kBoundTop)
    (h : clampBound b = clampBound c) : b = c := by
  have hmin : min b kBoundTop = min c kBoundTop := congrArg Fin.val h
  omega

/-- The part of a state that has a height of its own: everything but the slots. -/
abbrev Scalars (δ : Type) : Type :=
  (Fin 16 → AbsVal δ) × (Fin 16 → TableVal.Kind × Fin (kBoundTop + 1) × Fin (kBoundTop + 1)) ×
    Lib.Agreement FlagsGuard

def AbsState.scalars (s : AbsState δ) : Scalars δ :=
  (s.gpr, fun r => ((s.tbl r).kind, clampBound (s.tbl r).valueBound,
    clampBound (s.tbl r).tableBound), s.lastCmp)

theorem AbsState.scalars_mono {s t : AbsState δ} (h : s ≤ t) : s.scalars ≤ t.scalars := by
  obtain ⟨hgpr, -, htbl, hcmp⟩ := AbsState.le_iff.mp h
  refine ⟨hgpr, fun r => ?_, hcmp⟩
  obtain ⟨hkind, hvalue, htable⟩ := htbl r
  exact ⟨hkind, clampBound_mono hvalue, clampBound_mono htable⟩

/-- States with 64-bit bounds are told apart by their scalars and their slots. -/
theorem AbsState.ext_scalars {K : δ → Prop} {s t : AbsState δ} (hs : s.Within K) (ht : t.Within K)
    (h : s.scalars = t.scalars)
    (hslots : ∀ k, slotView s.slots k = slotView t.slots k) : s = t := by
  obtain ⟨hgpr, h⟩ := Prod.ext_iff.mp h
  obtain ⟨htbl, hcmp⟩ := Prod.ext_iff.mp h
  have htable : s.tbl = t.tbl := by
    funext r
    obtain ⟨hkind, hr⟩ := Prod.ext_iff.mp (congrFun htbl r)
    obtain ⟨hvalue, hbound⟩ := Prod.ext_iff.mp hr
    exact TableVal.view_injective (Prod.ext hkind (Prod.ext
      (eq_of_clampBound (hs.tbl r).1 (ht.tbl r).1 hvalue)
      (eq_of_clampBound (hs.tbl r).2 (ht.tbl r).2 hbound)))
  exact view_injective (Prod.ext hgpr (Prod.ext (funext hslots) (Prod.ext htable hcmp)))

namespace Walk

/-- The worklist with a pending address brought to the end that is popped. -/
def promote (w : Walk δ) (pc : Word) : Walk δ := { w with worklist := pc :: w.worklist.erase pc }

/-- One iteration of `Drain` under a policy that serves `pc` next. -/
def serve (env : Env δ) (w : Walk δ) (pc : Word) : Walk δ :=
  (w.promote pc).visit env pc ((w.inStates[pc]?).getD .init)

/-- One iteration, whichever pending address it serves. -/
def Serves (env : Env δ) (w w' : Walk δ) : Prop := ∃ pc ∈ w.worklist, w' = w.serve env pc

theorem Rises.antisymm {w w' : Walk δ} (h : w.Rises w') (h' : w'.Rises w) :
    w.inStates = w'.inStates := by
  apply Std.ExtTreeMap.ext_getElem?
  intro pc
  cases hst : w.inStates[pc]? with
  | none =>
    cases hst' : w'.inStates[pc]? with
    | none => rfl
    | some st' =>
      obtain ⟨st, hst'', -⟩ := h' pc st' hst'
      simp [hst] at hst''
  | some st =>
    obtain ⟨st', hst', hle⟩ := h pc st hst
    obtain ⟨st'', hst'', hle'⟩ := h' pc st' hst'
    rw [hst, Option.some.injEq] at hst''
    subst hst''
    rw [hst', le_antisymm hle hle']

/-- An address that goes on the worklist is a new one or has strictly risen. -/
def Raised (w w' : Walk δ) (pc : Word) : Prop :=
  ∃ st', w'.inStates[pc]? = some st' ∧ ∀ st, w.inStates[pc]? = some st → st < st'

theorem raised_or_mem_propagate (w : Walk δ) (call : Word × AbsState δ) {pc : Word}
    (h : pc ∈ (w.propagate call).worklist) : pc ∈ w.worklist ∨ w.Raised (w.propagate call) pc := by
  obtain ⟨q, state⟩ := call
  cases hold : w.inStates[q]? with
  | none =>
    simp only [propagate, hold, List.mem_cons] at h ⊢
    rcases h with rfl | h
    · exact Or.inr ⟨state, by simp, fun st hst => by simp [hold] at hst⟩
    · exact Or.inl h
  | some old =>
    by_cases hc : (join state old).changed = true
    · have hlt : old < (join state old).state := by
        rw [join_changed_iff] at hc
        exact lt_of_le_of_ne le_sup_left (Ne.symm hc)
      by_cases hq : pc = q
      · subst hq
        right
        refine ⟨(join state old).state, ?_, fun st hst => ?_⟩
        · rcases propagate_cases w pc state with ⟨hnone, -⟩ | ⟨old', hold', hin, -⟩
          · simp [hold] at hnone
          · rw [hold, Option.some.injEq] at hold'
            simp [hin, hold']
        · rw [hold, Option.some.injEq] at hst
          exact hst ▸ hlt
      · left
        rcases propagate_cases w q state with ⟨-, -, hwl, -⟩ | ⟨-, -, -, ⟨-, hwl, -⟩ | ⟨-, hwl, -⟩⟩
        · simpa [hwl, hq] using h
        · rwa [hwl] at h
        · simpa [hwl, hq] using h
    · simp only [propagate, hold, hc, Bool.not_false, if_true] at h
      exact Or.inl h

theorem raised_or_mem_propagateAll (w : Walk δ) (calls : List (Word × AbsState δ)) {pc : Word}
    (h : pc ∈ (w.propagateAll calls).worklist) :
    pc ∈ w.worklist ∨ w.Raised (w.propagateAll calls) pc := by
  induction calls generalizing w with
  | nil => exact Or.inl h
  | cons call calls ih =>
    rcases ih _ h with hmem | ⟨st'', hst'', hlt⟩
    · rcases raised_or_mem_propagate w call hmem with hmem | ⟨st', hst', hlt⟩
      · exact Or.inl hmem
      · obtain ⟨st'', hst'', hle⟩ := rises_propagateAll (w.propagate call) calls pc st' hst'
        exact Or.inr ⟨st'', hst'', fun st hst => (hlt st hst).trans_le hle⟩
    · refine Or.inr ⟨st'', hst'', fun st hst => ?_⟩
      obtain ⟨st', hst', hle⟩ := rises_propagate w call pc st hst
      exact hle.trans_lt (hlt st' hst')

theorem propagate_worklist_of_same (w : Walk δ) (call : Word × AbsState δ)
    (h : (w.propagate call).inStates = w.inStates) : (w.propagate call).worklist = w.worklist := by
  obtain ⟨q, state⟩ := call
  cases hold : w.inStates[q]? with
  | none =>
    simp only [propagate, hold] at h
    have hq := congrArg (fun m => m[q]?) h
    simp [hold] at hq
  | some old =>
    by_cases hc : (join state old).changed = true
    · rcases propagate_cases w q state with ⟨hnone, -⟩ | ⟨old', hold', hin, -⟩
      · simp [hold] at hnone
      · rw [hold, Option.some.injEq] at hold'
        subst hold'
        have hq := congrArg (fun m => m[q]?) (hin.symm.trans h)
        simp only [Std.ExtTreeMap.getElem?_insert_self, hold, Option.some.injEq] at hq
        exact absurd hq ((join_changed_iff _ _).mp hc)
    · simp [propagate, hold, hc]

/-- Calls that move no state queue nothing. -/
theorem propagateAll_worklist_of_same (w : Walk δ) (calls : List (Word × AbsState δ))
    (h : (w.propagateAll calls).inStates = w.inStates) :
    (w.propagateAll calls).worklist = w.worklist := by
  induction calls generalizing w with
  | nil => rfl
  | cons call calls ih =>
    have hback : (w.propagate call).Rises w := by
      intro pc st hst
      obtain ⟨st', hst', hle⟩ := rises_propagateAll (w.propagate call) calls pc st hst
      exact ⟨st', h ▸ hst', hle⟩
    have hsame := (rises_propagate w call).antisymm hback
    have hrest : (w.propagateAll (call :: calls)).inStates = (w.propagate call).inStates :=
      h.trans hsame
    exact (ih (w.propagate call) hrest).trans (propagate_worklist_of_same w call hsame.symm)

/-- How far each address has got, slots aside. -/
def level (w : Walk δ) (pc : Word) : WithBot (Scalars δ) := (w.inStates[pc]?).map AbsState.scalars

/-- How far the slots of `K` have got at each address. -/
def fill (K : Finset δ) (w : Walk δ) (pc : Word) (k : K) : WithBot (AbsVal δ) :=
  (w.inStates[pc]?).bind fun s => AbsState.slotView s.slots k

/-- The slots in `K` hold all that a state names and all that its instruction can create. -/
def Inside (env : Env δ) (K : Finset δ) (w : Walk δ) : Prop :=
  ∀ (pc : Word) (s : AbsState δ), w.inStates[pc]? = some s → s.Within (· ∈ K) ∧
    ∀ insn, env.decodeAt pc = some insn → ∀ k ∈ createdSlots insn s, k ∈ K

/-- What the iteration needs to know: a pending address has a state, and bounds are 64-bit ones. -/
structure Tame (w : Walk δ) : Prop where
  reached : ∀ pc ∈ w.worklist, ∃ s : AbsState δ, w.inStates[pc]? = some s
  within : ∀ (pc : Word) (s : AbsState δ), w.inStates[pc]? = some s → s.Within fun _ => True

theorem exists_inside {env : Env δ} {w : Walk δ} (h : w.Tame) : ∃ K, w.Inside env K := by
  classical
  refine ⟨(w.inStates.toList.flatMap fun e => e.2.slots.keys ++
    (env.decodeAt e.1).toList.flatMap fun insn => createdSlots insn e.2).toFinset, ?_⟩
  intro pc s hs
  have hmem := Std.ExtTreeMap.mem_toList_iff_getElem?_eq_some.mpr hs
  refine ⟨⟨fun k v hv => ?_, (h.within pc s hs).tbl⟩, fun insn hd k hk => ?_⟩
  · rw [List.mem_toFinset, List.mem_flatMap]
    refine ⟨(pc, s), hmem, List.mem_append_left _ ?_⟩
    rw [Std.ExtTreeMap.mem_keys, Std.ExtTreeMap.mem_iff_isSome_getElem?, hv]
    rfl
  · rw [List.mem_toFinset, List.mem_flatMap]
    refine ⟨(pc, s), hmem, List.mem_append_right _ ?_⟩
    exact List.mem_flatMap.mpr ⟨insn, by simp [hd], hk⟩

theorem Rises.level_le {w w' : Walk δ} (h : w.Rises w') : w.level ≤ w'.level := by
  intro pc
  unfold level
  cases hs : w.inStates[pc]? with
  | none => exact bot_le (α := WithBot (Scalars δ))
  | some s =>
    obtain ⟨s', hs', hle⟩ := h pc s hs
    rw [hs']
    exact WithBot.coe_le_coe.mpr (AbsState.scalars_mono hle)

theorem Rises.fill_le {w w' : Walk δ} (h : w.Rises w') (K : Finset δ) : fill K w ≤ fill K w' := by
  intro pc k
  unfold fill
  cases hs : w.inStates[pc]? with
  | none => exact bot_le (α := WithBot (AbsVal δ))
  | some s =>
    obtain ⟨s', hs', hle⟩ := h pc s hs
    rw [hs']
    exact (AbsState.le_iff.mp hle).2.1 k

/-- Walks that stand at the same height are the same, as far as states go. -/
theorem inStates_eq {env : Env δ} {w w' : Walk δ} {K : Finset δ} (h : w.Inside env K)
    (h' : w'.Inside env K) (hlevel : w.level = w'.level) (hfill : fill K w = fill K w') :
    w.inStates = w'.inStates := by
  apply Std.ExtTreeMap.ext_getElem?
  intro pc
  have hpc := congrFun hlevel pc
  unfold level at hpc
  cases hs : w.inStates[pc]? with
  | none =>
    rw [hs, Option.map_none] at hpc
    exact (Option.map_eq_none_iff.mp hpc.symm).symm
  | some s =>
    rw [hs, Option.map_some] at hpc
    obtain ⟨s', hs', hscalars⟩ := Option.map_eq_some_iff.mp hpc.symm
    have hslots : ∀ k, AbsState.slotView s.slots k = AbsState.slotView s'.slots k := by
      intro k
      by_cases hk : k ∈ K
      · have hview := congrFun (congrFun hfill pc) ⟨k, hk⟩
        unfold fill at hview
        rw [hs, hs'] at hview
        exact hview
      · have hnone : s.slots[k]? = none :=
          Option.eq_none_iff_forall_ne_some.mpr fun v hv => hk ((h pc s hs).1.slots k v hv)
        have hnone' : s'.slots[k]? = none :=
          Option.eq_none_iff_forall_ne_some.mpr fun v hv => hk ((h' pc s' hs').1.slots k v hv)
        unfold AbsState.slotView
        rw [hnone, hnone']
    rw [hs', AbsState.ext_scalars (h pc s hs).1 (h' pc s' hs').1 hscalars.symm hslots]

/-- `Propagate` moves no state out of a region that holds what it is given. -/
theorem within_propagateAll {K : δ → Prop} {w : Walk δ} {calls : List (Word × AbsState δ)}
    (h : ∀ (pc : Word) (s : AbsState δ), w.inStates[pc]? = some s → s.Within K)
    (hc : ∀ call ∈ calls, call.2.Within K) {pc : Word} {s : AbsState δ}
    (hs : (w.propagateAll calls).inStates[pc]? = some s) : s.Within K := by
  induction calls generalizing w with
  | nil => exact h pc s hs
  | cons call calls ih =>
    refine ih (w := w.propagate call) ?_ (fun c hm => hc c (List.mem_cons_of_mem _ hm)) hs
    intro q t ht
    obtain ⟨p, state⟩ := call
    have hstate : state.Within K := hc (p, state) List.mem_cons_self
    rcases propagate_cases w p state with ⟨-, hin, -⟩ | ⟨old, hold, hin, -⟩
    · rw [hin, Std.ExtTreeMap.getElem?_insert] at ht
      by_cases hq : p = q
      · simp only [hq, Std.compare_self, if_true, Option.some.injEq] at ht
        exact ht ▸ hstate
      · exact h q t (by simpa [hq] using ht)
    · rw [hin, Std.ExtTreeMap.getElem?_insert] at ht
      by_cases hq : p = q
      · simp only [hq, Std.compare_self, if_true, Option.some.injEq] at ht
        exact ht ▸ (h p old hold).join hstate
      · exact h q t (by simpa [hq] using ht)

end Walk

/-- What an instruction hands to its successors names no slot but the ones its own state names
and the ones it creates. -/
theorem Env.within_callsFrom {env : Env δ} {K : δ → Prop} {pc : Word} {s : AbsState δ}
    (h : s.Within K)
    (hc : ∀ insn, env.decodeAt pc = some insn → ∀ k ∈ createdSlots insn s, K k) :
    ∀ call ∈ env.callsFrom pc s, call.2.Within K := by
  intro call hcall
  unfold callsFrom at hcall
  split at hcall
  · cases hcall
  · rename_i insn hd
    obtain ⟨e, -, rfl⟩ := List.mem_map.mp hcall
    have hafter := h.transfer env.z (hc insn hd)
    unfold edgeState
    dsimp only
    split
    · exact hafter.transferEdge .fallThrough
    · exact hafter.transferEdge .taken
    · exact hafter
    · exact hafter

namespace Walk
variable {env : Env δ} {w : Walk δ}

/-- `Walk.promote` moves nothing but the order of the worklist. -/
theorem mem_promote {pc : Word} (h : pc ∈ w.worklist) (q : Word) :
    q ∈ (w.promote pc).worklist ↔ q ∈ w.worklist := (List.perm_cons_erase h).mem_iff.symm

theorem length_promote {pc : Word} (h : pc ∈ w.worklist) :
    (w.promote pc).worklist.length = w.worklist.length := (List.perm_cons_erase h).length_eq.symm

theorem serve_eq (env : Env δ) (w : Walk δ) (pc : Word) :
    w.serve env pc = ((w.promote pc).begin env pc).propagateAll
      (env.callsFrom pc ((w.inStates[pc]?).getD .init)) := rfl

theorem rises_serve (env : Env δ) (w : Walk δ) (pc : Word) : w.Rises (w.serve env pc) := by
  have hbegin : w.Rises ((w.promote pc).begin env pc) := by
    intro q st hst
    exact ⟨st, by simpa [promote] using hst, le_refl st⟩
  exact hbegin.trans (rises_propagateAll _ _)

/-- Serving an address keeps the states in a region that holds them and what it creates. -/
theorem within_serve {K : δ → Prop} {pc : Word} {s : AbsState δ} (hs : w.inStates[pc]? = some s)
    (h : ∀ (q : Word) (t : AbsState δ), w.inStates[q]? = some t → t.Within K)
    (hc : ∀ insn, env.decodeAt pc = some insn → ∀ k ∈ createdSlots insn s, K k) {q : Word}
    {t : AbsState δ} (ht : (w.serve env pc).inStates[q]? = some t) : t.Within K := by
  rw [serve_eq, hs, Option.getD_some] at ht
  refine within_propagateAll (fun p u hu => h p u ?_) (Env.within_callsFrom (h pc s hs) hc) ht
  simpa [promote] using hu

theorem Tame.propagateAll (h : w.Tame) {calls : List (Word × AbsState δ)}
    (hc : ∀ call ∈ calls, call.2.Within fun _ => True) : (w.propagateAll calls).Tame := by
  refine ⟨fun pc hpc => ?_, fun pc s hs => within_propagateAll h.within hc hs⟩
  rcases raised_or_mem_propagateAll w calls hpc with hmem | ⟨st, hst, -⟩
  · obtain ⟨s, hs⟩ := h.reached pc hmem
    obtain ⟨s', hs', -⟩ := rises_propagateAll w calls pc s hs
    exact ⟨s', hs'⟩
  · exact ⟨st, hst⟩

/-- What is pending after an iteration was pending before it, or has strictly risen in it. -/
theorem raised_or_mem_serve {pc q : Word} (h : q ∈ (w.serve env pc).worklist) :
    q ∈ w.worklist.erase pc ∨ w.Raised (w.serve env pc) q := by
  rw [serve_eq] at h ⊢
  rcases raised_or_mem_propagateAll _ _ h with hmem | ⟨st, hst, hlt⟩
  · rw [begin_worklist] at hmem
    exact Or.inl hmem
  · refine Or.inr ⟨st, hst, fun old hold => hlt old ?_⟩
    simpa [promote] using hold

theorem Tame.serve (h : w.Tame) {pc : Word} (hpc : pc ∈ w.worklist) : (w.serve env pc).Tame := by
  obtain ⟨s, hs⟩ := h.reached pc hpc
  refine ⟨fun q hq => ?_, fun q t ht => within_serve hs h.within (fun _ _ _ _ => trivial) ht⟩
  rcases raised_or_mem_serve hq with hmem | ⟨st, hst, -⟩
  · obtain ⟨t, ht⟩ := h.reached q (List.mem_of_mem_erase hmem)
    obtain ⟨t', ht', -⟩ := rises_serve env w pc q t ht
    exact ⟨t', ht'⟩
  · exact ⟨st, hst⟩

/-- Where slots are created depends on the registers alone, so an iteration that only fills slots
creates none outside the ones its states could create before. -/
theorem Inside.serve {K : Finset δ} (h : w.Inside env K) (ht : w.Tame) {pc : Word}
    (hpc : pc ∈ w.worklist) (hlevel : w.level = (w.serve env pc).level) :
    (w.serve env pc).Inside env K := by
  obtain ⟨s, hs⟩ := ht.reached pc hpc
  intro q t hq
  refine ⟨within_serve hs (fun p u hu => (h p u hu).1) (h pc s hs).2 hq, ?_⟩
  have hsame := congrFun hlevel q
  unfold level at hsame
  rw [hq, Option.map_some] at hsame
  obtain ⟨u, hu, hscalars⟩ := Option.map_eq_some_iff.mp hsame
  have hgpr : t.gpr = u.gpr := (congrArg Prod.fst hscalars).symm
  intro insn hd k hk
  rw [createdSlots_congr hgpr] at hk
  exact (h q u hu).2 insn hd k hk

theorem rising_serves (env : Env δ) :
    Lib.Rising (fun w w' : Walk δ => w.Tame ∧ w.Serves env w') level (Inside env) fill
      fun w => w.worklist.length where
  level_le := by
    rintro w w' ⟨-, pc, -, rfl⟩
    exact (rises_serve env w pc).level_le
  inside h := exists_inside h.1
  stays := by
    rintro w w' K ⟨ht, pc, hpc, rfl⟩ hlevel hin
    exact hin.serve ht hpc hlevel
  fill_le := by
    rintro w w' K ⟨-, pc, -, rfl⟩ - -
    exact (rises_serve env w pc).fill_le K
  work_lt := by
    rintro w w' K ⟨ht, pc, hpc, rfl⟩ hlevel hin hfill
    have hsame := inStates_eq hin (hin.serve ht hpc hlevel) hlevel hfill
    rw [serve_eq] at hsame ⊢
    have hback : ((w.promote pc).begin env pc).inStates = w.inStates := begin_inStates pc
    rw [propagateAll_worklist_of_same _ _ (hsame.symm.trans hback.symm), begin_worklist,
      List.length_tail, length_promote hpc]
    have := List.length_pos_of_mem hpc
    omega

/-- No walk can be served for ever. -/
theorem Tame.acc (h : w.Tame) : Acc (flip (Serves env)) w := by
  have hacc := (rising_serves env).acc w
  induction hacc with
  | intro w _ ih =>
    refine Acc.intro w fun w' hs => ?_
    obtain ⟨pc, hpc, rfl⟩ := hs
    exact ih _ ⟨h, pc, hpc, rfl⟩ (h.serve hpc)

/-- The code's policy serves the head. -/
theorem visit_eq_serve (env : Env δ) {pc : Word} {state : AbsState δ}
    (h : w.popped = some (pc, state)) :
    pc ∈ w.worklist ∧ w.visit env pc state = w.serve env pc := by
  obtain ⟨rest, hw, rfl⟩ := popped_eq_some h
  have hpromote : w.promote pc = w := by
    unfold promote
    rw [hw, List.erase_cons_head, ← hw]
  exact ⟨by simp [hw], by rw [serve, hpromote]⟩

theorem Tame.visit (h : w.Tame) {pc : Word} {state : AbsState δ}
    (hp : w.popped = some (pc, state)) : (w.visit env pc state).Tame := by
  obtain ⟨hpc, hv⟩ := visit_eq_serve env hp
  rw [hv]
  exact h.serve hpc

/-- Enough fuel empties the worklist, and more makes no difference. -/
theorem Tame.drainFor (env : Env δ) (h : w.Tame) : ∃ n, (w.drainFor env n).worklist = [] ∧
    (w.drainFor env n).hitCap = w.hitCap ∧ ∀ m, n ≤ m → w.drainFor env m = w.drainFor env n := by
  have hacc : Acc (flip (Serves env)) w := h.acc
  induction hacc with
  | intro w _ ih =>
    cases hp : w.popped with
    | none =>
      have hnil : ∀ m, w.drainFor env m = w := by
        intro m
        cases m <;> simp only [Walk.drainFor, hp]
      refine ⟨0, ?_, ?_, fun m _ => (hnil m).trans (hnil 0).symm⟩
      · rw [hnil]
        simpa [popped] using hp
      · rw [hnil]
    | some next =>
      obtain ⟨pc, state⟩ := next
      obtain ⟨hpc, hv⟩ := visit_eq_serve env hp
      obtain ⟨n, hnil, hcap, hmore⟩ := ih _ ⟨pc, hpc, hv⟩ (h.visit hp)
      have hstep : ∀ m, w.drainFor env (m + 1) = (w.visit env pc state).drainFor env m := by
        intro m
        simp only [Walk.drainFor, hp]
      have hcap' : (w.visit env pc state).hitCap = w.hitCap := by simp [visit_eq]
      refine ⟨n + 1, by rw [hstep]; exact hnil, by rw [hstep]; exact hcap.trans hcap', ?_⟩
      intro m hm
      obtain ⟨m, rfl⟩ : ∃ m', m = m' + 1 := ⟨m - 1, by omega⟩
      rw [hstep, hstep]
      exact hmore m (by omega)

end Walk

theorem AbsState.putGpr_tbl (s : AbsState δ) (r : ℕ) (v : AbsVal δ) : (s.putGpr r v).tbl = s.tbl := by
  unfold putGpr
  split_ifs <;> rfl

theorem AbsState.seedReg_tbl (row : CFIRow δ) (atFunctionEntry : Bool) (s : AbsState δ)
    (r : Fin 17) : (seedReg row atFunctionEntry s r).tbl = s.tbl := by
  unfold seedReg
  split
  · split_ifs
    · rfl
    · exact s.putGpr_tbl _ _
  · rfl
  · rfl
  all_goals exact s.putGpr_tbl _ _

/-- A seeded state knows nothing of tables. -/
theorem AbsState.seedFromRow_within (row : CFIRow δ) (atFunctionEntry : Bool) :
    (seedFromRow row atFunctionEntry).Within fun _ => True := by
  have hfold : ∀ (regs : List (Fin 17)) (s : AbsState δ),
      (regs.foldl (seedReg row atFunctionEntry) s).tbl = s.tbl := by
    intro regs
    induction regs with
    | nil => exact fun _ => rfl
    | cons r regs ih => exact fun s => (ih _).trans (seedReg_tbl row atFunctionEntry s r)
  have htbl : (seedFromRow row atFunctionEntry).tbl = fun _ => .none := by
    unfold seedFromRow
    dsimp only
    split
    · rw [putGpr_tbl, putGpr_tbl, hfold]
      rfl
    · rw [putGpr_tbl, hfold]
      rfl
  exact ⟨fun _ _ _ => trivial, fun r => by rw [htbl]; exact TableVal.bounded_none⟩

namespace Env
variable (env : Env δ) (row : CFIRow δ)

/-- The same run under another cap. -/
def capped (m : ℕ) : Env δ := { env with options := { env.options with maxIterations := m } }

theorem probeFrom_capped (m : ℕ) (addr pc : Word) (state : AbsState δ) (fuel index : ℕ) :
    (env.capped m).probeFrom addr pc state fuel index = env.probeFrom addr pc state fuel index := by
  induction fuel generalizing index with
  | zero => rfl
  | succ fuel ih =>
    simp only [probeFrom, ih]
    rfl

theorem visit_capped (m : ℕ) (w : Walk δ) (pc : Word) (state : AbsState δ) :
    w.visit (env.capped m) pc state = w.visit env pc state := by
  have htargets : ∀ insn, (env.capped m).tableTargets insn state = env.tableTargets insn state := by
    intro insn
    simp only [tableTargets, probeJumpTable, probeFrom_capped]
    rfl
  have hedges : ∀ insn, (env.capped m).edges insn state = env.edges insn state := by
    intro insn
    simp only [edges, tableEdges, htargets]
    rfl
  have hcalls : (env.capped m).callsFrom pc state = env.callsFrom pc state := by
    simp only [callsFrom, hedges]
    rfl
  have hbegin : w.begin (env.capped m) pc = w.begin env pc := rfl
  rw [Walk.visit_eq, Walk.visit_eq, hcalls, hbegin]

theorem drainFor_capped (m fuel : ℕ) (w : Walk δ) :
    w.drainFor (env.capped m) fuel = w.drainFor env fuel := by
  induction fuel generalizing w with
  | zero => rfl
  | succ fuel ih =>
    simp only [Walk.drainFor]
    cases w.popped with
    | none => rfl
    | some next =>
      dsimp only
      rw [visit_capped]
      exact ih _

theorem tame_first : (Walk.init.propagate (env.cfi.pcBegin,
    AbsState.seedFromRow row row.isCanonicalEntry)).Tame := by
  have hinit : (Walk.init : Walk δ).Tame :=
    ⟨fun pc hpc => absurd hpc List.not_mem_nil, fun pc s hs => by simp [Walk.init] at hs⟩
  have hseed : ∀ call ∈ [(env.cfi.pcBegin, AbsState.seedFromRow row row.isCanonicalEntry)],
      call.2.Within fun _ => True := by
    intro call hcall
    rw [List.mem_singleton.mp hcall]
    exact AbsState.seedFromRow_within row _
  exact hinit.propagateAll hseed

variable {env}

theorem tame_drainFor {w : Walk δ} (h : w.Tame) (fuel : ℕ) : (w.drainFor env fuel).Tame :=
  Walk.drainFor_preserves (fun _ _ _ hp hw => hw.visit hp) (fun _ hw => ⟨hw.reached, hw.within⟩)
    fuel w h

theorem tame_reseed {w : Walk δ} (h : w.Tame) : (w.propagateAll (env.unreachedPads w)).Tame := by
  refine h.propagateAll fun call hcall => ?_
  obtain ⟨lp, -, hlp⟩ := List.mem_filterMap.mp hcall
  split_ifs at hlp
  obtain ⟨r, -, rfl⟩ := Option.map_eq_some_iff.mp hlp
  exact AbsState.seedFromRow_within r false

theorem LoopHead.tame {w : Walk δ} (h : env.LoopHead row w) : w.Tame := by
  induction h with
  | first => exact env.tame_first row
  | next _ hp ih => exact ih.visit hp
  | reseeded => exact tame_reseed (tame_drainFor (env.tame_first row) _)

/-- Past some cap a run settles in one and the same walk. -/
theorem exists_settle (env : Env δ) (row : CFIRow δ) : ∃ (n : ℕ) (w : Walk δ), w.hitCap = false ∧
    w.worklist = [] ∧ ∀ m, n ≤ m → (env.capped m).settle row = w := by
  set w₀ := Walk.init.propagate (env.cfi.pcBegin, AbsState.seedFromRow row row.isCanonicalEntry)
    with hw₀
  obtain ⟨n₁, hnil₁, hcap₁, hmore₁⟩ := (env.tame_first row).drainFor env
  set w₁ := w₀.drainFor env n₁ with hw₁
  set w₂ := w₁.propagateAll (env.unreachedPads w₁) with hw₂
  have htame : w₂.Tame := tame_reseed (tame_drainFor (env.tame_first row) n₁)
  obtain ⟨n₂, hnil₂, hcap₂, hmore₂⟩ := htame.drainFor env
  have hcap : w₁.hitCap = false := hcap₁.trans (Walk.propagate_hitCap _ _)
  have hfirst : ∀ m, n₁ + w₀.iterations ≤ m → (env.capped m).firstWalk row = w₁ := by
    intro m hm
    have hdrain : (env.capped m).firstWalk row = w₀.drainFor (env.capped m) (m - w₀.iterations) := rfl
    rw [hdrain, drainFor_capped]
    exact hmore₁ _ (by omega)
  have hsettle : ∀ m, n₁ + w₀.iterations ≤ m → n₂ + w₂.iterations ≤ m →
      (env.capped m).settle row =
        if (env.unreachedPads w₁).isEmpty then w₁ else w₂.drainFor env n₂ := by
    intro m hm₁ hm₂
    have hseeded : (env.capped m).settle row = if (env.unreachedPads w₁).isEmpty then w₁
        else w₂.drainFor (env.capped m) (m - w₂.iterations) := by
      rw [settle, hfirst m hm₁]
      rfl
    rw [hseeded, drainFor_capped, hmore₂ _ (by omega)]
  refine ⟨(n₁ + w₀.iterations) + (n₂ + w₂.iterations), _, ?_, ?_,
    fun m hm => hsettle m (by omega) (by omega)⟩
  · split_ifs
    · exact hcap
    · exact hcap₂.trans ((Walk.propagateAll_hitCap _ _).trans hcap)
  · split_ifs
    · exact hnil₁
    · exact hnil₂

/-- `Drain` ends by itself. From some cap on, the cap is never met in either call and makes no
difference; no order of serving pending addresses goes on for ever; and an address goes back on
the worklist only after its state has strictly risen. -/
theorem drain_terminates (env : Env δ) (row : CFIRow δ) :
    (∃ n, ∀ m, n ≤ m → ((env.capped m).settle row).hitCap = false ∧
      ((env.capped m).settle row).worklist = [] ∧
      (env.capped m).settle row = (env.capped n).settle row) ∧
    (¬ ∃ run : ℕ → Walk δ, env.LoopHead row (run 0) ∧ ∀ i, (run i).Serves env (run (i + 1))) ∧
    ∀ (w : Walk δ) (pc q : Word), env.LoopHead row w → pc ∈ w.worklist →
      q ∈ (w.serve env pc).worklist → q ∈ w.worklist.erase pc ∨ w.Raised (w.serve env pc) q := by
  refine ⟨?_, ?_, fun w pc q _ _ hq => Walk.raised_or_mem_serve hq⟩
  · obtain ⟨n, w, hcap, hnil, hw⟩ := env.exists_settle row
    refine ⟨n, fun m hm => ?_⟩
    rw [hw m hm, hw n le_rfl]
    exact ⟨hcap, hnil, rfl⟩
  · rintro ⟨run, hhead, hrun⟩
    have hacc : Acc (flip (Walk.Serves env)) (run 0) := (hhead.tame row).acc
    exact not_acc_iff_exists_descending_chain.mpr ⟨run, rfl, hrun⟩ hacc

end Env

end UnwindCheck
