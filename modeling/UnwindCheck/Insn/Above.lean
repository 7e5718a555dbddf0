import UnwindCheck.Insn.Semantics
import UnwindCheck.State.Lattice

/-! Writing a register or a slot in a state, in a higher one, or in both: when the one stays above
the other. -/
namespace UnwindCheck
variable {δ : Type}

namespace AbsVal

/-- The frame address that the higher of two values has learnt. -/
def learnt : AbsVal δ → AbsVal δ → Option δ
  | .top, .cfaRel d => some d
  | _, _ => none

/-- The frame address that the higher of two values, a conflict, has lost. -/
def lost : AbsVal δ → AbsVal δ → Option δ
  | .cfaRel d, .bottom => some d
  | _, _ => none

/-- What a slot holds after the value is stored there: a slot that would hold `top` is erased. -/
def stored (v : AbsVal δ) : WithBot (AbsVal δ) := if v.isTop then ⊥ else v

variable [DecidableEq δ] {v w : AbsVal δ}

/-- The ways two values, one above the other, can be frame addresses. -/
theorem frame_cases (h : v ≤ w) :
    (∃ d, v = .cfaRel d ∧ w = .cfaRel d) ∨ ((∀ d, v ≠ .cfaRel d) ∧ ∀ d, w ≠ .cfaRel d) ∨
      (∃ d, v = .top ∧ w = .cfaRel d) ∨ ∃ d, v = .cfaRel d ∧ w = .bottom := by
  rw [le_def] at h
  cases v <;> cases w <;> simp_all

theorem stored_mono (h : v ≤ w) : v.stored ≤ w.stored := by
  by_cases hv : v.isTop = true
  · simp [stored, hv]
  · have hw : ¬ w.isTop = true := by
      rw [isTop_iff] at hv ⊢
      rintro rfl
      rw [le_def] at h
      simp_all
    rw [stored, stored, if_neg hv, if_neg hw]
    exact WithBot.coe_le_coe.mpr h

end AbsVal

namespace TableVal

theorem le_iff {a b : TableVal} :
    a ≤ b ↔ a.kind ≤ b.kind ∧ a.valueBound ≤ b.valueBound ∧ a.tableBound ≤ b.tableBound := Iff.rfl

theorem applyGuardBound_le (t : TableVal) (b : ℕ) : t.applyGuardBound b ≤ t := by
  rw [le_iff]
  exact ⟨le_rfl, min_le_left _ _, min_le_left _ _⟩

theorem applyGuardBound_mono {a b : TableVal} (h : a ≤ b) (n : ℕ) :
    a.applyGuardBound n ≤ b.applyGuardBound n := by
  obtain ⟨hk, hv, ht⟩ := le_iff.mp h
  exact le_iff.mpr ⟨hk, min_le_min_right n hv, min_le_min_right n ht⟩

end TableVal

section Extensions
variable {src src' dst dst' : TableVal} {bits guardBound guardBound' : ℕ}

theorem applyZeroExtendedFrom_mono (hs : src ≤ src') (hg : guardBound ≤ guardBound')
    (hd : dst ≤ dst') :
    applyZeroExtendedFrom src bits guardBound dst ≤
      applyZeroExtendedFrom src' bits guardBound' dst' := by
  obtain ⟨-, hv, ht⟩ := TableVal.le_iff.mp hs
  obtain ⟨hk, -, -⟩ := TableVal.le_iff.mp hd
  exact TableVal.le_iff.mpr ⟨hk, min_le_min (min_le_min_left _ hv) hg, min_le_min ht hg⟩

/-- A sign extension forgets its bounds where the sign bit may be set, so from some bound on. -/
theorem applySignExtendedFrom_mono (hs : src ≤ src') (hg : guardBound ≤ guardBound')
    (htop : guardBound ≤ kBoundTop) (hd : dst ≤ dst') :
    applySignExtendedFrom src bits guardBound dst ≤
      applySignExtendedFrom src' bits guardBound' dst' := by
  obtain ⟨-, hv, ht⟩ := TableVal.le_iff.mp hs
  obtain ⟨hk, -, -⟩ := TableVal.le_iff.mp hd
  have hlow : min (min (widthBound bits) src.valueBound) guardBound ≤
      min (min (widthBound bits) src'.valueBound) guardBound' :=
    min_le_min (min_le_min_left _ hv) hg
  unfold applySignExtendedFrom
  dsimp only
  split_ifs with h h' h'
  · exact TableVal.le_iff.mpr ⟨hk, le_rfl, le_rfl⟩
  · exact absurd (h.imp_right fun h => h.trans hlow) h'
  · have hwide := widthBound_le bits
    refine TableVal.le_iff.mpr ⟨hk, ?_, ?_⟩
    · exact (min_le_right _ _).trans htop
    · exact (min_le_right _ _).trans htop
  · exact TableVal.le_iff.mpr ⟨hk, hlow, min_le_min ht hg⟩

end Extensions

variable [Offset δ]

namespace AbsState

/-- No slot at these offsets is tracked. -/
def Vacant (s : AbsState δ) (at' : δ → Bool) : Prop := ∀ e ∈ s.slots.toList, at' e.1 = false

theorem Vacant.slotView {s : AbsState δ} {at' : δ → Bool} (h : s.Vacant at') {k : δ}
    (hk : at' k = true) : slotView s.slots k = ⊥ := by
  cases hget : s.slots[k]? with
  | none => exact hget
  | some v =>
    have hmem := Std.ExtTreeMap.mem_toList_iff_getElem?_eq_some.mpr hget
    have hno := h (k, v) hmem
    simp [hk] at hno

/-- What a state leaves untracked stays so where slots only go. -/
theorem Vacant.anti {s s' : AbsState δ} {at' : δ → Bool} (h : s.Vacant at')
    (hs : ∀ k, AbsState.slotView s'.slots k ≤ AbsState.slotView s.slots k) : s'.Vacant at' := by
  intro e he
  by_contra hat
  have hbot := h.slotView (Bool.not_eq_false _ ▸ hat)
  have hget : AbsState.slotView s'.slots e.1 = some e.2 :=
    Std.ExtTreeMap.mem_toList_iff_getElem?_eq_some.mp he
  have hle := hs e.1
  rw [hbot, le_bot_iff, hget] at hle
  cases hle

/-- Nothing is known about the values of the register: no table, no bound, no comparison. -/
def Bare (s : AbsState δ) (r : Fin 16) : Prop :=
  .none ≤ s.tbl r ∧ s.lastCmp.any (·.reg = r) = false

/-- Writing a value to a register drops the slot: the stack ends above it and the red zone. -/
def drops (r : Fin 16) (v : AbsVal δ) (k : δ) : Bool :=
  match v with
  | .cfaRel d => r = kDWARFRsp && decide (k < d - Offset.ofInt kRedZoneBytes)
  | _ => false

section Views
variable (s : AbsState δ)

theorem slotView_setSlot (k j : δ) (v : AbsVal δ) :
    slotView (s.setSlot k v).slots j = if k = j then v.stored else slotView s.slots j := by
  have hget : (s.setSlot k v).slots[j]? =
      if k = j then (if v.isTop then none else some v) else s.slots[j]? := by
    unfold setSlot
    split_ifs with hv hk hk
    · simp [hk]
    · simp [hk, Std.ExtTreeMap.getElem?_erase]
    · simp [hk]
    · simp [hk, Std.ExtTreeMap.getElem?_insert]
  by_cases hk : k = j
  · rw [if_pos hk] at hget ⊢
    exact hget
  · rw [if_neg hk] at hget ⊢
    exact hget

/-- What filtering the slots leaves of one. -/
theorem slotView_filter (p : δ → Bool) (k : δ) :
    slotView (s.slots.filter fun k _ => !p k) k = if p k then ⊥ else slotView s.slots k := by
  have hget : (s.slots.filter fun k _ => !p k)[k]? = if p k then none else s.slots[k]? := by
    rw [Std.ExtTreeMap.getElem?_filter']
    cases hk : p k <;> cases hget : s.slots[k]? <;> simp_all [Option.filter]
  cases hk : p k with
  | false =>
    rw [hk] at hget
    exact hget
  | true =>
    rw [hk] at hget
    exact hget

theorem slotView_dropSlotsBelow (d k : δ) :
    slotView (s.dropSlotsBelow d).slots k = if k < d then ⊥ else slotView s.slots k := by
  have h : slotView (s.dropSlotsBelow d).slots k =
      if decide (k < d) = true then ⊥ else slotView s.slots k := s.slotView_filter _ k
  simpa only [decide_eq_true_eq] using h

/-- The slot at `k` lies in the `size` bytes from `start` on, or reaches into them. -/
def overlaps (start size k : δ) : Bool :=
  decide (start - Offset.ofInt 7 ≤ k) && decide (k < start + size)

theorem slotView_eraseSlots (start size k : δ) :
    slotView (eraseSlots s start size).slots k =
      if ¬ size ≤ Offset.ofInt 0 ∧ overlaps start size k then ⊥ else slotView s.slots k := by
  unfold eraseSlots
  by_cases hsize : size ≤ Offset.ofInt 0
  · rw [if_pos hsize, if_neg fun h => h.1 hsize]
  · have h := s.slotView_filter (overlaps start size) k
    simp only [hsize, not_false_eq_true, true_and]
    exact h

theorem slotView_setReg (r : Fin 16) (v : AbsVal δ) (t : TableVal) (k : δ) :
    slotView (s.setReg r v t).slots k = if drops r v k then ⊥ else slotView s.slots k := by
  cases v with
  | cfaRel d =>
    by_cases hr : r = kDWARFRsp
    · simp only [setReg, hr, if_true, dropDeadSlots, slotView_dropSlotsBelow, drops]
      simp
    · simp [setReg, hr, drops]
  | top | bottom | origReg | other => simp [setReg, drops]

end Views

section Order
variable {s t : AbsState δ}

/-- What writing `v` in the lower and `w` in the higher state to a register asks: where only the
higher one is given a frame address for rsp, the lower tracks none of the slots that go. -/
def SteadyWrite (s : AbsState δ) (r : Fin 16) (v w : AbsVal δ) : Prop :=
  r = kDWARFRsp → ∀ d ∈ v.learnt w, s.Vacant (· < d - Offset.ofInt kRedZoneBytes)

theorem SteadyWrite.drops {r : Fin 16} {v w : AbsVal δ} (h : s.SteadyWrite r v w) (hv : v ≤ w) {k : δ}
    (hk : AbsState.drops r w k = true) : AbsState.drops r v k = true ∨ slotView s.slots k = ⊥ := by
  rcases AbsVal.frame_cases hv with ⟨d, rfl, rfl⟩ | ⟨-, hw⟩ | ⟨d, rfl, rfl⟩ | ⟨d, -, rfl⟩
  · exact Or.inl hk
  · cases w with
    | cfaRel d => exact absurd rfl (hw d)
    | top | bottom | origReg | other => cases hk
  · simp only [AbsState.drops, Bool.and_eq_true, decide_eq_true_eq] at hk
    refine Or.inr (Vacant.slotView (h hk.1 d rfl) ?_)
    simpa using hk.2
  · cases hk

theorem setReg_mono (h : s ≤ t) {r : Fin 16} {v w : AbsVal δ} (hv : v ≤ w) {a b : TableVal}
    (ha : a ≤ b) (hw : s.SteadyWrite r v w) : s.setReg r v a ≤ t.setReg r w b := by
  obtain ⟨hgpr, hslots, htbl, hcmp⟩ := le_iff.mp h
  refine le_iff.mpr ⟨fun q => ?_, fun k => ?_, fun q => ?_, ?_⟩
  · rw [setReg_gpr, setReg_gpr, Function.update_apply, Function.update_apply]
    split_ifs
    · exact hv
    · exact hgpr q
  · rw [slotView_setReg, slotView_setReg]
    split_ifs with hs ht ht
    · exact le_rfl
    · exact bot_le
    · exact ((hw.drops hv ht).resolve_left hs).le
    · exact hslots k
  · rw [setReg_tbl, setReg_tbl, Function.update_apply, Function.update_apply]
    split_ifs
    · exact ha
    · exact htbl q
  · rw [setReg_lastCmp, setReg_lastCmp]
    rcases hcmp with hnone | heq
    · exact Or.inl (by rw [hnone]; rfl)
    · exact Or.inr (by rw [heq])

/-- Writing a register in the higher state only. -/
theorem le_setReg (h : s ≤ t) {r : Fin 16} {w : AbsVal δ} (hw : s.gpr r ≤ w) {b : TableVal}
    (hb : s.tbl r ≤ b) (hd : ∀ k, AbsState.drops r w k = true → slotView s.slots k = ⊥) :
    s ≤ t.setReg r w b := by
  obtain ⟨hgpr, hslots, htbl, hcmp⟩ := le_iff.mp h
  refine le_iff.mpr ⟨fun q => ?_, fun k => ?_, fun q => ?_, ?_⟩
  · rw [setReg_gpr, Function.update_apply]
    split_ifs with hq
    · exact hq ▸ hw
    · exact hgpr q
  · rw [slotView_setReg]
    split_ifs with ht
    · exact (hd k ht).le
    · exact hslots k
  · rw [setReg_tbl, Function.update_apply]
    split_ifs with hq
    · exact hq ▸ hb
    · exact htbl q
  · rw [setReg_lastCmp]
    cases ht : t.lastCmp with
    | none => exact Or.inl rfl
    | some g =>
      have hs : s.lastCmp = some g := by simpa [ht] using hcmp
      rw [hs]
      by_cases hg : g.reg = r <;> simp [Option.filter, hg]

/-- Writing a register in the lower state only. -/
theorem setReg_le (h : s ≤ t) {r : Fin 16} {v : AbsVal δ} (hv : v ≤ t.gpr r) {a : TableVal}
    (ha : a ≤ t.tbl r) (hcmp' : t.lastCmp.any (·.reg = r) = false) : s.setReg r v a ≤ t := by
  obtain ⟨hgpr, hslots, htbl, hcmp⟩ := le_iff.mp h
  refine le_iff.mpr ⟨fun q => ?_, fun k => ?_, fun q => ?_, ?_⟩
  · rw [setReg_gpr, Function.update_apply]
    split_ifs with hq
    · exact hq ▸ hv
    · exact hgpr q
  · rw [slotView_setReg]
    split_ifs with ht
    · exact bot_le
    · exact hslots k
  · rw [setReg_tbl, Function.update_apply]
    split_ifs with hq
    · exact hq ▸ ha
    · exact htbl q
  · rw [setReg_lastCmp]
    cases ht : t.lastCmp with
    | none => exact Or.inl rfl
    | some g =>
      have hs : s.lastCmp = some g := by simpa [ht] using hcmp
      have hg : ¬ g.reg = r := by simpa [ht] using hcmp'
      exact Or.inr (by simp [hs, Option.filter, hg])

theorem any_lastCmp_setReg {r q : Fin 16} {v : AbsVal δ} {a : TableVal}
    (h : q = r ∨ s.lastCmp.any (·.reg = q) = false) :
    (s.setReg r v a).lastCmp.any (·.reg = q) = false := by
  rw [setReg_lastCmp]
  cases hs : s.lastCmp with
  | none => rfl
  | some g =>
    by_cases hg : g.reg = r
    · simp [Option.filter, hg]
    · rcases h with rfl | h
      · simp [Option.filter, hg]
      · simpa [Option.filter, hg, hs] using h

theorem setVal_mono (h : s ≤ t) {r : Fin 16} {v w : AbsVal δ} (hv : v ≤ w) (hw : s.SteadyWrite r v w) :
    s.setVal r v ≤ t.setVal r w := setReg_mono h hv le_rfl hw

/-- The same value in both states asks nothing. -/
theorem steadyWrite_self (s : AbsState δ) (r : Fin 16) (v : AbsVal δ) : s.SteadyWrite r v v := by
  intro _ d hd
  cases v <;> cases hd

theorem steadyWrite_of_ne (s : AbsState δ) (r : Fin 16) (v : AbsVal δ) {w : AbsVal δ}
    (hw : ∀ d, w ≠ .cfaRel d) : s.SteadyWrite r v w := by
  intro _ d hd
  cases w with
  | cfaRel d => exact absurd rfl (hw d)
  | top | bottom | origReg | other => cases v <;> cases hd

theorem clobberReg_mono (h : s ≤ t) (r : Fin 16) : s.clobberReg r ≤ t.clobberReg r :=
  setVal_mono h le_rfl (s.steadyWrite_self r _)

theorem modifyTable_mono (h : s ≤ t) (r : Fin 16) {f g : TableVal → TableVal}
    (hf : f (s.tbl r) ≤ g (t.tbl r)) : s.modifyTable r f ≤ t.modifyTable r g := by
  obtain ⟨hgpr, hslots, htbl, hcmp⟩ := le_iff.mp h
  refine le_iff.mpr ⟨hgpr, hslots, fun q => ?_, hcmp⟩
  simp only [modifyTable, Function.update_apply]
  split_ifs with hq
  · exact hq ▸ hf
  · exact htbl q

/-- A change of the slots alone. -/
theorem le_of_slots {s' t' : AbsState δ} (h : s ≤ t) (hs : ∀ k, slotView s'.slots k ≤ slotView t'.slots k)
    (hgs : s'.gpr = s.gpr) (hts : s'.tbl = s.tbl) (hcs : s'.lastCmp = s.lastCmp)
    (hgt : t'.gpr = t.gpr) (htt : t'.tbl = t.tbl) (hct : t'.lastCmp = t.lastCmp) : s' ≤ t' := by
  obtain ⟨hgpr, -, htbl, hcmp⟩ := le_iff.mp h
  refine le_iff.mpr ⟨fun q => ?_, hs, fun q => ?_, ?_⟩
  · rw [hgs, hgt]
    exact hgpr q
  · rw [hts, htt]
    exact htbl q
  · rw [hcs, hct]
    exact hcmp

theorem setSlot_mono (h : s ≤ t) (k : δ) {v w : AbsVal δ} (hv : v ≤ w) :
    s.setSlot k v ≤ t.setSlot k w := by
  apply le_of_slots h _ (by simp) (by simp) (by simp) (by simp) (by simp) (by simp)
  intro j
  rw [slotView_setSlot, slotView_setSlot]
  split_ifs
  · exact AbsVal.stored_mono hv
  · exact (le_iff.mp h).2.1 j

theorem le_setSlot (h : s ≤ t) {k : δ} {w : AbsVal δ} (hk : slotView s.slots k ≤ w.stored) :
    s ≤ t.setSlot k w := by
  apply le_of_slots h _ rfl rfl rfl (by simp) (by simp) (by simp)
  intro j
  rw [slotView_setSlot]
  split_ifs with hj
  · exact hj ▸ hk
  · exact (le_iff.mp h).2.1 j

theorem setSlot_le (h : s ≤ t) {k : δ} {v : AbsVal δ} (hk : v.stored ≤ slotView t.slots k) :
    s.setSlot k v ≤ t := by
  apply le_of_slots h _ (by simp) (by simp) (by simp) rfl rfl rfl
  intro j
  rw [slotView_setSlot]
  split_ifs with hj
  · exact hj ▸ hk
  · exact (le_iff.mp h).2.1 j

theorem dropSlotsBelow_mono (h : s ≤ t) (d : δ) : s.dropSlotsBelow d ≤ t.dropSlotsBelow d := by
  refine le_of_slots h (fun k => ?_) rfl rfl rfl rfl rfl rfl
  rw [slotView_dropSlotsBelow, slotView_dropSlotsBelow]
  split_ifs
  · exact le_rfl
  · exact (le_iff.mp h).2.1 k

theorem le_dropSlotsBelow (h : s ≤ t) {d : δ} (hd : s.Vacant (· < d)) : s ≤ t.dropSlotsBelow d := by
  refine le_of_slots h (fun k => ?_) rfl rfl rfl rfl rfl rfl
  rw [slotView_dropSlotsBelow]
  split_ifs with hk
  · exact (hd.slotView (by simpa using hk)).le
  · exact (le_iff.mp h).2.1 k

theorem dropSlotsBelow_le (h : s ≤ t) (d : δ) : s.dropSlotsBelow d ≤ t := by
  refine le_of_slots h (fun k => ?_) rfl rfl rfl rfl rfl rfl
  rw [slotView_dropSlotsBelow]
  split_ifs
  · exact bot_le
  · exact (le_iff.mp h).2.1 k

section Erase
variable {start size : δ}

theorem eraseSlots_mono (h : s ≤ t) : eraseSlots s start size ≤ eraseSlots t start size := by
  apply le_of_slots h _ (by simp) (by simp) (by simp) (by simp) (by simp) (by simp)
  intro k
  rw [slotView_eraseSlots, slotView_eraseSlots]
  split_ifs
  · exact le_rfl
  · exact (le_iff.mp h).2.1 k

theorem le_eraseSlots (h : s ≤ t) (hv : s.Vacant (overlaps start size)) :
    s ≤ eraseSlots t start size := by
  apply le_of_slots h _ rfl rfl rfl (by simp) (by simp) (by simp)
  intro k
  rw [slotView_eraseSlots]
  split_ifs with hk
  · exact (hv.slotView hk.2).le
  · exact (le_iff.mp h).2.1 k

theorem eraseSlots_le (h : s ≤ t) : eraseSlots s start size ≤ t := by
  apply le_of_slots h _ (by simp) (by simp) (by simp) rfl rfl rfl
  intro k
  rw [slotView_eraseSlots]
  split_ifs
  · exact bot_le
  · exact (le_iff.mp h).2.1 k

end Erase

theorem slot_mono (h : s ≤ t) (k : δ) : s.slot k ≤ t.slot k := get_mono h (.slot k)

theorem table_mono (h : s ≤ t) (r : Option (Fin 16)) : s.table r ≤ t.table r := by
  cases r with
  | none => exact le_rfl
  | some r => exact (le_iff.mp h).2.2.1 r

end Order

end AbsState

end UnwindCheck
