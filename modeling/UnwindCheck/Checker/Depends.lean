import UnwindCheck.Checker.Conflict

/-! What `RowDependsOn` lists against what the row check reads. -/
namespace UnwindCheck
variable {δ : Type} [Offset δ]

/-- The same state but for the CFI value of one component. -/
structure DifferOnlyIn (c : Component δ) (s t : AbsState δ) : Prop where
  get : ∀ c', c' ≠ c → s.get c' = t.get c'
  tbl : s.tbl = t.tbl
  lastCmp : s.lastCmp = t.lastCmp

/-- A component that the row is said not to depend on makes no difference to what is found. -/
def ListsWhatIsRead (rc : RowChecker) (row : CFIRow δ) (c : Component δ) : Prop :=
  rowDependsOn row c = false → ∀ s t : AbsState δ, DifferOnlyIn c s t → rc.check row s = rc.check row t

/-- A callee-saved register without a rule, held to its entry value all the same, and nowhere else
in the row. -/
structure ReadUnlisted (rc : RowChecker) (row : CFIRow δ) (q : Fin 16) : Prop where
  asked : rc.checkUnmentioned = true
  saved : q ∈ kCalleeSaved
  unset : row.regs (Fin.castSucc q) = .unset
  cfa : ¬ (row.cfa.kind = .regOffset ∧ row.cfa.reg = q.val)
  moved : ∀ r, row.regs r ≠ .inRegister q.val

section Reads
variable {rc : RowChecker} {row : CFIRow δ} {s t : AbsState δ}

theorem AbsState.reg_congr {n : ℕ} (h : ∀ q : Fin 16, q.val = n → s.gpr q = t.gpr q) : s.reg n = t.reg n := by
  by_cases hn : n < 16
  · rw [s.reg_of_lt hn, t.reg_of_lt hn]
    exact h ⟨n, hn⟩ rfl
  · rw [s.reg_of_ge (Nat.le_of_not_lt hn), t.reg_of_ge (Nat.le_of_not_lt hn)]

/-- The return address is no callee-saved register. -/
theorem eq_castSucc_of_isCalleeSaved {r : Fin 17} (h : isCalleeSaved r = true) :
    ∃ q : Fin 16, r = Fin.castSucc q ∧ q ∈ kCalleeSaved := by
  obtain ⟨q, hq, heq⟩ := List.any_eq_true.mp h
  exact ⟨q, Fin.ext (decide_eq_true_eq.mp heq).symm, hq⟩

namespace RowChecker

theorem checkCFA_congr (h : ∀ c, row.Consults c → s.get c = t.get c) :
    rc.checkCFA row.cfa s = rc.checkCFA row.cfa t := by
  unfold checkCFA
  cases hk : row.cfa.kind with
  | undefined => rfl
  | expression => rfl
  | regOffset =>
    have hreg : s.reg row.cfa.reg = t.reg row.cfa.reg :=
      AbsState.reg_congr fun q hq => h _ (.cfa q hk hq.symm)
    rw [hreg]

/-- Each rule reads what the row names, and a missing one the register itself if it is asked to. -/
theorem checkReg_congr (h : ∀ c, row.Consults c → s.get c = t.get c) (r : Fin 17)
    (hunset : row.regs r = .unset → rc.checkUnmentioned = true → isCalleeSaved r = true →
      s.reg r = t.reg r) :
    rc.checkReg r (row.regs r) s = rc.checkReg r (row.regs r) t := by
  cases hr : row.regs r with
  | unset =>
    unfold checkReg
    dsimp only
    by_cases hask : (rc.checkUnmentioned && isCalleeSaved r) = true
    · obtain ⟨hopt, hsaved⟩ := Bool.and_eq_true_iff.mp hask
      rw [if_pos hask, if_pos hask, checkSameValue, checkSameValue, hunset hr hopt hsaved]
    · rw [if_neg hask, if_neg hask]
  | undefined => rfl
  | sameValue =>
    have hreg : s.reg r = t.reg r := AbsState.reg_congr fun q hq => h _ (.same r q hr hq.symm)
    simp only [checkReg, checkSameValue, hreg]
  | atCFAOffset offset =>
    have hslot : s.slot offset = t.slot offset := h _ (.saved r offset hr)
    simp only [checkReg, hslot]
  | valOffset offset =>
    have hreg : s.reg r = t.reg r := AbsState.reg_congr fun q hq => h _ (.valOffset r q offset hr hq.symm)
    simp only [checkReg, hreg]
  | inRegister p =>
    have hreg : s.reg p = t.reg p := AbsState.reg_congr fun q hq => h _ (.moved r q (by rw [hr, hq]))
    simp only [checkReg, hreg]
  | expression => rfl
  | valExpression => rfl

/-- Every rule but one finds the same, and that one finds something in only one of the states. -/
theorem check_ne (r : Fin 17) (hcfa : rc.checkCFA row.cfa s = rc.checkCFA row.cfa t)
    (hothers : ∀ r', r' ≠ r → rc.checkReg r' (row.regs r') s = rc.checkReg r' (row.regs r') t)
    (hs : rc.checkReg r (row.regs r) s = []) (ht : rc.checkReg r (row.regs r) t ≠ []) :
    rc.check row s ≠ rc.check row t := by
  intro heq
  unfold check at heq
  rw [hcfa] at heq
  have hlen := congrArg List.length (List.append_cancel_left heq)
  rw [List.length_flatMap, List.length_flatMap] at hlen
  refine absurd hlen (Nat.ne_of_lt (List.sum_lt_sum _ _ ?_ ⟨r, List.mem_finRange r, ?_⟩))
  · intro r' _
    by_cases hr : r' = r
    · rw [hr, hs]
      exact Nat.zero_le _
    · rw [hothers r' hr]
  · rw [hs]
    exact List.length_pos_iff.mpr ht

end RowChecker

omit [Offset δ] in
/-- Nothing else in the row names such a register. -/
theorem ReadUnlisted.not_consults {q : Fin 16} (h : ReadUnlisted rc row q) : ¬ row.Consults (.reg q) := by
  intro hc
  have hself : ∀ r : Fin 17, r.val = q.val → row.regs r = .unset := by
    intro r hr
    rw [show r = Fin.castSucc q from Fin.ext hr]
    exact h.unset
  cases hc with
  | cfa _ hk hq => exact h.cfa ⟨hk, hq⟩
  | same r _ hr hq => exact absurd ((hself r hq).symm.trans hr) (by simp)
  | valOffset r _ offset hr hq => exact absurd ((hself r hq).symm.trans hr) (by simp)
  | moved r _ hr => exact h.moved r hr

/-- It is read all the same: its entry value is in order, and an unknown one is not. -/
theorem ReadUnlisted.check_ne {q : Fin 16} (h : ReadUnlisted rc row q) :
    ∃ s t : AbsState δ, DifferOnlyIn (.reg q) s t ∧ rc.check row s ≠ rc.check row t := by
  let s : AbsState δ := { AbsState.init with gpr := Function.update (fun _ => .top) q (.origReg q) }
  have hother : ∀ p : Fin 16, p ≠ q → s.gpr p = (AbsState.init : AbsState δ).gpr p := by
    intro p hp
    show Function.update (fun _ => AbsVal.top) q (AbsVal.origReg q) p = AbsVal.top
    exact Function.update_of_ne hp _ _
  have hdiffer : DifferOnlyIn (.reg q) s (AbsState.init : AbsState δ) := by
    refine ⟨?_, rfl, rfl⟩
    intro c hc
    cases c with
    | slot k => rfl
    | reg p => exact hother p fun heq => hc (by rw [heq])
  have hconsults : ∀ c, row.Consults c → s.get c = (AbsState.init : AbsState δ).get c := by
    intro c hc
    refine hdiffer.get c fun heq => ?_
    subst heq
    exact h.not_consults hc
  have hask : (rc.checkUnmentioned && isCalleeSaved (Fin.castSucc q)) = true := by
    rw [h.asked, Bool.true_and]
    exact List.any_eq_true.mpr ⟨q, h.saved, by simp⟩
  refine ⟨s, .init, hdiffer, RowChecker.check_ne (Fin.castSucc q) (RowChecker.checkCFA_congr hconsults)
    (fun r hr => RowChecker.checkReg_congr hconsults r fun _ _ _ => ?_) ?_ ?_⟩
  · refine AbsState.reg_congr fun p hp => hother p fun heq => hr (Fin.ext ?_)
    rw [← hp, heq]
    rfl
  · have hreg : s.reg (Fin.castSucc q).val = .origReg q.val := by
      rw [Fin.val_castSucc, s.reg_fin]
      show Function.update (fun _ => AbsVal.top) q (AbsVal.origReg q) q = AbsVal.origReg q
      exact Function.update_self q _ _
    rw [h.unset, RowChecker.checkReg, if_pos hask, RowChecker.checkSameValue, hreg]
    exact rc.compareValue_eq_nil.mpr ⟨rfl, rfl⟩
  · have hreg : (AbsState.init : AbsState δ).reg (Fin.castSucc q).val = .top := by
      rw [Fin.val_castSucc, AbsState.reg_fin]
      rfl
    rw [h.unset, RowChecker.checkReg, if_pos hask, RowChecker.checkSameValue, hreg]
    simp [RowChecker.compareValue, AbsVal.isUnknown, AbsVal.isTop]

end Reads

/-- `RowDependsOn` lists everything the row check reads, a register it is told to check without a rule
apart. -/
theorem listsWhatIsRead_iff (rc : RowChecker) (row : CFIRow δ) (c : Component δ) :
    ListsWhatIsRead rc row c ↔ ¬ ∃ q, c = .reg q ∧ ReadUnlisted rc row q := by
  constructor
  · rintro hlists ⟨q, rfl, hunlisted⟩
    have hno : rowDependsOn row (.reg q) = false :=
      Bool.eq_false_iff.mpr fun h => hunlisted.not_consults (rowDependsOn_iff.mp h)
    obtain ⟨s, t, hdiffer, hne⟩ := hunlisted.check_ne
    exact hne (hlists hno s t hdiffer)
  · intro hlisted hno s t hdiffer
    have hnot : ¬ row.Consults c := fun hc => by
      rw [rowDependsOn_iff.mpr hc] at hno
      cases hno
    have hconsults : ∀ c', row.Consults c' → s.get c' = t.get c' := by
      intro c' hc'
      refine hdiffer.get c' fun heq => ?_
      subst heq
      exact hnot hc'
    unfold RowChecker.check
    rw [RowChecker.checkCFA_congr hconsults]
    congr 1
    refine List.flatMap_congr fun r _ => RowChecker.checkReg_congr hconsults r ?_
    intro hunset hasked hsaved
    obtain ⟨q, rfl, hq⟩ := eq_castSucc_of_isCalleeSaved hsaved
    rw [Fin.val_castSucc, s.reg_fin, t.reg_fin]
    refine hdiffer.get (.reg q) fun heq => hlisted ⟨q, heq.symm, hasked, hq, hunset, ?_, ?_⟩
    · rintro ⟨hk, hreg⟩
      exact hnot (heq ▸ .cfa q hk hreg)
    · intro r hr
      exact hnot (heq ▸ .moved r q hr)

/-- With `--check_unmentioned_callee_saved`, rbx at a row that has no rule for it: the row is said not
to depend on rbx, and a state in which it is lost gets a finding. -/
theorem rbx_read_unlisted :
    rowDependsOn (Sample.row 0x1000 8) (.reg kDWARFRbx) = false ∧
      (RowChecker.mk 0x1000 "" true).check (Sample.row 0x1000 8) AbsState.entry = [] ∧
      (RowChecker.mk 0x1000 "" true).check (Sample.row 0x1000 8)
        { (AbsState.entry : AbsState Int64) with
          gpr := Function.update AbsState.entry.gpr kDWARFRbx .other } ≠ [] ∧
      ¬ ListsWhatIsRead (RowChecker.mk 0x1000 "" true) (Sample.row 0x1000 8) (.reg kDWARFRbx) := by
  have hno : rowDependsOn (Sample.row 0x1000 8) (.reg kDWARFRbx) = false := by decide +kernel
  have hentry : (RowChecker.mk 0x1000 "" true).check (Sample.row 0x1000 8) AbsState.entry = [] := by
    decide +kernel
  have hlost : (RowChecker.mk 0x1000 "" true).check (Sample.row 0x1000 8)
      { (AbsState.entry : AbsState Int64) with
        gpr := Function.update AbsState.entry.gpr kDWARFRbx .other } ≠ [] := by
    decide +kernel
  refine ⟨hno, hentry, hlost, fun hlists => hlost ?_⟩
  rw [← hentry]
  refine hlists hno _ _ ⟨?_, rfl, rfl⟩
  intro c hc
  cases c with
  | slot k => rfl
  | reg p => exact Function.update_of_ne (fun heq => hc (by rw [heq])) _ _

end UnwindCheck
