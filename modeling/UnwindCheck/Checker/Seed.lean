import UnwindCheck.Checker.Row
import UnwindCheck.Lib.LastWrite

/-! A declared row against the state seeded from it. -/
namespace UnwindCheck

section
variable {δ : Type} [Offset δ]

/-- A row of plain rules that do not contradict each other. -/
structure CFIRow.Coherent (row : CFIRow δ) : Prop where
  cfaKind : row.cfa.kind = .regOffset
  cfaReg : row.cfa.reg < 16
  rules : ∀ r, row.regs r = .unset ∨ row.regs r = .undefined ∨ row.regs r = .sameValue ∨
    (∃ k, row.regs r = .atCFAOffset k) ∨ ∃ q, row.regs r = .inRegister q
  saves : ∀ r r' k, row.regs r = .atCFAOffset k → row.regs r' = .atCFAOffset k → r = r'
  sources : ∀ r q, row.regs r = .inRegister q →
    q < 16 ∧ q ≠ kDWARFRsp.val ∧ q ≠ row.cfa.reg ∧ ∀ p : Fin 17, p.val = q → row.regs p ≠ .sameValue
  sourcesApart : ∀ r r' q, row.regs r = .inRegister q → row.regs r' = .inRegister q → r = r'
  sameValue : ∀ r, row.regs r = .sameValue →
    r.val ≠ kDWARFRsp.val ∧ r.val ≠ row.cfa.reg ∧ r.val ≠ kDWARFRip

/-- What a register's own rule makes of it in a seeded state: nothing is known. -/
def CFIRow.Forgets (row : CFIRow δ) (atFunctionEntry : Bool) (r : Fin 17) : Prop :=
  row.regs r = .undefined ∨ row.regs r = .unset ∧ atFunctionEntry = false

instance (row : CFIRow δ) (atFunctionEntry : Bool) (r : Fin 17) :
    Decidable (row.Forgets atFunctionEntry r) := inferInstanceAs (Decidable (_ ∨ _))

/-- No register is moved into a higher-numbered one that its own rule then forgets. -/
def CFIRow.KeepsMoved (row : CFIRow δ) (atFunctionEntry : Bool) : Prop :=
  ∀ r q : Fin 17, row.regs r = .inRegister q → r < q → ¬ row.Forgets atFunctionEntry q

instance (row : CFIRow δ) (atFunctionEntry : Bool) : Decidable (row.KeepsMoved atFunctionEntry) :=
  inferInstanceAs (Decidable (∀ _ _ : Fin 17, _ → _ → _))

namespace AbsState
variable {row : CFIRow δ} {atFunctionEntry : Bool}

@[simp] theorem putGpr_slots (s : AbsState δ) (r : ℕ) (v : AbsVal δ) :
    (s.putGpr r v).slots = s.slots := by
  unfold putGpr
  split <;> rfl

theorem putGpr_gpr_self (s : AbsState δ) (q : Fin 16) (v : AbsVal δ) : (s.putGpr q v).gpr q = v := by
  unfold putGpr
  rw [dif_pos q.isLt]
  exact Function.update_self _ _ _

theorem putGpr_gpr_of_ne (s : AbsState δ) {r : ℕ} {q : Fin 16} (v : AbsVal δ) (h : r ≠ q.val) :
    (s.putGpr r v).gpr q = s.gpr q := by
  unfold putGpr
  split
  · apply Function.update_of_ne
    rintro rfl
    exact h rfl
  · rfl

/-- The registers a rule writes: its own where it forgets it, else the one the value is moved
into. -/
theorem seedReg_gpr_of_ne (hrow : row.Coherent) {r : Fin 17} {q : Fin 16}
    (hown : r.val = q.val → ¬ row.Forgets atFunctionEntry r) (hmoved : row.regs r ≠ .inRegister q.val)
    (s : AbsState δ) : (seedReg row atFunctionEntry s r).gpr q = s.gpr q := by
  unfold seedReg
  rcases hrow.rules r with hr | hr | hr | ⟨k, hr⟩ | ⟨p, hr⟩
  all_goals rw [hr]
  · dsimp only
    split_ifs with he
    · rfl
    · refine putGpr_gpr_of_ne s _ fun h => hown h (.inr ⟨hr, ?_⟩)
      simpa using he
  · exact putGpr_gpr_of_ne s _ fun h => hown h (.inl hr)
  · exact putGpr_gpr_of_ne s _ fun h => hmoved (by rw [hr, h])

/-- The rules of all registers, before rsp and the CFA register are set. -/
def seedRules (row : CFIRow δ) (atFunctionEntry : Bool) : AbsState δ :=
  (List.finRange 17).foldl (seedReg row atFunctionEntry)
    { (init : AbsState δ) with gpr := fun r => .origReg r }

theorem seedFromRow_eq (hrow : row.Coherent) (atFunctionEntry : Bool) :
    seedFromRow row atFunctionEntry =
      ((seedRules row atFunctionEntry).putGpr kDWARFRsp .top).putGpr row.cfa.reg
        (.cfaRel (-row.cfa.offset)) := by
  unfold seedFromRow
  rw [hrow.cfaKind]
  rfl

theorem seedFromRow_cfa (hrow : row.Coherent) (atFunctionEntry : Bool) :
    (seedFromRow row atFunctionEntry).reg row.cfa.reg = .cfaRel (-row.cfa.offset) := by
  rw [seedFromRow_eq hrow, reg_of_lt _ hrow.cfaReg]
  exact putGpr_gpr_self _ ⟨row.cfa.reg, hrow.cfaReg⟩ _

theorem seedFromRow_gpr_of_ne (hrow : row.Coherent) (atFunctionEntry : Bool) {q : Fin 16}
    (hrsp : q.val ≠ kDWARFRsp.val) (hcfa : q.val ≠ row.cfa.reg) :
    (seedFromRow row atFunctionEntry).gpr q = (seedRules row atFunctionEntry).gpr q := by
  rw [seedFromRow_eq hrow, putGpr_gpr_of_ne _ _ hcfa.symm, putGpr_gpr_of_ne _ _ hrsp.symm]

theorem seedFromRow_slots (hrow : row.Coherent) (atFunctionEntry : Bool) :
    (seedFromRow row atFunctionEntry).slots = (seedRules row atFunctionEntry).slots := by
  rw [seedFromRow_eq hrow, putGpr_slots, putGpr_slots]

/-- A register that is moved into another is found there unless that one is forgotten later. -/
theorem seedRules_moved (hrow : row.Coherent) {r : Fin 17} {q : Fin 16}
    (hr : row.regs r = .inRegister q.val)
    (hkeep : r < q.castSucc → ¬ row.Forgets atFunctionEntry q.castSucc) :
    (seedRules row atFunctionEntry).gpr q = .origReg r := by
  refine Lib.foldl_finRange_of_last (fun s : AbsState δ => s.gpr q) r ?_ ?_ _
  · intro s
    unfold seedReg
    rw [hr]
    exact putGpr_gpr_self s q _
  · intro p hp
    apply seedReg_gpr_of_ne hrow
    · intro hpq
      obtain rfl : p = q.castSucc := Fin.ext hpq
      exact hkeep hp
    · intro hpr
      obtain rfl := hrow.sourcesApart p r q hpr hr
      exact lt_irrefl p hp

/-- If it is, the move is lost. -/
theorem seedRules_forgotten (hrow : row.Coherent) {r : Fin 17} {q : Fin 16}
    (hr : row.regs r = .inRegister q.val) (hlt : r < q.castSucc)
    (hforgets : row.Forgets atFunctionEntry q.castSucc) :
    (seedRules row atFunctionEntry).gpr q = .top := by
  refine Lib.foldl_finRange_of_last (fun s : AbsState δ => s.gpr q) q.castSucc ?_ ?_ _
  · intro s
    unfold seedReg
    rcases hforgets with hq | ⟨hq, rfl⟩
    · rw [hq]
      exact putGpr_gpr_self s q _
    · rw [hq]
      exact putGpr_gpr_self s q _
  · intro p hp
    apply seedReg_gpr_of_ne hrow
    · intro hpq
      obtain rfl : p = q.castSucc := Fin.ext hpq
      exact absurd hp (lt_irrefl _)
    · intro hpr
      obtain rfl := hrow.sourcesApart p r q hpr hr
      exact absurd hp (lt_asymm hlt)

/-- A register with the same value is written by no rule at all. -/
theorem seedRules_sameValue (hrow : row.Coherent) {q : Fin 16}
    (hq : row.regs q.castSucc = .sameValue) :
    (seedRules row atFunctionEntry).gpr q = .origReg q := by
  refine Lib.foldl_read_of_untouched (fun s : AbsState δ => s.gpr q) ?_ _
  intro p _
  apply seedReg_gpr_of_ne hrow
  · intro hpq hforgets
    obtain rfl : p = q.castSucc := Fin.ext hpq
    rcases hforgets with h | ⟨h, -⟩
    · rw [hq] at h
      cases h
    · rw [hq] at h
      cases h
  · intro hp
    exact (hrow.sources p q hp).2.2.2 q.castSucc rfl hq

/-- A saved register is found in its slot. -/
theorem seedRules_saved (hrow : row.Coherent) {r : Fin 17} {k : δ}
    (hr : row.regs r = .atCFAOffset k) :
    (seedRules row atFunctionEntry).slot k = .origReg r := by
  refine Lib.foldl_finRange_of_last (fun s : AbsState δ => s.slot k) r ?_ ?_ _
  · intro s
    unfold seedReg slot
    rw [hr]
    simp
  · intro p hp s
    unfold seedReg slot
    rcases hrow.rules p with hp' | hp' | hp' | ⟨k', hp'⟩ | ⟨q, hp'⟩
    all_goals rw [hp']
    · dsimp only
      split_ifs
      · rfl
      · rw [putGpr_slots]
    · rw [putGpr_slots]
    · have hne : k' ≠ k := by
        rintro rfl
        exact absurd (hrow.saves p r k' hp' hr) hp.ne'
      simp [Std.ExtTreeMap.getElem?_insert, hne]
    · rw [putGpr_slots]

end AbsState

end

section
variable {row : CFIRow Int64}

/-- The rules that write no register but their own always agree with what they seeded, and so does
the CFA. -/
theorem RowChecker.checkCFA_seed (rc : RowChecker) (hrow : row.Coherent) (atFunctionEntry : Bool) :
    rc.checkCFA row.cfa (AbsState.seedFromRow row atFunctionEntry) = [] := by
  rw [RowChecker.checkCFA_eq_nil]
  refine ⟨hrow.cfaKind, -row.cfa.offset, AbsState.seedFromRow_cfa hrow atFunctionEntry, ?_⟩
  exact Int64.add_left_neg row.cfa.offset

theorem RowChecker.checkReg_seed (rc : RowChecker) (hoff : rc.checkUnmentioned = false)
    (hrow : row.Coherent) (atFunctionEntry : Bool) {r : Fin 17}
    (hkeep : ∀ q : Fin 17, row.regs r = .inRegister q → r < q → ¬ row.Forgets atFunctionEntry q) :
    rc.checkReg r (row.regs r) (AbsState.seedFromRow row atFunctionEntry) = [] := by
  unfold RowChecker.checkReg
  rcases hrow.rules r with hr | hr | hr | ⟨k, hr⟩ | ⟨q, hr⟩
  all_goals rw [hr]
  · simp [hoff]
  · obtain ⟨hrsp, hcfa, hra⟩ := hrow.sameValue r hr
    have hlt : r.val < 16 := by
      have hne : r.val ≠ 16 := hra
      omega
    have hval := AbsState.seedFromRow_gpr_of_ne hrow atFunctionEntry (q := ⟨r, hlt⟩) hrsp hcfa
    rw [AbsState.seedRules_sameValue hrow (q := ⟨r, hlt⟩) hr] at hval
    unfold RowChecker.checkSameValue
    rw [RowChecker.compareValue_eq_nil, AbsState.reg_of_lt _ hlt, hval]
    exact ⟨rfl, rfl⟩
  · have hslot : (AbsState.seedFromRow row atFunctionEntry).slot k = .origReg r := by
      unfold AbsState.slot
      rw [AbsState.seedFromRow_slots hrow]
      exact AbsState.seedRules_saved hrow hr
    rw [RowChecker.compareValue_eq_nil, hslot]
    exact ⟨rfl, rfl⟩
  · obtain ⟨hlt, hrsp, hcfa, -⟩ := hrow.sources r q hr
    have hval := AbsState.seedFromRow_gpr_of_ne hrow atFunctionEntry (q := ⟨q, hlt⟩) hrsp hcfa
    rw [AbsState.seedRules_moved hrow (q := ⟨q, hlt⟩) hr (hkeep _ hr)] at hval
    rw [RowChecker.compareValue_eq_nil, AbsState.reg_of_lt _ hlt, hval]
    exact ⟨rfl, rfl⟩

/-- A row agrees with the state seeded from it exactly when no register it moves is forgotten on the
way. -/
theorem check_seedFromRow_eq_nil_iff (hrow : row.Coherent) (atFunctionEntry : Bool) (pc : Word)
    (edgeContext : String) :
    (RowChecker.mk pc edgeContext false).check row (AbsState.seedFromRow row atFunctionEntry) = [] ↔
      row.KeepsMoved atFunctionEntry := by
  rw [RowChecker.check_eq_nil]
  constructor
  · rintro ⟨-, hregs⟩ r q hr hlt hforgets
    obtain ⟨hq, hrsp, hcfa, -⟩ := hrow.sources r q hr
    have hval := AbsState.seedFromRow_gpr_of_ne hrow atFunctionEntry (q := ⟨q, hq⟩) hrsp hcfa
    rw [AbsState.seedRules_forgotten hrow (q := ⟨q, hq⟩) hr hlt hforgets] at hval
    -- the register it was moved into is not tracked any more
    have hcheck := hregs r
    unfold RowChecker.checkReg at hcheck
    rw [hr] at hcheck
    dsimp only at hcheck
    rw [RowChecker.compareValue_eq_nil, AbsState.reg_of_lt _ hq, hval] at hcheck
    cases hcheck.2
  · intro hkeep
    refine ⟨RowChecker.checkCFA_seed _ hrow atFunctionEntry, ?_⟩
    intro r
    exact RowChecker.checkReg_seed _ rfl hrow atFunctionEntry (hkeep r)

/-- The row of a function that keeps register `r` of its caller in `q`. -/
def movedRow (r q : Fin 16) : CFIRow Int64 :=
  ⟨0x1000, .regOffset 7 (Offset.ofInt 16),
    fun p => if p.val = r.val then .inRegister q else if p.val = 16 then .atCFAOffset (-8) else .unset⟩

theorem movedRow_regs (r q : Fin 16) (p : Fin 17) :
    p.val = r.val ∧ (movedRow r q).regs p = .inRegister q ∨
      p = 16 ∧ (movedRow r q).regs p = .atCFAOffset (-8) ∨ (movedRow r q).regs p = .unset := by
  unfold movedRow
  dsimp only
  split_ifs with hr h16
  · exact .inl ⟨hr, rfl⟩
  · exact .inr (.inl ⟨Fin.ext h16, rfl⟩)
  · exact .inr (.inr rfl)

theorem movedRow_coherent (r : Fin 16) {q : Fin 16} (hq : q.val ≠ kDWARFRsp.val) :
    (movedRow r q).Coherent := by
  have hmoved : ∀ p q', (movedRow r q).regs p = .inRegister q' → p.val = r.val ∧ q' = q.val := by
    intro p q' hp
    rcases movedRow_regs r q p with ⟨hr, h⟩ | ⟨-, h⟩ | h
    all_goals rw [h] at hp
    all_goals cases hp
    exact ⟨hr, rfl⟩
  have hsaved : ∀ p k, (movedRow r q).regs p = .atCFAOffset k → p = 16 := by
    intro p k hp
    rcases movedRow_regs r q p with ⟨-, h⟩ | ⟨h16, -⟩ | h
    · rw [h] at hp
      cases hp
    · exact h16
    · rw [h] at hp
      cases hp
  have hsame : ∀ p, (movedRow r q).regs p ≠ .sameValue := by
    intro p hp
    rcases movedRow_regs r q p with ⟨-, h⟩ | ⟨-, h⟩ | h
    all_goals rw [h] at hp
    all_goals cases hp
  constructor
  · rfl
  · exact kDWARFRsp.isLt
  · intro p
    rcases movedRow_regs r q p with ⟨-, h⟩ | ⟨-, h⟩ | h <;> simp [h]
  · intro p p' k hp hp'
    rw [hsaved p k hp, hsaved p' k hp']
  · intro p q' hp
    obtain rfl := (hmoved p q' hp).2
    exact ⟨q.isLt, hq, hq, fun p' _ => hsame p'⟩
  · intro p p' q' hp hp'
    exact Fin.ext ((hmoved p q' hp).1.trans (hmoved p' q' hp').1.symm)
  · intro p hp
    exact absurd hp (hsame p)

/-- rbp kept in rax, which is seeded before it. -/
theorem moved_down_agrees :
    (RowChecker.mk 0x1000 "" false).check (movedRow kDWARFRbp 0)
      (AbsState.seedFromRow (movedRow kDWARFRbp 0) false) = [] := by
  have hrow := movedRow_coherent kDWARFRbp (q := 0) (by decide)
  exact (check_seedFromRow_eq_nil_iff hrow false 0x1000 "").mpr (by decide)

/-- rbx kept in r12: what the row says of r12, nothing, comes later and undoes the move. -/
theorem moved_up_disagrees :
    (movedRow kDWARFRbx 12).Coherent ∧
      ¬ (RowChecker.mk 0x1000 "" false).check (movedRow kDWARFRbx 12)
        (AbsState.seedFromRow (movedRow kDWARFRbx 12) false) = [] := by
  refine ⟨movedRow_coherent kDWARFRbx (by decide), ?_⟩
  decide +kernel

end

end UnwindCheck
