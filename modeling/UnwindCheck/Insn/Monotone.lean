import UnwindCheck.Insn.Agree
import UnwindCheck.Insn.Footprint
import UnwindCheck.Insn.Steady
import UnwindCheck.Insn.Writes

/-! `Transfer` is monotone where an instruction is steady, and what an edge proves always is. -/
namespace UnwindCheck
variable {δ : Type} [Offset δ]

section
variable {s t : AbsState δ} (h : s ≤ t)
include h

theorem readReg_mono (reg : ZydisRegister) : readReg s reg ≤ readReg t reg := by
  unfold readReg
  split
  · split
    · exact (AbsState.le_iff.mp h).1 _
    · exact le_rfl
  · exact le_rfl

/-- The two states never address different slots, but one may address none. -/
theorem memSlot_cases (insn : Instruction) (mem : MemOperand) :
    memSlot s insn mem = memSlot t insn mem ∨
      (memSlot s insn mem = none ∧ ∃ k, memSlot t insn mem = some k) ∨
        ∃ k, memSlot s insn mem = some k ∧ memSlot t insn mem = none := by
  cases hs : memSlot s insn mem with
  | none =>
    cases memSlot t insn mem with
    | none => exact Or.inl rfl
    | some k => exact Or.inr (Or.inl ⟨rfl, k, rfl⟩)
  | some k =>
    cases ht : memSlot t insn mem with
    | none => exact Or.inr (Or.inr ⟨k, rfl, rfl⟩)
    | some k' =>
      left
      unfold memSlot at hs ht
      split_ifs at hs ht
      rcases AbsVal.frame_cases (readReg_mono h mem.base) with
        ⟨d, hd, hd'⟩ | ⟨hd, -⟩ | ⟨d, hd, -⟩ | ⟨d, -, hd⟩
      · simp only [hd, Option.some.injEq] at hs
        simp only [hd', Option.some.injEq] at ht
        rw [← hs, ← ht]
      · split at hs
        · rename_i d hd'
          exact absurd hd' (hd d)
        · cases hs
      · simp [hd] at hs
      · simp [hd] at ht

theorem clobberWrittenReg_mono (reg : ZydisRegister) (d : Fin 16) :
    clobberWrittenReg s reg d ≤ clobberWrittenReg t reg d := by
  apply AbsState.modifyTable_mono (AbsState.clobberReg_mono h d)
  rw [AbsState.clobberReg_tbl, AbsState.clobberReg_tbl, Function.update_self, Function.update_self]

theorem clobberOperand_mono {insn : Instruction} {op : Operand} (hop : SteadyClobber insn s t op) :
    clobberOperand insn s op ≤ clobberOperand insn t op := by
  unfold clobberOperand
  cases hw : op.writes with
  | false => exact h
  | true =>
    simp only [Bool.not_true, Bool.false_eq_true, if_false]
    unfold SteadyClobber at hop
    cases hk : op.kind with
    | register r =>
      cases hr : r.dwarfRegOf with
      | none => simpa [hr] using h
      | some d => simpa [hr] using clobberWrittenReg_mono h r d
    | memory mem =>
      simp only [hk, hw, forall_const] at hop
      rcases memSlot_cases h insn mem with heq | ⟨hs, k, ht⟩ | ⟨k, hs, ht⟩
      · simp only [heq]
        split
        · exact AbsState.eraseSlots_mono h
        · exact h
      · simp only [hs, ht]
        exact AbsState.le_eraseSlots h (hop hs k ht)
      · simp only [hs, ht]
        exact AbsState.eraseSlots_le h
    | immediate _ => exact h
    | pointer => exact h

end

theorem memSlot_clobberWrittenReg (s : AbsState δ) (reg : ZydisRegister) (d : Fin 16)
    (insn : Instruction) (mem : MemOperand) : memSlot (clobberWrittenReg s reg d) insn mem =
      if mem.base.dwarfRegOf = some d then none else memSlot s insn mem := by
  unfold memSlot readReg
  rw [clobberWrittenReg_gpr]
  cases hb : mem.base.dwarfRegOf with
  | none => simp
  | some b =>
    by_cases hbd : b = d
    · simp [hbd]
    · simp [hbd]

@[simp] theorem clobberWrittenReg_slots (s : AbsState δ) (reg : ZydisRegister) (d : Fin 16) :
    (clobberWrittenReg s reg d).slots = s.slots := by
  simp [clobberWrittenReg, AbsState.clobberReg, AbsState.setVal, AbsState.setReg]

theorem clobberOperand_memory (insn : Instruction) (s : AbsState δ) {op : Operand} {mem : MemOperand}
    (hop : op.kind = .memory mem) : (clobberOperand insn s op).gpr = s.gpr ∧
      ∀ k, AbsState.slotView (clobberOperand insn s op).slots k ≤ AbsState.slotView s.slots k := by
  unfold clobberOperand
  rw [hop]
  dsimp only
  split_ifs
  · exact ⟨rfl, fun k => le_rfl⟩
  · split
    · refine ⟨eraseSlots_gpr _ _ _, fun k => ?_⟩
      rw [AbsState.slotView_eraseSlots]
      split_ifs
      · exact bot_le
      · exact le_rfl
    · exact ⟨rfl, fun k => le_rfl⟩

/-- Clobbering one operand makes no other one address more. -/
theorem SteadyClobber.after {insn : Instruction} {s t : AbsState δ} {op' : Operand}
    (h : SteadyClobber insn s t op') (op : Operand) :
    SteadyClobber insn (clobberOperand insn s op) (clobberOperand insn t op) op' := by
  unfold SteadyClobber at h ⊢
  split
  · rename_i mem hmem
    simp only [hmem] at h
    intro hw
    have h := h hw
    cases hop : op.kind with
    | register r =>
      cases hr : r.dwarfRegOf with
      | none => simpa [clobberOperand, hop, hr] using h
      | some d =>
        cases hwr : op.writes with
        | false => simpa [clobberOperand, hwr] using h
        | true =>
          simp only [clobberOperand, hwr, hop, hr, Bool.not_true, Bool.false_eq_true, if_false,
            memSlot_clobberWrittenReg]
          split_ifs
          · intro _ k hk
            cases hk
          · intro hs k ht
            simpa [AbsState.Vacant] using h hs k ht
    | memory mem' =>
      obtain ⟨hgs, hslots⟩ := clobberOperand_memory insn s hop
      obtain ⟨hgt, -⟩ := clobberOperand_memory insn t hop
      rw [memSlot_congr hgs, memSlot_congr hgt]
      exact fun hs k ht => (h hs k ht).anti hslots
    | immediate _ => simpa [clobberOperand, hop] using h
    | pointer => simpa [clobberOperand, hop] using h
  · trivial

section
variable {s t : AbsState δ} (h : s ≤ t)
include h

theorem clobberWrites_mono {insn : Instruction}
    (hops : ∀ op ∈ insn.insn.operands, SteadyClobber insn s t op) :
    clobberWrites insn s ≤ clobberWrites insn t := by
  unfold clobberWrites
  generalize insn.insn.operands = ops at hops ⊢
  induction ops generalizing s t with
  | nil => exact h
  | cons op ops ih =>
    have hop := hops op List.mem_cons_self
    apply ih (clobberOperand_mono h hop)
    intro op' hmem
    exact (hops op' (List.mem_cons_of_mem _ hmem)).after op

theorem foldl_clobberReg_mono (rs : List (Fin 16)) :
    rs.foldl AbsState.clobberReg s ≤ rs.foldl AbsState.clobberReg t := by
  induction rs generalizing s t with
  | nil => exact h
  | cons r rs ih => exact ih (AbsState.clobberReg_mono h r)

theorem callEffect_mono (hc : s.SteadyCall t) : callEffect s ≤ callEffect t := by
  rcases AbsVal.frame_cases ((AbsState.le_iff.mp h).1 kDWARFRsp) with
    ⟨d, hs, ht⟩ | ⟨hs, ht⟩ | ⟨d, hs, ht⟩ | ⟨d, hs, ht⟩
  · unfold callEffect
    simp only [hs, ht]
    exact foldl_clobberReg_mono (AbsState.dropSlotsBelow_mono h d) _
  · rw [callEffect_untracked hs, callEffect_untracked ht]
    exact foldl_clobberReg_mono h _
  · have hvacant : s.Vacant (· < d) := hc d (by rw [hs, ht]; rfl)
    unfold callEffect
    simp only [hs, ht]
    exact foldl_clobberReg_mono (AbsState.le_dropSlotsBelow h hvacant) _
  · unfold callEffect
    simp only [hs, ht]
    exact foldl_clobberReg_mono (AbsState.dropSlotsBelow_le h d) _

/-- Only the higher state knows where rsp goes, and the lower tracks nothing dead there. -/
theorem le_setRsp (hs : s.gpr kDWARFRsp = .top) {d : δ}
    (hvacant : s.Vacant (· < d - Offset.ofInt AbsState.kRedZoneBytes)) {b : TableVal}
    (htbl : s.tbl kDWARFRsp ≤ b) : s ≤ t.setReg kDWARFRsp (.cfaRel d) b := by
  apply AbsState.le_setReg h (by simp [hs]) htbl
  intro k hk
  apply hvacant.slotView
  simpa [AbsState.drops] using hk

theorem pushValue_mono {v w : AbsVal δ} (hv : v ≤ w) (hp : s.SteadyPush t v w) :
    pushValue s v ≤ pushValue t w := by
  rcases AbsVal.frame_cases ((AbsState.le_iff.mp h).1 kDWARFRsp) with
    ⟨d, hs, ht⟩ | ⟨hs, ht⟩ | ⟨d, hs, ht⟩ | ⟨d, hs, ht⟩
  · simp only [pushValue, hs, ht]
    apply AbsState.setSlot_mono _ _ hv
    exact AbsState.setVal_mono h le_rfl (s.steadyWrite_self _ _)
  · rw [pushValue_untracked hs, pushValue_untracked ht]
    exact h
  · obtain ⟨hvacant, hslot, htbl⟩ := hp.1 d (by rw [hs, ht]; rfl)
    simp only [pushValue, hs, ht]
    exact AbsState.le_setSlot (le_setRsp h hs hvacant htbl) hslot
  · obtain ⟨hslot, hbare⟩ := hp.2 d (by rw [hs, ht]; rfl)
    simp only [pushValue, hs, ht]
    apply AbsState.setSlot_le _ hslot
    exact AbsState.setReg_le h (by simp [ht]) hbare.1 hbare.2

theorem slotAt_mono {insn : Instruction} {mem : MemOperand}
    (hl : s.SteadyLoad (memSlot s insn mem) (memSlot t insn mem)) :
    s.slotAt (memSlot s insn mem) ≤ t.slotAt (memSlot t insn mem) := by
  rcases memSlot_cases h insn mem with heq | ⟨hs, k, ht⟩ | ⟨k, hs, ht⟩
  · rw [heq]
    cases memSlot t insn mem with
    | none => exact le_rfl
    | some k => exact AbsState.slot_mono h k
  · rw [hs]
    exact AbsVal.top_le _
  · rw [hs, ht]
    exact (hl ht k hs).le

theorem popValue_mono (hp : s.SteadyPop t) :
    (popValue s).1 ≤ (popValue t).1 ∧ (popValue s).2 ≤ (popValue t).2 := by
  rcases AbsVal.frame_cases ((AbsState.le_iff.mp h).1 kDWARFRsp) with
    ⟨d, hs, ht⟩ | ⟨hs, ht⟩ | ⟨d, hs, ht⟩ | ⟨d, hs, ht⟩
  · simp only [popValue, hs, ht]
    exact ⟨AbsState.slot_mono h d, AbsState.setVal_mono h le_rfl (s.steadyWrite_self _ _)⟩
  · rw [popValue_untracked hs, popValue_untracked ht]
    exact ⟨le_rfl, h⟩
  · obtain ⟨hvacant, htbl⟩ := hp.1 d (by rw [hs, ht]; rfl)
    simp only [popValue, hs, ht]
    exact ⟨AbsVal.top_le _, le_setRsp h hs hvacant htbl⟩
  · obtain ⟨hslot, hbare⟩ := hp.2 d (by rw [hs, ht]; rfl)
    simp only [popValue, hs, ht]
    exact ⟨hslot.le, AbsState.setReg_le h (by simp [ht]) hbare.1 hbare.2⟩

theorem transferLeave_mono (hl : s.SteadyLeave t) : transferLeave s ≤ transferLeave t := by
  have htbl := (AbsState.le_iff.mp h).2.2.1 kDWARFRbp
  have hgpr := (AbsState.le_iff.mp h).1 kDWARFRbp
  have hbp : kDWARFRbp ≠ kDWARFRsp := by decide
  rcases AbsVal.frame_cases ((AbsState.le_iff.mp h).1 kDWARFRbp) with
    ⟨d, hs, ht⟩ | ⟨hs, ht⟩ | ⟨d, hs, ht⟩ | ⟨d, hs, ht⟩
  · have hs' : (s.copyReg kDWARFRsp kDWARFRbp).gpr kDWARFRsp = .cfaRel d := by simp [hs]
    have ht' : (t.copyReg kDWARFRsp kDWARFRbp).gpr kDWARFRsp = .cfaRel d := by simp [ht]
    have hcopy : s.copyReg kDWARFRsp kDWARFRbp ≤ t.copyReg kDWARFRsp kDWARFRbp := by
      unfold AbsState.copyReg
      rw [hs, ht]
      exact AbsState.setReg_mono h le_rfl htbl (s.steadyWrite_self _ _)
    simp only [transferLeave, hs', ht']
    apply AbsState.setVal_mono _ le_rfl (AbsState.steadyWrite_self _ _ _)
    exact AbsState.setVal_mono hcopy (AbsState.slot_mono hcopy d) fun hr => absurd hr hbp
  · rw [transferLeave_untracked hs, transferLeave_untracked ht]
    apply AbsState.clobberReg_mono
    exact AbsState.setReg_mono h hgpr htbl (s.steadyWrite_of_ne _ _ ht)
  · obtain ⟨hred, hpop, hbare⟩ := hl.1 d (by rw [hs, ht]; rfl)
    have hcopy : s.copyReg kDWARFRsp kDWARFRbp ≤ t.copyReg kDWARFRsp kDWARFRbp := by
      refine AbsState.setReg_mono h hgpr htbl fun _ x hx => ?_
      rw [hs, ht] at hx
      cases hx
      exact hred
    have ht' : (t.copyReg kDWARFRsp kDWARFRbp).gpr kDWARFRsp = .cfaRel d := by simp [ht]
    rw [transferLeave_untracked (by simp [hs])]
    simp only [transferLeave, ht']
    -- the lower state stays as it is while the higher one pops rbp
    apply AbsState.le_setReg
    · exact AbsState.setVal_mono hcopy (AbsVal.top_le _) fun hr => absurd hr hbp
    · simp [hs, hbp.symm]
    · simpa [AbsState.copyReg, hbp.symm] using hbare
    · intro k hk
      unfold AbsState.clobberReg AbsState.setVal AbsState.copyReg
      rw [AbsState.slotView_setReg, AbsState.slotView_setReg, hs]
      have hview : AbsState.slotView s.slots k = ⊥ := by
        apply hpop.slotView
        simpa [AbsState.drops] using hk
      simpa [AbsState.drops] using hview
  · obtain ⟨hslot, hbare⟩ := hl.2 d (by rw [hs, ht]; rfl)
    have hs' : (s.copyReg kDWARFRsp kDWARFRbp).gpr kDWARFRsp = .cfaRel d := by simp [hs]
    have hcopy : s.copyReg kDWARFRsp kDWARFRbp ≤ t.copyReg kDWARFRsp kDWARFRbp :=
      AbsState.setReg_mono h hgpr htbl (s.steadyWrite_of_ne _ _ (by simp [ht]))
    have htop : (s.copyReg kDWARFRsp kDWARFRbp).slot d = .top := by
      unfold AbsState.copyReg
      rw [AbsState.slot_setReg, hs]
      dsimp only
      rw [hslot, ite_self]
    rw [transferLeave_untracked (s := t) (by simp [ht])]
    simp only [transferLeave, hs', htop]
    apply AbsState.setReg_le
    · exact AbsState.clobberReg_mono hcopy kDWARFRbp
    · simp [ht, hbp.symm]
    · simpa [AbsState.copyReg, hbp.symm] using hbare
    · exact AbsState.any_lastCmp_setReg (Or.inr (AbsState.any_lastCmp_setReg (Or.inl rfl)))

theorem pushedValue_mono {insn : Instruction} (hp : SteadyPushed insn s t) :
    pushedValue insn s ≤ pushedValue insn t := by
  unfold SteadyPushed at hp
  unfold pushedValue
  split
  · exact readReg_mono h _
  · rename_i mem hmem
    simp only [hmem] at hp
    exact slotAt_mono h hp.1
  · exact le_rfl

theorem transferPush_mono {insn : Instruction}
    (hp : insn.opCount = 1 → insn.insn.operandWidth = 64 → SteadyPushed insn s t) :
    (transferPush insn s).2 ≤ (transferPush insn t).2 := by
  unfold transferPush
  split_ifs with hop
  · exact AbsState.clobberReg_mono h _
  · obtain ⟨hcount, hwidth⟩ := not_or.mp hop
    have hsteady := hp (not_not.mp hcount) (not_not.mp hwidth)
    exact pushValue_mono h (pushedValue_mono h hsteady) hsteady.2

theorem popInto_mono {insn : Instruction} {v w : AbsVal δ} (hv : v ≤ w)
    (hp : SteadyPopInto insn s t v w) : popInto insn v s ≤ popInto insn w t := by
  unfold SteadyPopInto at hp
  unfold popInto
  split
  · rename_i r hr
    simp only [hr] at hp
    cases hd : r.dwarfRegOf with
    | none => exact h
    | some d =>
      dsimp only
      split_ifs with hfull
      · exact AbsState.setVal_mono h hv (hp hfull d hd)
      · exact AbsState.clobberReg_mono h d
  · rename_i mem hmem
    simp only [hmem] at hp
    rcases memSlot_cases h insn mem with heq | ⟨hs, k, ht⟩ | ⟨k, hs, ht⟩
    · rw [heq]
      split
      · exact AbsState.setSlot_mono h _ hv
      · exact h
    · simp only [hs, ht]
      exact AbsState.le_setSlot h (hp.1 hs k ht)
    · simp only [hs, ht]
      exact AbsState.setSlot_le h (hp.2 ht k hs)
  · exact h

theorem transferPop_mono {insn : Instruction}
    (hp : insn.opCount = 1 → insn.insn.operandWidth = 64 → s.SteadyPop t ∧
      SteadyPopInto insn (popValue s).2 (popValue t).2 (popValue s).1 (popValue t).1) :
    (transferPop insn s).2 ≤ (transferPop insn t).2 := by
  unfold transferPop
  split_ifs with hop
  · exact AbsState.clobberReg_mono h _
  · obtain ⟨hcount, hwidth⟩ := not_or.mp hop
    obtain ⟨hpop, hinto⟩ := hp (not_not.mp hcount) (not_not.mp hwidth)
    obtain ⟨hv, hst⟩ := popValue_mono h hpop
    exact popInto_mono hst hv hinto

theorem leaValue_mono {insn : Instruction} {mem : MemOperand}
    (hkept : (memSlot s insn mem).isSome = true → (memSlot t insn mem).isSome = true) :
    leaValue s insn mem ≤ leaValue t insn mem := by
  unfold leaValue
  rcases memSlot_cases h insn mem with heq | ⟨hs, k, ht⟩ | ⟨k, hs, ht⟩
  · rw [heq]
  · rw [hs]
    exact AbsVal.top_le _
  · simp [hs, ht] at hkept

theorem transferLea_mono {z : Zydis} {insn : Instruction} (hl : SteadyLea insn s t) :
    Option.Rel (· ≤ ·) (transferLea z insn s) (transferLea z insn t) := by
  unfold SteadyLea at hl
  unfold transferLea
  split
  · rename_i r _ _ _ mem _ _ _ hops
    simp only [hops] at hl
    cases hr : r.dwarfRegOf with
    | none => exact .none
    | some d =>
      dsimp only
      cases hfull : r.isFull64 with
      | false => exact .some (clobberWrittenReg_mono h r d)
      | true =>
        obtain ⟨hkept, hw⟩ := hl hfull
        simp only [Bool.not_true, Bool.false_eq_true, if_false]
        split
        · exact .some (AbsState.setReg_mono h le_rfl le_rfl (s.steadyWrite_self _ _))
        · exact .some (AbsState.setVal_mono h (leaValue_mono h hkept) (hw d hr))
  · exact .none

/-- A guard bounds no more in the higher state. -/
theorem sourceGuard_mono (sr : Option (Fin 16)) (readBits : ℕ) :
    sourceGuard s sr readBits ≤ sourceGuard t sr readBits ∧ sourceGuard s sr readBits ≤ kBoundTop := by
  have htop : ∀ (u : AbsState δ) (r : Fin 16), provenGuardBound u r readBits ≤ kBoundTop := by
    intro u r
    unfold provenGuardBound
    split
    · exact le_rfl
    · split_ifs
      · exact le_rfl
      · exact le_rfl
      · exact (min_le_left _ _).trans (widthBound_le readBits)
  cases sr with
  | none => exact ⟨le_rfl, le_rfl⟩
  | some r =>
    refine ⟨?_, htop s r⟩
    rcases (AbsState.le_iff.mp h).2.2.2 with hnone | heq
    · have ht : provenGuardBound t r readBits = kBoundTop := by simp [provenGuardBound, hnone]
      exact (htop s r).trans ht.ge
    · exact le_of_eq (by simp [sourceGuard, provenGuardBound, heq])

theorem movToReg_mono {insn : Instruction} {r : ZydisRegister} {d : Fin 16} {src : Operand}
    (hm : r.isFull64 = true → SteadyMovToReg insn s t d src) :
    movToReg insn s r d src ≤ movToReg insn t r d src := by
  unfold movToReg
  cases hfull : r.isFull64 with
  | false =>
    simp only [Bool.not_false, if_true]
    generalize (if r.widthBits = 32 then src.reg?.bind ZydisRegister.dwarfRegOf else none) = sr
    have hw := clobberWrittenReg_mono h r d
    split_ifs
    · apply AbsState.modifyTable_mono hw
      exact applyZeroExtendedFrom_mono (AbsState.table_mono h sr) (sourceGuard_mono h sr _).1
        ((AbsState.le_iff.mp hw).2.2.1 d)
    · exact hw
  | true =>
    have hm := hm hfull
    unfold SteadyMovToReg at hm
    simp only [Bool.not_true, Bool.false_eq_true, if_false]
    split
    · rename_i q hq
      simp only [hq] at hm
      cases hsr : q.dwarfRegOf with
      | none => exact AbsState.clobberReg_mono h d
      | some sr =>
        dsimp only
        split_ifs with hq64
        · exact AbsState.setReg_mono h ((AbsState.le_iff.mp h).1 sr) ((AbsState.le_iff.mp h).2.2.1 sr)
            (hm hq64 sr hsr)
        · exact AbsState.clobberReg_mono h d
    · rename_i mem hmem
      simp only [hmem] at hm
      by_cases hsize : src.size = 64
      · obtain ⟨hl, hw⟩ := hm hsize
        have hmono := AbsState.setVal_mono h (slotAt_mono h hl) hw
        cases hs : memSlot s insn mem <;> cases ht : memSlot t insn mem <;>
          simpa [hs, ht, hsize, AbsState.slotAt] using hmono
      · have hmono : s.setVal d .top ≤ t.setVal d .top := AbsState.clobberReg_mono h d
        cases memSlot s insn mem <;> cases memSlot t insn mem <;> simpa [hsize] using hmono
    · exact AbsState.clobberReg_mono h d

omit h in
theorem movToMem_eq (insn : Instruction) (s : AbsState δ) (mem : MemOperand) (size : ℕ)
    (src : Operand) {k : δ} (hk : memSlot s insn mem = some k) :
    movToMem insn s mem size src = eraseSlots s k (writtenBytes size) ∧
        movedValue s size src = .top ∨
      movToMem insn s mem size src =
        (eraseSlots s k (writtenBytes size)).setSlot k (movedValue s size src) := by
  unfold movToMem movedValue
  rw [hk]
  cases hkind : src.kind with
  | register q =>
    dsimp only
    split_ifs
    · exact Or.inr (by simp [readReg])
    · exact Or.inl ⟨rfl, rfl⟩
  | memory _ | immediate _ | pointer => exact Or.inl ⟨rfl, rfl⟩

theorem movToMem_mono {insn : Instruction} {mem : MemOperand} {size : ℕ} {src : Operand}
    (hm : SteadyMovToMem insn s t mem size src) :
    movToMem insn s mem size src ≤ movToMem insn t mem size src := by
  obtain ⟨hstore, hvacant⟩ := hm
  rcases memSlot_cases h insn mem with heq | ⟨hs, k, ht⟩ | ⟨k, hs, ht⟩
  · unfold movToMem
    rw [heq]
    cases memSlot t insn mem with
    | none => exact h
    | some k =>
      have he : eraseSlots s k (writtenBytes size) ≤ eraseSlots t k (writtenBytes size) :=
        AbsState.eraseSlots_mono h
      dsimp only
      split
      · split_ifs
        · exact AbsState.setSlot_mono he k (readReg_mono he _)
        · exact he
      · exact he
  · have hslot := hstore.1 hs k ht
    have hrest := hvacant hs k ht
    have hsame : movToMem insn s mem size src = s := by simp [movToMem, hs]
    rw [hsame]
    rcases movToMem_eq insn t mem size src ht with ⟨heq, htop⟩ | heq
    · -- nothing is stored, so the slot itself is not tracked either
      rw [heq]
      rw [htop] at hslot
      refine AbsState.le_of_slots h (fun j => ?_) rfl rfl rfl (by simp) (by simp) (by simp)
      rw [AbsState.slotView_eraseSlots]
      split_ifs with hover
      · by_cases hj : j = k
        · exact hj ▸ hslot
        · exact (hrest.slotView (by simpa [hj] using hover.2)).le
      · exact (AbsState.le_iff.mp h).2.1 j
    · rw [heq]
      refine AbsState.le_of_slots h (fun j => ?_) rfl rfl rfl (by simp) (by simp) (by simp)
      rw [AbsState.slotView_setSlot, AbsState.slotView_eraseSlots]
      split_ifs with hj hover
      · exact hj ▸ hslot
      · exact (hrest.slotView (by simpa [Ne.symm hj] using hover.2)).le
      · exact (AbsState.le_iff.mp h).2.1 j
  · have hsame : movToMem insn t mem size src = t := by simp [movToMem, ht]
    rw [hsame]
    rcases movToMem_eq insn s mem size src hs with ⟨heq, -⟩ | heq
    · rw [heq]
      exact AbsState.eraseSlots_le h
    · rw [heq]
      exact AbsState.setSlot_le (AbsState.eraseSlots_le h) (hstore.2 ht k hs)

theorem transferMov_mono {insn : Instruction} (hm : SteadyMov insn s t) :
    Option.Rel (· ≤ ·) (transferMov insn s) (transferMov insn t) := by
  unfold SteadyMov at hm
  unfold transferMov
  split
  · rename_i r _ _ _ src hops
    simp only [hops] at hm
    cases hr : r.dwarfRegOf with
    | none => exact .none
    | some d => exact .some (movToReg_mono h fun hfull => hm hfull d hr)
  · rename_i mem size _ _ src hops
    simp only [hops] at hm
    exact .some (movToMem_mono h hm)
  · exact .none

/-- A table that is found in both states is the same one. -/
theorem tableLoad_mono {d : Fin 16} {mem : MemOperand} {u v : AbsState δ}
    (hu : tableLoad s d mem = some u) (hv : tableLoad t d mem = some v) : u ≤ v := by
  unfold tableLoad at hu hv
  split at hu
  · cases hu
  · rename_i hshape
    rw [if_neg hshape] at hv
    simp only [Option.bind_eq_bind, Option.bind_eq_some_iff] at hu hv
    obtain ⟨idx, hidx, base, hbase, hu⟩ := hu
    obtain ⟨idx', hidx', base', hbase', hv⟩ := hv
    cases hidx.symm.trans hidx'
    cases hbase.symm.trans hbase'
    have hkind := (TableVal.le_iff.mp ((AbsState.le_iff.mp h).2.2.1 base)).1
    have hbound := (TableVal.le_iff.mp ((AbsState.le_iff.mp h).2.2.1 idx)).2.2
    split at hu
    · cases hu
    · rename_i hfull
      rw [if_neg hfull] at hv
      split at hu
      · rename_i value hs
        split at hv
        · rename_i value' ht
          have hsame : value = value' := by
            rw [hs, ht, TableVal.Kind.le_def] at hkind
            simpa using hkind
          subst hsame
          cases hu
          cases hv
          apply AbsState.setReg_mono h le_rfl _ (s.steadyWrite_self _ _)
          exact TableVal.le_iff.mpr ⟨le_rfl, le_rfl, hbound⟩
        · cases hv
      · cases hu

omit h in
theorem rel_of_isSome {a b : Option (AbsState δ)} (hsome : a.isSome = b.isSome)
    (hab : ∀ u ∈ a, ∀ v ∈ b, u ≤ v) : Option.Rel (· ≤ ·) a b := by
  cases a with
  | none =>
    cases b with
    | none => exact .none
    | some v => cases hsome
  | some u =>
    cases b with
    | none => cases hsome
    | some v => exact .some (hab u rfl v rfl)

theorem transferMovsxd_mono {insn : Instruction}
    (hsome : (transferMovsxd insn s).isSome = (transferMovsxd insn t).isSome) :
    Option.Rel (· ≤ ·) (transferMovsxd insn s) (transferMovsxd insn t) := by
  apply rel_of_isSome hsome
  intro u hu v hv
  unfold transferMovsxd at hu hv
  split at hu
  · rename_i r _ _ _ src hops
    simp only [hops] at hv
    cases hr : r.dwarfRegOf with
    | none => simp [hr] at hu
    | some d =>
      simp only [hr] at hu hv
      split at hu
      · cases hu
      · rename_i hfull
        rw [if_neg hfull] at hv
        cases hk : src.kind with
        | register q =>
          simp only [hk, Option.mem_some_iff] at hu hv
          have hw := AbsState.clobberReg_mono h d
          rw [← hu, ← hv]
          split_ifs
          · apply AbsState.modifyTable_mono hw
            obtain ⟨hg, htop⟩ := sourceGuard_mono h q.dwarfRegOf src.size
            exact applySignExtendedFrom_mono (AbsState.table_mono h _) hg htop
              ((AbsState.le_iff.mp hw).2.2.1 d)
          · exact hw
        | memory mem =>
          simp only [hk] at hu hv
          exact tableLoad_mono h hu hv
        | immediate _ | pointer =>
          simp only [hk] at hu
          cases hu
  · cases hu

omit h in
theorem resolveDispatch_mono {a a' b b' v w : TableVal} (hb : b ≤ b')
    (hv : resolveDispatch a b = some v) (hw : resolveDispatch a' b' = some w) : v ≤ w := by
  obtain ⟨addr, i, value, -, hentry, rfl⟩ := resolveDispatch_eq_some hv
  obtain ⟨addr', i', value', -, hentry', rfl⟩ := resolveDispatch_eq_some hw
  obtain ⟨hkind, -, hbound⟩ := TableVal.le_iff.mp hb
  rw [hentry, hentry', TableVal.Kind.le_def] at hkind
  simp only [reduceCtorEq, TableVal.Kind.tableEntry.injEq, false_or] at hkind
  obtain ⟨rfl, rfl, -⟩ := hkind
  exact TableVal.le_iff.mpr ⟨le_rfl, le_rfl, hbound⟩

omit h in
/-- Base and entry are not exchanged on the way up. -/
theorem resolveDispatch_swapped {a a' b b' v : TableVal} (ha : a ≤ a') (hv : resolveDispatch a b = some v) :
    resolveDispatch b' a' = none := by
  obtain ⟨addr, i, value, hbase, -, -⟩ := resolveDispatch_eq_some hv
  have hkind := (TableVal.le_iff.mp ha).1
  rw [hbase, TableVal.Kind.le_def] at hkind
  rw [Option.eq_none_iff_forall_ne_some]
  intro w hw
  obtain ⟨addr', i', value', -, hentry, -⟩ := resolveDispatch_eq_some hw
  simp [hentry] at hkind

theorem addDispatch_mono {r q : ZydisRegister} {u v : AbsState δ}
    (hu : addDispatch s r q = some u) (hv : addDispatch t r q = some v) : u ≤ v := by
  unfold addDispatch at hu hv
  simp only [Option.bind_eq_bind, Option.bind_eq_some_iff] at hu hv
  obtain ⟨d, hd, e, he, hu⟩ := hu
  obtain ⟨d', hd', e', he', hv⟩ := hv
  cases hd.symm.trans hd'
  cases he.symm.trans he'
  split at hu
  · rename_i hfull
    rw [if_pos hfull] at hv
    obtain ⟨x, hx, hu⟩ := Option.bind_eq_some_iff.mp hu
    obtain ⟨y, hy, hv⟩ := Option.bind_eq_some_iff.mp hv
    cases hu
    cases hv
    have hd := (AbsState.le_iff.mp h).2.2.1 d
    have he := (AbsState.le_iff.mp h).2.2.1 e
    apply AbsState.setReg_mono h le_rfl _ (s.steadyWrite_self _ _)
    rcases Option.or_eq_some_iff.mp hx with hx | ⟨-, hx⟩
    · rw [resolveDispatch_swapped hd hx, Option.or_none] at hy
      exact resolveDispatch_mono he hx hy
    · rw [resolveDispatch_swapped he hx, Option.none_or] at hy
      exact resolveDispatch_mono hd hx hy
  · cases hu

omit h in
theorem writtenRegBound_of_isFull64 {r : ZydisRegister} (hfull : r.isFull64 = true) :
    writtenRegBound r = kBoundTop := by
  cases r with
  | gpr64 g => rfl
  | _ => cases hfull

theorem addSubImm_mono {insn : Instruction} {r : ZydisRegister} {imm : Word} {d : Fin 16}
    (hr : r.dwarfRegOf = some d) (hm : r.isFull64 = true → (s.gpr d).lost (t.gpr d) = none ∧
      ∀ x ∈ (s.gpr d).learnt (t.gpr d), s.SteadyWrite d .top
        (.cfaRel (if insn.id = .add then x + Offset.ofInt imm.toInt else x - Offset.ofInt imm.toInt))) :
    Option.Rel (· ≤ ·) (addSubImm insn s r imm) (addSubImm insn t r imm) := by
  have hclob := clobberWrittenReg_mono h r d
  cases hfull : r.isFull64 with
  | false =>
    simp only [addSubImm, hr, hfull, Option.map_some]
    exact .some hclob
  | true =>
    obtain ⟨hkept, hw⟩ := hm hfull
    rcases AbsVal.frame_cases ((AbsState.le_iff.mp h).1 d) with
      ⟨x, hs, ht⟩ | ⟨hs, ht⟩ | ⟨x, hs, ht⟩ | ⟨x, hs, ht⟩
    · simp only [addSubImm, hr, hfull, hs, ht, Option.map_some]
      exact .some (AbsState.setVal_mono h le_rfl (s.steadyWrite_self _ _))
    · rw [addSubImm_untracked hr hs, addSubImm_untracked hr ht]
      exact .some hclob
    · have hclobber : clobberWrittenReg s r d = s.setVal d .top := by
        unfold clobberWrittenReg AbsState.clobberReg AbsState.setVal
        rw [writtenRegBound_of_isFull64 hfull, setReg_modifyTable]
        rfl
      rw [addSubImm_untracked hr (by simp [hs]), hclobber]
      simp only [addSubImm, hr, hfull, ht, Option.map_some]
      exact .some (AbsState.setVal_mono h (AbsVal.top_le _) (hw x (by rw [hs, ht]; rfl)))
    · simp [hs, ht, AbsVal.lost] at hkept

theorem transferAddSub_mono {insn : Instruction} (hm : SteadyAddSub insn s t)
    (hsome : (transferAddSub insn s).isSome = (transferAddSub insn t).isSome) :
    Option.Rel (· ≤ ·) (transferAddSub insn s) (transferAddSub insn t) := by
  unfold SteadyAddSub at hm
  unfold transferAddSub at hsome ⊢
  split
  · rename_i r _ _ _ q _ _ _ hops
    simp only [hops] at hsome
    split_ifs at hsome ⊢
    · exact rel_of_isSome hsome fun u hu v hv => addDispatch_mono h hu hv
    · exact .none
  · rename_i r _ _ _ imm _ _ _ hops
    simp only [hops] at hm
    cases hr : r.dwarfRegOf with
    | none =>
      simp only [addSubImm, hr, Option.map_none]
      exact .none
    | some d => exact addSubImm_mono h hr fun hfull => hm hfull d hr
  · exact .none

theorem transferCmp_mono (insn : Instruction) : transferCmp insn s ≤ transferCmp insn t := by
  unfold transferCmp
  split
  · split
    · obtain ⟨hgpr, hslots, htbl, -⟩ := AbsState.le_iff.mp h
      exact AbsState.le_iff.mpr ⟨hgpr, hslots, htbl, Or.inr rfl⟩
    · exact h
  · exact h

theorem extend_mono (insn : Instruction) (r : ZydisRegister) (d : Fin 16) (src : Operand) :
    let sr := src.reg?.bind ZydisRegister.dwarfRegOf
    let extended := fun u : AbsState δ => ((clobberWrittenReg u r d).modifyTable d
      (if insn.id = .movzx then applyZeroExtendedFrom (u.table sr) src.size (sourceGuard u sr src.size)
        else applySignExtendedFrom (u.table sr) src.size (sourceGuard u sr src.size))).modifyTable d
          fun x => { x with valueBound := min x.valueBound (writtenRegBound r) }
    extended s ≤ extended t := by
  intro sr extended
  obtain ⟨hg, htop⟩ := sourceGuard_mono h sr src.size
  have htable := AbsState.table_mono h sr
  have hw := clobberWrittenReg_mono h r d
  have hstep : ∀ x y : TableVal, x ≤ y →
      (if insn.id = .movzx then applyZeroExtendedFrom (s.table sr) src.size (sourceGuard s sr src.size)
        else applySignExtendedFrom (s.table sr) src.size (sourceGuard s sr src.size)) x ≤
      (if insn.id = .movzx then applyZeroExtendedFrom (t.table sr) src.size (sourceGuard t sr src.size)
        else applySignExtendedFrom (t.table sr) src.size (sourceGuard t sr src.size)) y := by
    intro x y hxy
    split_ifs
    · exact applyZeroExtendedFrom_mono htable hg hxy
    · exact applySignExtendedFrom_mono htable hg htop hxy
  have hext := AbsState.modifyTable_mono hw d (hstep _ _ ((AbsState.le_iff.mp hw).2.2.1 d))
  apply AbsState.modifyTable_mono hext
  obtain ⟨hk, hv, ht⟩ := TableVal.le_iff.mp ((AbsState.le_iff.mp hext).2.2.1 d)
  exact TableVal.le_iff.mpr ⟨hk, min_le_min_right _ hv, ht⟩

theorem transferMovx_mono (insn : Instruction) :
    Option.Rel (· ≤ ·) (transferMovx insn s) (transferMovx insn t) := by
  unfold transferMovx
  split
  · rename_i r _ _ _ src hops
    split
    · dsimp only
      split_ifs
      · exact .some (clobberWrittenReg_mono h r _)
      all_goals exact .some (by simpa [*] using extend_mono h insn r _ src)
    · dsimp only
      split_ifs
      · exact .some (clobberWrittenReg_mono h r _)
      all_goals exact .some (by simpa [*] using extend_mono h insn r _ src)
    · exact .none
  · exact .none

theorem transferNamed_mono {z : Zydis} {insn : Instruction} (hn : SteadyNamed insn s t)
    (hsome : (transferNamed z insn s).isSome = (transferNamed z insn t).isSome)
    (hops : transferNamed z insn s = none → ∀ op ∈ insn.insn.operands, SteadyClobber insn s t op) :
    ((transferNamed z insn s).getD ({}, clobberWrites insn s)).2 ≤
      ((transferNamed z insn t).getD ({}, clobberWrites insn t)).2 := by
  have hgen : transferNamed z insn s = none → clobberWrites insn s ≤ clobberWrites insn t :=
    fun hnone => clobberWrites_mono h (hops hnone)
  have hgetD : ∀ {a b : Option (AbsState δ)}, Option.Rel (· ≤ ·) a b →
      (a = none → transferNamed z insn s = none) →
        a.getD (clobberWrites insn s) ≤ b.getD (clobberWrites insn t) := by
    intro a b hab hnone
    cases hab with
    | none => exact hgen (hnone rfl)
    | some hle => exact hle
  unfold SteadyNamed at hn
  unfold transferNamed
  split
  case h_1 hid | h_2 hid | h_3 hid | h_4 hid | h_5 hid | h_6 hid | h_7 hid | h_8 hid | h_9 hid =>
    simp only [hid] at hn
    exact callEffect_mono h hn
  case h_10 hid =>
    simp only [hid] at hn
    exact transferPush_mono h hn
  case h_11 hid =>
    simp only [hid] at hn
    exact pushValue_mono h le_rfl hn
  case h_12 hid =>
    simp only [hid] at hn
    exact transferPop_mono h hn
  case h_13 hid =>
    simp only [hid] at hn
    exact (popValue_mono h hn).2
  case h_14 hid =>
    simp only [hid] at hn
    exact transferLeave_mono h hn
  case h_15 hid =>
    simp only [hid] at hn
    rw [getD_map_plain, getD_map_plain]
    exact hgetD (transferLea_mono h hn) fun hnone => by simp [transferNamed, hid, hnone]
  case h_16 hid | h_17 hid =>
    simp only [hid] at hn
    rw [getD_map_plain, getD_map_plain]
    exact hgetD (transferMov_mono h hn) fun hnone => by simp [transferNamed, hid, hnone]
  case h_18 hid =>
    simp only [transferNamed, hid, Option.isSome_map] at hsome
    rw [getD_map_plain, getD_map_plain]
    exact hgetD (transferMovsxd_mono h hsome) fun hnone => by simp [transferNamed, hid, hnone]
  case h_19 hid | h_20 hid =>
    simp only [hid] at hn
    simp only [transferNamed, hid, Option.isSome_map] at hsome
    rw [getD_map_plain, getD_map_plain]
    exact hgetD (transferAddSub_mono h hn hsome) fun hnone => by simp [transferNamed, hid, hnone]
  case h_21 => exact transferCmp_mono h insn
  case h_22 hid | h_23 hid =>
    rw [getD_map_plain, getD_map_plain]
    exact hgetD (transferMovx_mono h insn) fun hnone => by simp [transferNamed, hid, hnone]
  case h_24 | h_25 | h_26 => exact h
  case h_27 => exact hgen (by unfold transferNamed; split <;> first | rfl | simp_all)

theorem dropStaleCmp_mono (insn : Instruction) : dropStaleCmp insn s ≤ dropStaleCmp insn t := by
  obtain ⟨hgpr, hslots, htbl, hcmp⟩ := AbsState.le_iff.mp h
  unfold dropStaleCmp
  rcases hcmp with hnone | heq
  · split_ifs
    · exact AbsState.le_iff.mpr ⟨hgpr, hslots, htbl, Or.inl rfl⟩
    · exact AbsState.le_iff.mpr ⟨hgpr, hslots, htbl, Or.inl hnone⟩
    · exact AbsState.le_iff.mpr ⟨hgpr, hslots, htbl, Or.inl rfl⟩
    · exact h
  · rw [heq]
    split_ifs
    · exact AbsState.le_iff.mpr ⟨hgpr, hslots, htbl, Or.inl rfl⟩
    · exact h

/-- A higher state before an instruction is a higher state after it. -/
theorem transfer_mono {z : Zydis} {insn : Instruction} (hst : insn.Steady z s t) :
    (transfer z insn s).2 ≤ (transfer z insn t).2 := by
  have hdrop := dropStaleCmp_mono h insn
  unfold transfer
  dsimp only
  split_ifs with hret hbr htrap
  · exact hdrop
  · exact hdrop
  · exact hdrop
  · obtain ⟨hcond, huncond⟩ := not_or.mp hbr
    obtain ⟨hn, hsome, hops⟩ := hst (Bool.eq_false_iff.mpr hret) hcond huncond (Bool.eq_false_iff.mpr htrap)
    exact transferNamed_mono hdrop hn hsome hops

/-- What an edge proves it proves in the lower state too. -/
theorem transferEdge_mono (insn : Instruction) (edge : BranchEdge) :
    transferEdge insn edge s ≤ transferEdge insn edge t := by
  obtain ⟨hgpr, hslots, htbl, hcmp⟩ := AbsState.le_iff.mp h
  have hlower : ∀ (r q : Fin 16) (b : ℕ),
      Function.update s.tbl r ((s.tbl r).applyGuardBound b) q ≤ s.tbl q := by
    intro r q b
    rw [Function.update_apply]
    split_ifs with hq
    · exact hq ▸ TableVal.applyGuardBound_le _ _
    · exact le_rfl
  cases hs : s.lastCmp with
  | none =>
    have ht : t.lastCmp = none := by simpa [hs, eq_comm] using hcmp
    rw [transferEdge_of_none hs, transferEdge_of_none ht]
    exact h
  | some g =>
    rw [hs] at hcmp
    rcases transferEdge_of_lastCmp (δ := δ) insn edge g with hno | ⟨ubound, -, -, hsome⟩
    · rw [hno s hs]
      rcases hcmp with ht | ht
      · rw [transferEdge_of_none ht]
        exact h
      · rw [hno t ht.symm]
        exact h
    · rw [hsome s hs]
      rcases hcmp with ht | ht
      · rw [transferEdge_of_none ht]
        split_ifs
        · exact AbsState.le_iff.mpr ⟨hgpr, hslots, fun q => (hlower g.reg q ubound).trans (htbl q), Or.inl ht⟩
        · exact AbsState.le_iff.mpr ⟨hgpr, hslots, htbl, Or.inl ht⟩
      · have hvalue := (TableVal.le_iff.mp (htbl g.reg)).2.1
        rw [hsome t ht.symm]
        split_ifs with hlow hhigh hhigh
        · refine AbsState.le_iff.mpr ⟨hgpr, hslots, fun q => ?_, Or.inr rfl⟩
          simp only [AbsState.applyGuardBound, Function.update_apply]
          split_ifs
          · exact TableVal.applyGuardBound_mono (htbl g.reg) ubound
          · exact htbl q
        · exact AbsState.le_iff.mpr
            ⟨hgpr, hslots, fun q => (hlower g.reg q ubound).trans (htbl q), Or.inr rfl⟩
        · exact absurd (hhigh.imp_right hvalue.trans) hlow
        · exact AbsState.le_iff.mpr ⟨hgpr, hslots, htbl, Or.inr rfl⟩

end

/-- Whether an instruction calls, falls through or names its target does not depend on the state. -/
theorem transfer_control (z : Zydis) (insn : Instruction) (s t : AbsState δ) :
    (transfer z insn s).1.isCall = (transfer z insn t).1.isCall ∧
      (transfer z insn s).1.fallsThrough = (transfer z insn t).1.fallsThrough ∧
      (transfer z insn s).1.directTarget = (transfer z insn t).1.directTarget := by
  have hplain : ∀ u : AbsState δ,
      ((transferNamed z insn u).getD ({}, clobberWrites insn u)).1.Plain := by
    intro u
    cases hn : transferNamed z insn u with
    | none => exact TransferOutcome.plain_default
    | some r => exact transferNamed_plain hn
  have hcall : ∀ u : AbsState δ, ((transferNamed z insn u).getD ({}, clobberWrites insn u)).1.isCall =
      decide (insn.id = .call) := by
    intro u
    by_cases hid : insn.id = .call
    · simp [transferNamed, hid]
    · cases hn : transferNamed z insn u with
      | none => simp [hid]
      | some r => simpa [hid] using transferNamed_isCall hn hid
  unfold transfer
  dsimp only
  split_ifs
  · exact ⟨rfl, rfl, rfl⟩
  · rw [(branchOutcome_target z insn _).2.1, (branchOutcome_target z insn _).2.1,
      branchOutcome_fallsThrough, branchOutcome_fallsThrough]
    exact ⟨rfl, rfl, by rw [branchOutcome_directTarget, branchOutcome_directTarget]⟩
  · exact ⟨rfl, rfl, rfl⟩
  · rw [hcall, hcall, (hplain _).fallsThrough, (hplain _).fallsThrough, (hplain _).directTarget,
      (hplain _).directTarget]
    exact ⟨rfl, rfl, rfl⟩

end UnwindCheck
