import UnwindCheck.Insn.Semantics
import UnwindCheck.State.Join

/-! Which stack slots an instruction can create, and that the bounds it writes are 64-bit ones. -/
namespace UnwindCheck

def TableVal.Bounded (t : TableVal) : Prop := t.valueBound ≤ kBoundTop ∧ t.tableBound ≤ kBoundTop

theorem TableVal.bounded_none : TableVal.none.Bounded := ⟨le_rfl, le_rfl⟩

theorem writtenRegBound_le (reg : ZydisRegister) : writtenRegBound reg ≤ kBoundTop := by
  unfold writtenRegBound
  split_ifs
  · exact widthBound_le 32
  · exact le_rfl

theorem applyZeroExtendedFrom_bounded (src dst : TableVal) (srcBits : ℕ) {guardBound : ℕ}
    (h : guardBound ≤ kBoundTop) : (applyZeroExtendedFrom src srcBits guardBound dst).Bounded :=
  ⟨(min_le_right _ _).trans h, (min_le_right _ _).trans h⟩

theorem applySignExtendedFrom_bounded (src dst : TableVal) (srcBits : ℕ) {guardBound : ℕ}
    (h : guardBound ≤ kBoundTop) : (applySignExtendedFrom src srcBits guardBound dst).Bounded := by
  unfold applySignExtendedFrom
  dsimp only
  split_ifs
  · exact ⟨le_rfl, le_rfl⟩
  · exact ⟨(min_le_right _ _).trans h, (min_le_right _ _).trans h⟩

variable {δ : Type} [Offset δ]

theorem sourceGuard_le (s : AbsState δ) (sr : Option (Fin 16)) (readBits : ℕ) :
    sourceGuard s sr readBits ≤ kBoundTop := by
  unfold sourceGuard
  split
  · unfold provenGuardBound
    split
    · exact le_rfl
    · split_ifs
      · exact le_rfl
      · exact le_rfl
      · exact (min_le_left _ _).trans (widthBound_le _)
  · exact le_rfl

/-- The offsets of the slots `insn` can create: below rsp, and where a memory operand points
before or after a pop moved rsp. -/
def createdSlots (insn : Instruction) (s : AbsState δ) : List δ :=
  (match s.gpr kDWARFRsp with
    | .cfaRel delta => [delta - Offset.ofInt 8]
    | _ => []) ++
  insn.insn.operands.flatMap fun op =>
    match op.kind with
    | .memory mem => (memSlot s insn mem).toList ++ (memSlot (popValue s).2 insn mem).toList
    | _ => []

theorem memSlot_congr {s t : AbsState δ} (h : s.gpr = t.gpr) (insn : Instruction) (mem : MemOperand) :
    memSlot s insn mem = memSlot t insn mem := by
  unfold memSlot readReg
  rw [h]

theorem createdSlots_congr {s t : AbsState δ} (h : s.gpr = t.gpr) (insn : Instruction) :
    createdSlots insn s = createdSlots insn t := by
  have hpop : (popValue s).2.gpr = (popValue t).2.gpr := by
    unfold popValue
    rw [h]
    split
    · simp [h]
    · exact h
  unfold createdSlots
  simp only [memSlot_congr h, memSlot_congr hpop, h]

/-- The slots of `s` lie in `K` and its bounds are 64-bit ones. -/
structure AbsState.Within (K : δ → Prop) (s : AbsState δ) : Prop where
  slots : ∀ (k : δ) (v : AbsVal δ), s.slots[k]? = some v → K k
  tbl : ∀ r, (s.tbl r).Bounded

namespace AbsState.Within
variable {K : δ → Prop} {s : AbsState δ}

theorem filter (h : s.Within K) (p : δ → AbsVal δ → Bool) :
    AbsState.Within K { s with slots := s.slots.filter p } := by
  refine ⟨fun k v hv => ?_, h.tbl⟩
  rw [Std.ExtTreeMap.getElem?_filter'] at hv
  obtain ⟨hv', -⟩ := Option.filter_eq_some_iff.mp hv
  exact h.slots k v hv'

theorem dropSlotsBelow (h : s.Within K) (d : δ) : (s.dropSlotsBelow d).Within K := h.filter _

theorem eraseSlots (h : s.Within K) (start size : δ) :
    (UnwindCheck.eraseSlots s start size).Within K := by
  unfold UnwindCheck.eraseSlots
  split_ifs
  · exact h
  · exact h.filter _

theorem lastCmp (h : s.Within K) (c : Option FlagsGuard) :
    AbsState.Within K { s with lastCmp := c } := ⟨h.slots, h.tbl⟩

theorem modifyTable (h : s.Within K) (r : Fin 16) {f : TableVal → TableVal}
    (hf : (f (s.tbl r)).Bounded) : (s.modifyTable r f).Within K := by
  refine ⟨h.slots, fun q => ?_⟩
  simp only [AbsState.modifyTable, Function.update_apply]
  split_ifs
  · exact hf
  · exact h.tbl q

theorem applyGuardBound (h : s.Within K) (r : Fin 16) (b : ℕ) :
    (s.applyGuardBound r b).Within K := by
  have hb : ((s.tbl r).applyGuardBound b).Bounded :=
    ⟨(min_le_left _ _).trans (h.tbl r).1, (min_le_left _ _).trans (h.tbl r).2⟩
  exact h.modifyTable r (f := fun t => t.applyGuardBound b) hb

theorem setReg (h : s.Within K) (r : Fin 16) (v : AbsVal δ) {t : TableVal} (ht : t.Bounded) :
    (s.setReg r v t).Within K := by
  have htbl : AbsState.Within K
      { s with gpr := Function.update s.gpr r v, tbl := Function.update s.tbl r t } := by
    refine ⟨h.slots, fun q => ?_⟩
    simp only [Function.update_apply]
    split_ifs
    · exact ht
    · exact h.tbl q
  have hcmp : (AbsState.invalidateLastCmpFor
      { s with gpr := Function.update s.gpr r v, tbl := Function.update s.tbl r t } r).Within K := by
    unfold AbsState.invalidateLastCmpFor
    split_ifs
    · exact htbl.lastCmp none
    · exact htbl
  unfold AbsState.setReg
  dsimp only
  split
  · split_ifs
    · exact hcmp.dropSlotsBelow _
    · exact hcmp
  · exact hcmp

theorem setVal (h : s.Within K) (r : Fin 16) (v : AbsVal δ) : (s.setVal r v).Within K :=
  h.setReg r v TableVal.bounded_none

theorem clobberReg (h : s.Within K) (r : Fin 16) : (s.clobberReg r).Within K := h.setVal r _

theorem copyReg (h : s.Within K) (d r : Fin 16) : (s.copyReg d r).Within K :=
  h.setReg d _ (h.tbl r)

theorem setSlot (h : s.Within K) {k : δ} (hk : K k) (v : AbsVal δ) : (s.setSlot k v).Within K := by
  unfold AbsState.setSlot
  split_ifs
  · refine ⟨fun j w hw => ?_, h.tbl⟩
    rw [Std.ExtTreeMap.getElem?_erase] at hw
    split_ifs at hw
    exact h.slots j w hw
  · refine ⟨fun j w hw => ?_, h.tbl⟩
    rw [Std.ExtTreeMap.getElem?_insert] at hw
    split_ifs at hw with hj
    · exact (Std.LawfulEqCmp.eq_of_compare hj) ▸ hk
    · exact h.slots j w hw

theorem clobberWrittenReg (h : s.Within K) (reg : ZydisRegister) (d : Fin 16) :
    (UnwindCheck.clobberWrittenReg s reg d).Within K := by
  refine (h.clobberReg d).modifyTable d ⟨writtenRegBound_le reg, ?_⟩
  exact ((h.clobberReg d).tbl d).2

theorem clobberRegs (h : s.Within K) (regs : List (Fin 16)) :
    (regs.foldl AbsState.clobberReg s).Within K := by
  induction regs generalizing s with
  | nil => exact h
  | cons r regs ih => exact ih (h.clobberReg r)

theorem callEffect (h : s.Within K) : (UnwindCheck.callEffect s).Within K := by
  unfold UnwindCheck.callEffect
  apply clobberRegs
  split
  · exact h.dropSlotsBelow _
  · exact h

variable {insn : Instruction}

/-- A push writes below rsp. -/
theorem pushValue (h : s.Within K) (hc : ∀ k ∈ createdSlots insn s, K k) (v : AbsVal δ) :
    (UnwindCheck.pushValue s v).Within K := by
  unfold UnwindCheck.pushValue
  split
  · rename_i delta hd
    refine (h.setVal _ _).setSlot (hc _ ?_) v
    simp [createdSlots, hd]
  · exact h

theorem popValue (h : s.Within K) : (UnwindCheck.popValue s).2.Within K := by
  unfold UnwindCheck.popValue
  split
  · rename_i delta _
    exact h.setVal kDWARFRsp (.cfaRel (delta + Offset.ofInt 8))
  · exact h

theorem mem_operands_of_op? {i : Instruction} {n : ℕ} {op : Operand} (h : i.op? n = some op) :
    op ∈ i.insn.operands := by
  unfold Instruction.op? at h
  split_ifs at h
  exact List.mem_of_getElem? h

theorem mem_operands_of_ops2? {i : Instruction} {a b : Operand} (h : i.ops2? = some (a, b)) :
    a ∈ i.insn.operands := by
  unfold Instruction.ops2? at h
  split_ifs at h
  obtain ⟨x, hx, h⟩ := Option.bind_eq_some_iff.mp h
  obtain ⟨y, hy, h⟩ := Option.bind_eq_some_iff.mp h
  cases h
  exact List.mem_of_getElem? hx

theorem mem_createdSlots {op : Operand} (hop : op ∈ insn.insn.operands) {mem : MemOperand}
    (hk : op.kind = .memory mem) {k : δ}
    (h : memSlot s insn mem = some k ∨ memSlot (UnwindCheck.popValue s).2 insn mem = some k) :
    k ∈ createdSlots insn s := by
  refine List.mem_append_right _ (List.mem_flatMap.mpr ⟨op, hop, ?_⟩)
  rw [hk]
  rcases h with h | h <;> simp [h]

theorem transferPush (h : s.Within K) (hc : ∀ k ∈ createdSlots insn s, K k) :
    (UnwindCheck.transferPush insn s).2.Within K := by
  unfold UnwindCheck.transferPush
  split_ifs
  · exact h.clobberReg _
  · exact h.pushValue hc _

theorem transferPop (h : s.Within K) (hc : ∀ k ∈ createdSlots insn s, K k) :
    (UnwindCheck.transferPop insn s).2.Within K := by
  unfold UnwindCheck.transferPop
  split_ifs
  · exact h.clobberReg _
  · have hpop := h.popValue
    unfold popInto
    dsimp only
    split
    · split
      · exact hpop.setVal _ _
      · exact hpop
    · rename_i mem hmem
      obtain ⟨op, hop, hkind⟩ := Option.map_eq_some_iff.mp hmem
      split
      · rename_i k hk
        exact hpop.setSlot (hc k (mem_createdSlots (mem_operands_of_op? hop) hkind (Or.inr hk))) _
      · exact hpop
    · exact hpop

theorem transferLeave (h : s.Within K) : (UnwindCheck.transferLeave s).Within K := by
  have hcopy := h.copyReg kDWARFRsp kDWARFRbp
  unfold UnwindCheck.transferLeave
  dsimp only
  split
  · exact (hcopy.setVal _ _).setVal _ _
  · exact hcopy.clobberReg _

theorem transferLea {z : Zydis} {s' : AbsState δ} (h : s.Within K)
    (heq : UnwindCheck.transferLea z insn s = some s') : s'.Within K := by
  unfold UnwindCheck.transferLea at heq
  split at heq
  · split at heq
    · cases heq
    · rename_i r _ _ _ _ _ _ _ _ _ d _
      by_cases hr : (!r.isFull64) = true
      · rw [if_pos hr] at heq
        cases heq
        exact h.clobberWrittenReg _ _
      · rw [if_neg hr] at heq
        dsimp only at heq
        split at heq
        · cases heq
          exact h.setReg _ _ ⟨le_rfl, le_rfl⟩
        · cases heq
          exact h.setVal _ _
  · cases heq

theorem movToReg (h : s.Within K) (r : ZydisRegister) (d : Fin 16) (src : Operand) :
    (UnwindCheck.movToReg insn s r d src).Within K := by
  unfold UnwindCheck.movToReg
  by_cases hr : (!r.isFull64) = true
  · rw [if_pos hr]
    dsimp only
    generalize (if r.widthBits = 32 then src.reg?.bind ZydisRegister.dwarfRegOf else none) = sr
    split_ifs
    · exact (h.clobberWrittenReg _ _).modifyTable _
        (applyZeroExtendedFrom_bounded _ _ _ (sourceGuard_le _ _ _))
    · exact h.clobberWrittenReg _ _
  · rw [if_neg hr]
    split
    · split
      · split
        · exact h.copyReg _ _
        · exact h.setVal _ _
      · exact h.setVal _ _
    · split
      · exact h.setVal _ _
      · exact h.setVal _ _
    · exact h.clobberReg _

theorem transferMov {s' : AbsState δ} (h : s.Within K) (hc : ∀ k ∈ createdSlots insn s, K k)
    (heq : UnwindCheck.transferMov insn s = some s') : s'.Within K := by
  unfold UnwindCheck.transferMov at heq
  split at heq
  · obtain ⟨d, -, rfl⟩ := Option.map_eq_some_iff.mp heq
    exact h.movToReg _ _ _
  · rename_i mem size _ _ src hops
    cases heq
    unfold movToMem
    split
    · exact h
    · rename_i k hk
      have herase := h.eraseSlots k (writtenBytes size)
      dsimp only
      split
      · split_ifs
        · exact herase.setSlot (hc k (mem_createdSlots (mem_operands_of_ops2? hops) rfl (Or.inl hk))) _
        · exact herase
      · exact herase
  · cases heq

theorem tableLoad {s' : AbsState δ} (h : s.Within K) {d : Fin 16} {mem : MemOperand}
    (heq : UnwindCheck.tableLoad s d mem = some s') : s'.Within K := by
  unfold UnwindCheck.tableLoad at heq
  split at heq
  · cases heq
  · obtain ⟨idx, -, heq⟩ := Option.bind_eq_some_iff.mp heq
    obtain ⟨base, -, heq⟩ := Option.bind_eq_some_iff.mp heq
    split at heq
    · cases heq
    · split at heq
      · cases heq
        exact h.setReg _ _ ⟨le_rfl, (h.tbl idx).2⟩
      · cases heq

theorem transferMovsxd {s' : AbsState δ} (h : s.Within K)
    (heq : UnwindCheck.transferMovsxd insn s = some s') : s'.Within K := by
  unfold UnwindCheck.transferMovsxd at heq
  split at heq
  · split at heq
    · cases heq
    · split_ifs at heq
      split at heq
      · cases heq
        split_ifs
        · exact (h.clobberReg _).modifyTable _
            (applySignExtendedFrom_bounded _ _ _ (sourceGuard_le _ _ _))
        · exact h.clobberReg _
      · exact h.tableLoad heq
      · cases heq
  · cases heq

theorem resolveDispatch_bounded {base entry t : TableVal} (he : entry.Bounded)
    (heq : resolveDispatch base entry = some t) : t.Bounded := by
  unfold resolveDispatch at heq
  split at heq
  · split_ifs at heq
    cases heq
    exact ⟨le_rfl, he.2⟩
  · cases heq

theorem transferAddSub {s' : AbsState δ} (h : s.Within K)
    (heq : UnwindCheck.transferAddSub insn s = some s') : s'.Within K := by
  unfold UnwindCheck.transferAddSub at heq
  split at heq
  · split_ifs at heq
    unfold addDispatch at heq
    obtain ⟨d0, -, heq⟩ := Option.bind_eq_some_iff.mp heq
    obtain ⟨d1, -, heq⟩ := Option.bind_eq_some_iff.mp heq
    split_ifs at heq
    obtain ⟨t, ht, heq⟩ := Option.bind_eq_some_iff.mp heq
    cases heq
    refine h.setReg _ _ ?_
    rcases Option.or_eq_some_iff.mp ht with ht | ⟨-, ht⟩
    · exact resolveDispatch_bounded (h.tbl d1) ht
    · exact resolveDispatch_bounded (h.tbl d0) ht
  · unfold addSubImm at heq
    obtain ⟨d, -, rfl⟩ := Option.map_eq_some_iff.mp heq
    split
    · exact h.setVal _ _
    · exact h.clobberWrittenReg _ _
  · cases heq

theorem transferCmp (h : s.Within K) : (UnwindCheck.transferCmp insn s).Within K := by
  unfold UnwindCheck.transferCmp
  split
  · split
    · exact h.lastCmp _
    · exact h
  · exact h

theorem movx (h : s.Within K) (r : ZydisRegister) (d : Fin 16) {f : TableVal → TableVal}
    (hf : ∀ t, (f t).Bounded) :
    (((UnwindCheck.clobberWrittenReg s r d).modifyTable d f).modifyTable d fun t =>
      { t with valueBound := min t.valueBound (writtenRegBound r) }).Within K := by
  have hext := (h.clobberWrittenReg r d).modifyTable d (hf _)
  exact hext.modifyTable d ⟨(min_le_left _ _).trans (hext.tbl d).1, (hext.tbl d).2⟩

theorem transferMovx {s' : AbsState δ} (h : s.Within K)
    (heq : UnwindCheck.transferMovx insn s = some s') : s'.Within K := by
  unfold UnwindCheck.transferMovx at heq
  split at heq
  · rename_i r _ _ _ src _
    have hext : ∀ t, ((if insn.id = .movzx then
        applyZeroExtendedFrom (s.table (src.reg?.bind ZydisRegister.dwarfRegOf)) src.size
          (sourceGuard s (src.reg?.bind ZydisRegister.dwarfRegOf) src.size)
        else applySignExtendedFrom (s.table (src.reg?.bind ZydisRegister.dwarfRegOf)) src.size
          (sourceGuard s (src.reg?.bind ZydisRegister.dwarfRegOf) src.size)) t).Bounded := by
      intro t
      split_ifs
      · exact applyZeroExtendedFrom_bounded _ _ _ (sourceGuard_le _ _ _)
      · exact applySignExtendedFrom_bounded _ _ _ (sourceGuard_le _ _ _)
    split at heq
    all_goals first
      | contradiction
      | dsimp only at heq
        by_cases hw : r.widthBits < 32
        · rw [if_pos hw] at heq
          cases heq
          exact h.clobberWrittenReg _ _
        · rw [if_neg hw] at heq
          cases heq
          exact h.movx _ _ hext
  · cases heq

theorem clobberOperand (h : s.Within K) (op : Operand) :
    (UnwindCheck.clobberOperand insn s op).Within K := by
  unfold UnwindCheck.clobberOperand
  split
  · exact h
  · split
    · split
      · exact h.clobberWrittenReg _ _
      · exact h
    · split
      · exact h.eraseSlots _ _
      · exact h
    · exact h

theorem clobberWrites (h : s.Within K) : (UnwindCheck.clobberWrites insn s).Within K := by
  unfold UnwindCheck.clobberWrites
  generalize insn.insn.operands = ops
  induction ops generalizing s with
  | nil => exact h
  | cons op ops ih => exact ih (h.clobberOperand op)

theorem transferNamed {z : Zydis} {r : TransferOutcome × AbsState δ} (h : s.Within K)
    (hc : ∀ k ∈ createdSlots insn s, K k)
    (heq : UnwindCheck.transferNamed z insn s = some r) : r.2.Within K := by
  unfold UnwindCheck.transferNamed at heq
  split at heq
  all_goals first
    | contradiction
    | cases heq; first
      | exact h
      | exact h.callEffect
      | exact h.transferPush hc
      | exact h.pushValue hc _
      | exact h.transferPop hc
      | exact h.popValue
      | exact h.transferLeave
      | exact h.transferCmp
    | obtain ⟨s', hs', rfl⟩ := Option.map_eq_some_iff.mp heq
      first
      | exact h.transferLea hs'
      | exact h.transferMov hc hs'
      | exact h.transferMovsxd hs'
      | exact h.transferAddSub hs'
      | exact h.transferMovx hs'

theorem dropStaleCmp (h : s.Within K) : (UnwindCheck.dropStaleCmp insn s).Within K := by
  unfold UnwindCheck.dropStaleCmp
  split_ifs
  · exact h.lastCmp none
  · exact h

/-- An instruction creates no slots but the ones its operands and rsp name. -/
theorem transfer (z : Zydis) (h : s.Within K) (hc : ∀ k ∈ createdSlots insn s, K k) :
    (UnwindCheck.transfer z insn s).2.Within K := by
  have hstale : (UnwindCheck.dropStaleCmp insn s).Within K := h.dropStaleCmp
  have hgpr : (UnwindCheck.dropStaleCmp insn s).gpr = s.gpr := by
    unfold UnwindCheck.dropStaleCmp
    split_ifs <;> rfl
  rw [← createdSlots_congr hgpr] at hc
  unfold UnwindCheck.transfer
  dsimp only
  split_ifs
  · exact hstale
  · exact hstale
  · exact hstale
  · cases hn : UnwindCheck.transferNamed z insn (UnwindCheck.dropStaleCmp insn s) with
    | none => exact hstale.clobberWrites
    | some r => exact hstale.transferNamed hc hn

theorem transferEdge (h : s.Within K) (edge : BranchEdge) :
    (UnwindCheck.transferEdge insn edge s).Within K := by
  unfold UnwindCheck.transferEdge
  split
  · exact h
  · exact h
  · split
    · exact h
    · split
      · exact h
      · dsimp only
        split
        · exact (h.lastCmp _).applyGuardBound _ _
        · exact h.lastCmp _

theorem join {t : AbsState δ} (hs : s.Within K) (ht : t.Within K) :
    (UnwindCheck.join t s).state.Within K := by
  refine ⟨fun k v hv => ?_, fun r => ?_⟩
  · simp only [UnwindCheck.join, Std.ExtTreeMap.getElem?_union, Std.ExtTreeMap.getElem?_map] at hv
    cases hk : s.slots[k]? with
    | some w => exact hs.slots k w hk
    | none =>
      simp only [hk, Option.map_none, Option.none_or] at hv
      exact ht.slots k v hv
  · exact ⟨max_le (hs.tbl r).1 (ht.tbl r).1, max_le (hs.tbl r).2 (ht.tbl r).2⟩

end AbsState.Within

end UnwindCheck
