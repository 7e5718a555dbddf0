import UnwindCheck.Insn.Semantics
import UnwindCheck.State.Join

/-! What a state names, and that `Transfer` computes it from nothing else. -/
namespace UnwindCheck
variable {δ : Type}

/-- The frame address or the entry value a CFI value stands for, if any. -/
def AbsVal.named : AbsVal δ → Option (δ ⊕ ℕ)
  | .cfaRel d => some (.inl d)
  | .origReg r => some (.inr r)
  | .top | .bottom | .other => none

namespace AbsVal

theorem eq_of_named {v w : AbsVal δ} (h : v.named = w.named) (hv : v.named ≠ none) : v = w := by
  cases v <;> cases w <;> simp_all [named]

/-- Values that name the same thing are the same frame address, or neither is one. -/
theorem cfaRel_or_not {v w : AbsVal δ} (h : v.named = w.named) :
    (∃ d, v = .cfaRel d ∧ w = .cfaRel d) ∨ (∀ d, v ≠ .cfaRel d) ∧ ∀ d, w ≠ .cfaRel d := by
  cases v <;> cases w <;> simp_all [named]

variable [DecidableEq δ]

/-- Joining values that name the same thing names it again. -/
theorem named_sup {v w : AbsVal δ} {n : Option (δ ⊕ ℕ)} (hv : v.named = n) (hw : w.named = n) :
    (v ⊔ w).named = n := by
  subst hv
  rw [sup_def]
  by_cases hn : v.named = none
  · cases v <;> cases w <;> simp_all [named, joinValue, isBottom, isTop]
  · rw [eq_of_named hw.symm hn, ← sup_def, sup_idem]

end AbsVal

variable [Offset δ]

namespace AbsState

/-- Two states name the same things in the components of `K`. -/
def AgreeOn (K : Set (Component δ)) (s t : AbsState δ) : Prop :=
  ∀ c ∈ K, (s.get c).named = (t.get c).named

/-- Two states name the same things. -/
def Agree (s t : AbsState δ) : Prop := ∀ c, (s.get c).named = (t.get c).named

theorem AgreeOn.refl (K : Set (Component δ)) (s : AbsState δ) : s.AgreeOn K s := fun _ _ => rfl

theorem AgreeOn.symm {K : Set (Component δ)} {s t : AbsState δ} (h : s.AgreeOn K t) :
    t.AgreeOn K s := fun c hc => (h c hc).symm

theorem AgreeOn.trans {K : Set (Component δ)} {s t u : AbsState δ} (h : s.AgreeOn K t)
    (h' : t.AgreeOn K u) : s.AgreeOn K u := fun c hc => (h c hc).trans (h' c hc)

theorem agreeOn_univ {s t : AbsState δ} : s.AgreeOn Set.univ t ↔ s.Agree t := by
  simp [AgreeOn, Agree]

/-- A join of states that agree with `s` agrees with `s`. -/
theorem AgreeOn.join {K : Set (Component δ)} {s t u : AbsState δ} (h : s.AgreeOn K t)
    (h' : s.AgreeOn K u) : s.AgreeOn K (UnwindCheck.join t u).state := by
  intro c hc
  rw [join_get]
  exact (AbsVal.named_sup (h' c hc).symm (h c hc).symm).symm

theorem slot_setReg (s : AbsState δ) (r : Fin 16) (v : AbsVal δ) (t : TableVal) (k : δ) :
    (s.setReg r v t).slot k =
      match v with
      | .cfaRel d => if r = kDWARFRsp ∧ k < d - Offset.ofInt kRedZoneBytes then .top else s.slot k
      | _ => s.slot k := by
  cases v with
  | cfaRel d =>
    by_cases hr : r = kDWARFRsp
    · simp only [setReg, hr, if_true, dropDeadSlots, true_and, slot_dropSlotsBelow]
      simp [slot]
    · simp [setReg, hr, slot]
  | _ => simp [setReg, slot]

theorem slot_eraseSlots (s : AbsState δ) (start size k : δ) :
    (eraseSlots s start size).slot k =
      if ¬ size ≤ Offset.ofInt 0 ∧ start - Offset.ofInt 7 ≤ k ∧ k < start + size then .top
      else s.slot k := by
  unfold eraseSlots slot
  split_ifs with hsize hk hk
  · exact absurd hsize hk.1
  · rfl
  · rw [Std.ExtTreeMap.getElem?_filter']
    cases s.slots[k]? <;> simp [hk.2, Option.filter]
  · have hk' : (decide (start - Offset.ofInt 7 ≤ k) && decide (k < start + size)) = false := by
      simpa using fun h h' => hk ⟨hsize, h, h'⟩
    rw [Std.ExtTreeMap.getElem?_filter']
    cases s.slots[k]? <;> simp [Option.filter, hk']

namespace Agree
variable {s t : AbsState δ}

theorem gpr (h : s.Agree t) (r : Fin 16) : (s.gpr r).named = (t.gpr r).named := h (.reg r)

theorem slot (h : s.Agree t) (k : δ) : (s.slot k).named = (t.slot k).named := h (.slot k)

theorem mk (hg : ∀ r, (s.gpr r).named = (t.gpr r).named)
    (hs : ∀ k, (s.slot k).named = (t.slot k).named) : s.Agree t
  | .reg r => hg r
  | .slot k => hs k

theorem setReg (h : s.Agree t) (r : Fin 16) {v w : AbsVal δ} (hv : v.named = w.named)
    (a b : TableVal) : (s.setReg r v a).Agree (t.setReg r w b) := by
  refine .mk (fun q => ?_) fun k => ?_
  · simp only [setReg_gpr, Function.update_apply]
    split
    · exact hv
    · exact h.gpr q
  · rw [slot_setReg, slot_setReg]
    rcases AbsVal.cfaRel_or_not hv with ⟨d, rfl, rfl⟩ | ⟨hn, hn'⟩
    · dsimp only
      split
      · rfl
      · exact h.slot k
    · have hd : ∀ (u : AbsState δ) (x : AbsVal δ), (∀ d, x ≠ .cfaRel d) →
          (match x with
            | .cfaRel d => if r = kDWARFRsp ∧ k < d - Offset.ofInt kRedZoneBytes then .top
              else u.slot k
            | _ => u.slot k) = u.slot k := by
        intro u x hx
        cases x <;> simp_all
      rw [hd s v hn, hd t w hn']
      exact h.slot k

theorem setVal (h : s.Agree t) (r : Fin 16) {v w : AbsVal δ} (hv : v.named = w.named) :
    (s.setVal r v).Agree (t.setVal r w) := h.setReg r hv _ _

theorem clobberReg (h : s.Agree t) (r : Fin 16) : (s.clobberReg r).Agree (t.clobberReg r) :=
  h.setVal r rfl

theorem copyReg (h : s.Agree t) (d r : Fin 16) : (s.copyReg d r).Agree (t.copyReg d r) :=
  h.setReg d (h.gpr r) _ _

theorem setSlot (h : s.Agree t) (k : δ) {v w : AbsVal δ} (hv : v.named = w.named) :
    (s.setSlot k v).Agree (t.setSlot k w) := by
  refine .mk (fun q => by simpa using h.gpr q) fun j => ?_
  rw [slot_setSlot, slot_setSlot]
  split
  · exact hv
  · exact h.slot j

theorem dropSlotsBelow (h : s.Agree t) (d : δ) :
    (s.dropSlotsBelow d).Agree (t.dropSlotsBelow d) := by
  refine .mk (fun q => h.gpr q) fun j => ?_
  rw [slot_dropSlotsBelow, slot_dropSlotsBelow]
  split
  · rfl
  · exact h.slot j

theorem eraseSlots (h : s.Agree t) (start size : δ) :
    (eraseSlots s start size).Agree (UnwindCheck.eraseSlots t start size) := by
  refine .mk (fun q => ?_) fun j => ?_
  · unfold UnwindCheck.eraseSlots
    split <;> exact h.gpr q
  · rw [slot_eraseSlots, slot_eraseSlots]
    split
    · rfl
    · exact h.slot j

/-- Neither table halves nor the recorded comparison take part. -/
theorem of_eq {s' t' : AbsState δ} (h : s.Agree t) (hg : s'.gpr = s.gpr) (hs : s'.slots = s.slots)
    (hg' : t'.gpr = t.gpr) (hs' : t'.slots = t.slots) : s'.Agree t' := by
  refine .mk (fun q => ?_) fun j => ?_
  · rw [hg, hg']
    exact h.gpr q
  · have := h.slot j
    simpa [AbsState.slot, hs, hs'] using this

end Agree

end AbsState

@[simp] theorem transferCmp_gpr (insn : Instruction) (s : AbsState δ) :
    (transferCmp insn s).gpr = s.gpr := by
  unfold transferCmp
  split
  · split <;> rfl
  · rfl

@[simp] theorem transferCmp_slots (insn : Instruction) (s : AbsState δ) :
    (transferCmp insn s).slots = s.slots := by
  unfold transferCmp
  split
  · split <;> rfl
  · rfl

@[simp] theorem transferEdge_gpr (insn : Instruction) (edge : BranchEdge) (s : AbsState δ) :
    (transferEdge insn edge s).gpr = s.gpr := by
  unfold transferEdge
  split
  · rfl
  · rfl
  · dsimp only
    split_ifs <;> rfl

@[simp] theorem transferEdge_slots (insn : Instruction) (edge : BranchEdge) (s : AbsState δ) :
    (transferEdge insn edge s).slots = s.slots := by
  unfold transferEdge
  split
  · rfl
  · rfl
  · dsimp only
    split_ifs <;> rfl

/-- `r` is the first operand, and the only GPR or memory that is marked as written. -/
def DecodedInsn.WritesOnly (i : DecodedInsn) (r : ZydisRegister) : Prop :=
  ∃ dest rest, i.operands = dest :: rest ∧ dest.kind = .register r ∧ dest.writes = true ∧
    ∀ op ∈ rest, op.writes = true → ∃ q, op.kind = .register q ∧ q.dwarfRegOf = none

/-- How the operands of `add` and `movsxd` with a register destination are marked: the
destination is written, and beside it at most the flags. -/
def DecodedInsn.MarksDest (i : DecodedInsn) : Prop :=
  i.mnemonic = .add ∨ i.mnemonic = .movsxd → ∀ (dest src : Operand) (rest : List Operand)
    (r : ZydisRegister), i.operands = dest :: src :: rest → dest.kind = .register r → i.WritesOnly r

/-- What the decoder documents about those operands. -/
def Zydis.MarksDest (z : Zydis) : Prop :=
  ∀ (bytes : List Byte) (i : DecodedInsn), z.decodeFull bytes = some i → i.MarksDest

theorem Instruction.operands_of_ops2? {insn : Instruction} {a b : Operand}
    (h : insn.ops2? = some (a, b)) : ∃ rest, insn.insn.operands = a :: b :: rest := by
  unfold ops2? at h
  split at h
  · match hops : insn.insn.operands with
    | [] => simp [hops] at h
    | [x] => simp [hops] at h
    | x :: y :: rest =>
      have hxy : x = a ∧ y = b := by simpa [hops] using h
      exact ⟨rest, by rw [hxy.1, hxy.2]⟩
  · cases h

theorem DecodedInsn.WritesOnly.clobberWrites {insn : Instruction} {r : ZydisRegister} {d : Fin 16}
    (h : insn.insn.WritesOnly r) (hr : r.dwarfRegOf = some d) (s : AbsState δ) :
    clobberWrites insn s = clobberWrittenReg s r d := by
  obtain ⟨dest, rest, hops, hkind, hw, hrest⟩ := h
  have hfold : ∀ (ops : List Operand), (∀ op ∈ ops, op.writes = true →
      ∃ q, op.kind = .register q ∧ q.dwarfRegOf = none) → ∀ u : AbsState δ,
      ops.foldl (clobberOperand insn) u = u := by
    intro ops hops
    induction ops with
    | nil => exact fun _ => rfl
    | cons op ops ih =>
      intro u
      have hop : clobberOperand insn u op = u := by
        unfold clobberOperand
        cases hwr : op.writes with
        | false => rfl
        | true =>
          obtain ⟨q, hq, hn⟩ := hops op List.mem_cons_self hwr
          simp [hq, hn]
      rw [List.foldl_cons, hop]
      exact ih (fun op' hm => hops op' (List.mem_cons_of_mem _ hm)) u
  rw [UnwindCheck.clobberWrites, hops, List.foldl_cons, hfold rest hrest]
  simp [clobberOperand, hw, hkind, hr]

section
variable {s t : AbsState δ} (h : s.Agree t)
include h

theorem readReg_agree (reg : ZydisRegister) : (readReg s reg).named = (readReg t reg).named := by
  unfold readReg
  split
  · split
    · exact h.gpr _
    · rfl
  · rfl

theorem memSlot_agree (insn : Instruction) (mem : MemOperand) :
    memSlot s insn mem = memSlot t insn mem := by
  unfold memSlot
  split
  · rfl
  · split
    · rfl
    · rcases AbsVal.cfaRel_or_not (readReg_agree h mem.base) with ⟨d, hs, ht⟩ | ⟨hs, ht⟩
      · rw [hs, ht]
      · split
        · rename_i d he
          exact absurd he (hs d)
        · rfl

theorem clobberWrittenReg_agree (reg : ZydisRegister) (d : Fin 16) :
    (clobberWrittenReg s reg d).Agree (clobberWrittenReg t reg d) :=
  (h.clobberReg d).of_eq rfl rfl rfl rfl

theorem clobberOperand_agree (insn : Instruction) (op : Operand) :
    (clobberOperand insn s op).Agree (clobberOperand insn t op) := by
  unfold clobberOperand
  split
  · exact h
  · cases op.kind with
    | register r =>
      cases hr : r.dwarfRegOf with
      | none => simpa [hr] using h
      | some d => simpa [hr] using clobberWrittenReg_agree h r d
    | memory mem =>
      dsimp only
      rw [memSlot_agree h insn mem]
      split
      · exact h.eraseSlots _ _
      · exact h
    | immediate _ => exact h
    | pointer => exact h

theorem clobberWrites_agree (insn : Instruction) :
    (clobberWrites insn s).Agree (clobberWrites insn t) := by
  unfold clobberWrites
  generalize insn.insn.operands = ops
  induction ops generalizing s t with
  | nil => exact h
  | cons op ops ih => exact ih (clobberOperand_agree h insn op)

theorem callEffect_agree : (callEffect s).Agree (callEffect t) := by
  have hfold : ∀ (rs : List (Fin 16)) (u v : AbsState δ), u.Agree v →
      (rs.foldl AbsState.clobberReg u).Agree (rs.foldl AbsState.clobberReg v) := by
    intro rs
    induction rs with
    | nil => exact fun _ _ huv => huv
    | cons r rs ih => exact fun u v huv => ih _ _ (huv.clobberReg r)
  rcases AbsVal.cfaRel_or_not (h.gpr kDWARFRsp) with ⟨d, hs, ht⟩ | ⟨hs, ht⟩
  · unfold callEffect
    refine hfold _ _ _ ?_
    simpa [hs, ht] using h.dropSlotsBelow d
  · rw [callEffect_untracked hs, callEffect_untracked ht]
    exact hfold _ _ _ h

theorem pushValue_agree {v w : AbsVal δ} (hv : v.named = w.named) :
    (pushValue s v).Agree (pushValue t w) := by
  rcases AbsVal.cfaRel_or_not (h.gpr kDWARFRsp) with ⟨d, hs, ht⟩ | ⟨hs, ht⟩
  · simp only [pushValue, hs, ht]
    exact (h.setVal kDWARFRsp rfl).setSlot _ hv
  · rw [pushValue_untracked hs, pushValue_untracked ht]
    exact h

theorem pushedValue_agree (insn : Instruction) :
    (pushedValue insn s).named = (pushedValue insn t).named := by
  unfold pushedValue
  split
  · exact readReg_agree h _
  · rw [memSlot_agree h insn]
    split
    · exact h.slot _
    · rfl
  · rfl

theorem transferPush_agree (insn : Instruction) :
    (transferPush insn s).2.Agree (transferPush insn t).2 := by
  unfold transferPush
  split
  · exact h.clobberReg _
  · exact pushValue_agree h (pushedValue_agree h insn)

theorem popValue_agree : (popValue s).1.named = (popValue t).1.named ∧
    (popValue s).2.Agree (popValue t).2 := by
  rcases AbsVal.cfaRel_or_not (h.gpr kDWARFRsp) with ⟨d, hs, ht⟩ | ⟨hs, ht⟩
  · simp only [popValue, hs, ht]
    exact ⟨h.slot d, h.setVal kDWARFRsp rfl⟩
  · rw [popValue_untracked hs, popValue_untracked ht]
    exact ⟨rfl, h⟩

theorem popInto_agree (insn : Instruction) {v w : AbsVal δ} (hv : v.named = w.named) :
    (popInto insn v s).Agree (popInto insn w t) := by
  unfold popInto
  split
  · split
    · refine h.setVal _ ?_
      split
      · exact hv
      · rfl
    · exact h
  · rw [memSlot_agree h insn]
    split
    · exact h.setSlot _ hv
    · exact h
  · exact h

theorem transferPop_agree (insn : Instruction) :
    (transferPop insn s).2.Agree (transferPop insn t).2 := by
  unfold transferPop
  split
  · exact h.clobberReg _
  · exact popInto_agree (popValue_agree h).2 insn (popValue_agree h).1

theorem transferLeave_agree : (transferLeave s).Agree (transferLeave t) := by
  have hc := h.copyReg kDWARFRsp kDWARFRbp
  rcases AbsVal.cfaRel_or_not (h.gpr kDWARFRbp) with ⟨d, hs, ht⟩ | ⟨hs, ht⟩
  · have hs' : (s.copyReg kDWARFRsp kDWARFRbp).gpr kDWARFRsp = .cfaRel d := by simp [hs]
    have ht' : (t.copyReg kDWARFRsp kDWARFRbp).gpr kDWARFRsp = .cfaRel d := by simp [ht]
    simp only [transferLeave, hs', ht']
    exact (hc.setVal kDWARFRbp (hc.slot d)).setVal kDWARFRsp rfl
  · rw [transferLeave_untracked hs, transferLeave_untracked ht]
    exact hc.clobberReg kDWARFRbp

theorem transferLea_agree (z : Zydis) (insn : Instruction) :
    Option.Rel AbsState.Agree (transferLea z insn s) (transferLea z insn t) := by
  unfold transferLea
  split
  · split
    · exact .none
    · split
      · exact .some (clobberWrittenReg_agree h _ _)
      · dsimp only
        split
        · exact .some (h.setReg _ rfl _ _)
        · refine .some (h.setVal _ ?_)
          unfold leaValue
          rw [memSlot_agree h insn]
  · exact .none

theorem movToReg_agree (insn : Instruction) (r : ZydisRegister) (d : Fin 16) (src : Operand) :
    (movToReg insn s r d src).Agree (movToReg insn t r d src) := by
  unfold movToReg
  split
  · dsimp only
    generalize (if r.widthBits = 32 then src.reg?.bind ZydisRegister.dwarfRegOf else none) = sr
    cases sr with
    | none => exact clobberWrittenReg_agree h r d
    | some q => exact (clobberWrittenReg_agree h r d).of_eq rfl rfl rfl rfl
  · split
    · split
      · split
        · exact h.copyReg _ _
        · exact h.setVal _ rfl
      · exact h.setVal _ rfl
    · rw [memSlot_agree h insn]
      split
      · refine h.setVal _ ?_
        split
        · exact h.slot _
        · rfl
      · exact h.setVal _ rfl
    · exact h.clobberReg _

theorem movToMem_agree (insn : Instruction) (mem : MemOperand) (size : ℕ) (src : Operand) :
    (movToMem insn s mem size src).Agree (movToMem insn t mem size src) := by
  unfold movToMem
  rw [memSlot_agree h insn]
  split
  · exact h
  · have he := fun k => h.eraseSlots k (writtenBytes size)
    dsimp only
    split
    · split
      · exact (he _).setSlot _ (readReg_agree (he _) _)
      · exact he _
    · exact he _

theorem transferMov_agree (insn : Instruction) :
    Option.Rel AbsState.Agree (transferMov insn s) (transferMov insn t) := by
  unfold transferMov
  split
  · rename_i r _ _ _ src _
    cases r.dwarfRegOf with
    | none => exact .none
    | some d => exact .some (movToReg_agree h insn r d src)
  · exact .some (movToMem_agree h insn _ _ _)
  · exact .none

theorem addSubImm_agree (insn : Instruction) (r : ZydisRegister) (imm : Word) :
    Option.Rel AbsState.Agree (addSubImm insn s r imm) (addSubImm insn t r imm) := by
  cases hr : r.dwarfRegOf with
  | none =>
    simp only [addSubImm, hr, Option.map_none]
    exact .none
  | some d =>
    rcases AbsVal.cfaRel_or_not (h.gpr d) with ⟨x, hs, ht⟩ | ⟨hs, ht⟩
    · simp only [addSubImm, hr, Option.map_some, hs, ht]
      refine .some ?_
      cases r.isFull64 with
      | false => exact clobberWrittenReg_agree h r d
      | true => exact h.setVal d rfl
    · rw [addSubImm_untracked hr hs, addSubImm_untracked hr ht]
      exact .some (clobberWrittenReg_agree h r d)

theorem transferMovx_agree (insn : Instruction) :
    Option.Rel AbsState.Agree (transferMovx insn s) (transferMovx insn t) := by
  unfold transferMovx
  split
  · split
    · dsimp only
      split
      · exact .some (clobberWrittenReg_agree h _ _)
      · exact .some ((h.clobberReg _).of_eq rfl rfl rfl rfl)
    · dsimp only
      split
      · exact .some (clobberWrittenReg_agree h _ _)
      · exact .some ((h.clobberReg _).of_eq rfl rfl rfl rfl)
    · exact .none
  · exact .none

omit h in
theorem getD_agree {a b : Option (AbsState δ)} (hab : Option.Rel AbsState.Agree a b) {u v : AbsState δ}
    (huv : u.Agree v) : (a.getD u).Agree (b.getD v) := by
  cases hab with
  | none => exact huv
  | some hxy => exact hxy

omit h in
theorem tableLoad_or_none (s : AbsState δ) (d : Fin 16) (mem : MemOperand) :
    tableLoad s d mem = none ∨ ∃ v, tableLoad s d mem = some (s.setTableReg d v) := by
  unfold tableLoad
  split
  · exact .inl rfl
  · cases mem.index.dwarfRegOf with
    | none => exact .inl rfl
    | some idx =>
      cases mem.base.dwarfRegOf with
      | none => exact .inl rfl
      | some base =>
        simp only [Option.bind_eq_bind, Option.bind_some]
        split
        · exact .inl rfl
        · split
          · exact .inr ⟨_, rfl⟩
          · exact .inl rfl

omit h in
theorem addDispatch_or_none (s : AbsState δ) {r : ZydisRegister} {d : Fin 16}
    (hr : r.dwarfRegOf = some d) (q : ZydisRegister) :
    addDispatch s r q = none ∨ ∃ v, addDispatch s r q = some (s.setTableReg d v) := by
  unfold addDispatch
  rw [hr]
  cases q.dwarfRegOf with
  | none => exact .inl rfl
  | some e =>
    simp only [Option.bind_eq_bind, Option.bind_some]
    split
    · cases (resolveDispatch (s.tbl d) (s.tbl e)).or (resolveDispatch (s.tbl e) (s.tbl d)) with
      | none => exact .inl rfl
      | some v => exact .inr ⟨v, rfl⟩
    · exact .inl rfl

/-- Where the table halves decide between a table value and the generic clobber, the destination
ends up naming nothing either way. -/
theorem tableWrite_agree {insn : Instruction} {r : ZydisRegister} {d : Fin 16}
    (hd : insn.insn.WritesOnly r) (hr : r.dwarfRegOf = some d) {a b : Option (AbsState δ)}
    (ha : a = none ∨ ∃ v, a = some (s.setTableReg d v))
    (hb : b = none ∨ ∃ v, b = some (t.setTableReg d v)) :
    (a.getD (clobberWrites insn s)).Agree (b.getD (clobberWrites insn t)) := by
  rw [hd.clobberWrites hr, hd.clobberWrites hr]
  rcases ha with rfl | ⟨v, rfl⟩ <;> rcases hb with rfl | ⟨w, rfl⟩
  · exact clobberWrittenReg_agree h r d
  · exact (h.setReg d (v := .top) (w := .other) rfl .none w).of_eq rfl rfl rfl rfl
  · exact (h.setReg d (v := .other) (w := .top) rfl v .none).of_eq rfl rfl rfl rfl
  · exact h.setReg d (v := .other) (w := .other) rfl v w

theorem transferMovsxd_agree {insn : Instruction} (hd : insn.insn.MarksDest)
    (hid : insn.id = .movsxd) :
    ((transferMovsxd insn s).getD (clobberWrites insn s)).Agree
      ((transferMovsxd insn t).getD (clobberWrites insn t)) := by
  have hgen := clobberWrites_agree h insn
  unfold transferMovsxd
  split
  · rename_i r size write condWrite src hops
    obtain ⟨rest, hrest⟩ := Instruction.operands_of_ops2? hops
    have honly := hd (.inr hid) _ _ _ r hrest rfl
    cases hr : r.dwarfRegOf with
    | none => exact hgen
    | some d =>
      dsimp only
      split
      · exact hgen
      · cases src.kind with
        | register q =>
          cases hq : q.dwarfRegOf with
          | none => simpa [hq] using h.clobberReg d
          | some _ =>
            simp only [hq, Option.isSome_some, if_true]
            exact (h.clobberReg d).of_eq rfl rfl rfl rfl
        | memory mem =>
          exact tableWrite_agree h honly hr (tableLoad_or_none s d mem) (tableLoad_or_none t d mem)
        | immediate _ => exact hgen
        | pointer => exact hgen
  · exact hgen

theorem transferAddSub_agree {insn : Instruction} (hd : insn.insn.MarksDest) :
    ((transferAddSub insn s).getD (clobberWrites insn s)).Agree
      ((transferAddSub insn t).getD (clobberWrites insn t)) := by
  have hgen := clobberWrites_agree h insn
  unfold transferAddSub
  split
  · rename_i r _ _ _ q _ _ _ hops
    split
    · rename_i hid
      obtain ⟨rest, hrest⟩ := Instruction.operands_of_ops2? hops
      have honly := hd (.inl hid) _ _ _ r hrest rfl
      cases hr : r.dwarfRegOf with
      | none =>
        have hnone : ∀ u : AbsState δ, addDispatch u r q = none := by
          intro u
          simp [addDispatch, hr]
        rw [hnone, hnone]
        exact hgen
      | some d =>
        exact tableWrite_agree h honly hr (addDispatch_or_none s hr q) (addDispatch_or_none t hr q)
    · exact hgen
  · exact getD_agree (addSubImm_agree h insn _ _) hgen
  · exact hgen

theorem transferNamed_agree (z : Zydis) {insn : Instruction} (hd : insn.insn.MarksDest) :
    ((transferNamed z insn s).getD ({}, clobberWrites insn s)).2.Agree
      ((transferNamed z insn t).getD ({}, clobberWrites insn t)).2 := by
  have hgen := clobberWrites_agree h insn
  unfold transferNamed
  split
  case h_1 | h_2 | h_3 | h_4 | h_5 | h_6 | h_7 | h_8 | h_9 => exact callEffect_agree h
  case h_10 => exact transferPush_agree h insn
  case h_11 => exact pushValue_agree h rfl
  case h_12 => exact transferPop_agree h insn
  case h_13 => exact (popValue_agree h).2
  case h_14 => exact transferLeave_agree h
  case h_15 =>
    rw [getD_map_plain, getD_map_plain]
    exact getD_agree (transferLea_agree h z insn) hgen
  case h_16 | h_17 =>
    rw [getD_map_plain, getD_map_plain]
    exact getD_agree (transferMov_agree h insn) hgen
  case h_18 hid =>
    rw [getD_map_plain, getD_map_plain]
    exact transferMovsxd_agree h hd hid
  case h_19 | h_20 =>
    rw [getD_map_plain, getD_map_plain]
    exact transferAddSub_agree h hd
  case h_21 =>
    exact h.of_eq (transferCmp_gpr _ _) (transferCmp_slots _ _) (transferCmp_gpr _ _)
      (transferCmp_slots _ _)
  case h_22 | h_23 =>
    rw [getD_map_plain, getD_map_plain]
    exact getD_agree (transferMovx_agree h insn) hgen
  case h_24 | h_25 | h_26 => exact h
  case h_27 => exact hgen

/-- What an instruction leaves named is a function of what was named before it. -/
theorem transfer_agree (z : Zydis) {insn : Instruction} (hd : insn.insn.MarksDest) :
    (transfer z insn s).2.Agree (transfer z insn t).2 := by
  have hdrop : (dropStaleCmp insn s).Agree (dropStaleCmp insn t) :=
    h.of_eq (dropStaleCmp_gpr _ _) (dropStaleCmp_slots _ _) (dropStaleCmp_gpr _ _)
      (dropStaleCmp_slots _ _)
  unfold transfer
  dsimp only
  split_ifs
  · exact hdrop
  · exact hdrop
  · exact hdrop
  · exact transferNamed_agree hdrop z hd

end

end UnwindCheck
