import UnwindCheck.Insn.Writes
import UnwindCheck.Machine.Stores

/-! One instruction with its effect on the memory of the frame: what `Transfer` keeps in its slots
is what eight-byte loads find there. -/
namespace UnwindCheck

namespace Instruction
variable (insn : Instruction)

/-- Someone else runs and comes back: a callee, or the kernel. -/
def callsOut : Bool :=
  !insn.isBranch && insn.id ∈ [.call, .syscall, .sysenter, .int, .int1, .into, .vmcall, .vmmcall]

/-- One step of the registers as the function itself sees it: a call is over when the callee has
returned, and a branch changes what the decoder marks. -/
def RegStep (m m' : Machine) : Prop :=
  if insn.isBranch then m.ChangesOnly m' insn.Marks
  else if insn.id = .call then m.ChangesOnly m' (· ∈ kCallerSaved)
  else insn.Exec m m'

/-- The word a push stores, where it is said. -/
def pushedWord (m : Machine) : Option Word :=
  match (insn.op? 0).map Operand.kind with
  | some (.register r) => if r.isFull64 then r.dwarfRegOf.map m.regs else none
  | some (.memory mem) => if insn.insn.hasSegment then none else (address? m mem).map (m.load · 8)
  | _ => none

/-- The address and the contents of a word that is stored in full, where both are said. A `pop`
addresses its destination with rsp already moved. -/
def storedWord (m : Machine) : Option (Word × Word) :=
  match insn.id with
  | .push =>
    if insn.insn.operandWidth = 64 then
      (insn.pushedWord m).map fun w => (m.regs kDWARFRsp - 8, w)
    else none
  | .pop =>
    match (insn.op? 0).map Operand.kind with
    | some (.memory mem) =>
      if insn.insn.operandWidth = 64 then
        (address? { m with regs := Function.update m.regs kDWARFRsp (m.regs kDWARFRsp + 8) } mem).map
          fun a => (a, m.load (m.regs kDWARFRsp) 8)
      else none
    | _ => none
  | .mov | .movq =>
    match insn.ops2? with
    | some (⟨.memory mem, size, _, _⟩, ⟨.register q, _, _, _⟩) =>
      if size = 64 ∧ q.isFull64 then
        (address? m mem).bind fun a => q.dwarfRegOf.map fun r => (a, m.regs r)
      else none
    | _ => none
  | _ => none

/-- What an instruction may do to the words the state speaks about. A store that cannot be placed is
assumed not to alias the frame, and a callee to leave alone what is not below rsp. -/
structure MemStep (z : Zydis) (cfa : Word) (s : AbsState Int64) (m m' : Machine) : Prop where
  kept : ∀ k : Int64, (s.slot k).named ≠ none →
    (insn.Stores z s → ∀ w ∈ insn.stores s, ¬ w.Overlaps k) →
    (insn.callsOut = true → ∀ d, s.gpr kDWARFRsp = .cfaRel d → ¬ k < d) →
    m'.load (cfa + k.toBitVec) 8 = m.load (cfa + k.toBitVec) 8
  stored : ∀ a w, insn.storedWord m = some (a, w) → m'.load a 8 = w

/-- A push or a pop of eight bytes; `Transfer` asks for a review of any other. -/
def Wide : Prop :=
  insn.isBranch = false → insn.id ∈ [.push, .pop] →
    insn.opCount = 1 ∧ insn.insn.operandWidth = 64

/-- What a state must be like for `Transfer` to follow an instruction with entry values: the stack
registers that it moves are no entry values, a `leave` is of full width, a branch writes nothing that
is spoken about, and a store covers none of the other slots by halves. -/
structure Tracks (z : Zydis) (s : AbsState Int64) : Prop where
  stack : insn.id ∈ [.push, .pushfq, .pop, .popfq] → ¬ ∃ q, s.gpr kDWARFRsp = .origReg q
  frame : insn.id = .leave → insn.insn.operandWidth = 64 ∧ ¬ ∃ q, s.gpr kDWARFRbp = .origReg q
  branch : insn.isBranch = true → ∀ r, insn.Marks r → (s.gpr r).named = none
  overlap : insn.Stores z s → ∀ w ∈ insn.stores s, ∀ k, w.Overlaps k → (s.slot k).named ≠ none →
    (k = w.start ∧ w.value.isSome = true) ∨ insn.Drops s k

end Instruction

section Regs
variable {ρ : Reading} {s : AbsState Int64} {m m' : Machine} {insn : Instruction}

/-- What only `d` can have lost. -/
theorem Reading.Regs.replace {gpr : Fin 16 → AbsVal Int64} {regs : Fin 16 → Word} {d : Fin 16}
    {v w : AbsVal Int64} (h : ρ.Regs (Function.update gpr d v) regs) (hw : ρ.Vacuous w) :
    ρ.Regs (Function.update gpr d w) regs := by
  intro r
  by_cases hr : r = d
  · subst hr
    rw [Function.update_self]
    exact hw _
  · have hkeep := h r
    rw [Function.update_of_ne hr] at hkeep ⊢
    exact hkeep

/-- Additions, resolved dispatches among them. -/
theorem transferAddSub_describes (h : ρ.Describes s m) (hd : insn.insn.MarksDest)
    (hx : insn.ExecAddSub m m') :
    ρ.Regs ((transferAddSub insn s).getD (clobberWrites insn s)).gpr m'.regs := by
  unfold Instruction.ExecAddSub at hx
  unfold transferAddSub
  split
  · rename_i r _ _ _ q _ _ _ hops
    simp only [hops] at hx
    have hgen := clobberWrites_sound h hx
    split
    · rename_i hid
      cases hu : addDispatch s r q with
      | none => exact hgen
      | some u =>
        obtain ⟨rest, hrest⟩ := Instruction.operands_of_ops2? hops
        unfold addDispatch at hu
        simp only [Option.bind_eq_bind, Option.bind_eq_some_iff] at hu
        obtain ⟨d, hr, e, -, hu⟩ := hu
        split at hu
        · obtain ⟨t, -, hu⟩ := Option.bind_eq_some_iff.mp hu
          cases hu
          have honly := hd (.inl hid) _ _ _ r hrest rfl
          rw [honly.clobberWrites hr, clobberWrittenReg_gpr] at hgen
          rw [Option.getD_some, AbsState.setTableReg_gpr]
          exact hgen.replace Reading.vacuous_other
        · cases hu
    · exact hgen
  · rename_i r _ _ _ imm _ _ _ hops
    simp only [hops] at hx
    cases hr : r.dwarfRegOf with
    | none =>
      simp only [hr] at hx
      simpa [addSubImm, hr] using clobberWrites_sound h hx
    | some d =>
      simp only [hr] at hx
      exact addSubImm_sound h hr hx
  · rename_i hops
    split at hx
    · rename_i hops'
      exact absurd hops' (hops _ _ _ _ _ _ _ _)
    · exact clobberWrites_sound h hx

/-- Sign extensions, loads from a switch table among them. -/
theorem transferMovsxd_describes (h : ρ.Describes s m) (hx : insn.ExecExtend m m') :
    ρ.Regs ((transferMovsxd insn s).getD (clobberWrites insn s)).gpr m'.regs := by
  obtain ⟨hmarks, hdest⟩ := hx.changesOnly
  have hgen := clobberWrites_sound h hmarks
  unfold transferMovsxd
  split
  · rename_i r _ _ _ src hops
    cases hr : r.dwarfRegOf with
    | none => exact hgen
    | some d =>
      have honly := hdest _ src r d hops rfl hr
      dsimp only
      split
      · exact hgen
      · cases src.kind with
        | register q =>
          cases hq : q.dwarfRegOf with
          | none => simpa [hq] using h.gpr.forget honly Reading.vacuous_top
          | some _ => simpa [hq] using h.gpr.forget honly Reading.vacuous_top
        | memory mem =>
          dsimp only
          cases hu : tableLoad s d mem with
          | none => exact hgen
          | some u =>
            obtain ⟨t, rfl, -⟩ := tableLoad_eq_some hu
            rw [Option.getD_some, AbsState.setTableReg_gpr]
            exact h.gpr.forget honly Reading.vacuous_other
        | immediate _ => exact hgen
        | pointer => exact hgen
  · exact hgen

/-- The registers after the `switch`, calls included. The state may have lost its comparison. -/
theorem transferNamed_describes {cfa : Word} {entry : ℕ → Word} (z : Zydis) {s₀ : AbsState Int64}
    (h : (Reading.ofEntry cfa entry).Describes s m) (ht : insn.Tracks z s₀) (hgpr : s.gpr = s₀.gpr)
    (hwide : insn.Wide) (hd : insn.insn.MarksDest) (hx : insn.RegStep m m')
    (hret : isReturnMnemonic insn.id = false) (hbr : insn.isBranch = false)
    (htrap : isTrapMnemonic insn.id = false) :
    (Reading.ofEntry cfa entry).Regs
      ((transferNamed z insn s).getD ({}, clobberWrites insn s)).2.gpr m'.regs := by
  unfold Instruction.RegStep at hx
  rw [hbr, if_neg (by simp)] at hx
  by_cases hcall : insn.id = .call
  · rw [if_pos hcall] at hx
    simp only [transferNamed, hcall, Option.getD_some]
    exact callEffect_sound h hx
  rw [if_neg hcall] at hx
  simp only [Instruction.Exec, hret, hbr, htrap, Bool.false_eq_true, if_false] at hx
  have hsp : insn.id ∈ [.push, .pushfq, .pop, .popfq] →
      (Reading.ofEntry cfa entry).Settled (s.gpr kDWARFRsp) :=
    fun hid => settled_of_not_origReg (hgpr ▸ ht.stack hid)
  unfold transferNamed
  split at hx <;> rename_i hid
  · exact absurd hid hcall
  iterate 7
    · rw [hid]
      exact callEffect_sound h hx
  · rw [hid]
    exact transferPush_sound h (hsp (by simp [hid])) hx
  · rw [hid]
    exact pushValue_sound h (hsp (by simp [hid])) _ hx
  · rw [hid]
    refine transferPop_sound h (hsp (by simp [hid])) hx fun hw => ?_
    exact absurd (hwide hbr (by simp [hid])).2 hw
  · rw [hid, hx]
    exact (popValue_sound h (hsp (by simp [hid]))).2
  · rw [hid]
    refine transferLeave_sound h (settled_of_not_origReg (hgpr ▸ (ht.frame hid).2)) hx fun hw => ?_
    exact absurd (ht.frame hid).1 hw
  · simp only [hid, getD_map_plain]
    exact transferLea_sound h z hx
  iterate 2
    · simp only [hid, getD_map_plain]
      exact transferMov_sound h hx
  iterate 2
    · simp only [hid, getD_map_plain]
      exact transferAddSub_describes h hd hx
  · simp only [hid, getD_map_plain]
    exact transferMovsxd_describes h hx
  iterate 2
    · simp only [hid, getD_map_plain]
      exact transferMovx_sound h hx
  · rw [hid, hx]
    simpa using h.gpr
  iterate 3
    · rw [hid, hx]
      exact h.gpr
  · -- what the machine does not tell apart is what `Transfer` does not name, bar `int3`
    split
    case h_6 hint => simp [hint, isTrapMnemonic] at htrap
    case h_27 => exact clobberWrites_sound h hx
    all_goals contradiction

end Regs

/-- Slots are dropped or left as they are. -/
def ShedsSlots (s u : AbsState Int64) : Prop := ∀ k, u.slot k = .top ∨ u.slot k = s.slot k

namespace ShedsSlots
variable {s t u : AbsState Int64}

theorem of_eq (h : u.slots = s.slots) : ShedsSlots s u := by
  intro k
  right
  unfold AbsState.slot
  rw [h]

theorem trans (h : ShedsSlots s t) (h' : ShedsSlots t u) : ShedsSlots s u := by
  intro k
  rcases h' k with htop | heq
  · exact .inl htop
  · rw [heq]
    exact h k

theorem setReg (s : AbsState Int64) (r : Fin 16) (v : AbsVal Int64) (t : TableVal) :
    ShedsSlots s (s.setReg r v t) := by
  intro k
  rw [AbsState.slot_setReg]
  split
  · split
    · exact .inl rfl
    · exact .inr rfl
  · exact .inr rfl

theorem of_writesDest {insn : Instruction} (h : insn.WritesDest s u) : ShedsSlots s u := by
  obtain ⟨_, _, d, -, -, v, t, rfl⟩ := h
  exact setReg s d v t

theorem popValue (s : AbsState Int64) : ShedsSlots s (popValue s).2 := by
  unfold UnwindCheck.popValue
  split
  · exact setReg s _ _ _
  · exact of_eq rfl

theorem transferLeave (s : AbsState Int64) : ShedsSlots s (transferLeave s) := by
  unfold UnwindCheck.transferLeave
  dsimp only
  split
  · exact ((setReg s _ _ _).trans (setReg _ _ _ _)).trans (setReg _ _ _ _)
  · exact (setReg s _ _ _).trans (setReg _ _ _ _)

theorem foldl_clobberReg (rs : List (Fin 16)) (s : AbsState Int64) :
    ShedsSlots s (rs.foldl AbsState.clobberReg s) := by
  induction rs generalizing s with
  | nil => exact of_eq rfl
  | cons r rs ih => exact (setReg s r _ _).trans (ih _)

end ShedsSlots

/-- A call drops what is below rsp. -/
theorem callEffect_slot (s : AbsState Int64) (k : Int64) :
    (callEffect s).slot k = .top ∨ (callEffect s).slot k = s.slot k ∧
      ∀ d, s.gpr kDWARFRsp = .cfaRel d → ¬ k < d := by
  unfold callEffect
  dsimp only
  split
  · rename_i d hd
    rcases ShedsSlots.foldl_clobberReg kCallerSaved (s.dropSlotsBelow d) k with htop | heq
    · exact .inl htop
    · rw [heq, AbsState.slot_dropSlotsBelow]
      split_ifs with hk
      · exact .inl rfl
      · refine .inr ⟨rfl, fun d' hd' => ?_⟩
        rw [hd] at hd'
        cases hd'
        exact hk
  · rename_i hd
    rcases ShedsSlots.foldl_clobberReg kCallerSaved s k with htop | heq
    · exact .inl htop
    · exact .inr ⟨heq, fun d hd' => absurd hd' (hd d)⟩

section Slots
variable {z : Zydis} {s : AbsState Int64} {insn : Instruction}

/-- What an instruction without a placed store leaves of the slots. -/
theorem transferNamed_slot (hret : isReturnMnemonic insn.id = false) (hbr : insn.isBranch = false)
    (htrap : isTrapMnemonic insn.id = false) (hsized : ∀ op ∈ insn.insn.operands, op.size < 2 ^ 16)
    (hwide : insn.Wide) (hnot : ¬ insn.Stores z s) (k : Int64) :
    (transfer z insn s).2.slot k = .top ∨ (transfer z insn s).2.slot k = s.slot k ∧
      (insn.callsOut = true → ∀ d, s.gpr kDWARFRsp = .cfaRel d → ¬ k < d) := by
  have hkind : ¬ _ := fun hkind => hnot ⟨hret, hbr, htrap, hkind, hsized⟩
  rw [transfer_of_switch hret hbr htrap]
  simp only [not_or, not_and] at hkind
  obtain ⟨hstack, hpushfq, hmov, hnamed⟩ := hkind
  rw [← slot_dropStaleCmp s insn k]
  rw [← dropStaleCmp_gpr insn s]
  generalize dropStaleCmp insn s = s₀ at hnamed
  cases hn : transferNamed z insn s₀ with
  | none => exact absurd hn hnamed
  | some r =>
    rw [Option.getD_some]
    have hshed : insn.callsOut = false → ShedsSlots s₀ r.2 → (r.2.slot k = .top ∨
        r.2.slot k = s₀.slot k ∧ (insn.callsOut = true → ∀ d, s₀.gpr kDWARFRsp = .cfaRel d → ¬ k < d)) := by
      intro hout hr
      rcases hr k with htop | heq
      · exact .inl htop
      · exact .inr ⟨heq, fun hout' => by rw [hout] at hout'; cases hout'⟩
    unfold transferNamed at hn
    split at hn <;> rename_i hid
    iterate 9
      · cases hn
        rcases callEffect_slot s₀ k with htop | ⟨heq, hbelow⟩
        · exact .inl htop
        · exact .inr ⟨heq, fun _ => hbelow⟩
    case h_27 => cases hn
    all_goals
      have hout : insn.callsOut = false := by simp [Instruction.callsOut, hid]
    · exact absurd (fun hpop => by rw [hid] at hpop; cases hpop)
        (hstack (by simp [hid]) (hwide hbr (by simp [hid])).1 (hwide hbr (by simp [hid])).2)
    · exact absurd hid hpushfq
    · cases hn
      obtain ⟨hone, h64⟩ := hwide hbr (by simp [hid])
      have hmem := hstack (by simp [hid]) hone h64
      simp only [hid, true_implies, not_exists] at hmem
      refine hshed hout ?_
      rw [transferPop, if_neg (by simp [hone, h64])]
      refine (ShedsSlots.popValue s₀).trans ?_
      unfold popInto
      split
      · split
        · exact ShedsSlots.setReg _ _ _ _
        · exact .of_eq rfl
      · rename_i mem hop
        exact absurd hop (hmem mem)
      · exact .of_eq rfl
    · cases hn
      exact hshed hout (ShedsSlots.popValue s₀)
    · cases hn
      exact hshed hout (ShedsSlots.transferLeave s₀)
    · obtain ⟨u, hu, rfl⟩ := Option.map_eq_some_iff.mp hn
      exact hshed hout (.of_writesDest (transferLea_eq_some hu))
    iterate 2
      · obtain ⟨u, hu, rfl⟩ := Option.map_eq_some_iff.mp hn
        rcases transferMov_eq_some hu with hw | ⟨dst, src, mem, hops, hdst, -⟩
        · exact hshed hout (.of_writesDest hw)
        · exact absurd ⟨dst, src, mem, hops, hdst⟩ (hmov (by simp [hid]))
    · obtain ⟨u, hu, rfl⟩ := Option.map_eq_some_iff.mp hn
      exact hshed hout (.of_writesDest (transferMovsxd_eq_some hu))
    iterate 2
      · obtain ⟨u, hu, rfl⟩ := Option.map_eq_some_iff.mp hn
        exact hshed hout (.of_writesDest (transferAddSub_eq_some hu))
    · cases hn
      exact hshed hout (.of_eq (transferCmp_slots insn s₀))
    iterate 2
      · obtain ⟨u, hu, rfl⟩ := Option.map_eq_some_iff.mp hn
        exact hshed hout (.of_writesDest (transferMovx_eq_some hu))
    iterate 3
      · cases hn
        exact hshed hout (.of_eq rfl)

end Slots

section Stored
variable {ρ : Reading} {z : Zydis} {s : AbsState Int64} {m m' : Machine} {insn : Instruction}

/-- A register read is what the machine reads, or nothing. -/
theorem readReg_holds (h : ρ.Describes s m) (r : ZydisRegister) :
    ρ.Vacuous (readReg s r) ∨
      ∃ q, r.isFull64 = true ∧ r.dwarfRegOf = some q ∧ ρ.Holds (readReg s r) (m.regs q) := by
  unfold readReg
  cases hfull : r.isFull64 with
  | false => exact .inl Reading.vacuous_top
  | true =>
    cases hr : r.dwarfRegOf with
    | none => exact .inl fun _ => trivial
    | some q => exact .inr ⟨q, rfl, rfl, h.gpr q⟩

theorem pushedValue_holds (h : ρ.Describes s m) :
    ρ.Vacuous (pushedValue insn s) ∨
      ∃ word, insn.pushedWord m = some word ∧ ρ.Holds (pushedValue insn s) word := by
  unfold pushedValue Instruction.pushedWord
  cases (insn.op? 0).map Operand.kind with
  | none => exact .inl Reading.vacuous_top
  | some kind =>
    cases kind with
    | register r =>
      rcases readReg_holds h r with hvac | ⟨q, hfull, hq, hholds⟩
      · exact .inl hvac
      · exact .inr ⟨m.regs q, by simp [hfull, hq], hholds⟩
    | memory mem =>
      cases hk : memSlot s insn mem with
      | none => exact .inl (by simp [hk, Reading.vacuous_top])
      | some k =>
        obtain ⟨hseg, ha⟩ := address?_of_memSlot h hk
        exact .inr ⟨m.load (ρ.cfa + k.toBitVec) 8, by simp [hseg, ha], by simpa [hk] using h.slot k⟩
    | immediate _ => exact .inl Reading.vacuous_top
    | pointer => exact .inl Reading.vacuous_top

/-- The machine between the two halves of a `pop`. -/
theorem popValue_describes (h : ρ.Describes s m) (hsp : ρ.Settled (s.gpr kDWARFRsp)) :
    ρ.Describes (popValue s).2
      { m with regs := Function.update m.regs kDWARFRsp (m.regs kDWARFRsp + 8) } := by
  refine ⟨(popValue_sound h hsp).2, fun k => ?_⟩
  rcases ShedsSlots.popValue s k with htop | heq
  · rw [htop]
    trivial
  · rw [heq]
    exact h.slot k

theorem Instruction.Stores.wide (h : insn.Stores z s) (hid : insn.id = .push ∨ insn.id = .pop) :
    insn.insn.operandWidth = 64 := by
  rcases h.kind with ⟨-, -, hwide, -⟩ | hfq | ⟨hmov, -⟩ | hnone
  · exact hwide
  · rcases hid with hid | hid <;> rw [hid] at hfq <;> cases hfq
  · rcases hid with hid | hid <;> simp [hid] at hmov
  · rcases hid with hid | hid <;> simp [transferNamed, hid] at hnone

/-- What a placed store is said to leave behind is what it stores, or nothing. -/
theorem stores_hold (h : ρ.Describes s m) (hst : insn.Stores z s)
    (hsp : insn.id = .pop → ρ.Settled (s.gpr kDWARFRsp)) {w : Store} (hw : w ∈ insn.stores s)
    {v : AbsVal Int64} (hv : w.value = some v) :
    ρ.Vacuous v ∨
      ∃ word, insn.storedWord m = some (ρ.cfa + w.start.toBitVec, word) ∧ ρ.Holds v word := by
  unfold Instruction.stores at hw
  split at hw
  · rename_i hid
    cases hd : s.gpr kDWARFRsp with
    | cfaRel d =>
      simp only [hd, List.mem_singleton] at hw
      subst hw
      cases hv
      rcases pushedValue_holds h with hvac | ⟨word, hword, hholds⟩
      · exact .inl hvac
      · refine .inr ⟨word, ?_, hholds⟩
        have ha : m.regs kDWARFRsp - 8 = ρ.cfa + (d - Offset.ofInt 8 : Int64).toBitVec := by
          rw [regs_of_cfaRel h hd, Int64.toBitVec_sub,
            show (Offset.ofInt 8 : Int64).toBitVec = 8 from rfl]
          bv_omega
        simp only [Instruction.storedWord, hid, hst.wide (.inl hid), if_true, hword, Option.map_some, ha]
    | top | bottom | origReg | other => simp [hd] at hw
  · cases hd : s.gpr kDWARFRsp with
    | cfaRel d =>
      simp only [hd, List.mem_singleton] at hw
      subst hw
      cases hv
      exact .inl Reading.vacuous_top
    | top | bottom | origReg | other => simp [hd] at hw
  · rename_i hid
    have hsp := hsp hid
    split at hw
    · rename_i mem hop
      cases hk : memSlot (popValue s).2 insn mem with
      | none => simp [hk] at hw
      | some k =>
        simp only [hk, List.mem_singleton] at hw
        subst hw
        cases hv
        obtain ⟨-, ha⟩ := address?_of_memSlot (popValue_describes h hsp) hk
        refine .inr ⟨_, ?_, (popValue_sound h hsp).1⟩
        simp only [Instruction.storedWord, hid, hop, hst.wide (.inr hid), if_true, ha, Option.map_some]
    · cases hw
  iterate 2
    · rename_i hid
      split at hw
      · rename_i mem size _ _ src hops
        cases hk : memSlot s insn mem with
        | none => simp [hk] at hw
        | some k =>
          simp only [hk, List.mem_singleton] at hw
          subst hw
          obtain ⟨-, ha⟩ := address?_of_memSlot h hk
          obtain ⟨kind, _, _, _⟩ := src
          cases kind with
          | register q =>
            simp only at hv
            split_ifs at hv with hfull
            cases hv
            rcases readReg_holds h q with hvac | ⟨r, -, hr, hholds⟩
            · exact .inl hvac
            · refine .inr ⟨m.regs r, ?_, hholds⟩
              simp [Instruction.storedWord, hid, hops, hfull, ha, hr]
          | memory | immediate | pointer => cases hv
      · rw [(operandStores_spec hw).1] at hv
        cases hv
  · rw [(operandStores_spec hw).1] at hv
    cases hv

theorem Instruction.Stores.callsOut (h : insn.Stores z s) : insn.callsOut = false := by
  rw [Bool.eq_false_iff]
  intro hout
  simp only [Instruction.callsOut, Bool.and_eq_true, decide_eq_true_eq, List.mem_cons,
    List.not_mem_nil, or_false] at hout
  have hid := hout.2
  rcases h.kind with ⟨hstack, -⟩ | hfq | ⟨hmov, -⟩ | hnone
  · simp only [List.mem_cons, List.not_mem_nil, or_false] at hstack
    rcases hstack with hs | hs <;> simp [hs] at hid
  · simp [hfq] at hid
  · simp only [List.mem_cons, List.not_mem_nil, or_false] at hmov
    rcases hmov with hs | hs <;> simp [hs] at hid
  · rcases hid with hid | hid | hid | hid | hid | hid | hid | hid <;> simp [transferNamed, hid] at hnone

/-- What names nothing says nothing. -/
theorem Reading.holds_of_unnamed {v : AbsVal Int64} (h : v.named = none) (w : Word) : ρ.Holds v w := by
  cases v with
  | cfaRel d => cases h
  | origReg q => cases h
  | top | bottom | other => trivial

end Stored

/-- One step of `Transfer` describes one step of the machine, in its registers and in its frame. -/
theorem transfer_describes {cfa : Word} {entry : ℕ → Word} (z : Zydis) {s : AbsState Int64}
    {m m' : Machine} {insn : Instruction} (h : (Reading.ofEntry cfa entry).Describes s m)
    (ht : insn.Tracks z s) (hwide : insn.Wide) (hd : insn.insn.MarksDest)
    (hsized : ∀ op ∈ insn.insn.operands, op.size < 2 ^ 16) (hx : insn.RegStep m m')
    (hm : insn.MemStep z cfa s m m') (hret : isReturnMnemonic insn.id = false)
    (htrap : insn.isBranch = false → isTrapMnemonic insn.id = false) :
    (Reading.ofEntry cfa entry).Describes (transfer z insn s).2 m' := by
  -- a slot that is not written is found as it was
  have hkept : ∀ k, (insn.Stores z s → ∀ w ∈ insn.stores s, (s.slot k).named ≠ none → ¬ w.Overlaps k) →
      (insn.callsOut = true → ∀ d, s.gpr kDWARFRsp = .cfaRel d → ¬ k < d) →
      (Reading.ofEntry cfa entry).Holds (s.slot k) (m'.load (cfa + k.toBitVec) 8) := by
    intro k hstores hcalls
    by_cases hnamed : (s.slot k).named = none
    · exact Reading.holds_of_unnamed hnamed _
    · rw [hm.kept k hnamed (fun hst w hw => hstores hst w hw hnamed) hcalls]
      exact h.slot k
  cases hbr : insn.isBranch with
  | true =>
    have hx' : m.ChangesOnly m' insn.Marks := by
      simpa [Instruction.RegStep, hbr] using hx
    rw [transfer_of_branch hret hbr]
    refine ⟨?_, fun k => ?_⟩
    · rw [dropStaleCmp_gpr]
      refine h.gpr.changesOnly hx' (fun r hr w => ?_) fun r _ => .inl rfl
      exact Reading.holds_of_unnamed (ht.branch hbr r hr) w
    · rw [slot_dropStaleCmp]
      refine hkept k (fun hst => ?_) fun hout => ?_
      · rw [hst.isBranch] at hbr
        cases hbr
      · simp [Instruction.callsOut, hbr] at hout
  | false =>
    have htrap := htrap hbr
    refine ⟨?_, fun k => ?_⟩
    · rw [transfer_of_switch hret hbr htrap]
      exact transferNamed_describes z (h.dropStaleCmp insn) ht (dropStaleCmp_gpr insn s) hwide hd hx
        hret hbr htrap
    · by_cases hst : insn.Stores z s
      · rcases transfer_afterStores hst k with ⟨w, hw, hstart, hvalue⟩ |
          ⟨hnovalue, ⟨-, htop⟩ | ⟨hkeep, hsame⟩⟩
        · have hsp : insn.id = .pop → (Reading.ofEntry cfa entry).Settled (s.gpr kDWARFRsp) :=
            fun hid => settled_of_not_origReg (ht.stack (by simp [hid]))
          subst hstart
          rcases stores_hold h hst hsp hw hvalue with hvac | ⟨word, hword, hholds⟩
          · exact hvac _
          · have hload : m'.load (cfa + w.start.toBitVec) 8 = word := hm.stored _ _ hword
            show (Reading.ofEntry cfa entry).Holds _ (m'.load (cfa + w.start.toBitVec) 8)
            rw [hload]
            exact hholds
        · rw [htop]
          trivial
        · rw [hsame]
          refine hkept k (fun _ w hw hnamed hoverlap => ?_) fun hout => ?_
          · rcases ht.overlap hst w hw k hoverlap hnamed with ⟨hstart, hvalue⟩ | hdrop
            · simp [hnovalue w hw hstart.symm] at hvalue
            · exact hkeep hdrop
          · rw [hst.callsOut] at hout
            cases hout
      · rcases transferNamed_slot hret hbr htrap hsized hwide hst k with htop | ⟨hsame, hbelow⟩
        · rw [htop]
          trivial
        · rw [hsame]
          exact hkept k (fun hst' => absurd hst' hst) hbelow

end UnwindCheck
