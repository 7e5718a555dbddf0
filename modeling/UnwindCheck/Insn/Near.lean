import UnwindCheck.Insn.Agree
import UnwindCheck.Insn.Footprint
import UnwindCheck.Insn.Signed
import UnwindCheck.Insn.Writes

/-! How far from the CFA the tracked values get. One transfer moves them by what the instruction's
fields hold, and those are of 32 bits. -/
namespace UnwindCheck
open Lib

/-- No further than `B` from the CFA, if it is known where. -/
def AbsVal.Near (B : ℤ) : AbsVal Int64 → Prop
  | .cfaRel delta => -B ≤ delta.toInt ∧ delta.toInt ≤ B
  | _ => True

/-- Every value a state tracks, in registers and slots. -/
def AbsState.Near (B : ℤ) (s : State) : Prop := ∀ c, (s.get c).Near B

/-- Displacements off a register, and what `add` and `sub` add, come from fields of 32 bits. -/
structure Instruction.Narrow (insn : Instruction) : Prop where
  disp : ∀ op ∈ insn.insn.operands, ∀ mem, op.kind = .memory mem → mem.base.isFull64 = true →
    -2 ^ 31 ≤ mem.disp.toInt ∧ mem.disp.toInt ≤ 2 ^ 31
  imm : insn.id = .add ∨ insn.id = .sub → ∀ op ∈ insn.insn.operands, ∀ imm, op.kind = .immediate imm →
    -2 ^ 31 ≤ imm.toInt ∧ imm.toInt ≤ 2 ^ 31

namespace AbsVal.Near
variable {B : ℤ} {v w : AbsVal Int64}

theorem mono {B' : ℤ} (h : v.Near B) (hle : B ≤ B') : v.Near B' := by
  cases v with
  | cfaRel delta =>
    obtain ⟨hlo, hhi⟩ := h
    constructor
    · omega
    · omega
  | top | bottom | origReg | other => trivial

theorem sup (hv : v.Near B) (hw : w.Near B) : (v ⊔ w).Near B := by
  rw [AbsVal.sup_def, joinValue]
  split_ifs
  · exact hv
  · exact hv
  · trivial
  · exact hw
  · exact hv
  · trivial

/-- A sum that does not leave the range is the sum of the integers. -/
theorem add {delta : Int64} {n D : ℤ} (h : (AbsVal.cfaRel delta).Near B) (hn : -D ≤ n ∧ n ≤ D)
    (hB : B + D < 2 ^ 63) : (AbsVal.cfaRel (delta + (Offset.ofInt n : Int64))).Near (B + D) := by
  obtain ⟨hlo, hhi⟩ := h
  have hfits : Representable (delta.toInt + n) := ⟨by omega, by omega⟩
  have hsum : (delta + (Offset.ofInt n : Int64)).toInt = delta.toInt + n := by
    rw [toInt_add_ofInt, representable_iff_bmod.mp hfits]
  show -(B + D) ≤ (delta + (Offset.ofInt n : Int64)).toInt ∧ (delta + (Offset.ofInt n : Int64)).toInt ≤ B + D
  rw [hsum]
  constructor
  · omega
  · omega

theorem sub {delta : Int64} {n D : ℤ} (h : (AbsVal.cfaRel delta).Near B) (hn : -D ≤ n ∧ n ≤ D)
    (hB : B + D < 2 ^ 63) : (AbsVal.cfaRel (delta - (Offset.ofInt n : Int64))).Near (B + D) := by
  obtain ⟨hlo, hhi⟩ := h
  have hfits : Representable (delta.toInt - n) := ⟨by omega, by omega⟩
  have hdiff : (delta - (Offset.ofInt n : Int64)).toInt = delta.toInt - n := by
    rw [toInt_sub_ofInt, representable_iff_bmod.mp hfits]
  show -(B + D) ≤ (delta - (Offset.ofInt n : Int64)).toInt ∧ (delta - (Offset.ofInt n : Int64)).toInt ≤ B + D
  rw [hdiff]
  constructor
  · omega
  · omega

end AbsVal.Near

theorem mem_operands_of_ops2?_snd {i : Instruction} {a b : Operand} (h : i.ops2? = some (a, b)) :
    b ∈ i.insn.operands := by
  unfold Instruction.ops2? at h
  split_ifs at h
  obtain ⟨x, hx, h⟩ := Option.bind_eq_some_iff.mp h
  obtain ⟨y, hy, h⟩ := Option.bind_eq_some_iff.mp h
  cases h
  exact List.mem_of_getElem? hy

namespace AbsState.Near
variable {B : ℤ} {s t : State} {insn : Instruction}

theorem gpr (h : s.Near B) (r : Fin 16) : (s.gpr r).Near B := h (.reg r)

theorem slot (h : s.Near B) (k : Int64) : (s.slot k).Near B := h (.slot k)

theorem mk (hgpr : ∀ r, (s.gpr r).Near B) (hslot : ∀ k, (s.slot k).Near B) : s.Near B
  | .reg r => hgpr r
  | .slot k => hslot k

theorem mono {B' : ℤ} (h : s.Near B) (hle : B ≤ B') : s.Near B' := fun c => (h c).mono hle

/-- The table half and the guard in play are no part of it. -/
theorem of_same (h : s.Near B) (hgpr : t.gpr = s.gpr) (hslots : t.slots = s.slots) : t.Near B := by
  refine mk (fun r => ?_) fun k => ?_
  · rw [hgpr]
    exact h.gpr r
  · unfold AbsState.slot
    rw [hslots]
    exact h.slot k

theorem join (hs : s.Near B) (ht : t.Near B) : (UnwindCheck.join t s).state.Near B := by
  intro c
  rw [join_get]
  exact (hs c).sup (ht c)

theorem setReg (h : s.Near B) (r : Fin 16) {v : AbsVal Int64} (hv : v.Near B) (tv : TableVal) :
    (s.setReg r v tv).Near B := by
  refine mk (fun q => ?_) fun k => ?_
  · rw [setReg_gpr, Function.update_apply]
    split
    · exact hv
    · exact h.gpr q
  · rw [slot_setReg]
    split
    · split
      · trivial
      · exact h.slot k
    · exact h.slot k

theorem setVal (h : s.Near B) (r : Fin 16) {v : AbsVal Int64} (hv : v.Near B) : (s.setVal r v).Near B :=
  h.setReg r hv .none

theorem copyReg (h : s.Near B) (dst src : Fin 16) : (s.copyReg dst src).Near B :=
  h.setReg dst (h.gpr src) _

theorem clobberReg (h : s.Near B) (r : Fin 16) : (s.clobberReg r).Near B := h.setVal r trivial

theorem setTableReg (h : s.Near B) (r : Fin 16) (tv : TableVal) : (s.setTableReg r tv).Near B :=
  h.setReg r (v := .other) trivial tv

theorem modifyTable (h : s.Near B) (r : Fin 16) (f : TableVal → TableVal) : (s.modifyTable r f).Near B :=
  h.of_same rfl rfl

theorem clobberWrittenReg (h : s.Near B) (reg : ZydisRegister) (d : Fin 16) :
    (UnwindCheck.clobberWrittenReg s reg d).Near B :=
  (h.clobberReg d).modifyTable d _

theorem setSlot (h : s.Near B) (k : Int64) {v : AbsVal Int64} (hv : v.Near B) : (s.setSlot k v).Near B := by
  refine mk (fun r => ?_) fun j => ?_
  · rw [setSlot_gpr]
    exact h.gpr r
  · rw [slot_setSlot]
    split
    · exact hv
    · exact h.slot j

theorem dropSlotsBelow (h : s.Near B) (d : Int64) : (s.dropSlotsBelow d).Near B := by
  refine mk (fun r => h.gpr r) fun k => ?_
  rw [slot_dropSlotsBelow]
  split
  · trivial
  · exact h.slot k

theorem eraseSlots (h : s.Near B) (start size : Int64) : (UnwindCheck.eraseSlots s start size).Near B := by
  refine mk (fun r => ?_) fun k => ?_
  · unfold UnwindCheck.eraseSlots
    split
    · exact h.gpr r
    · exact h.gpr r
  · rw [slot_eraseSlots]
    split
    · trivial
    · exact h.slot k

theorem readReg (h : s.Near B) (reg : ZydisRegister) : (UnwindCheck.readReg s reg).Near B := by
  unfold UnwindCheck.readReg
  split
  · split
    · exact h.gpr _
    · trivial
  · trivial

theorem clobberOperand (h : s.Near B) (op : Operand) : (UnwindCheck.clobberOperand insn s op).Near B := by
  unfold UnwindCheck.clobberOperand
  split
  · exact h
  · split
    · split
      · exact h.clobberWrittenReg _ _
      · exact h
    · split
      · exact h.eraseSlots _ _
      · exact h
    · exact h

theorem clobberWrites (h : s.Near B) : (UnwindCheck.clobberWrites insn s).Near B := by
  unfold UnwindCheck.clobberWrites
  generalize insn.insn.operands = ops
  induction ops generalizing s with
  | nil => exact h
  | cons op ops ih => exact ih (h.clobberOperand op)

theorem clobberRegs (h : s.Near B) (regs : List (Fin 16)) : (regs.foldl AbsState.clobberReg s).Near B := by
  induction regs generalizing s with
  | nil => exact h
  | cons r regs ih => exact ih (h.clobberReg r)

theorem callEffect (h : s.Near B) : (UnwindCheck.callEffect s).Near B := by
  unfold UnwindCheck.callEffect
  apply clobberRegs
  split
  · exact h.dropSlotsBelow _
  · exact h

/-- A value that was there before the step. -/
theorem pushedValue (h : s.Near B) : (UnwindCheck.pushedValue insn s).Near B := by
  unfold UnwindCheck.pushedValue
  split
  · exact h.readReg _
  · split
    · exact h.slot _
    · trivial
  · trivial

section Moved
variable (hB : B + 2 ^ 31 < 2 ^ 63)
include hB

theorem pushValue (h : s.Near B) {v : AbsVal Int64} (hv : v.Near B) :
    (UnwindCheck.pushValue s v).Near (B + 2 ^ 31) := by
  have hwide : s.Near (B + 2 ^ 31) := h.mono (by omega)
  unfold UnwindCheck.pushValue
  cases hrsp : s.gpr kDWARFRsp with
  | cfaRel delta =>
    have hdelta := h.gpr kDWARFRsp
    rw [hrsp] at hdelta
    have hpushed := hdelta.sub (n := 8) (D := 2 ^ 31) (by decide) hB
    exact (hwide.setVal kDWARFRsp hpushed).setSlot _ (hv.mono (by omega))
  | top | bottom | origReg | other => exact hwide

theorem popValue (h : s.Near B) : (UnwindCheck.popValue s).1.Near B ∧
    (UnwindCheck.popValue s).2.Near (B + 2 ^ 31) := by
  have hwide : s.Near (B + 2 ^ 31) := h.mono (by omega)
  unfold UnwindCheck.popValue
  cases hrsp : s.gpr kDWARFRsp with
  | cfaRel delta =>
    have hdelta := h.gpr kDWARFRsp
    rw [hrsp] at hdelta
    have hpopped := hdelta.add (n := 8) (D := 2 ^ 31) (by decide) hB
    exact ⟨h.slot delta, hwide.setVal kDWARFRsp hpopped⟩
  | top | bottom | origReg | other => exact ⟨trivial, hwide⟩

theorem transferPush (h : s.Near B) : (UnwindCheck.transferPush insn s).2.Near (B + 2 ^ 31) := by
  unfold UnwindCheck.transferPush
  split
  · exact (h.clobberReg _).mono (by omega)
  · exact h.pushValue hB h.pushedValue

theorem transferPop (h : s.Near B) : (UnwindCheck.transferPop insn s).2.Near (B + 2 ^ 31) := by
  obtain ⟨hvalue, hmoved⟩ := h.popValue hB
  have hvalue : (UnwindCheck.popValue s).1.Near (B + 2 ^ 31) := hvalue.mono (by omega)
  unfold UnwindCheck.transferPop
  split
  · exact (h.clobberReg _).mono (by omega)
  · dsimp only
    unfold popInto
    split
    · split
      · refine hmoved.setVal _ ?_
        split
        · exact hvalue
        · trivial
      · exact hmoved
    · split
      · exact hmoved.setSlot _ hvalue
      · exact hmoved
    · exact hmoved

theorem transferLeave (h : s.Near B) : (UnwindCheck.transferLeave s).Near (B + 2 ^ 31) := by
  have hcopy := h.copyReg kDWARFRsp kDWARFRbp
  have hwide : (s.copyReg kDWARFRsp kDWARFRbp).Near (B + 2 ^ 31) := hcopy.mono (by omega)
  unfold UnwindCheck.transferLeave
  dsimp only
  cases hrsp : (s.copyReg kDWARFRsp kDWARFRbp).gpr kDWARFRsp with
  | cfaRel delta =>
    have hdelta := hcopy.gpr kDWARFRsp
    rw [hrsp] at hdelta
    have hpopped := hdelta.add (n := 8) (D := 2 ^ 31) (by decide) hB
    exact (hwide.setVal kDWARFRbp (hwide.slot delta)).setVal kDWARFRsp hpopped
  | top | bottom | origReg | other => exact hwide.clobberReg kDWARFRbp

/-- An address off a tracked base. -/
theorem leaValue (h : s.Near B) (hinsn : insn.Narrow) {op : Operand} (hop : op ∈ insn.insn.operands)
    {mem : MemOperand} (hmem : op.kind = .memory mem) :
    (UnwindCheck.leaValue s insn mem).Near (B + 2 ^ 31) := by
  unfold UnwindCheck.leaValue UnwindCheck.memSlot
  split_ifs with hindex hfull
  · trivial
  · trivial
  · have hbase := h.readReg mem.base
    have hdisp := hinsn.disp op hop mem hmem (by simpa using hfull)
    cases hv : UnwindCheck.readReg s mem.base with
    | cfaRel delta =>
      rw [hv] at hbase
      exact hbase.add hdisp hB
    | top | bottom | origReg | other => trivial

theorem transferLea {z : Zydis} {s' : State} (h : s.Near B) (hinsn : insn.Narrow)
    (heq : UnwindCheck.transferLea z insn s = some s') : s'.Near (B + 2 ^ 31) := by
  have hwide : s.Near (B + 2 ^ 31) := h.mono (by omega)
  unfold UnwindCheck.transferLea at heq
  split at heq
  · rename_i r _ _ _ mem _ _ _ hops
    have hlea := h.leaValue hB hinsn (mem_operands_of_ops2?_snd hops) rfl
    split at heq
    · cases heq
    · rename_i d _
      by_cases hr : (!r.isFull64) = true
      · rw [if_pos hr] at heq
        cases heq
        exact hwide.clobberWrittenReg _ _
      · rw [if_neg hr] at heq
        dsimp only at heq
        split at heq
        · cases heq
          exact hwide.setTableReg _ _
        · cases heq
          exact hwide.setVal _ hlea
  · cases heq

theorem addSubImm {s' : State} {r : ZydisRegister} {imm : Word} (h : s.Near B)
    (himm : -2 ^ 31 ≤ imm.toInt ∧ imm.toInt ≤ 2 ^ 31)
    (heq : UnwindCheck.addSubImm insn s r imm = some s') : s'.Near (B + 2 ^ 31) := by
  have hwide : s.Near (B + 2 ^ 31) := h.mono (by omega)
  unfold UnwindCheck.addSubImm at heq
  obtain ⟨d, -, rfl⟩ := Option.map_eq_some_iff.mp heq
  split
  · rename_i delta _ hd
    have hdelta := h.gpr d
    rw [hd] at hdelta
    refine hwide.setVal d ?_
    split
    · exact hdelta.add himm hB
    · exact hdelta.sub himm hB
  · exact hwide.clobberWrittenReg _ _

theorem transferAddSub {s' : State} (h : s.Near B) (hinsn : insn.Narrow)
    (hid : insn.id = .add ∨ insn.id = .sub) (heq : UnwindCheck.transferAddSub insn s = some s') :
    s'.Near (B + 2 ^ 31) := by
  unfold UnwindCheck.transferAddSub at heq
  split at heq
  · split_ifs at heq
    unfold addDispatch at heq
    obtain ⟨d0, -, heq⟩ := Option.bind_eq_some_iff.mp heq
    obtain ⟨d1, -, heq⟩ := Option.bind_eq_some_iff.mp heq
    split_ifs at heq
    obtain ⟨tv, -, heq⟩ := Option.bind_eq_some_iff.mp heq
    cases heq
    exact (h.setTableReg _ _).mono (by omega)
  · rename_i hops
    exact h.addSubImm hB (hinsn.imm hid _ (mem_operands_of_ops2?_snd hops) _ rfl) heq
  · cases heq

end Moved

/-- A move brings along what its source held. -/
theorem movToReg (h : s.Near B) (r : ZydisRegister) (d : Fin 16) (src : Operand) :
    (UnwindCheck.movToReg insn s r d src).Near B := by
  unfold UnwindCheck.movToReg
  by_cases hr : (!r.isFull64) = true
  · rw [if_pos hr]
    dsimp only
    generalize (if r.widthBits = 32 then src.reg?.bind ZydisRegister.dwarfRegOf else none) = sr
    split
    · exact (h.clobberWrittenReg _ _).modifyTable _ _
    · exact h.clobberWrittenReg _ _
  · rw [if_neg hr]
    split
    · split
      · split
        · exact h.copyReg _ _
        · exact h.clobberReg _
      · exact h.clobberReg _
    · split
      · refine h.setVal _ ?_
        split
        · exact h.slot _
        · trivial
      · exact h.clobberReg _
    · exact h.clobberReg _

theorem transferMov {s' : State} (h : s.Near B) (heq : UnwindCheck.transferMov insn s = some s') :
    s'.Near B := by
  unfold UnwindCheck.transferMov at heq
  split at heq
  · obtain ⟨d, -, rfl⟩ := Option.map_eq_some_iff.mp heq
    exact h.movToReg _ _ _
  · rename_i size _ _ _ _
    cases heq
    unfold movToMem
    split
    · exact h
    · rename_i k hk
      have herase := h.eraseSlots k (writtenBytes size)
      dsimp only
      split
      · split
        · exact herase.setSlot k (herase.readReg _)
        · exact herase
      · exact herase
  · cases heq

theorem transferMovsxd {s' : State} (h : s.Near B) (heq : UnwindCheck.transferMovsxd insn s = some s') :
    s'.Near B := by
  unfold UnwindCheck.transferMovsxd at heq
  split at heq
  · split at heq
    · cases heq
    · split_ifs at heq
      split at heq
      · cases heq
        split
        · exact (h.clobberReg _).modifyTable _ _
        · exact h.clobberReg _
      · obtain ⟨tv, rfl, -⟩ := tableLoad_eq_some heq
        exact h.setTableReg _ _
      · cases heq
  · cases heq

theorem transferMovx {s' : State} (h : s.Near B) (heq : UnwindCheck.transferMovx insn s = some s') :
    s'.Near B := by
  unfold UnwindCheck.transferMovx at heq
  split at heq
  · rename_i r _ _ _ src _
    split at heq
    all_goals first
      | contradiction
      | dsimp only at heq
        by_cases hw : r.widthBits < 32
        · rw [if_pos hw] at heq
          cases heq
          exact h.clobberWrittenReg _ _
        · rw [if_neg hw] at heq
          cases heq
          exact ((h.clobberWrittenReg _ _).modifyTable _ _).modifyTable _ _
  · cases heq

theorem transferCmp (h : s.Near B) : (UnwindCheck.transferCmp insn s).Near B := by
  unfold UnwindCheck.transferCmp
  split
  · split
    · exact h.of_same rfl rfl
    · exact h
  · exact h

theorem transferNamed {z : Zydis} {r : TransferOutcome × State} (hB : B + 2 ^ 31 < 2 ^ 63) (h : s.Near B)
    (hinsn : insn.Narrow) (heq : UnwindCheck.transferNamed z insn s = some r) : r.2.Near (B + 2 ^ 31) := by
  have hle : B ≤ B + 2 ^ 31 := by omega
  unfold UnwindCheck.transferNamed at heq
  split at heq
  all_goals first
    | contradiction
    | cases heq; first
      | exact h.mono hle
      | exact h.callEffect.mono hle
      | exact h.transferPush hB
      | exact h.pushValue hB trivial
      | exact h.transferPop hB
      | exact (h.popValue hB).2
      | exact h.transferLeave hB
      | exact h.transferCmp.mono hle
    | obtain ⟨s', hs', rfl⟩ := Option.map_eq_some_iff.mp heq
      first
      | exact h.transferLea hB hinsn hs'
      | exact (h.transferMov hs').mono hle
      | exact (h.transferMovsxd hs').mono hle
      | exact h.transferAddSub hB hinsn (.inl ‹_›) hs'
      | exact h.transferAddSub hB hinsn (.inr ‹_›) hs'
      | exact (h.transferMovx hs').mono hle

/-- One transfer moves what is tracked by at most 2^31. -/
theorem transfer (z : Zydis) (hB : B + 2 ^ 31 < 2 ^ 63) (h : s.Near B) (hinsn : insn.Narrow) :
    (UnwindCheck.transfer z insn s).2.Near (B + 2 ^ 31) := by
  have hstale : (dropStaleCmp insn s).Near B := h.of_same (dropStaleCmp_gpr insn s) (dropStaleCmp_slots insn s)
  have hwide : (dropStaleCmp insn s).Near (B + 2 ^ 31) := hstale.mono (by omega)
  unfold UnwindCheck.transfer
  dsimp only
  split_ifs
  · exact hwide
  · exact hwide
  · exact hwide
  · cases hn : UnwindCheck.transferNamed z insn (dropStaleCmp insn s) with
    | none => exact hwide.clobberWrites
    | some r => exact hstale.transferNamed hB hinsn hn

theorem transferEdge (h : s.Near B) (edge : BranchEdge) : (UnwindCheck.transferEdge insn edge s).Near B := by
  unfold UnwindCheck.transferEdge
  split
  · exact h
  · exact h
  · split
    · exact h
    · split
      · exact h
      · dsimp only
        split
        · exact h.of_same rfl rfl
        · exact h.of_same rfl rfl

end AbsState.Near

namespace Signed
variable {B : ℤ} {s : State} {insn : Instruction}

theorem rspFits_of_near {v : AbsVal Int64} (h : v.Near B) (hB : B + 128 ≤ 2 ^ 63) (r : Fin 16) :
    RspFits r v := by
  intro _ delta hv
  subst hv
  have hlo := h.1
  omega

section Room
variable (hB : B + 2 ^ 31 + 136 ≤ 2 ^ 63)
include hB

theorem slotFits_of_near (h : s.Near B) (hinsn : insn.Narrow) {op : Operand}
    (hop : op ∈ insn.insn.operands) {mem : MemOperand} (hmem : op.kind = .memory mem) {low : ℤ}
    (hlow : low ≤ -2 ^ 63 + 128) : SlotFits low s insn mem := by
  intro delta hbase
  unfold memBase at hbase
  split_ifs at hbase with hindex hfull
  have hdisp := hinsn.disp op hop mem hmem (by simpa using hfull)
  have hnear := h.readReg mem.base
  cases hv : readReg s mem.base with
  | cfaRel delta' =>
    rw [hv] at hbase hnear
    cases hbase
    obtain ⟨hlo, hhi⟩ := hnear
    constructor
    · omega
    · omega
  | top | bottom | origReg | other =>
    rw [hv] at hbase
    cases hbase

theorem clobberFits_of_near (h : s.Near B) (hinsn : insn.Narrow) {ops : List Operand}
    (hops : ∀ op ∈ ops, op ∈ insn.insn.operands) : ClobberFits insn s ops := by
  induction ops generalizing s with
  | nil => trivial
  | cons op ops ih =>
    have hop := hops op List.mem_cons_self
    exact ⟨fun _ mem hmem => slotFits_of_near hB h hinsn hop hmem (by omega),
      ih (h.clobberOperand op) fun op' hop' => hops op' (List.mem_cons_of_mem _ hop')⟩

theorem pushFits_of_near (h : s.Near B) : PushFits s := by
  intro delta hrsp
  have hnear := h.gpr kDWARFRsp
  rw [hrsp] at hnear
  have hlo := hnear.1
  omega

theorem popFits_of_near (h : s.Near B) : PopFits s := by
  intro delta hrsp
  have hnear := h.gpr kDWARFRsp
  rw [hrsp] at hnear
  obtain ⟨hlo, hhi⟩ := hnear
  constructor
  · omega
  · omega

theorem leaveFits_of_near (h : s.Near B) : LeaveFits s := by
  intro delta hrbp
  have hnear := h.gpr kDWARFRbp
  rw [hrbp] at hnear
  obtain ⟨hlo, hhi⟩ := hnear
  constructor
  · omega
  · omega

theorem leaFits_of_near {z : Zydis} (h : s.Near B) (hinsn : insn.Narrow) : LeaFits z insn s := by
  have hclobber : ClobberFits insn s insn.insn.operands := clobberFits_of_near hB h hinsn fun _ hop => hop
  unfold LeaFits
  split
  · rename_i hops
    split
    · exact hclobber
    · intro _ _
      refine slotFits_of_near hB h hinsn (mem_operands_of_ops2?_snd hops) rfl ?_
      split
      · omega
      · omega
  · exact hclobber

theorem movFits_of_near (h : s.Near B) (hinsn : insn.Narrow) : MovFits insn s := by
  have hclobber : ClobberFits insn s insn.insn.operands := clobberFits_of_near hB h hinsn fun _ hop => hop
  unfold MovFits
  split
  · rename_i hops
    split
    · exact hclobber
    · intro _
      split
      · exact rspFits_of_near (h.readReg _) (by omega) _
      · rename_i mem hmem
        have hslot : SlotFits (-2 ^ 63) s insn mem :=
          slotFits_of_near hB h hinsn (mem_operands_of_ops2?_snd hops) hmem (by omega)
        exact ⟨hslot, fun _ k _ => rspFits_of_near (h.slot k) (by omega) _⟩
      · trivial
  · rename_i hops
    exact slotFits_of_near hB h hinsn (AbsState.Within.mem_operands_of_ops2? hops) rfl (by omega)
  · exact hclobber

theorem addSubFits_of_near (h : s.Near B) (hinsn : insn.Narrow) (hid : insn.id = .add ∨ insn.id = .sub) :
    AddSubFits insn s := by
  have hclobber : ClobberFits insn s insn.insn.operands := clobberFits_of_near hB h hinsn fun _ hop => hop
  unfold AddSubFits
  split
  · rename_i imm _ _ _ hops
    have himm := hinsn.imm hid _ (mem_operands_of_ops2?_snd hops) _ rfl
    split
    · exact hclobber
    · rename_i d _
      intro _ _ delta hd
      have hnear := h.gpr d
      rw [hd] at hnear
      obtain ⟨hlo, hhi⟩ := hnear
      have hexact : ∀ x : ℤ, -2 ^ 63 + 128 ≤ x → x < 2 ^ 63 → -2 ^ 63 + 128 ≤ x.bmod (2 ^ 64) := by
        intro x hx hx'
        rw [representable_iff_bmod.mp ⟨by omega, hx'⟩]
        exact hx
      split
      · exact hexact _ (by omega) (by omega)
      · exact hexact _ (by omega) (by omega)
  · exact .inr hclobber
  · exact hclobber

end Room

theorem poppedFits_of_near (h : s.Near B) (hinsn : insn.Narrow) (hwide : B + 2 ^ 32 + 136 ≤ 2 ^ 63) :
    PoppedFits insn s := by
  obtain ⟨hvalue, hmoved⟩ := h.popValue (by omega)
  unfold PoppedFits
  split
  · exact fun _ d _ => rspFits_of_near hvalue (by omega) d
  · rename_i mem hmem
    obtain ⟨op, hop, hkind⟩ := Option.map_eq_some_iff.mp hmem
    exact slotFits_of_near (by omega) hmoved hinsn (AbsState.Within.mem_operands_of_op? hop) hkind (by omega)
  · trivial

/-- Where everything tracked is near the CFA, every transfer has room. -/
theorem transferFits_of_near (z : Zydis) (hB : B + 2 ^ 32 + 136 ≤ 2 ^ 63) (h : s.Near B)
    (hinsn : insn.Narrow) : TransferFits z insn s := by
  have hroom : B + 2 ^ 31 + 136 ≤ 2 ^ 63 := by omega
  have hstale : (dropStaleCmp insn s).Near B := h.of_same (dropStaleCmp_gpr insn s) (dropStaleCmp_slots insn s)
  refine .inr (.inr (.inr (.inr ?_)))
  unfold NamedFits
  split
  · intro _ _
    refine ⟨fun mem hmem => ?_, pushFits_of_near hroom hstale⟩
    obtain ⟨op, hop, hkind⟩ := Option.map_eq_some_iff.mp hmem
    exact slotFits_of_near hroom hstale hinsn (AbsState.Within.mem_operands_of_op? hop) hkind (by omega)
  · exact pushFits_of_near hroom hstale
  · exact fun _ _ => ⟨popFits_of_near hroom hstale, poppedFits_of_near hstale hinsn hB⟩
  · exact popFits_of_near hroom hstale
  · exact leaveFits_of_near hroom hstale
  · exact leaFits_of_near hroom hstale hinsn
  · exact movFits_of_near hroom hstale hinsn
  · exact movFits_of_near hroom hstale hinsn
  · exact addSubFits_of_near hroom hstale hinsn (.inl ‹_›)
  · exact addSubFits_of_near hroom hstale hinsn (.inr ‹_›)
  · exact fun _ => clobberFits_of_near hroom hstale hinsn fun _ hop => hop

end Signed

end UnwindCheck
