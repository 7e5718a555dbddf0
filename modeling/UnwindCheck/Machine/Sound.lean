import UnwindCheck.Insn.Agree
import UnwindCheck.Machine.Clobber

/-! One instruction on the abstract side and on the machine: the frame addresses `Transfer` leaves
in the registers are where the machine's registers point. -/
namespace UnwindCheck

/-- A way of reading abstract values as facts about words. Frame addresses are taken literally and
unknowns say nothing; what an entry value says is left open. -/
structure Reading where
  cfa : Word
  orig : ℕ → Word → Prop

namespace Reading
variable (ρ : Reading)

def Holds (v : AbsVal Int64) (w : Word) : Prop :=
  match v with
  | .cfaRel d => w = ρ.cfa + d.toBitVec
  | .origReg q => ρ.orig q w
  | .top | .bottom | .other => True

/-- The value says nothing. -/
def Vacuous (v : AbsVal Int64) : Prop := ∀ w, ρ.Holds v w

def Regs (gpr : Fin 16 → AbsVal Int64) (regs : Fin 16 → Word) : Prop := ∀ r, ρ.Holds (gpr r) (regs r)

/-- The registers and the eight-byte words of the frame bear the state out. -/
structure Describes (s : AbsState Int64) (m : Machine) : Prop where
  gpr : ρ.Regs s.gpr m.regs
  slot : ∀ k : Int64, ρ.Holds (s.slot k) (m.load (ρ.cfa + k.toBitVec) 8)

/-- A frame address, or nothing: what pushing and popping can follow. -/
def Settled (v : AbsVal Int64) : Prop := (∃ d, v = .cfaRel d) ∨ ρ.Vacuous v

variable {ρ}

theorem vacuous_top : ρ.Vacuous .top := fun _ => trivial

theorem vacuous_other : ρ.Vacuous .other := fun _ => trivial

theorem not_vacuous_cfaRel (d : Int64) : ¬ ρ.Vacuous (.cfaRel d) := by
  intro h
  have h₁ : ρ.cfa + d.toBitVec + 1 = ρ.cfa + d.toBitVec := h _
  bv_omega

theorem Regs.update {gpr : Fin 16 → AbsVal Int64} {regs : Fin 16 → Word} (h : ρ.Regs gpr regs)
    (d : Fin 16) {v : AbsVal Int64} {w : Word} (hv : ρ.Holds v w) :
    ρ.Regs (Function.update gpr d v) (Function.update regs d w) := by
  intro r
  by_cases hr : r = d
  · subst hr
    simpa using hv
  · simpa [hr] using h r

/-- Nothing said about `d`, nothing lost by a write to it. -/
theorem Regs.overwrite {gpr : Fin 16 → AbsVal Int64} {regs : Fin 16 → Word} (h : ρ.Regs gpr regs)
    {d : Fin 16} (hv : ρ.Vacuous (gpr d)) (w : Word) : ρ.Regs gpr (Function.update regs d w) := by
  have := h.update d (hv w)
  rwa [Function.update_eq_self] at this

/-- Registers that can change are registers the state no longer speaks about. -/
theorem Regs.changesOnly {gpr gpr' : Fin 16 → AbsVal Int64} {m m' : Machine} {rs : Fin 16 → Prop}
    (h : ρ.Regs gpr m.regs) (hm : m.ChangesOnly m' rs) (hrs : ∀ r, rs r → ρ.Vacuous (gpr' r))
    (hkeep : ∀ r, ¬ rs r → gpr' r = gpr r ∨ ρ.Vacuous (gpr' r)) : ρ.Regs gpr' m'.regs := by
  intro r
  by_cases hr : rs r
  · exact hrs r hr _
  · rcases hkeep r hr with he | hv
    · rw [he, hm r hr]
      exact h r
    · exact hv _

/-- A write to `d` that leaves nothing to say about it. -/
theorem Regs.forget {gpr : Fin 16 → AbsVal Int64} {m m' : Machine} (h : ρ.Regs gpr m.regs)
    {d : Fin 16} (hm : m.ChangesOnly m' (· = d)) {v : AbsVal Int64} (hv : ρ.Vacuous v) :
    ρ.Regs (Function.update gpr d v) m'.regs := by
  refine h.changesOnly hm (fun r hr => ?_) fun r hr => .inl (Function.update_of_ne hr _ _)
  subst hr
  simpa using hv

end Reading

theorem ofInt_disp (d : Int64) : (Offset.ofInt d.toInt : Int64) = d := Int64.ofInt_toInt d

theorem ofInt_imm (imm : Word) : (Offset.ofInt imm.toInt : Int64).toBitVec = imm := by
  show (Int64.ofInt imm.toInt).toBitVec = imm
  rw [Int64.toBitVec_ofInt, BitVec.ofInt_toInt]

section
variable {s : AbsState Int64} {insn : Instruction}

variable {ρ : Reading} {m m' : Machine} (h : ρ.Describes s m)
include h

theorem clobberWrites_sound (hm : m.ChangesOnly m' insn.Marks) :
    ρ.Regs (clobberWrites insn s).gpr m'.regs := by
  refine h.gpr.changesOnly hm (fun r hr => ?_) fun r hr => .inl ((clobberWrites_gpr insn s r).2 hr)
  rw [(clobberWrites_gpr insn s r).1 hr]
  exact Reading.vacuous_top

/-- A memory operand that can be placed is where the machine finds it. -/
theorem address?_of_memSlot {mem : MemOperand} {k : Int64} (hk : memSlot s insn mem = some k) :
    insn.insn.hasSegment = false ∧
      Instruction.address? m mem = some (ρ.cfa + k.toBitVec) := by
  unfold memSlot at hk
  split_ifs at hk with hseg hfull
  simp only [Bool.or_eq_true, decide_eq_true_eq, not_or, Bool.not_eq_true, ne_eq, not_not] at hseg
  refine ⟨hseg.1, ?_⟩
  cases hb : mem.base with
  | gpr64 g =>
    have hread : readReg s mem.base = s.gpr g.dwarf := by simp [readReg, hb, ZydisRegister.isFull64,
      ZydisRegister.dwarfRegOf, ZydisRegister.parent]
    rw [hread] at hk
    cases hv : s.gpr g.dwarf with
    | cfaRel delta =>
      have hholds := h.gpr g.dwarf
      rw [hv] at hholds
      simp only [hv, Option.some.injEq] at hk
      have hreg : m.regs g.dwarf = ρ.cfa + delta.toBitVec := hholds
      rw [Instruction.address?, hb, hseg.2]
      simp only [hreg, ← hk, ofInt_disp, Int64.toBitVec_add, BitVec.add_assoc]
    | top | bottom | origReg | other => simp [hv] at hk
  | none | rip | gpr32 | gpr16 | gpr8 | high8 | other => simp [hb, ZydisRegister.isFull64] at hfull

omit h in
theorem callEffect_gpr (s : AbsState Int64) (r : Fin 16) :
    (r ∈ kCallerSaved → (callEffect s).gpr r = .top) ∧
      (r ∉ kCallerSaved → (callEffect s).gpr r = s.gpr r) := by
  have hfold : ∀ (rs : List (Fin 16)) (u : AbsState Int64),
      (rs.foldl AbsState.clobberReg u).gpr r = if r ∈ rs then .top else u.gpr r := by
    intro rs
    induction rs with
    | nil => simp
    | cons q rs ih =>
      intro u
      rw [List.foldl_cons, ih]
      by_cases hq : r = q <;> simp [hq]
  unfold callEffect
  dsimp only
  rw [hfold]
  refine ⟨fun hr => if_pos hr, fun hr => ?_⟩
  rw [if_neg hr]
  split <;> rfl

theorem callEffect_sound (hm : m.ChangesOnly m' (· ∈ kCallerSaved)) :
    ρ.Regs (callEffect s).gpr m'.regs := by
  refine h.gpr.changesOnly hm (fun r hr => ?_) fun r hr => .inl ((callEffect_gpr s r).2 hr)
  rw [(callEffect_gpr s r).1 hr]
  exact Reading.vacuous_top

omit h in
/-- Either rsp is a frame address, or pushing and popping leave the state as it is. -/
theorem rsp_cases (hsp : ρ.Settled (s.gpr kDWARFRsp)) :
    (∃ d, s.gpr kDWARFRsp = .cfaRel d) ∨
      ρ.Vacuous (s.gpr kDWARFRsp) ∧ (∀ v, pushValue s v = s) ∧ popValue s = (.top, s) := by
  by_cases hd : ∃ d, s.gpr kDWARFRsp = .cfaRel d
  · exact .inl hd
  · have hne : ∀ d, s.gpr kDWARFRsp ≠ .cfaRel d := fun d he => hd ⟨d, he⟩
    exact .inr ⟨hsp.resolve_left hd, pushValue_untracked hne, popValue_untracked hne⟩

theorem regs_of_cfaRel {r : Fin 16} {d : Int64} (hd : s.gpr r = .cfaRel d) :
    m.regs r = ρ.cfa + d.toBitVec := by
  have := h.gpr r
  rwa [hd] at this

theorem pushValue_sound (hsp : ρ.Settled (s.gpr kDWARFRsp)) (v : AbsVal Int64)
    (hm : m'.regs = Function.update m.regs kDWARFRsp (m.regs kDWARFRsp - 8)) :
    ρ.Regs (pushValue s v).gpr m'.regs := by
  rw [hm]
  rcases rsp_cases hsp with ⟨d, hd⟩ | ⟨hv, hpush, -⟩
  · simp only [pushValue, hd, AbsState.setSlot_gpr, AbsState.setVal_gpr]
    refine h.gpr.update _ ?_
    show m.regs kDWARFRsp - 8 = ρ.cfa + (d - Offset.ofInt 8).toBitVec
    rw [regs_of_cfaRel h hd, Int64.toBitVec_sub, show (Offset.ofInt 8 : Int64).toBitVec = 8 from rfl]
    bv_omega
  · rw [hpush]
    exact h.gpr.overwrite hv _

/-- The popped word is at rsp, and rsp moves past it. -/
theorem popValue_sound (hsp : ρ.Settled (s.gpr kDWARFRsp)) :
    ρ.Holds (popValue s).1 (m.load (m.regs kDWARFRsp) 8) ∧
      ρ.Regs (popValue s).2.gpr
        (Function.update m.regs kDWARFRsp (m.regs kDWARFRsp + 8)) := by
  rcases rsp_cases hsp with ⟨d, hd⟩ | ⟨hv, -, hpop⟩
  · have hreg := regs_of_cfaRel h hd
    simp only [popValue, hd, AbsState.setVal_gpr]
    refine ⟨hreg ▸ h.slot d, h.gpr.update _ ?_⟩
    show m.regs kDWARFRsp + 8 = ρ.cfa + (d + Offset.ofInt 8).toBitVec
    rw [hreg, Int64.toBitVec_add, show (Offset.ofInt 8 : Int64).toBitVec = 8 from rfl,
      BitVec.add_assoc]
  · rw [hpop]
    exact ⟨trivial, h.gpr.overwrite hv _⟩

theorem transferPush_sound (hsp : ρ.Settled (s.gpr kDWARFRsp))
    (hm : m'.regs = Function.update m.regs kDWARFRsp
      (m.regs kDWARFRsp - BitVec.ofNat 64 insn.stackBytes)) :
    ρ.Regs (transferPush insn s).2.gpr m'.regs := by
  unfold transferPush
  split
  · rw [AbsState.clobberReg_gpr, hm]
    exact h.gpr.update _ trivial
  · rename_i hw
    have h8 : insn.stackBytes = 8 := by
      simp only [not_or, not_not] at hw
      simp [Instruction.stackBytes, hw.2]
    rw [h8] at hm
    exact pushValue_sound h hsp _ hm

/-- A `pop` of eight bytes is followed; of a narrower one only rsp is forgotten, so its
destination must be something nothing is said about. -/
theorem transferPop_sound (hsp : ρ.Settled (s.gpr kDWARFRsp)) (hm : m'.regs = insn.popRegs m)
    (hnarrow : insn.insn.operandWidth ≠ 64 → ∀ d, insn.popDest = some d → d ≠ kDWARFRsp →
      ρ.Vacuous (s.gpr d)) :
    ρ.Regs (transferPop insn s).2.gpr m'.regs := by
  rw [hm]
  unfold transferPop Instruction.popRegs
  dsimp only
  split
  · rename_i hw
    have hrsp : ρ.Regs (Function.update s.gpr kDWARFRsp .top)
        (Function.update m.regs kDWARFRsp
          (m.regs kDWARFRsp + BitVec.ofNat 64 insn.stackBytes)) := h.gpr.update _ trivial
    rw [AbsState.clobberReg_gpr]
    cases hd : insn.popDest with
    | none => exact hrsp
    | some d =>
      refine hrsp.overwrite ?_ _
      have hone : insn.opCount = 1 := by
        by_contra hne
        simp [Instruction.popDest, hne] at hd
      by_cases hsp' : d = kDWARFRsp
      · simpa [hsp'] using Reading.vacuous_top
      · rw [Function.update_of_ne hsp']
        exact hnarrow (hw.resolve_left (not_not.mpr hone)) d hd hsp'
  · rename_i hw
    simp only [not_or, not_not] at hw
    obtain ⟨hload, hrest⟩ := popValue_sound h hsp
    simp only [Instruction.popDest, hw.1, if_true, Instruction.stackBytes, hw.2]
    unfold popInto
    cases hop : insn.op? 0 with
    | none => exact hrest
    | some op =>
      simp only [Option.map_some, Option.bind_some, Operand.reg?]
      cases op.kind with
      | register r =>
        cases hr : r.dwarfRegOf with
        | none => simpa [hr] using hrest
        | some d =>
          simp only [Option.bind_some, hr, AbsState.setVal_gpr]
          refine hrest.update d ?_
          split
          · exact hload
          · trivial
      | memory mem =>
        dsimp only [Option.bind_none]
        split
        · rw [AbsState.setSlot_gpr]
          exact hrest
        · exact hrest
      | immediate _ => exact hrest
      | pointer => exact hrest

/-- A full `leave` is followed; of a narrow one nothing is, so rbp must be something nothing is
said about. -/
theorem transferLeave_sound (hbp : ρ.Settled (s.gpr kDWARFRbp)) (hm : m'.regs = insn.leaveRegs m)
    (hnarrow : insn.insn.operandWidth ≠ 64 → ρ.Vacuous (s.gpr kDWARFRbp)) :
    ρ.Regs (transferLeave s).gpr m'.regs := by
  have hne : kDWARFRbp ≠ kDWARFRsp := by decide
  have hcopy : (s.copyReg kDWARFRsp kDWARFRbp).gpr kDWARFRsp = s.gpr kDWARFRbp := by simp
  rw [hm]
  unfold Instruction.leaveRegs
  by_cases hd : ∃ d, s.gpr kDWARFRbp = .cfaRel d
  · obtain ⟨d, hd⟩ := hd
    have hw : insn.insn.operandWidth = 64 := by
      by_contra hw
      exact Reading.not_vacuous_cfaRel d (hd ▸ hnarrow hw)
    have hreg := regs_of_cfaRel h hd
    have hslot : ρ.Holds ((s.copyReg kDWARFRsp kDWARFRbp).slot d)
        (m.load (m.regs kDWARFRbp) 8) := by
      rw [AbsState.copyReg, AbsState.slot_setReg, hd, hreg]
      dsimp only
      split
      · trivial
      · exact h.slot d
    have hsp : ρ.Holds (.cfaRel (d + Offset.ofInt 8)) (m.regs kDWARFRbp + 8) := by
      show m.regs kDWARFRbp + 8 = ρ.cfa + (d + Offset.ofInt 8).toBitVec
      rw [hreg, Int64.toBitVec_add, show (Offset.ofInt 8 : Int64).toBitVec = 8 from rfl,
        BitVec.add_assoc]
    rw [hd] at hcopy
    simp only [transferLeave, hcopy, hd, hw, if_true, Instruction.stackBytes, AbsState.setVal_gpr,
      AbsState.copyReg_gpr]
    rw [Function.update_comm hne, Function.update_idem, Function.update_comm hne]
    exact (h.gpr.update kDWARFRsp hsp).update kDWARFRbp hslot
  · have hv : ρ.Vacuous (s.gpr kDWARFRbp) := hbp.resolve_left hd
    rw [transferLeave_untracked fun d he => hd ⟨d, he⟩, AbsState.clobberReg_gpr,
      AbsState.copyReg_gpr, Function.update_comm hne.symm]
    exact (h.gpr.update kDWARFRbp (Reading.vacuous_top _)).update kDWARFRsp (hv _)

theorem transferLea_sound (z : Zydis) (hx : insn.ExecLea m m') :
    ρ.Regs ((transferLea z insn s).getD (clobberWrites insn s)).gpr m'.regs := by
  unfold Instruction.ExecLea at hx
  unfold transferLea
  split
  · rename_i r _ _ _ mem _ _ _ hops
    rw [hops] at hx
    cases hr : r.dwarfRegOf with
    | none =>
      simp only [hr] at hx
      exact clobberWrites_sound h hx
    | some d =>
      simp only [hr] at hx ⊢
      have honly : m.ChangesOnly m' (· = d) := by
        split at hx
        · exact .of_update hx
        · exact hx
      split
      · rw [Option.getD_some, clobberWrittenReg_gpr]
        exact h.gpr.forget honly Reading.vacuous_top
      · rename_i hfull
        split
        · rw [Option.getD_some, AbsState.setTableReg_gpr]
          exact h.gpr.forget honly Reading.vacuous_other
        · rw [Option.getD_some, AbsState.setVal_gpr, leaValue]
          cases hk : memSlot s insn mem with
          | none => exact h.gpr.forget honly Reading.vacuous_top
          | some k =>
            have hfull' : r.isFull64 = true := by simpa using hfull
            simp only [hfull', (address?_of_memSlot h hk).2] at hx
            rw [hx]
            exact h.gpr.update d rfl
  · rename_i hops
    split at hx
    · rename_i hops'
      exact absurd hops' (hops _ _ _ _ _ _ _ _)
    · exact clobberWrites_sound h hx

/-- What `mov` records in a register is what it stores there, or nothing. -/
theorem movToReg_sound (r : ZydisRegister) (d : Fin 16) (src : Operand) :
    ∃ v, (movToReg insn s r d src).gpr = Function.update s.gpr d v ∧
      (ρ.Vacuous v ∨ r.isFull64 = true ∧ ∃ w, insn.movWord m src = some w ∧ ρ.Holds v w) := by
  unfold movToReg Instruction.movWord
  cases hfull : r.isFull64 with
  | false =>
    refine ⟨.top, ?_, .inl Reading.vacuous_top⟩
    simp only [Bool.not_false, if_true]
    generalize (if r.widthBits = 32 then src.reg?.bind ZydisRegister.dwarfRegOf else none) = sr
    cases sr with
    | none => exact clobberWrittenReg_gpr s r d
    | some _ => exact clobberWrittenReg_gpr s r d
  | true =>
    simp only [Bool.not_true, Bool.false_eq_true, if_false, true_and]
    cases src.kind with
    | register q =>
      cases hq : q.dwarfRegOf with
      | none => exact ⟨.top, by simp [hq], .inl Reading.vacuous_top⟩
      | some e =>
        cases hqf : q.isFull64 with
        | false => exact ⟨.top, by simp [hq, hqf], .inl Reading.vacuous_top⟩
        | true => exact ⟨s.gpr e, by simp [hq, hqf], .inr ⟨m.regs e, by simp [hq, hqf], h.gpr e⟩⟩
    | memory mem =>
      cases hk : memSlot s insn mem with
      | none => exact ⟨.top, by simp [hk], .inl Reading.vacuous_top⟩
      | some k =>
        obtain ⟨hseg, ha⟩ := address?_of_memSlot h hk
        by_cases hsize : src.size = 64
        · exact ⟨s.slot k, by simp [hsize, hk], .inr ⟨_, by simp [hsize, hseg, ha], h.slot k⟩⟩
        · exact ⟨.top, by simp [hsize, hk], .inl Reading.vacuous_top⟩
    | immediate _ => exact ⟨.top, by simp, .inl Reading.vacuous_top⟩
    | pointer => exact ⟨.top, by simp, .inl Reading.vacuous_top⟩

omit h in
theorem movToMem_gpr (mem : MemOperand) (size : ℕ) (src : Operand) :
    (movToMem insn s mem size src).gpr = s.gpr := by
  unfold movToMem
  split
  · rfl
  · dsimp only
    split
    · split <;> simp
    · simp

theorem transferMov_sound (hx : insn.ExecMov m m') :
    ρ.Regs ((transferMov insn s).getD (clobberWrites insn s)).gpr m'.regs := by
  unfold Instruction.ExecMov at hx
  unfold transferMov
  split
  · rename_i r _ _ _ src hops
    rw [hops] at hx
    cases hr : r.dwarfRegOf with
    | none =>
      simp only [hr] at hx
      exact clobberWrites_sound h hx
    | some d =>
      simp only [hr] at hx
      obtain ⟨v, hv, hvac | ⟨hfull, w, hw, hholds⟩⟩ := movToReg_sound h r d src
      · have honly : m.ChangesOnly m' (· = d) := by
          split at hx
          · exact .of_update hx
          · exact hx
        rw [Option.map_some, Option.getD_some, hv]
        exact h.gpr.forget honly hvac
      · simp only [hfull, hw] at hx
        rw [Option.map_some, Option.getD_some, hv, hx]
        exact h.gpr.update d hholds
  · rename_i hops
    rw [hops] at hx
    rw [Option.getD_some, movToMem_gpr, hx]
    exact h.gpr
  · rename_i hops₁ hops₂
    split at hx
    · rename_i hops
      exact absurd hops (hops₁ _ _ _ _ _)
    · rename_i hops
      exact absurd hops (hops₂ _ _ _ _ _)
    · exact clobberWrites_sound h hx

theorem addSubImm_sound {r : ZydisRegister} {d : Fin 16} (hr : r.dwarfRegOf = some d) {imm : Word}
    (hx : if r.isFull64 then
        m'.regs = Function.update m.regs d (if insn.id = .add then m.regs d + imm else m.regs d - imm)
      else m.ChangesOnly m' (· = d)) :
    ρ.Regs ((addSubImm insn s r imm).getD (clobberWrites insn s)).gpr m'.regs := by
  unfold addSubImm
  rw [hr, Option.map_some, Option.getD_some]
  have honly : m.ChangesOnly m' (· = d) := by
    split at hx
    · exact .of_update hx
    · exact hx
  split
  · rename_i delta hfull hd
    rw [if_pos hfull] at hx
    rw [AbsState.setVal_gpr, hx]
    refine h.gpr.update d ?_
    rw [regs_of_cfaRel h hd]
    split
    · show ρ.cfa + delta.toBitVec + imm = ρ.cfa + (delta + Offset.ofInt imm.toInt).toBitVec
      rw [Int64.toBitVec_add, ofInt_imm, BitVec.add_assoc]
    · show ρ.cfa + delta.toBitVec - imm = ρ.cfa + (delta - Offset.ofInt imm.toInt).toBitVec
      rw [Int64.toBitVec_sub, ofInt_imm]
      bv_omega
  · rw [clobberWrittenReg_gpr]
    exact h.gpr.forget honly Reading.vacuous_top

omit h in
/-- Without table values there is no dispatch to resolve. -/
theorem addDispatch_eq_none (htbl : ∀ r, (s.tbl r).kind = .none) (r q : ZydisRegister) :
    addDispatch s r q = none := by
  have hres : ∀ a b : Fin 16, resolveDispatch (s.tbl a) (s.tbl b) = none := by
    intro a b
    simp [resolveDispatch, htbl]
  unfold addDispatch
  cases r.dwarfRegOf with
  | none => rfl
  | some d =>
    cases q.dwarfRegOf with
    | none => rfl
    | some e => simp [hres]

omit h in
theorem tableLoad_eq_none (htbl : ∀ r, (s.tbl r).kind = .none) (d : Fin 16) (mem : MemOperand) :
    tableLoad s d mem = none := by
  unfold tableLoad
  split
  · rfl
  · cases mem.index.dwarfRegOf with
    | none => rfl
    | some idx =>
      cases mem.base.dwarfRegOf with
      | none => rfl
      | some base => simp [htbl]

theorem transferAddSub_sound (htbl : ∀ r, (s.tbl r).kind = .none) (hx : insn.ExecAddSub m m') :
    ρ.Regs ((transferAddSub insn s).getD (clobberWrites insn s)).gpr m'.regs := by
  unfold Instruction.ExecAddSub at hx
  unfold transferAddSub
  split
  · rename_i hops
    simp only [hops] at hx
    rw [addDispatch_eq_none htbl, ite_self]
    exact clobberWrites_sound h hx
  · rename_i r _ _ _ imm _ _ _ hops
    simp only [hops] at hx
    cases hr : r.dwarfRegOf with
    | none =>
      simp only [hr] at hx
      simpa [addSubImm, hr] using clobberWrites_sound h hx
    | some d =>
      simp only [hr] at hx
      exact addSubImm_sound h hr hx
  · rename_i hops
    split at hx
    · rename_i hops'
      exact absurd hops' (hops _ _ _ _ _ _ _ _)
    · exact clobberWrites_sound h hx

theorem transferMovsxd_sound (htbl : ∀ r, (s.tbl r).kind = .none) (hx : insn.ExecExtend m m') :
    ρ.Regs ((transferMovsxd insn s).getD (clobberWrites insn s)).gpr m'.regs := by
  obtain ⟨hmarks, hdest⟩ := hx.changesOnly
  have hgen := clobberWrites_sound h hmarks
  unfold transferMovsxd
  split
  · rename_i r _ _ _ src hops
    cases hr : r.dwarfRegOf with
    | none => exact hgen
    | some d =>
      have honly := hdest _ src r d hops rfl hr
      dsimp only
      split
      · exact hgen
      · cases src.kind with
        | register q =>
          cases hq : q.dwarfRegOf with
          | none => simpa [hq] using h.gpr.forget honly Reading.vacuous_top
          | some _ => simpa [hq] using h.gpr.forget honly Reading.vacuous_top
        | memory mem =>
          dsimp only
          rw [tableLoad_eq_none htbl]
          exact hgen
        | immediate _ => exact hgen
        | pointer => exact hgen
  · exact hgen

theorem transferMovx_sound (hx : insn.ExecExtend m m') :
    ρ.Regs ((transferMovx insn s).getD (clobberWrites insn s)).gpr m'.regs := by
  obtain ⟨hmarks, hdest⟩ := hx.changesOnly
  have hgen := clobberWrites_sound h hmarks
  unfold transferMovx
  split
  · rename_i r _ _ _ src hops
    cases hr : r.dwarfRegOf with
    | none => exact hgen
    | some d =>
      have hforget := h.gpr.forget (hdest _ src r d hops rfl hr) Reading.vacuous_top
      cases src.kind with
      | register _ =>
        dsimp only
        split <;> simpa using hforget
      | memory _ =>
        dsimp only
        split <;> simpa using hforget
      | immediate _ => exact hgen
      | pointer => exact hgen
  · exact hgen

end

/-- What a state must be like for `Transfer` to follow an instruction: the stack registers are
frame addresses or unknown, no switch table is in play, nothing is said about the two registers a
branch can change, and a narrow pop or `leave` loads nothing that is spoken about. -/
structure Reading.Follows (ρ : Reading) (insn : Instruction) (s : AbsState Int64) : Prop where
  rsp : ρ.Settled (s.gpr kDWARFRsp)
  rbp : ρ.Settled (s.gpr kDWARFRbp)
  tables : ∀ r, (s.tbl r).kind = .none
  branch : ρ.Vacuous (s.gpr 0) ∧ ρ.Vacuous (s.gpr 2)
  leave : insn.insn.operandWidth ≠ 64 → insn.id = .leave → ρ.Vacuous (s.gpr kDWARFRbp)
  pop : insn.insn.operandWidth ≠ 64 → insn.id = .pop → ∀ d, insn.popDest = some d →
    d ≠ kDWARFRsp → ρ.Vacuous (s.gpr d)

theorem transferNamed_sound {ρ : Reading} (z : Zydis) {insn : Instruction} {s : AbsState Int64}
    {m m' : Machine} (h : ρ.Describes s m) (hf : ρ.Follows insn s) (hx : insn.Exec m m')
    (hstay : insn.leaves = false) (hbr : insn.isBranch = false) :
    ρ.Regs ((transferNamed z insn s).getD ({}, clobberWrites insn s)).2.gpr m'.regs := by
  simp only [Instruction.leaves, hbr, Bool.not_false, Bool.true_and, Bool.or_eq_false_iff,
    decide_eq_false_iff_not] at hstay
  obtain ⟨hret, htrap, hcall⟩ := hstay
  simp only [Instruction.Exec, hret, hbr, htrap, Bool.false_eq_true, if_false] at hx
  unfold transferNamed
  split at hx <;> rename_i hid
  · exact absurd hid hcall
  iterate 7
    · rw [hid]
      exact callEffect_sound h hx
  · rw [hid]
    exact transferPush_sound h hf.rsp hx
  · rw [hid]
    exact pushValue_sound h hf.rsp _ hx
  · rw [hid]
    exact transferPop_sound h hf.rsp hx fun hw => hf.pop hw hid
  · rw [hid, hx]
    exact (popValue_sound h hf.rsp).2
  · rw [hid]
    exact transferLeave_sound h hf.rbp hx fun hw => hf.leave hw hid
  · simp only [hid, getD_map_plain]
    exact transferLea_sound h z hx
  iterate 2
    · simp only [hid, getD_map_plain]
      exact transferMov_sound h hx
  iterate 2
    · simp only [hid, getD_map_plain]
      exact transferAddSub_sound h hf.tables hx
  · simp only [hid, getD_map_plain]
    exact transferMovsxd_sound h hf.tables hx
  iterate 2
    · simp only [hid, getD_map_plain]
      exact transferMovx_sound h hx
  · rw [hid, hx]
    simpa using h.gpr
  iterate 3
    · rw [hid, hx]
      exact h.gpr
  · -- what the machine does not tell apart is what `Transfer` does not name, bar `int3`
    split
    case h_6 hint => simp [hint, isTrapMnemonic] at htrap
    case h_27 => exact clobberWrites_sound h hx
    all_goals contradiction

theorem Reading.Describes.dropStaleCmp {ρ : Reading} {s : AbsState Int64} {m : Machine}
    (h : ρ.Describes s m) (insn : Instruction) : ρ.Describes (dropStaleCmp insn s) m := by
  refine ⟨by simpa using h.gpr, fun k => ?_⟩
  simpa [AbsState.slot] using h.slot k

/-- One step of `Transfer` describes one step of the machine. -/
theorem transfer_sound {ρ : Reading} (z : Zydis) {insn : Instruction} {s : AbsState Int64}
    {m m' : Machine} (h : ρ.Describes s m) (hf : ρ.Follows insn s) (hx : insn.Exec m m')
    (hstay : insn.leaves = false) : ρ.Regs (transfer z insn s).2.gpr m'.regs := by
  have hd := h.dropStaleCmp insn
  have hf' : ρ.Follows insn (dropStaleCmp insn s) := by
    refine ⟨?_, ?_, ?_, ?_, ?_, ?_⟩
    · simpa using hf.rsp
    · simpa using hf.rbp
    · simpa using hf.tables
    · simpa using hf.branch
    · simpa using hf.leave
    · simpa using hf.pop
  have hret : isReturnMnemonic insn.id = false := by
    simp only [Instruction.leaves, Bool.or_eq_false_iff] at hstay
    exact hstay.1
  cases hbr : insn.isBranch with
  | true =>
    simp only [Instruction.Exec, hret, hbr, Bool.false_eq_true, if_false, if_true] at hx
    rw [transfer_of_branch hret hbr]
    refine hd.gpr.changesOnly hx (fun r hr => ?_) fun r _ => .inl rfl
    rcases hr with rfl | rfl
    · exact hf'.branch.1
    · exact hf'.branch.2
  | false =>
    have htrap : isTrapMnemonic insn.id = false := by
      simp only [Instruction.leaves, hbr, Bool.not_false, Bool.true_and, Bool.or_eq_false_iff] at hstay
      exact hstay.2.1
    rw [transfer_of_switch hret hbr htrap]
    exact transferNamed_sound z hd hf' hx hstay hbr

section Control
variable {z : Zydis} {insn : Instruction} {s : AbsState Int64}

theorem transfer_plain (hstay : insn.leaves = false) (hbr : insn.isBranch = false) :
    (transfer z insn s).1.Plain ∧ (transfer z insn s).1.isCall = false := by
  simp only [Instruction.leaves, hbr, Bool.not_false, Bool.true_and, Bool.or_eq_false_iff,
    decide_eq_false_iff_not] at hstay
  obtain ⟨hret, htrap, hcall⟩ := hstay
  rw [transfer_of_switch hret hbr htrap]
  cases hn : transferNamed z insn (dropStaleCmp insn s) with
  | none => exact ⟨TransferOutcome.plain_default, rfl⟩
  | some r => exact ⟨transferNamed_plain hn, transferNamed_isCall hn hcall⟩

/-- What goes on or jumps on the abstract side does not leave. -/
theorem stays_of_transfer (h : (transfer z insn s).1.fallsThrough = true ∧
      (transfer z insn s).1.isCall = false ∨ (transfer z insn s).1.directTarget ≠ none) :
    insn.leaves = false := by
  unfold transfer at h
  dsimp only at h
  split_ifs at h with hret hbr htrap
  · simp at h
  · have hbr' : insn.isBranch = true := by simpa [Instruction.isBranch] using hbr
    simp [Instruction.leaves, hret, hbr']
  · simp at h
  · have hbr' : insn.isBranch = false := by simpa [Instruction.isBranch] using hbr
    have hcall : insn.id ≠ .call := by
      intro hid
      simp [transferNamed, hid] at h
    simp [Instruction.leaves, hret, htrap, hbr', hcall]

theorem transfer_fallsThrough (h : insn.fallsThrough = true) :
    (transfer z insn s).1.fallsThrough = true ∧ (transfer z insn s).1.isCall = false := by
  simp only [Instruction.fallsThrough, Bool.and_eq_true, Bool.not_eq_true', Bool.and_eq_false_iff,
    decide_eq_false_iff_not] at h
  cases hbr : insn.isBranch with
  | false =>
    obtain ⟨hp, hcall⟩ := transfer_plain (z := z) (s := s) h.1 hbr
    exact ⟨hp.fallsThrough, hcall⟩
  | true =>
    have hret : isReturnMnemonic insn.id = false := by simpa [Instruction.leaves, hbr] using h.1
    have hjmp : insn.id ≠ .jmp := by simpa [hbr] using h.2
    rw [transfer_of_branch hret hbr]
    refine ⟨?_, (branchOutcome_target z insn _).2.1⟩
    rw [branchOutcome_fallsThrough]
    exact decide_eq_true hjmp

theorem transfer_directTarget {q : Word} (h : insn.directTarget z = some q) :
    (transfer z insn s).1.directTarget = some q := by
  unfold Instruction.directTarget at h
  split_ifs at h with hc
  simp only [Bool.and_eq_true, Bool.not_eq_true'] at hc
  have hret : isReturnMnemonic insn.id = false := by simpa [Instruction.leaves, hc.1] using hc.2
  rw [transfer_of_branch hret hc.1]
  cases hop : insn.op? 0 with
  | none => simp [hop] at h
  | some op =>
    simp only [hop, Option.bind_some] at h
    cases hk : op.kind with
    | immediate v =>
      simp only [hk] at h
      simp [branchOutcome, hop, hk, h]
    | register _ | memory _ | pointer => simp [hk] at h

end Control

end UnwindCheck
