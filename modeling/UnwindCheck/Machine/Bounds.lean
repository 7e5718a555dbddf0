import UnwindCheck.Machine.Widths
import UnwindCheck.Insn.Agree
import UnwindCheck.Insn.Writes

/-! The numbers behind switch tables: bounds that a run has recorded are bounds of what the
processor's registers hold. -/
namespace UnwindCheck
variable {δ : Type} [Offset δ]

theorem toNat_le_kBoundTop (w : Word) : w.toNat ≤ kBoundTop := by
  have hw := w.isLt
  unfold kBoundTop
  omega

theorem le_widthBound {bits v : ℕ} (h : v < 2 ^ bits) (h64 : v ≤ kBoundTop) : v ≤ widthBound bits := by
  unfold widthBound
  split_ifs
  · exact h64
  · omega

/-- Reading fewer bits never reads more. -/
theorem lowBits_mono {a b : ℕ} (h : a ≤ b) (w : Word) : lowBits a w ≤ lowBits b w := by
  unfold lowBits
  rw [← Nat.mod_mod_of_dvd _ (pow_dvd_pow 2 h)]
  exact Nat.mod_le _ _

namespace ZydisRegister

theorem put_le_writtenRegBound (r : ZydisRegister) (old v : Word) :
    (r.put old v).toNat ≤ writtenRegBound r := by
  unfold writtenRegBound
  split_ifs with h32
  · have hlt := put_lt_of_gpr32 h32 old v
    have hbound : widthBound 32 = 2 ^ 32 - 1 := rfl
    omega
  · exact toNat_le_kBoundTop _

theorem put_le_of_wide {r : ZydisRegister} (h : 32 ≤ r.widthBits) (old v : Word) :
    (r.put old v).toNat ≤ v.toNat := by
  cases r with
  | gpr64 g => exact le_refl _
  | gpr32 g =>
    rw [put, BitVec.toNat_ofNat]
    exact (Nat.mod_le _ _).trans (Nat.mod_le _ _)
  | gpr16 | gpr8 | high8 | none | rip | other => simp [widthBits] at h

end ZydisRegister

/-- Every register is at most its value bound, and the low bits that a proven guard names are at
most the bound it has. -/
structure BoundsHold (s : AbsState δ) (c : Cpu) : Prop where
  value : ∀ r, (c.regs r).toNat ≤ (s.tbl r).valueBound
  proven : ∀ g, s.lastCmp = some g → g.proven = true →
    lowBits g.widthBits (c.regs g.reg) ≤ g.provenBound

/-- The flags are those of the comparison that is waiting for its branch. -/
def FlagsAnswer (s : AbsState δ) (c : Cpu) : Prop :=
  ∀ g, s.lastCmp = some g → g.proven = false →
    c.flags = cmpFlags g.widthBits (lowBits g.widthBits (c.regs g.reg)) g.imm

/-- Of what is recorded on the way from `s` to `s'`, a guard is true of the bits it names and a
promoted bound of the whole register, if that register's own bound was. -/
structure RecordsTrue (s s' : AbsState δ) (c : Cpu) : Prop where
  guard : ∀ g, s'.lastCmp = some g → g.proven = true →
    s.lastCmp = some g ∨ lowBits g.widthBits (c.regs g.reg) ≤ g.provenBound
  promoted : ∀ r, s'.tbl r = s.tbl r ∨ ∃ b, s'.tbl r = (s.tbl r).applyGuardBound b ∧
    ((c.regs r).toNat ≤ (s.tbl r).valueBound → (c.regs r).toNat ≤ b)

/-- What a run keeps. -/
structure NumInv (s : AbsState δ) (c : Cpu) : Prop extends BoundsHold s c where
  flags : FlagsAnswer s c

/-- A write of register `d` that leaves `t` as its table half. -/
structure Wrote (s s' : AbsState δ) (d : Fin 16) (t : TableVal) : Prop where
  tbl : s'.tbl = Function.update s.tbl d t
  lastCmp : s'.lastCmp = s.lastCmp.filter fun g => g.reg ≠ d

section Wrote
variable {s s' : AbsState δ} {d : Fin 16} {t : TableVal}

theorem wrote_setReg (s : AbsState δ) (d : Fin 16) (v : AbsVal δ) (t : TableVal) :
    Wrote s (s.setReg d v t) d t := ⟨s.setReg_tbl d v t, s.setReg_lastCmp d v t⟩

theorem Wrote.modifyTable (h : Wrote s s' d t) (f : TableVal → TableVal) :
    Wrote s (s'.modifyTable d f) d (f t) := by
  refine ⟨?_, h.lastCmp⟩
  unfold AbsState.modifyTable
  rw [h.tbl, Function.update_self, Function.update_idem]

theorem wrote_clobberWrittenReg (s : AbsState δ) (r : ZydisRegister) (d : Fin 16) :
    Wrote s (clobberWrittenReg s r d) d { TableVal.none with valueBound := writtenRegBound r } :=
  (wrote_setReg s d .top .none).modifyTable _

/-- The guard on a register that is written does not survive, and no other fact is about it. -/
theorem NumInv.wrote {c : Cpu} (h : NumInv s c) (hw : Wrote s s' d t) {w : Word}
    (hle : w.toNat ≤ t.valueBound) : NumInv s' ⟨Function.update c.regs d w, c.flags⟩ := by
  have hguard : ∀ g, s'.lastCmp = some g → s.lastCmp = some g ∧ g.reg ≠ d := by
    intro g hg
    rw [hw.lastCmp] at hg
    simpa using Option.filter_eq_some_iff.mp hg
  refine ⟨⟨fun r => ?_, fun g hg hp => ?_⟩, fun g hg hp => ?_⟩
  · rw [hw.tbl]
    by_cases hr : r = d
    · subst hr
      simpa using hle
    · simpa [hr] using h.value r
  · obtain ⟨hg', hne⟩ := hguard g hg
    simpa [hne] using h.proven g hg' hp
  · obtain ⟨hg', hne⟩ := hguard g hg
    simpa [hne] using h.flags g hg' hp

end Wrote

section Steps
variable {s : AbsState δ} {c : Cpu} (h : NumInv s c)
include h

theorem NumInv.dropStaleCmp (insn : Instruction) : NumInv (dropStaleCmp insn s) c := by
  unfold UnwindCheck.dropStaleCmp
  split_ifs
  · exact ⟨⟨h.value, fun g hg => by cases hg⟩, fun g hg => by cases hg⟩
  · exact h

/-- New flags, once no comparison is waiting for them. -/
theorem NumInv.setFlags (hg : ∀ g, s.lastCmp = some g → g.proven = true) (f : CpuFlags) :
    NumInv s ⟨c.regs, f⟩ := by
  refine ⟨⟨h.value, h.proven⟩, fun g hsome hp => ?_⟩
  rw [hg g hsome] at hp
  cases hp

omit h in
theorem proven_of_writesEflags {insn : Instruction} (hw : writesEflags insn = true) :
    ∀ g, (dropStaleCmp insn s).lastCmp = some g → g.proven = true := by
  intro g hg
  unfold dropStaleCmp at hg
  split_ifs at hg with hstale
  have hany : s.lastCmp.any FlagsGuard.proven = true := by simpa [hw] using hstale
  rw [hg] at hany
  simpa using hany

omit h in
/-- A value within what a proven guard says of the bits it covers is within what the guard
contributes to a read. -/
theorem le_provenGuardBound {r : Fin 16} {bits v : ℕ} (hv : v < 2 ^ bits) (htop : v ≤ kBoundTop)
    (hguard : ∀ g, s.lastCmp = some g → g.proven = true → g.reg = r → bits ≤ g.widthBits →
      v ≤ g.provenBound) : v ≤ provenGuardBound s r bits := by
  unfold provenGuardBound
  split
  · exact htop
  · rename_i g hg
    split_ifs with hp hr
    · exact htop
    · exact htop
    · simp only [Bool.or_eq_true, decide_eq_true_eq, not_or, not_not, not_lt] at hr
      exact le_min (le_widthBound hv htop) (hguard g hg (by simpa using hp) hr.1 hr.2)

/-- Everything that is known of a source register's low bits. -/
theorem source_le {q : ZydisRegister} {r : Fin 16} (hr : q.dwarfRegOf = some r)
    (hlow : q.isLow = true) :
    q.value (c.regs r) ≤ min (min (widthBound q.widthBits) (s.tbl r).valueBound)
      (provenGuardBound s r q.widthBits) := by
  have hval := q.value_le (c.regs r)
  refine le_min (le_min ?_ ?_) ?_
  · exact le_widthBound (ZydisRegister.value_lt hr _) (hval.trans (toNat_le_kBoundTop _))
  · exact hval.trans (h.value r)
  · refine le_provenGuardBound (ZydisRegister.value_lt hr _) (hval.trans (toNat_le_kBoundTop _)) ?_
    rintro g hg hp rfl hbits
    rw [ZydisRegister.value_of_isLow hlow]
    exact (lowBits_mono hbits _).trans (h.proven g hg hp)

end Steps

/-- The value a move takes from its source: what the spelling of a GPR reads, and anything of the
operand's width from memory. -/
def Operand.Supplies (src : Operand) (regs : Fin 16 → Word) (v : ℕ) : Prop :=
  match src.reg? with
  | some q =>
    match q.dwarfRegOf with
    | some r => v = q.value (regs r)
    | none => v < 2 ^ min src.size 64
  | none => v < 2 ^ min src.size 64

/-- The two's complement reading of `bits` bits, in 64. -/
def signExtend (bits v : ℕ) : Word :=
  BitVec.ofNat 64 (if v < 2 ^ (bits - 1) then v else 2 ^ 64 - 2 ^ bits + v)

namespace Instruction

/-- What is written to the destination of a move. -/
def moved (insn : Instruction) (bits v : ℕ) : Word :=
  match insn.id with
  | .movsx | .movsxd => signExtend bits v
  | _ => BitVec.ofNat 64 v

/-- A move from `src` to the GPR that `r` spells, as the decoder reports it: the destination is
what is written. -/
structure Move (insn : Instruction) (r : ZydisRegister) (src : Operand) : Prop where
  mnemonic : insn.id ∈ [.mov, .movq, .movzx, .movsx, .movsxd]
  ops : ∃ dst, insn.ops2? = some (dst, src) ∧ dst.kind = .register r
  isBranch : insn.isBranch = false
  writes : insn.insn.WritesOnly r

end Instruction

/-- A source that is no `%ah` or its like. The size of a GPR operand is that of its spelling. -/
def Operand.ReadsLow (src : Operand) : Prop :=
  ∀ q, src.reg? = some q → q.dwarfRegOf ≠ none → q.isLow = true ∧ src.size = q.widthBits

/-- Everything that is recorded about what a move reads: the width, and the bounds and the guard of
a source register. -/
def Operand.readBound (src : Operand) (s : AbsState δ) : ℕ :=
  min (min (widthBound src.size) (s.table (src.reg?.bind ZydisRegister.dwarfRegOf)).valueBound)
    (sourceGuard s (src.reg?.bind ZydisRegister.dwarfRegOf) src.size)

/-- What a move reads is within what is recorded about its source. Where that is no register, only
the width of the load speaks. -/
theorem supplies_le_readBound {s : AbsState δ} {c : Cpu} (h : NumInv s c) {src : Operand} {v : ℕ}
    (hlow : src.ReadsLow) (hv : src.Supplies c.regs v) : v ≤ src.readBound s := by
  unfold Operand.readBound
  cases hsr : src.reg?.bind ZydisRegister.dwarfRegOf with
  | some sr =>
    obtain ⟨q, hq, hdwarf⟩ := Option.bind_eq_some_iff.mp hsr
    obtain ⟨hlow, hsize⟩ := hlow q hq (by simp [hdwarf])
    unfold Operand.Supplies at hv
    simp only [hq, hdwarf] at hv
    rw [hv, hsize]
    exact source_le h hdwarf hlow
  | none =>
    have hlt : v < 2 ^ min src.size 64 := by
      unfold Operand.Supplies at hv
      cases hq : src.reg? with
      | none => simpa [hq] using hv
      | some q =>
        have hdwarf : q.dwarfRegOf = none := by simpa [hq] using hsr
        simpa [hq, hdwarf] using hv
    have hsize : v < 2 ^ src.size := hlt.trans_le (Nat.pow_le_pow_right (by norm_num) (min_le_left _ _))
    have h64 : v < 2 ^ 64 := hlt.trans_le (Nat.pow_le_pow_right (by norm_num) (min_le_right _ _))
    have htop : v ≤ kBoundTop := by
      unfold kBoundTop
      omega
    exact le_min (le_min (le_widthBound hsize htop) htop) htop

/-- The table half `t` that a move of `v` leaves speaks for `w`, what it leaves in the register. The
table bound does where the source is a register and its own table bound spoke for `v`. -/
structure Carried (s : AbsState δ) (src : Operand) (v : ℕ) (t : TableVal) (w : Word) : Prop where
  value : w.toNat ≤ t.valueBound
  table : src.reg?.isSome = true →
    v ≤ (s.table (src.reg?.bind ZydisRegister.dwarfRegOf)).tableBound → w.toNat ≤ t.tableBound

section Moves
variable {s : AbsState δ} {insn : Instruction} {r : ZydisRegister} {d : Fin 16} {src : Operand} {v : ℕ}

/-- Any write of a register is within what its width proves. -/
theorem exists_wrote_clobber (s : AbsState δ) (r : ZydisRegister) (d : Fin 16) (src : Operand) (v : ℕ)
    (old w : Word) :
    ∃ t, Wrote s (clobberWrittenReg s r d) d t ∧ Carried s src v t (r.put old w) :=
  ⟨_, wrote_clobberWrittenReg s r d, r.put_le_writtenRegBound old w, fun _ _ => toNat_le_kBoundTop _⟩

theorem exists_wrote_setVal (s : AbsState δ) (d : Fin 16) (a : AbsVal δ) (src : Operand) (v : ℕ)
    (w : Word) : ∃ t, Wrote s (s.setVal d a) d t ∧ Carried s src v t w :=
  ⟨_, wrote_setReg s d a .none, toNat_le_kBoundTop w, fun _ _ => toNat_le_kBoundTop w⟩

/-- A zero-extended value is within the bounds that survive. -/
theorem carried_zeroExtended {w : Word} (hw : w.toNat ≤ v) (hle : v ≤ src.readBound s) (t : TableVal) :
    Carried s src v (applyZeroExtendedFrom (s.table (src.reg?.bind ZydisRegister.dwarfRegOf)) src.size
      (sourceGuard s (src.reg?.bind ZydisRegister.dwarfRegOf) src.size) t) w :=
  ⟨hw.trans hle, fun _ htable => hw.trans (le_min htable (hle.trans (min_le_right _ _)))⟩

/-- A value without its sign bit is the same sign-extended, and otherwise no bound survives. -/
theorem carried_signExtended (hle : v ≤ src.readBound s) (t : TableVal) :
    Carried s src v (applySignExtendedFrom (s.table (src.reg?.bind ZydisRegister.dwarfRegOf)) src.size
      (sourceGuard s (src.reg?.bind ZydisRegister.dwarfRegOf) src.size) t) (signExtend src.size v) := by
  unfold applySignExtendedFrom
  dsimp only
  split_ifs with hsign
  · exact ⟨toNat_le_kBoundTop _, fun _ _ => toNat_le_kBoundTop _⟩
  · obtain ⟨-, hlow⟩ := not_or.mp hsign
    have hclear : v < 2 ^ (src.size - 1) := hle.trans_lt (not_le.mp hlow)
    have hsame : (signExtend src.size v).toNat ≤ v := by
      rw [signExtend, if_pos hclear, BitVec.toNat_ofNat]
      exact Nat.mod_le _ _
    exact ⟨hsame.trans hle, fun _ htable => hsame.trans (le_min htable (hle.trans (min_le_right _ _)))⟩

theorem toNat_ofNat_le (v : ℕ) : (BitVec.ofNat 64 v).toNat ≤ v := by
  rw [BitVec.toNat_ofNat]
  exact Nat.mod_le _ _

theorem movToReg_bound (hle : v ≤ src.readBound s) (old : Word) :
    ∃ t, Wrote s (movToReg insn s r d src) d t ∧ Carried s src v t (r.put old (BitVec.ofNat 64 v)) := by
  unfold movToReg
  cases hfull : r.isFull64 with
  | false =>
    simp only [Bool.not_false, if_true]
    by_cases h32 : r.widthBits = 32
    · simp only [h32, if_true]
      split
      · refine ⟨_, (wrote_clobberWrittenReg s r d).modifyTable _, carried_zeroExtended ?_ hle _⟩
        exact (ZydisRegister.put_le_of_wide (by omega) _ _).trans (toNat_ofNat_le v)
      · exact exists_wrote_clobber s r d src v old _
    · simp only [h32, if_false]
      exact exists_wrote_clobber s r d src v old _
  | true =>
    simp only [Bool.not_true, Bool.false_eq_true, if_false]
    cases hkind : src.kind with
    | register q =>
      cases hq : q.dwarfRegOf with
      | none => simpa [hq] using exists_wrote_setVal s d .top src v _
      | some sr =>
        cases hqf : q.isFull64 with
        | false => simpa [hq, hqf] using exists_wrote_setVal s d .top src v _
        | true =>
          have hsr : src.reg?.bind ZydisRegister.dwarfRegOf = some sr := by simp [Operand.reg?, hkind, hq]
          have hput : (r.put old (BitVec.ofNat 64 v)).toNat ≤ v := by
            cases r with
            | gpr64 g => exact toNat_ofNat_le v
            | gpr32 | gpr16 | gpr8 | high8 | none | rip | other => cases hfull
          have hvalue : v ≤ (s.tbl sr).valueBound := by
            unfold Operand.readBound at hle
            rw [hsr] at hle
            exact hle.trans ((min_le_left _ _).trans (min_le_right _ _))
          simp only [hq, hqf, if_true]
          refine ⟨s.tbl sr, wrote_setReg s d _ _, hput.trans hvalue, fun _ htable => ?_⟩
          rw [hsr] at htable
          exact hput.trans htable
    | memory mem =>
      dsimp only
      split
      · exact exists_wrote_setVal s d _ src v _
      · exact exists_wrote_setVal s d .top src v _
    | immediate _ => exact exists_wrote_setVal s d .top src v _
    | pointer => exact exists_wrote_setVal s d .top src v _

/-- A sign-extending move of one register to a whole other. -/
theorem transferMovsxd_bound (hm : insn.Move r src) (hid : insn.id = .movsxd)
    (hr : r.dwarfRegOf = some d) (hle : v ≤ src.readBound s) (old : Word) :
    ∃ t, Wrote s ((transferMovsxd insn s).getD (clobberWrites insn s)) d t ∧
      Carried s src v t (r.put old (insn.moved src.size v)) := by
  obtain ⟨⟨kind, size, write, condWrite⟩, hops, hkind⟩ := hm.ops
  dsimp only at hkind
  subst hkind
  have hgen : ∃ t, Wrote s (clobberWrites insn s) d t ∧
      Carried s src v t (r.put old (insn.moved src.size v)) := by
    rw [hm.writes.clobberWrites hr]
    exact exists_wrote_clobber s r d src v old _
  have hmoved : insn.moved src.size v = signExtend src.size v := by simp [Instruction.moved, hid]
  unfold transferMovsxd
  simp only [hops, hr]
  cases hfull : r.isFull64 with
  | false => exact hgen
  | true =>
    have hput : r.put old (insn.moved src.size v) = signExtend src.size v := by
      cases r with
      | gpr64 g => exact hmoved
      | gpr32 | gpr16 | gpr8 | high8 | none | rip | other => cases hfull
    simp only [Bool.not_true, Bool.false_eq_true, if_false]
    cases hk : src.kind with
    | register q =>
      have hsr : src.reg?.bind ZydisRegister.dwarfRegOf = q.dwarfRegOf := by simp [Operand.reg?, hk]
      dsimp only
      split
      · refine ⟨_, (wrote_setReg s d .top .none).modifyTable _, ?_⟩
        rw [hput, ← hsr]
        exact carried_signExtended hle _
      · exact exists_wrote_setVal s d .top src v _
    | memory mem =>
      cases hload : tableLoad s d mem with
      | none => simpa [hload] using hgen
      | some s' =>
        obtain ⟨t, rfl, ht⟩ := tableLoad_eq_some hload
        simp only [hload, Option.getD_some]
        refine ⟨t, wrote_setReg s d .other t, ?_, fun hreg => ?_⟩
        · rw [ht]
          exact toNat_le_kBoundTop _
        · simp [Operand.reg?, hk] at hreg
    | immediate _ => exact hgen
    | pointer => exact hgen

/-- A write of 32 or 64 bits keeps what is proved of the value, and what its width proves. -/
theorem exists_wrote_wide (s : AbsState δ) (d : Fin 16) (h32 : 32 ≤ r.widthBits) (old : Word)
    {f : TableVal → TableVal} {w : Word}
    (hw : Carried s src v (f { TableVal.none with valueBound := writtenRegBound r }) w) :
    ∃ t, Wrote s (((clobberWrittenReg s r d).modifyTable d f).modifyTable d fun t =>
        { t with valueBound := min t.valueBound (writtenRegBound r) }) d t ∧
      Carried s src v t (r.put old w) := by
  have hput := ZydisRegister.put_le_of_wide h32 old w
  refine ⟨_, ((wrote_clobberWrittenReg s r d).modifyTable f).modifyTable _, ?_, fun hreg htable => ?_⟩
  · exact le_min (hput.trans hw.value) (r.put_le_writtenRegBound _ _)
  · exact hput.trans (hw.table hreg htable)

theorem transferMovx_bound (hm : insn.Move r src) (hid : insn.id = .movzx ∨ insn.id = .movsx)
    (hr : r.dwarfRegOf = some d) (hle : v ≤ src.readBound s) (old : Word) :
    ∃ t, Wrote s ((transferMovx insn s).getD (clobberWrites insn s)) d t ∧
      Carried s src v t (r.put old (insn.moved src.size v)) := by
  obtain ⟨⟨kind, size, write, condWrite⟩, hops, hkind⟩ := hm.ops
  dsimp only at hkind
  subst hkind
  have hgen : ∃ t, Wrote s (clobberWrites insn s) d t ∧
      Carried s src v t (r.put old (insn.moved src.size v)) := by
    rw [hm.writes.clobberWrites hr]
    exact exists_wrote_clobber s r d src v old _
  unfold transferMovx
  simp only [hops, hr]
  cases hk : src.kind with
  | register q | memory mem =>
    dsimp only
    split_ifs with hnarrow hzx
    · exact exists_wrote_clobber s r d src v old _
    · have hmoved : insn.moved src.size v = BitVec.ofNat 64 v := by simp [Instruction.moved, hzx]
      refine exists_wrote_wide s d (not_lt.mp hnarrow) old (carried_zeroExtended ?_ hle _)
      rw [hmoved]
      exact toNat_ofNat_le v
    · have hmoved : insn.moved src.size v = signExtend src.size v := by
        simp [Instruction.moved, hid.resolve_left hzx]
      refine exists_wrote_wide s d (not_lt.mp hnarrow) old ?_
      rw [hmoved]
      exact carried_signExtended hle _
  | immediate _ => exact hgen
  | pointer => exact hgen

end Moves

/-- A move writes its destination, with bounds that what it read carries over. -/
theorem Instruction.Move.wrote {z : Zydis} {s : AbsState δ} {insn : Instruction} {r : ZydisRegister}
    {d : Fin 16} {src : Operand} {v : ℕ} (hm : insn.Move r src) (hr : r.dwarfRegOf = some d)
    (hle : v ≤ src.readBound (dropStaleCmp insn s)) (old : Word) :
    ∃ t, Wrote (dropStaleCmp insn s) (transfer z insn s).2 d t ∧
      Carried (dropStaleCmp insn s) src v t (r.put old (insn.moved src.size v)) := by
  have hid := hm.mnemonic
  simp only [List.mem_cons, List.not_mem_nil, or_false] at hid
  have hret : isReturnMnemonic insn.id = false := by
    rcases hid with hid | hid | hid | hid | hid <;> rw [hid] <;> rfl
  have htrap : isTrapMnemonic insn.id = false := by
    rcases hid with hid | hid | hid | hid | hid <;> rw [hid] <;> rfl
  rw [transfer_of_switch hret hm.isBranch htrap]
  generalize dropStaleCmp insn s = s₀ at hle
  have hplain (hmov : insn.id = .mov ∨ insn.id = .movq) :
      ∃ t, Wrote s₀ ((transferMov insn s₀).getD (clobberWrites insn s₀)) d t ∧
        Carried s₀ src v t (r.put old (insn.moved src.size v)) := by
    obtain ⟨⟨kind, size, write, condWrite⟩, hops, hkind⟩ := hm.ops
    dsimp only at hkind
    subst hkind
    have hmoved : insn.moved src.size v = BitVec.ofNat 64 v := by
      rcases hmov with hmov | hmov <;> simp [Instruction.moved, hmov]
    simp only [transferMov, hops, hr, Option.map_some, Option.getD_some, hmoved]
    exact movToReg_bound hle old
  rcases hid with hid | hid | hid | hid | hid <;> simp only [transferNamed, hid, getD_map_plain]
  · exact hplain (Or.inl hid)
  · exact hplain (Or.inr hid)
  · exact transferMovx_bound hm (Or.inl hid) hr hle old
  · exact transferMovx_bound hm (Or.inr hid) hr hle old
  · exact transferMovsxd_bound hm hid hr hle old

/-- `cmp $imm` of a spelling of a GPR, as the decoder reports it. -/
structure Instruction.Compares (insn : Instruction) (r : ZydisRegister) (imm : Word) : Prop where
  mnemonic : insn.id = .cmp
  isBranch : insn.isBranch = false
  ops : ∃ dst src, insn.ops2? = some (dst, src) ∧ dst.kind = .register r ∧
    dst.size = r.widthBits ∧ src.kind = .immediate imm

/-- The comparison waits for its branch under the name of the whole register. -/
theorem Instruction.Compares.transfer_eq {z : Zydis} {insn : Instruction} {r : ZydisRegister}
    {d : Fin 16} {imm : Word} (h : insn.Compares r imm) (hr : r.dwarfRegOf = some d) (s : AbsState δ) :
    (transfer z insn s).2 = { dropStaleCmp insn s with
      lastCmp := some { reg := d, widthBits := r.widthBits, imm := imm.toNat % 2 ^ r.widthBits } } := by
  obtain ⟨⟨kind, size, write, condWrite⟩, ⟨kind', size', write', condWrite'⟩, hops, hdst, hsize, hsrc⟩ :=
    h.ops
  dsimp only at hdst hsize hsrc
  subst hdst hsize hsrc
  have himm : (if r.widthBits < 64 then imm.toNat % 2 ^ r.widthBits else imm.toNat) =
      imm.toNat % 2 ^ r.widthBits := by
    split_ifs with hw
    · rfl
    · have himm := imm.isLt
      refine (Nat.mod_eq_of_lt (himm.trans_le ?_)).symm
      exact Nat.pow_le_pow_right (by norm_num) (by omega)
  rw [transfer_of_switch (by rw [h.mnemonic]; rfl) h.isBranch (by rw [h.mnemonic]; rfl)]
  simp [transferNamed, h.mnemonic, transferCmp, hops, hr, himm]

section Steps
variable {s : AbsState δ} {c : Cpu} (h : NumInv s c) {insn : Instruction}
include h

theorem NumInv.move {z : Zydis} {r : ZydisRegister} {d : Fin 16} {src : Operand} {v : ℕ}
    (hm : insn.Move r src) (hr : r.dwarfRegOf = some d) (hlow : src.ReadsLow)
    (hv : src.Supplies c.regs v) :
    NumInv (transfer z insn s).2
      ⟨Function.update c.regs d (r.put (c.regs d) (insn.moved src.size v)), c.flags⟩ := by
  have h₀ := h.dropStaleCmp insn
  obtain ⟨t, hw, hcarried⟩ := hm.wrote hr (supplies_le_readBound h₀ hlow hv) (c.regs d)
  exact h₀.wrote hw hcarried.value

/-- The operands of an unmodelled instruction, one after the other on both sides. -/
theorem NumInv.clobberOperands {ops : List Operand} {regs' : Fin 16 → Word}
    (hrun : RunsOperands ops c.regs regs') (huncond : ∀ op ∈ ops, op.writes = true → op.write = true) :
    NumInv (ops.foldl (clobberOperand insn) s) ⟨regs', c.flags⟩ := by
  generalize hregs : c.regs = regs at hrun
  induction hrun with
  | nil =>
    subst hregs
    exact h
  | @snoc ops op regs regs₁ regs₂ hrun hop ih =>
    have h₁ := ih (fun op' hin => huncond op' (List.mem_append_left _ hin)) hregs
    rw [List.foldl_append, List.foldl_cons, List.foldl_nil]
    generalize ops.foldl (clobberOperand insn) s = s₁ at h₁
    rcases clobberOperand_cases insn s₁ op with ⟨hno, -, htbl, hcmp⟩ | ⟨r, d, hr, hd, -, hc⟩
    · have hsame : regs₂ = regs₁ := by
        cases hop with
        | none | skip => rfl
        | put v hr hd =>
          rw [op.writtenGpr_eq, hr, Option.bind_some, hd] at hno
          cases hno
      rw [hsame]
      refine ⟨⟨fun q => ?_, fun g hg => ?_⟩, fun g hg => ?_⟩
      · rw [htbl]
        exact h₁.value q
      · exact h₁.proven g (hcmp ▸ hg)
      · exact h₁.flags g (hcmp ▸ hg)
    · rw [hc]
      cases hop with
      | none hno =>
        rw [hno] at hr
        cases hr
      | skip hskip =>
        have hwrites : op.writes = true := by
          by_contra hw
          simp [Operand.writtenReg, hw] at hr
        rw [huncond op (by simp) hwrites] at hskip
        cases hskip
      | put v hr' hd' =>
        obtain rfl := Option.some.inj (hr.symm.trans hr')
        obtain rfl := Option.some.inj (hd.symm.trans hd')
        exact h₁.wrote (wrote_clobberWrittenReg s₁ _ _) (ZydisRegister.put_le_writtenRegBound _ _ _)

theorem NumInv.generic {z : Zydis} {regs' : Fin 16 → Word} {flags : CpuFlags} (hgen : insn.Generic z s)
    (hrun : RunsOperands insn.insn.operands c.regs regs')
    (huncond : ∀ op ∈ insn.insn.operands, op.writes = true → op.write = true)
    (hflags : flags = c.flags ∨ writesEflags insn = true) :
    NumInv (transfer z insn s).2 ⟨regs', flags⟩ := by
  rw [hgen.transfer_eq]
  rcases hflags with rfl | hw
  · exact (h.dropStaleCmp insn).clobberOperands hrun huncond
  · exact ((h.dropStaleCmp insn).setFlags (proven_of_writesEflags hw) flags).clobberOperands hrun huncond

/-- A comparison only waits for its branch. -/
theorem NumInv.cmp {z : Zydis} {r : ZydisRegister} {d : Fin 16} {imm : Word} (hcmp : insn.Compares r imm)
    (hr : r.dwarfRegOf = some d) (hlow : r.isLow = true) :
    NumInv (transfer z insn s).2
      ⟨c.regs, cmpFlags r.widthBits (r.value (c.regs d)) (imm.toNat % 2 ^ r.widthBits)⟩ := by
  rw [hcmp.transfer_eq hr]
  refine ⟨⟨?_, fun g hg hp => ?_⟩, fun g hg hp => ?_⟩
  · simpa using h.value
  · cases hg
    simp [FlagsGuard.proven] at hp
  · cases hg
    rw [ZydisRegister.value_of_isLow hlow]

omit h in
/-- The edge that is taken is on the in-range side of the comparison exactly when it says so. -/
theorem inRangeEdge_sound {id : ZydisMnemonic} {edge : BranchEdge} {bits a imm : ℕ}
    (ht : edge.TakenBy id (cmpFlags bits a imm)) :
    (inRangeEdgeOf id edge = .atMostImm → a ≤ imm) ∧ (inRangeEdgeOf id edge = .belowImm → a < imm) := by
  have hedge {jump : Bool} (hj : id.jumps (cmpFlags bits a imm) = some jump) :
      jump = true ↔ edge = .taken := by
    have he := ht jump hj
    cases jump <;> simp [he]
  cases id <;> cases edge <;> simp only [inRangeEdgeOf, reduceCtorEq, false_imp_iff, and_self,
    and_true, true_and, true_imp_iff]
  all_goals
    have hj := hedge rfl
    simp [cmpFlags] at hj
    omega

omit h in
/-- Where the register has nothing beyond the compared bits, its value is what was compared. -/
theorem lowBits_eq_of_valueBound {bits : ℕ} {w : Word} {t : TableVal} (hw : w.toNat ≤ t.valueBound)
    (hwide : 64 ≤ bits ∨ t.valueBound ≤ widthBound bits) : lowBits bits w = w.toNat := by
  have hlt := w.isLt
  refine Nat.mod_eq_of_lt ?_
  by_cases h64 : 64 ≤ bits
  · exact hlt.trans_le (Nat.pow_le_pow_right (by norm_num) h64)
  · have hle := hw.trans (hwide.resolve_left h64)
    have hpos : 0 < 2 ^ bits := by positivity
    rw [widthBound, if_neg h64] at hle
    omega

omit h in
/-- What an edge can do to the state: nothing, or turn the waiting comparison into a bound, of the
whole register where there is nothing beyond the compared bits. -/
theorem transferEdge_cases (insn : Instruction) (edge : BranchEdge) (s : AbsState δ) :
    transferEdge insn edge s = s ∨
    ∃ g ubound, s.lastCmp = some g ∧ g.proven = false ∧
      (inRangeEdgeOf insn.id edge = .atMostImm ∧ ubound = g.imm ∨
        inRangeEdgeOf insn.id edge = .belowImm ∧ g.imm ≠ 0 ∧ ubound = g.imm - 1) ∧
      transferEdge insn edge s =
        if 64 ≤ g.widthBits ∨ (s.tbl g.reg).valueBound ≤ widthBound g.widthBits then
          AbsState.applyGuardBound { s with lastCmp := some { g with provenBound := ubound } } g.reg ubound
        else { s with lastCmp := some { g with provenBound := ubound } } := by
  cases hcmp : s.lastCmp with
  | none => exact Or.inl (transferEdge_of_none hcmp insn edge)
  | some g =>
    rcases transferEdge_of_lastCmp (δ := δ) insn edge g with hno | ⟨ubound, hp, hedge, heq⟩
    · exact Or.inl (hno s hcmp)
    · exact Or.inr ⟨g, ubound, rfl, hp, hedge, heq s hcmp⟩

omit h in
theorem transferEdge_lastCmp {insn : Instruction} {edge : BranchEdge} {g : FlagsGuard}
    (hg : (transferEdge insn edge s).lastCmp = some g) :
    ∃ g₀ b, s.lastCmp = some g₀ ∧ g = { g₀ with provenBound := b } := by
  rcases transferEdge_cases insn edge s with heq | ⟨g₀, ubound, hg₀, -, -, heq⟩
  · exact ⟨g, g.provenBound, heq ▸ hg, rfl⟩
  · rw [heq] at hg
    refine ⟨g₀, ubound, hg₀, ?_⟩
    split_ifs at hg <;> exact (Option.some.inj hg).symm

omit h in
/-- The waiting comparison, once its branch has gone the way the flags say. -/
theorem lowBits_le_ubound (h : FlagsAnswer s c) {edge : BranchEdge} (ht : edge.TakenBy insn.id c.flags)
    {g : FlagsGuard} {ubound : ℕ} (hg : s.lastCmp = some g) (hp : g.proven = false)
    (hub : inRangeEdgeOf insn.id edge = .atMostImm ∧ ubound = g.imm ∨
      inRangeEdgeOf insn.id edge = .belowImm ∧ g.imm ≠ 0 ∧ ubound = g.imm - 1) :
    lowBits g.widthBits (c.regs g.reg) ≤ ubound := by
  rw [h g hg hp] at ht
  obtain ⟨hmost, hbelow⟩ := inRangeEdge_sound ht
  rcases hub with ⟨hedge, rfl⟩ | ⟨hedge, hz, rfl⟩
  · exact hmost hedge
  · have hlt := hbelow hedge
    omega

omit h in
/-- An edge leaves the comparison itself alone. -/
theorem FlagsAnswer.transferEdge (h : FlagsAnswer s c) (edge : BranchEdge) :
    FlagsAnswer (transferEdge insn edge s) c := by
  rcases transferEdge_cases insn edge s with heq | ⟨g, ubound, hg, hp, -, heq⟩
  · rw [heq]
    exact h
  · have hsame : (UnwindCheck.transferEdge insn edge s).lastCmp =
        some { g with provenBound := ubound } := by
      rw [heq]
      split_ifs <;> rfl
    intro g' hg' _
    rw [hsame] at hg'
    cases hg'
    exact h g hg hp

omit h in
/-- An edge that the processor can take only records bounds that hold on it. -/
theorem FlagsAnswer.recordsTrue (h : FlagsAnswer s c) {edge : BranchEdge}
    (ht : edge.TakenBy insn.id c.flags) : RecordsTrue s (UnwindCheck.transferEdge insn edge s) c := by
  rcases transferEdge_cases insn edge s with heq | ⟨g, ubound, hg, hp, hub, heq⟩
  · rw [heq]
    exact ⟨fun g hg _ => Or.inl hg, fun r => Or.inl rfl⟩
  · have hle := lowBits_le_ubound h ht hg hp hub
    rw [heq]
    refine ⟨fun g' hg' _ => Or.inr ?_, fun r => ?_⟩
    · have hsame : g' = { g with provenBound := ubound } := by
        split_ifs at hg' <;> exact (Option.some.inj hg').symm
      rw [hsame]
      exact hle
    · split_ifs with hwide
      · by_cases hr : r = g.reg
        · subst hr
          refine Or.inr ⟨ubound, by simp [AbsState.applyGuardBound], fun hvalue => ?_⟩
          rwa [lowBits_eq_of_valueBound hvalue hwide] at hle
        · exact Or.inl (by simp [AbsState.applyGuardBound, hr])
      · exact Or.inl rfl

/-- An edge that records nothing but the truth. -/
theorem NumInv.of_recordsTrue {edge : BranchEdge}
    (htrue : RecordsTrue s (UnwindCheck.transferEdge insn edge s) c) :
    NumInv (UnwindCheck.transferEdge insn edge s) c := by
  refine ⟨⟨fun r => ?_, fun g hg hp => ?_⟩, h.flags.transferEdge edge⟩
  · rcases htrue.promoted r with heq | ⟨b, heq, hb⟩
    · rw [heq]
      exact h.value r
    · rw [heq]
      exact le_min (h.value r) (hb (h.value r))
  · rcases htrue.guard g hg hp with hg | hle
    · exact h.proven g hg hp
    · exact hle

theorem NumInv.transferEdge {edge : BranchEdge} (ht : edge.TakenBy insn.id c.flags) :
    NumInv (transferEdge insn edge s) c := h.of_recordsTrue (h.flags.recordsTrue ht)

omit h in
/-- A guard survives a join only where both sides have it. -/
theorem join_lastCmp {s t : AbsState δ} {g : FlagsGuard} (hg : (join s t).state.lastCmp = some g) :
    s.lastCmp = some g ∧ t.lastCmp = some g := by
  simp only [join] at hg
  split_ifs at hg with hlost
  simp only [hg, Option.isSome_some, true_and, not_not] at hlost
  exact ⟨hlost.symm, hg⟩

theorem NumInv.join_right (t : AbsState δ) : NumInv (join t s).state c :=
  ⟨⟨fun r => (h.value r).trans (le_max_left _ _), fun g hg => h.proven g (join_lastCmp hg).2⟩,
    fun g hg => h.flags g (join_lastCmp hg).2⟩

theorem NumInv.join_left (t : AbsState δ) : NumInv (join s t).state c :=
  ⟨⟨fun r => (h.value r).trans (le_max_right _ _), fun g hg => h.proven g (join_lastCmp hg).1⟩,
    fun g hg => h.flags g (join_lastCmp hg).1⟩

end Steps

/-- A conditional jump: it writes neither registers nor flags. -/
structure Instruction.Jcc (insn : Instruction) : Prop where
  category : insn.insn.category = .condBr
  isReturn : isReturnMnemonic insn.id = false
  writes : ∀ r, ¬ insn.Marks r

/-- What the processor does in the straight-line instructions that bounds are followed through. -/
inductive NumStep (z : Zydis) (s : AbsState δ) (insn : Instruction) (c : Cpu) : Cpu → Prop
  | cmp {r : ZydisRegister} {d : Fin 16} {imm : Word} : insn.Compares r imm → r.dwarfRegOf = some d →
      r.isLow = true → NumStep z s insn c
        ⟨c.regs, cmpFlags r.widthBits (r.value (c.regs d)) (imm.toNat % 2 ^ r.widthBits)⟩
  | move {r : ZydisRegister} {d : Fin 16} {src : Operand} {v : ℕ} : insn.Move r src →
      r.dwarfRegOf = some d → src.ReadsLow → src.Supplies c.regs v → NumStep z s insn c
        ⟨Function.update c.regs d (r.put (c.regs d) (insn.moved src.size v)), c.flags⟩
  | generic {regs : Fin 16 → Word} {flags : CpuFlags} : insn.Generic z s →
      RunsOperands insn.insn.operands c.regs regs →
      (∀ op ∈ insn.insn.operands, op.writes = true → op.write = true) →
      (flags = c.flags ∨ writesEflags insn = true) → NumStep z s insn c ⟨regs, flags⟩

/-- The runs of these instructions, of conditional jumps along the edge that is taken, and of joins
with what other runs bring along: a state and the processor it speaks about. -/
inductive BoundRun (z : Zydis) : AbsState δ → Cpu → Prop
  | start {s : AbsState δ} {c : Cpu} : s.lastCmp = none →
      (∀ r, (c.regs r).toNat ≤ (s.tbl r).valueBound) → BoundRun z s c
  | step {s : AbsState δ} {c c' : Cpu} {insn : Instruction} : BoundRun z s c →
      NumStep z s insn c c' → BoundRun z (transfer z insn s).2 c'
  | branch {s : AbsState δ} {c : Cpu} {insn : Instruction} {edge : BranchEdge} : BoundRun z s c →
      insn.Jcc → edge.TakenBy insn.id c.flags →
      BoundRun z (transferEdge insn edge (transfer z insn s).2) c
  | join_left {s t : AbsState δ} {c : Cpu} : BoundRun z s c → BoundRun z (join s t).state c
  | join_right {s t : AbsState δ} {c : Cpu} : BoundRun z s c → BoundRun z (join t s).state c

theorem Instruction.Jcc.transfer_eq {z : Zydis} {insn : Instruction} (h : insn.Jcc) (s : AbsState δ) :
    (transfer z insn s).2 = dropStaleCmp insn s := by
  have hbr : insn.isBranch = true := by simp [Instruction.isBranch, h.category]
  rw [transfer_of_branch h.isReturn hbr]

theorem NumInv.numStep {z : Zydis} {s : AbsState δ} {c c' : Cpu} {insn : Instruction}
    (h : NumInv s c) (hstep : NumStep z s insn c c') : NumInv (transfer z insn s).2 c' := by
  cases hstep with
  | cmp hcmp hr hlow => exact h.cmp hcmp hr hlow
  | move hm hr hlow hv => exact h.move hm hr hlow hv
  | generic hgen hrun huncond hflags => exact h.generic hgen hrun huncond hflags

theorem BoundRun.inv {z : Zydis} {s : AbsState δ} {c : Cpu} (h : BoundRun z s c) : NumInv s c := by
  induction h with
  | start hcmp hvalue =>
    refine ⟨⟨hvalue, fun g hg => ?_⟩, fun g hg => ?_⟩
    · rw [hcmp] at hg
      cases hg
    · rw [hcmp] at hg
      cases hg
  | step _ hstep ih => exact ih.numStep hstep
  | branch _ hjcc ht ih =>
    rw [hjcc.transfer_eq]
    exact (ih.dropStaleCmp _).transferEdge ht
  | join_left _ ih => exact ih.join_left _
  | join_right _ ih => exact ih.join_right _

/-- At every point of every run each register is at most its value bound, and the low bits named by
a proven guard are at most its bound. -/
theorem boundRun_boundsHold {z : Zydis} {s : AbsState δ} {c : Cpu} (h : BoundRun z s c) :
    BoundsHold s c := h.inv.toBoundsHold

namespace Sample

/-- cmp $14,%edi -/
def cmpInsn : DecodedInsn where
  length := 3
  mnemonic := .cmp
  operandCountVisible := 2
  operands := [⟨.register (.gpr32 .rdi), 32, false, false⟩, ⟨.immediate 14, 8, false, false⟩]
  category := .other
  hasSegment := false
  operandWidth := 32
  cpuFlags := some ⟨0x8d5, 0, 0, 0⟩

/-- ja over the dispatch -/
def jaInsn : DecodedInsn where
  length := 2
  mnemonic := .jnbe
  operandCountVisible := 1
  operands := [⟨.immediate 16, 8, false, false⟩, ⟨.register .rip, 64, false, true⟩]
  category := .condBr
  hasSegment := false
  operandWidth := 64
  cpuFlags := some ⟨0, 0, 0, 0⟩

/-- mov %edi,%eax -/
def narrowMovInsn : DecodedInsn where
  length := 2
  mnemonic := .mov
  operandCountVisible := 2
  operands := [⟨.register (.gpr32 .rax), 32, true, false⟩, ⟨.register (.gpr32 .rdi), 32, false, false⟩]
  category := .other
  hasSegment := false
  operandWidth := 32
  cpuFlags := some ⟨0, 0, 0, 0⟩

theorem compares_cmpInsn : Instruction.Compares ⟨0x1000, cmpInsn⟩ (.gpr32 .rdi) 14 :=
  ⟨rfl, rfl, _, _, rfl, rfl, rfl, rfl⟩

theorem jcc_jaInsn : Instruction.Jcc ⟨0x1003, jaInsn⟩ := by
  refine ⟨rfl, rfl, fun r hmarks => ?_⟩
  obtain ⟨op, hin, hwrites⟩ := hmarks
  simp only [jaInsn, List.mem_cons, List.not_mem_nil, or_false] at hin
  rcases hin with rfl | rfl
  · cases hwrites
  · cases hwrites

theorem move_narrowMovInsn : Instruction.Move ⟨0x1005, narrowMovInsn⟩ (.gpr32 .rax)
    ⟨.register (.gpr32 .rdi), 32, false, false⟩ where
  mnemonic := by decide
  ops := ⟨_, rfl, rfl⟩
  isBranch := rfl
  writes := by
    refine ⟨_, _, rfl, rfl, rfl, fun op hin hwrites => ?_⟩
    obtain rfl := List.mem_singleton.mp hin
    cases hwrites

/-- The state behind the guard of a switch, its index moved to rax. -/
def guarded : AbsState Int64 :=
  (transfer (Zydis.ofTable []) ⟨0x1005, narrowMovInsn⟩
    (transferEdge ⟨0x1003, jaInsn⟩ .fallThrough
      (transfer (Zydis.ofTable []) ⟨0x1003, jaInsn⟩
        (transfer (Zydis.ofTable []) ⟨0x1000, cmpInsn⟩ AbsState.entry).2).2)).2

end Sample

/-- rdi holds 2^32 + 7 on the way, so only its low half is in range. -/
theorem guarded_boundsHold :
    (Sample.guarded.tbl 0).valueBound = 14 ∧
      BoundsHold Sample.guarded
        ⟨Function.update (fun _ => 0x100000007#64) 0 7#64, cmpFlags 32 7 14⟩ := by
  refine ⟨rfl, boundRun_boundsHold (z := Zydis.ofTable []) ?_⟩
  have hstart : BoundRun (Zydis.ofTable []) (AbsState.entry : AbsState Int64)
      ⟨fun _ => 0x100000007#64, cmpFlags 32 0 0⟩ := .start rfl fun _ => toNat_le_kBoundTop _
  have hcmp := hstart.step (.cmp Sample.compares_cmpInsn (d := 5) rfl rfl)
  have htaken : BranchEdge.fallThrough.TakenBy .jnbe (cmpFlags 32 7 14) := by
    intro jump hjump
    cases hjump
    rfl
  have hja := hcmp.branch Sample.jcc_jaInsn htaken
  have hlow : Operand.ReadsLow ⟨.register (.gpr32 .rdi), 32, false, false⟩ := by
    rintro q hq -
    cases hq
    exact ⟨rfl, rfl⟩
  exact hja.step (.move (d := 0) (v := 7) Sample.move_narrowMovInsn rfl hlow rfl)

end UnwindCheck
