import UnwindCheck.Checker.Blessed

/-! The coverage scan: what its silence says about every byte of the FDE. -/
namespace UnwindCheck
variable {δ : Type} [Offset δ]

/-- The `size` bytes from `start` on, which do not wrap around, hold the address. -/
def Spans (start : Word) (size : ℕ) (a : Word) : Prop :=
  start.toNat ≤ a.toNat ∧ a.toNat < start.toNat + size

instance (start : Word) (size : ℕ) (a : Word) : Decidable (Spans start size a) :=
  inferInstanceAs (Decidable (_ ∧ _))

/-- The address lies inside an instruction of the FDE that decodes as padding. -/
def Env.PaddingAt (env : Env δ) (a : Word) : Prop :=
  ∃ q insn, env.cfi.Covers q ∧ env.decodeAt q = some insn ∧ (insn.id = .nop ∨ insn.id = .int3) ∧
    Spans q insn.size a

/-- The address lies inside an instruction whose size pass one recorded. -/
def Env.SizedAt (env : Env δ) (w : Walk δ) (a : Word) : Prop :=
  ∃ p insn, (∃ size : ℕ, w.insnSizes[p]? = some size) ∧ env.cfi.Covers p ∧
    env.decodeAt p = some insn ∧ Spans p insn.size a

/-- What the scan passes over in one step: an instruction the walk reached, or a gap. -/
inductive Stretch where
  | reached (start stop : Word)
  | gap (start stop : Word) (allPadding : Bool)
  deriving DecidableEq

namespace Stretch

def start : Stretch → Word
  | reached start _ | gap start _ _ => start

def stop : Stretch → Word
  | reached _ stop | gap _ stop _ => stop

def Holds (s : Stretch) (a : Word) : Prop :=
  s.start ≤ a ∧ a < s.stop

instance (s : Stretch) (a : Word) : Decidable (s.Holds a) :=
  inferInstanceAs (Decidable (_ ∧ _))

/-- Gaps are reported unless they are padding throughout. -/
def report : Stretch → Option Report
  | gap start stop false => some (Env.gapReport start stop)
  | _ => none

end Stretch

namespace Env

/-- The path of `scanGaps`. -/
def stretches (env : Env δ) (w : Walk δ) : (fuel : ℕ) → (pc : Word) → List Stretch
  | 0, _ => []
  | fuel + 1, pc =>
    if pc < env.cfi.pcEnd then
      match w.insnSizes[pc]? with
      | some size => .reached pc (pc + BitVec.ofNat 64 size) ::
          env.stretches w fuel (pc + BitVec.ofNat 64 size)
      | none =>
        let gap := env.gapEnd w (env.cfi.pcEnd - pc).toNat pc true
        .gap pc gap.1 gap.2 :: env.stretches w fuel gap.1
    else []

/-- The scan finds the address in an instruction that was reached, or in a gap of mere padding. -/
def Accounted (env : Env δ) (w : Walk δ) (a : Word) : Prop :=
  ∃ s ∈ env.stretches w (env.cfi.pcEnd - env.cfi.pcBegin).toNat env.cfi.pcBegin,
    s.report = none ∧ s.Holds a

instance (env : Env δ) (w : Walk δ) (a : Word) : Decidable (env.Accounted w a) :=
  inferInstanceAs (Decidable (∃ s ∈ _, _ ∧ _))

variable {env : Env δ} {w : Walk δ}

theorem scanGaps_eq (fuel : ℕ) (pc : Word) :
    env.scanGaps w fuel pc = (env.stretches w fuel pc).filterMap Stretch.report := by
  induction fuel generalizing pc with
  | zero => rfl
  | succ fuel ih =>
    unfold scanGaps stretches
    split_ifs with hlt
    · cases hs : w.insnSizes[pc]? with
      | some size => exact ih _
      | none =>
        dsimp only
        rw [ih]
        cases hgap : (env.gapEnd w (env.cfi.pcEnd - pc).toNat pc true).2 <;> rfl
    · rfl

omit [Offset δ] in
/-- A stride moves past one instruction or one byte, inside the FDE. -/
theorem gapStride_moves {pc : Word} (hc : env.cfi.Covers pc) :
    pc.toNat < (env.gapStride pc).1.toNat ∧ (env.gapStride pc).1.toNat ≤ env.cfi.pcEnd.toNat := by
  have hlt := BitVec.lt_def.mp hc.2
  have hend := env.cfi.pcEnd.isLt
  unfold gapStride
  cases hd : env.decodeAt pc with
  | none =>
    have hone : (pc + 1).toNat = pc.toNat + 1 := by
      rw [BitVec.toNat_add]
      exact Nat.mod_eq_of_lt (by simp only [BitVec.ofNat_eq_ofNat, BitVec.toNat_ofNat]; omega)
    simp only [hone]
    constructor
    · omega
    · omega
  | some insn =>
    obtain ⟨hnext, hin⟩ := next_toNat hd hc
    have hpos := one_le_size hd
    simp only [hnext]
    constructor
    · omega
    · exact hin

omit [Offset δ] in
/-- Where a stride met only padding, it moved past one padding instruction. -/
theorem gapStride_padding {pc : Word} (hc : env.cfi.Covers pc) (h : (env.gapStride pc).2 = true)
    {a : Word} (hlo : pc.toNat ≤ a.toNat) (hhi : a.toNat < (env.gapStride pc).1.toNat) :
    env.PaddingAt a := by
  unfold gapStride at h hhi
  cases hd : env.decodeAt pc with
  | none => simp [hd] at h
  | some insn =>
    simp only [hd, Bool.or_eq_true, decide_eq_true_eq] at h hhi
    have hnext := (next_toNat hd hc).1
    exact ⟨pc, insn, hc, hd, h, hlo, by omega⟩

/-- Once something else than padding was met, that stays. -/
theorem gapEnd_false (fuel : ℕ) (pc : Word) : (env.gapEnd w fuel pc false).2 = false := by
  induction fuel generalizing pc with
  | zero => rfl
  | succ fuel ih =>
    unfold gapEnd
    split
    · exact ih _
    · rfl

/-- A gap ends inside the FDE, and is not empty. -/
theorem gapEnd_moves (w : Walk δ) (fuel : ℕ) {pc : Word} (allPadding : Bool)
    (hlo : env.cfi.pcBegin ≤ pc) (hhi : pc ≤ env.cfi.pcEnd) :
    pc.toNat ≤ (env.gapEnd w fuel pc allPadding).1.toNat ∧
      (env.gapEnd w fuel pc allPadding).1.toNat ≤ env.cfi.pcEnd.toNat ∧
      (0 < fuel → pc < env.cfi.pcEnd → w.insnSizes[pc]? = none →
        pc.toNat < (env.gapEnd w fuel pc allPadding).1.toNat) := by
  rw [BitVec.le_def] at hhi
  induction fuel generalizing pc allPadding with
  | zero => exact ⟨le_refl _, hhi, fun hf => absurd hf (lt_irrefl 0)⟩
  | succ fuel ih =>
    unfold gapEnd
    split_ifs with hcond
    · obtain ⟨hmove, hin⟩ := gapStride_moves ⟨hlo, hcond.1⟩
      have hlo' : env.cfi.pcBegin ≤ (env.gapStride pc).1 := by
        rw [BitVec.le_def] at hlo ⊢
        omega
      obtain ⟨hle, hend, -⟩ := ih (allPadding && (env.gapStride pc).2) hlo' hin
      exact ⟨by omega, hend, fun _ _ _ => by omega⟩
    · exact ⟨le_refl _, hhi, fun _ hlt hnone => absurd ⟨hlt, hnone⟩ hcond⟩

/-- A gap that turned out to be all padding is padding byte by byte. -/
theorem gapEnd_padding {fuel : ℕ} {pc : Word} {allPadding : Bool} (hlo : env.cfi.pcBegin ≤ pc)
    (h : (env.gapEnd w fuel pc allPadding).2 = true) {a : Word} (hpa : pc.toNat ≤ a.toNat)
    (ha : a.toNat < (env.gapEnd w fuel pc allPadding).1.toNat) : env.PaddingAt a := by
  induction fuel generalizing pc allPadding with
  | zero => exact absurd hpa (Nat.not_le_of_lt ha)
  | succ fuel ih =>
    unfold gapEnd at h ha
    split_ifs at h ha with hcond
    · have hboth : allPadding = true ∧ (env.gapStride pc).2 = true := by
        by_contra hno
        have hfalse : (allPadding && (env.gapStride pc).2) = false := by
          rw [Bool.eq_false_iff, Ne, Bool.and_eq_true]
          exact hno
        rw [hfalse, gapEnd_false] at h
        cases h
      have hc : env.cfi.Covers pc := ⟨hlo, hcond.1⟩
      by_cases hin : a.toNat < (env.gapStride pc).1.toNat
      · exact gapStride_padding hc hboth.2 hpa hin
      · have hmove := (gapStride_moves hc).1
        have hlo' : env.cfi.pcBegin ≤ (env.gapStride pc).1 := by
          rw [BitVec.le_def] at hlo ⊢
          omega
        exact ih hlo' h (by omega) ha
    · exact absurd hpa (Nat.not_le_of_lt ha)

/-- A recorded size is that of the instruction there. -/
theorem sizedAt_of_size (hw : w.Inv env none) {pc : Word} {size : ℕ}
    (h : w.insnSizes[pc]? = some size) :
    0 < size ∧ pc.toNat + size ≤ env.cfi.pcEnd.toNat ∧
      ∀ a, Spans pc size a → env.SizedAt w a := by
  obtain ⟨⟨st, hst⟩, insn, hd, rfl⟩ := hw.sized pc size h
  have hc := hw.covered pc st hst
  exact ⟨one_le_size hd, (next_toNat hd hc).2, fun a ha => ⟨pc, insn, ⟨_, h⟩, hc, hd, ha⟩⟩

/-- What a stretch without a report holds. -/
def Stretch.Sound (env : Env δ) (w : Walk δ) (s : Stretch) : Prop :=
  s.report = none → ∀ a, s.Holds a → env.SizedAt w a ∨ env.PaddingAt a

/-- The scan passes over every address, and what it does not report it knows. -/
theorem exists_stretch (hw : w.Inv env none) {fuel : ℕ} {pc : Word} (hlo : env.cfi.pcBegin ≤ pc)
    (hfuel : env.cfi.pcEnd.toNat - pc.toNat ≤ fuel) {a : Word} (hpa : pc.toNat ≤ a.toNat)
    (ha : a < env.cfi.pcEnd) :
    ∃ s ∈ env.stretches w fuel pc, s.Holds a ∧ Stretch.Sound env w s := by
  have ha' := BitVec.lt_def.mp ha
  induction fuel generalizing pc with
  | zero => omega
  | succ fuel ih =>
    have hlo' := BitVec.le_def.mp hlo
    unfold stretches
    have hlt : pc < env.cfi.pcEnd := by
      rw [BitVec.lt_def]
      omega
    rw [if_pos hlt]
    cases hs : w.insnSizes[pc]? with
    | some size =>
      dsimp only
      obtain ⟨hpos, hend, hspan⟩ := sizedAt_of_size hw hs
      have hnext : (pc + BitVec.ofNat 64 size).toNat = pc.toNat + size := by
        have := env.cfi.pcEnd.isLt
        rw [BitVec.toNat_add, BitVec.toNat_ofNat]
        omega
      by_cases hin : a.toNat < pc.toNat + size
      · refine ⟨_, List.mem_cons_self, ⟨BitVec.le_def.mpr hpa, ?_⟩, ?_⟩
        · rw [BitVec.lt_def]
          exact hnext ▸ hin
        · intro _ b hb
          have hhi := BitVec.lt_def.mp hb.2
          exact Or.inl (hspan b ⟨BitVec.le_def.mp hb.1, hnext ▸ hhi⟩)
      · have hnlo : env.cfi.pcBegin ≤ pc + BitVec.ofNat 64 size := by
          rw [BitVec.le_def]
          omega
        obtain ⟨s, hmem, hs⟩ := ih hnlo (by omega) (by omega)
        exact ⟨s, List.mem_cons_of_mem _ hmem, hs⟩
    | none =>
      dsimp only
      have hfuel' : 0 < (env.cfi.pcEnd - pc).toNat := by
        rw [BitVec.toNat_sub_of_le (BitVec.le_of_lt hlt)]
        omega
      obtain ⟨-, hend, hmove⟩ := gapEnd_moves w (env.cfi.pcEnd - pc).toNat true hlo
        (BitVec.le_of_lt hlt)
      have hmoved := hmove hfuel' hlt hs
      by_cases hin : a.toNat < (env.gapEnd w (env.cfi.pcEnd - pc).toNat pc true).1.toNat
      · refine ⟨_, List.mem_cons_self, ⟨BitVec.le_def.mpr hpa, BitVec.lt_def.mpr hin⟩, ?_⟩
        intro hquiet b hb
        have hpad : (env.gapEnd w (env.cfi.pcEnd - pc).toNat pc true).2 = true := by
          by_contra hno
          rw [Bool.not_eq_true] at hno
          rw [hno] at hquiet
          cases hquiet
        exact Or.inr (gapEnd_padding hlo hpad (BitVec.le_def.mp hb.1) (BitVec.lt_def.mp hb.2))
      · have hnlo : env.cfi.pcBegin ≤ (env.gapEnd w (env.cfi.pcEnd - pc).toNat pc true).1 := by
          rw [BitVec.le_def]
          omega
        obtain ⟨s, hmem, hs⟩ := ih hnlo (by omega) (by omega)
        exact ⟨s, List.mem_cons_of_mem _ hmem, hs⟩

/-- A silent scan reports none of the stretches it passes over. -/
theorem Silent.stretch {row : CFIRow δ} (h : Silent env row)
    (hon : env.options.reportCoverageGaps = true) {a : Word} (ha : env.cfi.Covers a) :
    ∃ s ∈ env.stretches (env.settle row) (env.cfi.pcEnd - env.cfi.pcBegin).toNat env.cfi.pcBegin,
      s.report = none ∧ s.Holds a ∧ Stretch.Sound env (env.settle row) s := by
  have hgaps := h.gaps
  rw [reportCoverageGaps, if_pos hon, scanGaps_eq] at hgaps
  have hc : env.cfi.Covers env.cfi.pcBegin := ⟨BitVec.le_refl _, ha.nonempty⟩
  have hfuel : env.cfi.pcEnd.toNat - env.cfi.pcBegin.toNat ≤
      (env.cfi.pcEnd - env.cfi.pcBegin).toNat := by
    rw [BitVec.toNat_sub_of_le (BitVec.le_of_lt ha.nonempty)]
  obtain ⟨s, hs, hholds, hsound⟩ := exists_stretch (inv_settle row hc) (BitVec.le_refl _) hfuel
    (BitVec.le_def.mp ha.1) ha.2
  exact ⟨s, hs, List.filterMap_eq_nil_iff.mp hgaps s hs, hholds, hsound⟩

theorem Silent.accounted {row : CFIRow δ} (h : Silent env row)
    (hon : env.options.reportCoverageGaps = true) {a : Word} (ha : env.cfi.Covers a) :
    env.Accounted (env.settle row) a := by
  obtain ⟨s, hs, hquiet, hholds, -⟩ := h.stretch hon ha
  exact ⟨s, hs, hquiet, hholds⟩

theorem Silent.covers {row : CFIRow δ} (h : Silent env row)
    (hon : env.options.reportCoverageGaps = true) {a : Word} (ha : env.cfi.Covers a) :
    env.SizedAt (env.settle row) a ∨ env.PaddingAt a := by
  obtain ⟨s, -, hquiet, hholds, hsound⟩ := h.stretch hon ha
  exact hsound hquiet a hholds

end Env

/-- Every byte of a blessed FDE lies in an instruction that was reached, decoded and compared
with its row in its settled state, or in padding. -/
theorem blessed_accounts_for_every_byte {options : FDECheckerOptions δ} {cfi : CFI δ}
    {atFunctionEntry guessing : Bool} (hon : options.reportCoverageGaps = true)
    (hra : cfi.raUndefined = false)
    (hb : (check options cfi atFunctionEntry guessing).verdict = .blessed) {a : Word}
    (ha : cfi.Covers a) :
    (∃ p st insn row, (Env.of options cfi guessing).Compared
        (settledWalk options cfi guessing) p st insn row ∧ Spans p insn.size a) ∨
      (Env.of options cfi guessing).PaddingAt a := by
  obtain ⟨row, -, hs, hw⟩ := silent_of_blessed hra hb
  rw [hw]
  rcases hs.covers hon ha with ⟨p, insn, ⟨size, hsize⟩, hp, hd, hspan⟩ | hpad
  · left
    have hc : cfi.Covers cfi.pcBegin := ⟨BitVec.le_refl _, ha.nonempty⟩
    have hinv : ((Env.of options cfi guessing).settle row).Inv (Env.of options cfi guessing) none :=
      Env.inv_settle row hc
    obtain ⟨⟨st, hst⟩, -⟩ := hinv.sized p size hsize
    obtain ⟨insn', r, hcomp, -⟩ := hs.compared hst
    have he : insn' = insn := by
      have := hcomp.decoded
      rw [hd, Option.some.injEq] at this
      exact this.symm
    subst he
    exact ⟨p, st, insn', r, hcomp, hspan⟩
  · exact Or.inr hpad

namespace Sample

/-- An instruction whose operands are all visible and that leaves the flags alone. -/
def insn (length : ℕ) (mnemonic : ZydisMnemonic) (category : ZydisCategory)
    (operands : List Operand) : DecodedInsn :=
  ⟨length, mnemonic, operands.length, operands, category, false, 64, some ⟨0, 0, 0, 0⟩⟩

/-- `push %rax` -/
def push : DecodedInsn := insn 1 .push .other [⟨.register (.gpr64 .rax), 64, false, false⟩]

def ret : DecodedInsn := insn 1 .ret .other []

/-- `je` over `disp` bytes. -/
def je (disp : Word) : DecodedInsn := insn 2 (.other 0) .condBr [⟨.immediate disp, 8, false, false⟩]

/-- `xor %ebx,%ebx` -/
def clear : DecodedInsn :=
  insn 2 (.other 1) .other
    [⟨.register (.gpr32 .rbx), 32, true, false⟩, ⟨.register (.gpr32 .rbx), 32, false, false⟩]

def encodings : List (List Byte × DecodedInsn) :=
  [([0x90], insn 1 .nop .other []), ([0xc3], ret), ([0xcc], insn 1 .int3 .other []), ([0x50], push),
    ([0x74, 0x01], je 1), ([0x74, 0x02], je 2), ([0x31, 0xdb], clear)]

def decoder : Zydis := .ofTable encodings

/-- CFA = rsp + `offset`, the return address below it. -/
def row (pcStart : Word) (offset : Int64) : CFIRow Int64 :=
  ⟨pcStart, .regOffset 7 offset, fun r => if r = 16 then .atCFAOffset (-8) else .unset⟩

/-- An FDE at 0x1000 with these rows. -/
def cfi (size : Word) (rows : List (CFIRow Int64)) : CFI Int64 :=
  ⟨0x2018, 0x1000, 0x1000 + size, 16, false, 0, false, rows⟩

def options (code : List Byte) (cfi : CFI Int64) : FDECheckerOptions Int64 where
  image := .ofCode 0x1000 code
  disasm := decoder
  allCfis := [((cfi.pcBegin, cfi.pcEnd), cfi)]

/-- `nop; ret` and a byte of padding. -/
def leaf : CFI Int64 := cfi 3 [row 0x1000 8]

def leafOptions : FDECheckerOptions Int64 := options [0x90, 0xc3, 0xcc] leaf

end Sample

theorem leaf_accounts_for_every_byte :
    (check Sample.leafOptions Sample.leaf true false).verdict = .blessed ∧
      ((∃ p st insn row, (Env.of Sample.leafOptions Sample.leaf false).Compared
          (settledWalk Sample.leafOptions Sample.leaf false) p st insn row ∧
          Spans p insn.size 0x1002) ∨
        (Env.of Sample.leafOptions Sample.leaf false).PaddingAt 0x1002) := by
  have hb : (check Sample.leafOptions Sample.leaf true false).verdict = .blessed := by
    decide +kernel
  exact ⟨hb, blessed_accounts_for_every_byte rfl (by decide +kernel) hb (by decide +kernel)⟩

end UnwindCheck
