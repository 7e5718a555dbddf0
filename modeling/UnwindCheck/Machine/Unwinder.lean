import UnwindCheck.Checker.Row

/-! What the abstract values mean, and what an unwinder does with a row: silence of the row check
means that the two agree. -/
namespace UnwindCheck

/-- The activation an abstract state talks about: its CFA, and what each DWARF register held on
entry, number 16 being the return address. -/
structure Frame where
  cfa : Word
  entry : ℕ → Word

/-- A fact about one word. The kinds that give a declared rule nothing to go by say nothing. -/
def Frame.Holds (f : Frame) (v : AbsVal Int64) (w : Word) : Prop :=
  match v with
  | .cfaRel d => w = f.cfa + d.toBitVec
  | .origReg q => w = f.entry q
  | .top | .bottom | .other => True

instance (f : Frame) (v : AbsVal Int64) (w : Word) : Decidable (f.Holds v w) :=
  match v with
  | .cfaRel _ | .origReg _ => inferInstanceAs (Decidable (w = _))
  | .top | .bottom | .other => inferInstanceAs (Decidable True)

/-- The contents of the registers and of the 8-byte words on the stack bear the state out.
`word` is what an 8-byte load at each address yields. -/
structure Frame.Describes (f : Frame) (s : AbsState Int64) (regs : Fin 16 → Word)
    (word : Word → Word) : Prop where
  gpr : ∀ r, f.Holds (s.gpr r) (regs r)
  slot : ∀ k : Int64, f.Holds (s.slot k) (word (f.cfa + k.toBitVec))

/-- A register operand of a rule; an unwinder has no value for numbers that are no GPR. -/
def regValue (regs : Fin 16 → Word) (q : ℕ) : Option Word :=
  if h : q < 16 then some (regs ⟨q, h⟩) else none

/-- The CFA an unwinder computes from a rule. -/
def evalCFA (cfa : CFARule Int64) (regs : Fin 16 → Word) : Option Word :=
  match cfa.kind with
  | .regOffset => (regValue regs cfa.reg).map (· + cfa.offset.toBitVec)
  | _ => none

/-- The caller value of `r` an unwinder recovers once it has a CFA. -/
def recover (rule : RegRule Int64) (r : Fin 17) (cfa : Word) (regs : Fin 16 → Word)
    (word : Word → Word) : Option Word :=
  match rule with
  | .atCFAOffset offset => some (word (cfa + offset.toBitVec))
  | .valOffset offset => some (cfa + offset.toBitVec)
  | .sameValue => regValue regs r
  | .inRegister q => regValue regs q
  | .unset | .undefined | .expression | .valExpression => none

section
variable {f : Frame} {s : AbsState Int64} {regs : Fin 16 → Word} {word : Word → Word}

/-- A register that reads as something known has a number an unwinder can read too. -/
theorem Frame.Describes.regValue (h : f.Describes s regs word) {q : ℕ}
    (hq : s.reg q ≠ .bottom) : ∃ w, UnwindCheck.regValue regs q = some w ∧ f.Holds (s.reg q) w := by
  by_cases hlt : q < 16
  · refine ⟨regs ⟨q, hlt⟩, by simp [UnwindCheck.regValue, hlt], ?_⟩
    rw [s.reg_of_lt hlt]
    exact h.gpr ⟨q, hlt⟩
  · exact absurd (s.reg_of_ge (by omega)) hq

/-- Off the CFA by `delta`, and the rule adds `offset`. -/
theorem Frame.Describes.evalCFA (h : f.Describes s regs word) {cfa : CFARule Int64}
    (hk : cfa.kind = .regOffset) {delta : Int64} (hd : s.reg cfa.reg = .cfaRel delta) :
    UnwindCheck.evalCFA cfa regs = some (f.cfa + (delta + cfa.offset).toBitVec) := by
  obtain ⟨w, hw, hholds⟩ := h.regValue (q := cfa.reg) (by simp [hd])
  rw [hd] at hholds
  simp only [UnwindCheck.evalCFA, hk, hw, Option.map_some, Int64.toBitVec_add]
  rw [show w = f.cfa + delta.toBitVec from hholds, BitVec.add_assoc]

/-- What a silent comparison with an entry value found. -/
theorem compareValue_origReg {rc : RowChecker} {v : AbsVal Int64} {r : ℕ} {unknown wrong : String}
    (h : rc.compareValue v (.origReg r) unknown wrong = []) {w : Word} (hw : f.Holds v w) :
    w = f.entry r := by
  obtain ⟨-, rfl⟩ := rc.compareValue_eq_nil.mp h
  exact hw

/-- A register silently compared with an entry value is one an unwinder can read that value from. -/
theorem Frame.Describes.regValue_entry (h : f.Describes s regs word) {rc : RowChecker} {q r : ℕ}
    {unknown wrong : String} (hs : rc.compareValue (s.reg q) (.origReg r) unknown wrong = []) :
    UnwindCheck.regValue regs q = some (f.entry r) := by
  have hne : s.reg q ≠ .bottom := by
    rw [(rc.compareValue_eq_nil.mp hs).2]
    simp
  obtain ⟨w, hw, hholds⟩ := h.regValue hne
  rw [hw, compareValue_origReg hs hholds]

end

theorem ofInt_zero_iff (d : Int64) : d = Offset.ofInt 0 ↔ d.toBitVec = 0 := by
  rw [← Int64.toBitVec_inj]
  rfl

/-- Silence of the row check means the unwinder is right; a CFA mismatch means it is wrong. -/
theorem unwinder_agrees {rc : RowChecker} {row : CFIRow Int64} {s : AbsState Int64} {f : Frame}
    {regs : Fin 16 → Word} {word : Word → Word} (h : f.Describes s regs word) :
    (rc.check row s = [] → evalCFA row.cfa regs = some f.cfa ∧
      ∀ r, ((∃ offset, row.regs r = .atCFAOffset offset) ∨ row.regs r = .sameValue ∨
          ∃ q, row.regs r = .inRegister q) →
        recover (row.regs r) r f.cfa regs word = some (f.entry r)) ∧
      ((∃ report ∈ rc.checkCFA row.cfa s, report.severity = .mismatch) →
        ∃ w, evalCFA row.cfa regs = some w ∧ w ≠ f.cfa) := by
  constructor
  · intro hsilent
    obtain ⟨hcfa, hregs⟩ := rc.check_eq_nil.mp hsilent
    obtain ⟨hk, delta, hd, hz⟩ := rc.checkCFA_eq_nil.mp hcfa
    constructor
    · rw [h.evalCFA hk hd, (ofInt_zero_iff _).mp hz]
      simp
    · rintro r (⟨offset, hr⟩ | hr | ⟨q, hr⟩)
      · have hs := hregs r
        rw [hr] at hs ⊢
        rw [recover, compareValue_origReg hs (h.slot offset)]
      · have hs := hregs r
        rw [hr] at hs ⊢
        exact h.regValue_entry hs
      · have hs := hregs r
        rw [hr] at hs ⊢
        exact h.regValue_entry hs
  · rintro ⟨report, hmem, hsev⟩
    obtain ⟨hk, delta, hd, hz⟩ := rc.checkCFA_mismatch hmem hsev
    refine ⟨_, h.evalCFA hk hd, fun he => hz ?_⟩
    rw [ofInt_zero_iff]
    simpa using he

namespace Sample

/-- Just after a `call`: rsp 8 below the CFA and pointing at the return address. -/
def called : AbsState Int64 :=
  (AbsState.init.putGpr kDWARFRsp (.cfaRel (-8))).setSlot (-8) (.origReg kDWARFRip)

def calledRow : CFIRow Int64 :=
  ⟨0x401000, .regOffset 7 8, fun r => if r = 16 then .atCFAOffset (-8) else .unset⟩

def calledFrame : Frame := ⟨0x7010, fun _ => 0x401234⟩

theorem calledFrame_describes :
    calledFrame.Describes called (fun r => if r = 7 then 0x7008 else 0) (fun _ => 0x401234) where
  gpr := by decide +kernel
  slot k := by
    rw [called, AbsState.slot_setSlot]
    split_ifs
    · rfl
    · trivial

end Sample

theorem unwinder_agrees_after_call :
    evalCFA Sample.calledRow.cfa (fun r => if r = 7 then 0x7008 else 0) = some 0x7010 ∧
      recover (Sample.calledRow.regs 16) 16 0x7010 (fun r => if r = 7 then 0x7008 else 0)
        (fun _ => 0x401234) = some 0x401234 := by
  have hsilent : (RowChecker.mk 0x401000 "" false).check Sample.calledRow Sample.called = [] := by
    decide +kernel
  obtain ⟨hcfa, hregs⟩ := (unwinder_agrees Sample.calledFrame_describes).1 hsilent
  exact ⟨hcfa, hregs 16 (Or.inl ⟨-8, rfl⟩)⟩

/-- The x86-64 convention: on entry rsp is 8 below the CFA. -/
def Frame.Anchored (f : Frame) : Prop := f.entry kDWARFRsp = f.cfa - 8

instance (f : Frame) : Decidable f.Anchored := inferInstanceAs (Decidable (_ = _))

/-- A word that makes a fact hold. -/
def Frame.valueOf (f : Frame) : AbsVal Int64 → Word
  | .cfaRel d => f.cfa + d.toBitVec
  | .origReg q => f.entry q
  | .top | .bottom | .other => 0

theorem Frame.holds_valueOf (f : Frame) (v : AbsVal Int64) : f.Holds v (f.valueOf v) := by
  cases v <;> simp [Frame.Holds, Frame.valueOf]

/-- Every abstract state describes some machine state, in every frame. -/
theorem Frame.exists_describes (f : Frame) (s : AbsState Int64) :
    f.Describes s (fun r => f.valueOf (s.gpr r))
      (fun a => f.valueOf (s.slot (Int64.ofBitVec (a - f.cfa)))) where
  gpr r := f.holds_valueOf _
  slot k := by
    have hk : Int64.ofBitVec (f.cfa + k.toBitVec - f.cfa) = k := by
      rw [show f.cfa + k.toBitVec - f.cfa = k.toBitVec by bv_omega]
      rfl
    rw [hk]
    exact f.holds_valueOf _

/-- The soundness law for a `val_offset` rule: silence means that the rule recovers the entry
value of `r`, and a rule that always does is never called a mismatch. -/
def ValOffsetLaw (rc : RowChecker) (r : Fin 17) (offset : Int64) (s : AbsState Int64) : Prop :=
  (rc.checkReg r (.valOffset offset) s = [] →
    ∀ (f : Frame) (regs : Fin 16 → Word) (word : Word → Word), f.Anchored →
      f.Describes s regs word → recover (.valOffset offset) r f.cfa regs word = some (f.entry r)) ∧
    ((∀ (f : Frame) (regs : Fin 16 → Word) (word : Word → Word), f.Anchored →
      f.Describes s regs word → recover (.valOffset offset) r f.cfa regs word = some (f.entry r)) →
      ∀ report ∈ rc.checkReg r (.valOffset offset) s, report.severity ≠ .mismatch)

/-- A comparison calls nothing a mismatch exactly when it does not know, or agrees. -/
theorem compareValue_no_mismatch {rc : RowChecker} {v expected : AbsVal Int64}
    {unknown wrong : String} :
    (∀ report ∈ rc.compareValue v expected unknown wrong, report.severity ≠ .mismatch) ↔
      v.isUnknown = true ∨ v = expected := by
  unfold RowChecker.compareValue
  split_ifs with hu hv
  · simp [hu, RowChecker.review]
  · simp [hu, hv, RowChecker.mismatch]
  · simpa using Or.inr (not_not.mp hv)

/-- Only the stack pointer's own entry value is a fixed distance from the CFA. -/
theorem exists_frame_ne {r : Fin 17} {offset : Int64} (h : ¬ (r.val = 7 ∧ offset = -8)) :
    ∃ f : Frame, f.Anchored ∧ f.cfa + offset.toBitVec ≠ f.entry r := by
  refine ⟨⟨0, fun q => if q = 7 then -8 else offset.toBitVec + 1⟩, rfl, ?_⟩
  by_cases hr : r.val = 7
  · have ho : offset.toBitVec ≠ -8 := fun he => h ⟨hr, Int64.toBitVec_inj.mp he⟩
    simpa [hr] using ho
  · simp only [hr, if_false]
    bv_omega

/-- Check compares the current value of the register, so the law holds exactly when it stays
clear of accepting one; the stack pointer at its own entry offset is the one rule it may accept
and must not dispute. -/
theorem valOffsetLaw_iff (rc : RowChecker) (r : Fin 17) (offset : Int64) (s : AbsState Int64) :
    ValOffsetLaw rc r offset s ↔
      if r.val = 7 ∧ offset = -8 then (s.reg r).isUnknown = true ∨ s.reg r = .cfaRel offset
      else s.reg r ≠ .cfaRel offset := by
  have hsilent : rc.checkReg r (.valOffset offset) s = [] ↔ s.reg r = .cfaRel offset := by
    rw [RowChecker.checkReg, rc.compareValue_eq_nil]
    refine ⟨fun h => h.2, fun h => ⟨?_, h⟩⟩
    rw [h]
    rfl
  split_ifs with hrsp
  · obtain ⟨hr, rfl⟩ := hrsp
    have hright : ∀ (f : Frame) (regs : Fin 16 → Word) (word : Word → Word), f.Anchored →
        f.Describes s regs word → recover (.valOffset (-8)) r f.cfa regs word = some (f.entry r) := by
      intro f regs word ha _
      rw [recover, hr, show f.entry 7 = f.cfa - 8 from ha]
      rw [show (-8 : Int64).toBitVec = -8 from rfl, Option.some.injEq]
      bv_omega
    constructor
    · intro hlaw
      exact compareValue_no_mismatch.mp (hlaw.2 hright)
    · intro hok
      exact ⟨fun _ => hright, fun _ => compareValue_no_mismatch.mpr hok⟩
  · obtain ⟨f, ha, hne⟩ := exists_frame_ne hrsp
    have hwrong : ¬ ∀ (f : Frame) (regs : Fin 16 → Word) (word : Word → Word), f.Anchored →
        f.Describes s regs word → recover (.valOffset offset) r f.cfa regs word = some (f.entry r) :=
      fun hall => hne (Option.some.inj (hall f _ _ ha (f.exists_describes s)))
    constructor
    · exact fun hlaw hs => hwrong (hlaw.1 (hsilent.mpr hs))
    · exact fun hs => ⟨fun hnil => absurd (hsilent.mp hnil) hs, fun hall => absurd hall hwrong⟩

/-- rbx was `lea`d to the CFA after entry and the row says its caller value is the CFA: accepted,
and wrong. -/
theorem not_valOffsetLaw_rbx :
    ¬ ValOffsetLaw ⟨0x401000, "", false⟩ 3 0
      { (AbsState.init : AbsState Int64) with gpr := fun r => if r = 3 then .cfaRel 0 else .top } := by
  intro h
  have hf := h.1 (by decide +kernel) ⟨0x7000, fun q => if q = 7 then 0x6ff8 else 0⟩
    (fun r => if r = 3 then 0x7000 else 0) (fun _ => 0) (by decide +kernel)
    ⟨by decide +kernel, fun k => by simp [AbsState.slot, AbsState.init, Frame.Holds]⟩
  exact absurd hf (by decide +kernel)

end UnwindCheck
