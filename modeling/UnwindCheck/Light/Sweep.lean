import UnwindCheck.Light.Check
import UnwindCheck.Checker.Coverage
import UnwindCheck.EhFrame.Decoder

/-! What the sweep visits, and that a table read from a section never leaves it without a row. -/
namespace UnwindCheck
variable {δ : Type} [Offset δ]

namespace Light
variable {options : FDECheckerOptions δ} {cfi : CFI δ}

omit [Offset δ] in
/-- The address after a decoded instruction, as a number. -/
theorem next_toNat {pc : Word} {insn : Instruction} (h : decodeAt options cfi pc = some insn)
    (hc : cfi.Covers pc) : insn.address = pc ∧ 1 ≤ insn.size ∧
      insn.next.toNat = pc.toNat + insn.size ∧ pc.toNat + insn.size ≤ cfi.pcEnd.toNat :=
  let env : Env δ := ⟨options, cfi, [], false, by simp⟩
  have hd : env.decodeAt pc = some insn := h
  ⟨Env.decodeAt_address hd, Env.one_le_size hd, Env.next_toNat hd hc⟩

theorem stepDirect_ne_checkFailed {insn : Instruction} {outcome : TransferOutcome}
    {state : AbsState δ} : stepDirect options cfi insn outcome state ≠ .checkFailed := by
  unfold stepDirect
  split
  · simp
  · unfold Step.ofCheck
    split <;> simp

/-- Giving up comes with a report. -/
theorem checkCFA_gives_up {pc : Word} {target : CFARule δ} {state : AbsState δ} {desc : String}
    (h : (checkCFA pc target state desc).2 = true) : (checkCFA pc target state desc).1 ≠ [] := by
  unfold checkCFA at h ⊢
  split
  · simp
  · rename_i hk
    rw [if_neg hk] at h
    dsimp only at h ⊢
    split
    · rename_i hv
      simp only [hv] at h
      split_ifs at h
    · simp

theorem ofCheck_stop {r : List Report × Bool} {rs : List Report} (h : Step.ofCheck r = .stop rs) :
    r.2 = true ∧ rs = r.1 := by
  unfold Step.ofCheck at h
  split_ifs at h with hr
  cases h
  exact ⟨hr, rfl⟩

theorem ofCheck_proceed {r : List Report × Bool} {rs : List Report}
    (h : Step.ofCheck r = .proceed rs) : r.2 = false ∧ rs = r.1 := by
  unfold Step.ofCheck at h
  split_ifs at h with hr
  cases h
  exact ⟨Bool.eq_false_iff.mpr hr, rfl⟩

theorem visit_stop {row : CFIRow δ} {insn : Instruction} {rs : List Report}
    (h : visit options cfi row insn = .stop rs) : rs ≠ [] := by
  unfold visit at h
  dsimp only at h
  split at h
  · cases h
  · rename_i rs₁ hs
    cases h
    unfold stepFallThrough at hs
    split at hs
    · cases hs
    · cases hs
    · cases hs
    · cases hs
      simp
    · obtain ⟨hg, rfl⟩ := ofCheck_stop hs
      exact checkCFA_gives_up hg
  · rename_i rs₁ hs
    split at h
    · cases h
    · rename_i rs₂ hd
      cases h
      unfold stepDirect at hd
      split at hd
      · cases hd
      · obtain ⟨hg, rfl⟩ := ofCheck_stop hd
        simp [checkCFA_gives_up hg]
    · cases h

/-- The `CHECK` can only fail on an address without a row. -/
theorem visit_checkFailed {row : CFIRow δ} {insn : Instruction}
    (h : visit options cfi row insn = .checkFailed) :
    insn.next < cfi.pcEnd ∧ cfi.rowAt insn.next = none := by
  unfold visit at h
  dsimp only at h
  split at h
  · rename_i hs
    unfold stepFallThrough at hs
    split at hs
    · cases hs
    · cases hs
    · rename_i hf
      unfold fallThrough at hf
      split at hf
      · rename_i hcond
        cases hr : cfi.rowAt insn.next with
        | none => exact ⟨hcond.2.2, rfl⟩
        | some nextRow =>
          simp only [hr] at hf
          split_ifs at hf
      · cases hf
    · cases hs
    · unfold Step.ofCheck at hs
      split at hs <;> cases hs
  · cases h
  · split at h
    · rename_i hd
      exact absurd hd stepDirect_ne_checkFailed
    · cases h
    · cases h

/-- The instructions run from `start` to `stop`, each beginning where the one before it ends. -/
def Tiles : (start : Word) → List Instruction → (stop : Word) → Prop
  | start, [], stop => start = stop
  | start, insn :: rest, stop =>
    insn.address = start ∧ 1 ≤ insn.size ∧ insn.next.toNat = start.toNat + insn.size ∧
      Tiles insn.next rest stop

/-- A visit that the sweep got past without a word. -/
structure Passed (options : FDECheckerOptions δ) (cfi : CFI δ) (insn : Instruction)
    (row : CFIRow δ) : Prop where
  covers : cfi.Covers insn.address
  decoded : decodeAt options cfi insn.address = some insn
  declared : cfi.rowAt insn.address = some row
  silent : visit options cfi row insn = .proceed []

/-- Where every address has a row, the sweep ends at the end of the FDE or with a report. -/
theorem sweepFrom_ended (hrows : ∀ pc, cfi.Covers pc → (cfi.rowAt pc).isSome) {fuel : ℕ} {pc : Word}
    (hlo : cfi.pcBegin ≤ pc) :
    (sweepFrom options cfi fuel pc).ended = .finished ∨
      (sweepFrom options cfi fuel pc).ended = .gaveUp ∧
        (sweepFrom options cfi fuel pc).reports ≠ [] := by
  induction fuel generalizing pc with
  | zero => exact Or.inl rfl
  | succ fuel ih =>
    unfold sweepFrom
    split_ifs with hlt
    · have hc : cfi.Covers pc := ⟨hlo, hlt⟩
      obtain ⟨row, hrow⟩ := Option.isSome_iff_exists.mp (hrows pc hc)
      simp only [hrow]
      cases hd : decodeAt options cfi pc with
      | none => exact Or.inr ⟨rfl, by simp⟩
      | some insn =>
        obtain ⟨-, -, hnext, -⟩ := next_toNat hd hc
        have hlo' : cfi.pcBegin ≤ insn.next := by
          rw [BitVec.le_def] at hlo ⊢
          omega
        cases hv : visit options cfi row insn with
        | checkFailed =>
          obtain ⟨hlt', hnone⟩ := visit_checkFailed hv
          exact absurd (hrows _ ⟨hlo', hlt'⟩) (by simp [hnone])
        | stop rs =>
          simp only [hv]
          exact Or.inr ⟨trivial, visit_stop hv⟩
        | proceed rs =>
          simp only [hv]
          rcases ih hlo' with h | ⟨h, hne⟩
          · exact Or.inl h
          · exact Or.inr ⟨h, by simp [hne]⟩
    · exact Or.inl rfl

/-- A silent sweep tiles the FDE with instructions it had nothing to say about. -/
theorem sweepFrom_silent (hrows : ∀ pc, cfi.Covers pc → (cfi.rowAt pc).isSome) {fuel : ℕ}
    {pc : Word} (hlo : cfi.pcBegin ≤ pc) (hhi : pc ≤ cfi.pcEnd)
    (hfuel : cfi.pcEnd.toNat - pc.toNat ≤ fuel)
    (hs : (sweepFrom options cfi fuel pc).reports = []) :
    Tiles pc (sweepFrom options cfi fuel pc).swept cfi.pcEnd ∧
      ∀ insn ∈ (sweepFrom options cfi fuel pc).swept, ∃ row, Passed options cfi insn row := by
  rw [BitVec.le_def] at hlo hhi
  induction fuel generalizing pc with
  | zero => exact ⟨BitVec.eq_of_toNat_eq (by omega), by simp [sweepFrom]⟩
  | succ fuel ih =>
    unfold sweepFrom at hs ⊢
    split_ifs at hs ⊢ with hlt
    · have hc : cfi.Covers pc := ⟨by rwa [BitVec.le_def], hlt⟩
      obtain ⟨row, hrow⟩ := Option.isSome_iff_exists.mp (hrows pc hc)
      simp only [hrow] at hs ⊢
      cases hd : decodeAt options cfi pc with
      | none => simp [hd] at hs
      | some insn =>
        obtain ⟨haddr, hsize, hnext, hend⟩ := next_toNat hd hc
        simp only [hd] at hs ⊢
        cases hv : visit options cfi row insn with
        | checkFailed =>
          obtain ⟨hlt', hnone⟩ := visit_checkFailed hv
          have hc' : cfi.Covers insn.next := ⟨by rw [BitVec.le_def]; omega, hlt'⟩
          exact absurd (hrows _ hc') (by simp [hnone])
        | stop rs =>
          simp only [hv] at hs
          exact absurd hs (visit_stop hv)
        | proceed rs =>
          simp only [hv, List.append_eq_nil_iff] at hs ⊢
          obtain ⟨rfl, hrest⟩ := hs
          obtain ⟨htiles, hall⟩ := ih (by omega) (by omega) (by omega) hrest
          refine ⟨⟨haddr, hsize, hnext, htiles⟩, fun i hi => ?_⟩
          rcases List.mem_cons.mp hi with rfl | hi
          · exact ⟨row, by rwa [haddr], by rwa [haddr], by rwa [haddr], hv⟩
          · exact hall i hi
    · rw [BitVec.not_lt, BitVec.le_def] at hlt
      exact ⟨BitVec.eq_of_toNat_eq (by omega), by simp⟩

theorem verdictOf_blessed (fs : List Finding) : verdictOf fs = .blessed ↔ fs = [] := by
  cases fs with
  | nil => simp [verdictOf]
  | cons f fs =>
    have hsev : f.severity = .mismatch ∨ f.severity = .review := by cases f.severity <;> simp
    unfold verdictOf
    rcases hsev with h | h
    · simp [h]
    · simp only [List.any_cons, h, reduceCtorEq, decide_false, Bool.false_or, decide_true,
        Bool.true_or, if_true, iff_false]
      split <;> simp

end Light

/-- A blessed light check that looked at anything reported nothing. -/
theorem sweep_silent_of_blessed {options : FDECheckerOptions δ} {cfi : CFI δ} {result : FDEResult}
    (h : lightCheck options cfi = some result) (hb : result.verdict = .blessed)
    (hra : cfi.raUndefined = false) :
    (Light.sweep options cfi).reports = [] ∧ (Light.sweep options cfi).ended ≠ .checkFailed := by
  unfold lightCheck at h
  dsimp only at h
  have hra' : ¬ ((cfi.rowAt cfi.pcBegin).any fun row => row.regs 16 = .undefined) = true := by
    rw [← CFI.raUndefined, hra]
    simp
  rw [if_neg hra'] at h
  split_ifs at h with hend
  cases h
  refine ⟨?_, hend⟩
  exact (FindingSink.holds_addAll _ _).take_eq_nil ((Light.verdictOf_blessed _).mp hb)

/-- With a row in force where the instruction stands, there is nothing to dereference amiss. -/
theorem fallThroughIsReal_ne_none {cfi : CFI δ} {pc : Word} (h : (cfi.rowAt pc).isSome)
    (next : Word) (before : Fin 16 → AbsVal δ) (after : AbsState δ) (afterCall : Bool) :
    fallThroughIsReal cfi (cfi.rowIndexAt pc) next before after afterCall ≠ none := by
  have hi : (cfi.rowIndexAt pc).isSome := by simpa [CFI.rowAt] using h
  obtain ⟨i, hi⟩ := Option.isSome_iff_exists.mp hi
  unfold fallThroughIsReal
  rw [hi]
  split
  · exact Option.some_ne_none _
  · split
    · exact Option.some_ne_none _
    · dsimp only
      split
      · simp only [Option.map_some]
        exact Option.some_ne_none _
      · exact Option.some_ne_none _

/-- A table that was read has a row for every address of its FDE, so neither checker can step off
it: the light sweep never lacks a row and tiles what it blesses, and the walk always has the row
it compares the next one with. -/
theorem readFDE_rows_total {mem : Word → Byte} {fdeVaddr ehFrameStart ehFrameEnd bias : Word}
    {cfi : CFI δ} (h : readFDE mem fdeVaddr ehFrameStart ehFrameEnd bias = .ok cfi)
    (hne : cfi.pcBegin < cfi.pcEnd) :
    (∀ pc, cfi.Covers pc → (cfi.rowAt pc).isSome) ∧
      ∀ options : FDECheckerOptions δ,
        (Light.sweep options cfi).ended ≠ .checkFailed ∧
        (Light.sweep options cfi).ended ≠ .noRow ∧
        (∀ guessing, ∀ visit ∈ visited options cfi guessing, ∀ insn,
          (Env.of options cfi guessing).decodeAt visit.1 = some insn →
            fallThroughIsReal cfi (cfi.rowIndexAt visit.1) insn.next visit.2.gpr
              (transfer options.disasm insn visit.2).2
              (transfer options.disasm insn visit.2).1.isCall ≠ none) ∧
        ∀ result, lightCheck options cfi = some result → result.verdict = .blessed →
          cfi.raUndefined = false →
            Light.Tiles cfi.pcBegin (Light.sweep options cfi).swept cfi.pcEnd := by
  have hrows : ∀ pc, cfi.Covers pc → (cfi.rowAt pc).isSome := fun pc hc => readFDE_rowAt_isSome h hc
  refine ⟨hrows, fun options => ?_⟩
  have hended : (Light.sweep options cfi).ended = .finished ∨
      (Light.sweep options cfi).ended = .gaveUp ∧ (Light.sweep options cfi).reports ≠ [] :=
    Light.sweepFrom_ended hrows (BitVec.le_refl _)
  refine ⟨?_, ?_, ?_, ?_⟩
  · rcases hended with he | ⟨he, -⟩ <;> simp [he]
  · rcases hended with he | ⟨he, -⟩ <;> simp [he]
  · intro guessing visit hv insn _
    exact fallThroughIsReal_ne_none (hrows _ (covers_of_mem_visited hv)) _ _ _ _
  · intro result hresult hb hra
    have hs := (sweep_silent_of_blessed hresult hb hra).1
    have hfuel : cfi.pcEnd.toNat - cfi.pcBegin.toNat ≤ (cfi.pcEnd - cfi.pcBegin).toNat := by
      rw [BitVec.toNat_sub_of_le (BitVec.le_of_lt hne)]
    exact (Light.sweepFrom_silent hrows (BitVec.le_refl _) (BitVec.le_of_lt hne) hfuel hs).1

namespace Sample

/-- A section at 0x2000: a CIE that says CFA = rsp + 8 and puts the return address below it, and
an FDE of three bytes at 0x1000 with three bytes of instructions. -/
def section3 (ops : List Byte) (addr : Word) : Byte :=
  ([0x14, 0x00, 0x00, 0x00, 0x00, 0x00, 0x00, 0x00, 0x01, 0x7a, 0x52, 0x00, 0x01, 0x78, 0x10, 0x01,
    0x1b, 0x0c, 0x07, 0x08, 0x90, 0x01, 0x00, 0x00,
    0x10, 0x00, 0x00, 0x00, 0x1c, 0x00, 0x00, 0x00, 0xe0, 0xef, 0xff, 0xff, 0x03, 0x00, 0x00, 0x00,
    0x00] ++ ops : List Byte).getD (addr - 0x2000).toNat 0

/-- The FDE as it is read, its one row unchanged by the padding it has for instructions. -/
def readLeaf : CFI Int64 := (readFDE (section3 [0, 0, 0]) 0x2018 0x2000 0x202c 0).toOption.getD leaf

theorem eq_ok_getD {ε α : Type} {x : Except ε α} (h : x.toBool = true) (d : α) :
    x = .ok (x.toOption.getD d) := by
  cases x with
  | error e => cases h
  | ok a => rfl

theorem readFDE_readLeaf : readFDE (section3 [0, 0, 0]) 0x2018 0x2000 0x202c 0 = .ok readLeaf :=
  eq_ok_getD (by decide +kernel) leaf

end Sample

theorem leaf_rows_total :
    (∀ pc, Sample.readLeaf.Covers pc → (Sample.readLeaf.rowAt pc).isSome) ∧
      Light.Tiles 0x1000 (Light.sweep Sample.leafOptions Sample.readLeaf).swept 0x1003 := by
  have hbegin : Sample.readLeaf.pcBegin = 0x1000 := by decide +kernel
  have hend : Sample.readLeaf.pcEnd = 0x1003 := by decide +kernel
  have hne : Sample.readLeaf.pcBegin < Sample.readLeaf.pcEnd := by
    rw [hbegin, hend]
    decide
  obtain ⟨hrows, hall⟩ := readFDE_rows_total Sample.readFDE_readLeaf hne
  obtain ⟨-, -, -, htiles⟩ := hall Sample.leafOptions
  have hb : (lightCheck Sample.leafOptions Sample.readLeaf).map FDEResult.verdict =
      some .blessed := by
    decide +kernel
  obtain ⟨result, hresult, hv⟩ := Option.map_eq_some_iff.mp hb
  have ht := htiles result hresult hv (by decide +kernel)
  rw [hbegin, hend] at ht
  exact ⟨hrows, ht⟩

end UnwindCheck
