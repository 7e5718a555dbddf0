import UnwindCheck.EhFrame.Record

/-! What `ParseFDE` accepts: a record of the reader's format whose instructions can be run. -/
namespace UnwindCheck

/-- Where an operation leaves the location and the number of remembered states, if it can be run. -/
def CfaOp.place (isCie : Bool) (codeAlign : Word) : CfaOp → Word × ℕ → Option (Word × ℕ)
  | .setLoc newLoc, (loc, depth) => if newLoc < loc ∨ isCie then none else some (newLoc, depth)
  | .advanceLoc delta, (loc, depth) => if isCie then none else some (loc + delta * codeAlign, depth)
  | .rememberState, (loc, depth) => if 32 ≤ depth then none else some (loc, depth + 1)
  | .restoreState, (_, 0) => none
  | .restoreState, (loc, depth + 1) => some (loc, depth)
  | _, place => some place

def placeAfter (isCie : Bool) (codeAlign : Word) (ops : List CfaOp) (place : Word × ℕ) :
    Option (Word × ℕ) :=
  ops.foldlM (fun place op => op.place isCie codeAlign place) place

/-- The instructions of the record can be run: those of the CIE do not move the location, no `set_loc`
goes back, nothing is restored that was not remembered, and no more than 32 states are. -/
def FDERecord.Runs (r : FDERecord) : Prop :=
  ((placeAfter true r.cie.codeAlign r.cieOps (r.pcStart, 0)).bind
    (placeAfter false r.cie.codeAlign r.fdeOps)).isSome

instance (r : FDERecord) : Decidable r.Runs := inferInstanceAs (Decidable (_ = true))

variable {δ : Type} [Offset δ]

/-- The place of a run: what its state and its builder say. -/
def placeOf (res : EHReaderState × TableBuilder δ) : Word × ℕ :=
  (res.1.currentLoc, res.2.stack.length)

section Run
variable {isCie : Bool} {st : EHReaderState} {b : TableBuilder δ}

theorem runOp_place (op : CfaOp) :
    (runOp isCie op st b).toOption.map placeOf = op.place isCie st.codeAlign (placeOf (st, b)) := by
  cases op with
  | setLoc newLoc =>
    unfold runOp doSetLoc CfaOp.place placeOf
    by_cases hback : newLoc < st.currentLoc
    · simp [hback, Except.toOption]
    · cases isCie with
      | true => simp [hback, Except.toOption]
      | false => simp [hback, Except.toOption, TableBuilder.handleSetLoc]
  | advanceLoc delta =>
    unfold runOp doSetLoc CfaOp.place placeOf
    cases isCie with
    | true => simp [Except.toOption]
    | false => simp [Except.toOption, TableBuilder.handleSetLoc]
  | rememberState =>
    unfold runOp TableBuilder.handleRememberState CfaOp.place placeOf
    by_cases hdeep : 32 ≤ b.stack.length
    · simp [hdeep, Except.toOption, bind, Except.bind]
    · simp [hdeep, Except.toOption, bind, Except.bind, pure, Except.pure]
  | restoreState =>
    unfold runOp TableBuilder.handleRestoreState placeOf
    cases hstack : b.stack with
    | nil => simp [CfaOp.place, Except.toOption, bind, Except.bind]
    | cons saved stack => simp [CfaOp.place, Except.toOption, bind, Except.bind, pure, Except.pure]
  | restore reg => simp [runOp, CfaOp.place, placeOf, Except.toOption]
  | offset reg offset | undefined reg | sameValue reg | expression reg | valExpression reg
  | register reg storedIn | valOffset reg offset =>
    simp [runOp, CfaOp.place, placeOf, Except.toOption, TableBuilder.handleOffset,
      TableBuilder.handleUndefined, TableBuilder.handleSameValue, TableBuilder.handleExpression,
      TableBuilder.handleValExpression, TableBuilder.handleRegister, TableBuilder.handleValOffset]
  | nop | defCfa reg offset | defCfaSf reg offset | defCfaRegister reg | defCfaOffset offset
  | defCfaOffsetSf offset | defCfaExpression => rfl

theorem runOp_codeAlign {op : CfaOp} {st' : EHReaderState} {b' : TableBuilder δ}
    (h : runOp isCie op st b = .ok (st', b')) : st'.codeAlign = st.codeAlign := by
  cases hmove : op.isMove with
  | true =>
    obtain ⟨-, rfl, -⟩ := runOp_move hmove h
    rfl
  | false =>
    obtain ⟨rfl, -⟩ := runOp_samePlace hmove h
    rfl

theorem runStream_place (ops : List CfaOp) (st : EHReaderState) (b : TableBuilder δ) :
    (runStream isCie ops st b).toOption.map placeOf =
      placeAfter isCie st.codeAlign ops (placeOf (st, b)) := by
  induction ops generalizing st b with
  | nil => rfl
  | cons op ops ih =>
    have hop := @runOp_place _ _ isCie st b op
    unfold placeAfter
    rw [List.foldlM_cons, ← hop, runStream]
    cases hrun : runOp isCie op st b with
    | error e => rfl
    | ok res =>
      obtain ⟨st', b'⟩ := res
      have hrest := ih st' b'
      rw [runOp_codeAlign hrun] at hrest
      exact hrest

theorem runStream_codeAlign {ops : List CfaOp} {st' : EHReaderState} {b' : TableBuilder δ}
    (h : runStream isCie ops st b = .ok (st', b')) : st'.codeAlign = st.codeAlign := by
  induction ops generalizing st b with
  | nil =>
    cases h
    rfl
  | cons op ops ih =>
    obtain ⟨⟨st₁, b₁⟩, hop, hrest⟩ := except_bind_ok h
    exact (ih hrest).trans (runOp_codeAlign hop)

end Run

namespace FDERecord
variable (r : FDERecord)

/-- A record is built into a table exactly when its instructions can be run. -/
theorem build_ok_iff (fdeVaddr bias : Word) :
    (∃ b', r.build (TableBuilder.new fdeVaddr bias : TableBuilder δ) = .ok b') ↔ r.Runs := by
  have hfresh := r.opened_fresh (δ := δ) fdeVaddr bias
  have hcie := @runStream_place δ _ true r.cieOps r.state (r.opened (TableBuilder.new fdeVaddr bias))
  have hplace : placeOf (r.state, (r.opened (TableBuilder.new fdeVaddr bias) : TableBuilder δ)) =
      (r.pcStart, 0) := by
    rw [placeOf, hfresh.stack]
    rfl
  rw [hplace] at hcie
  unfold Runs build
  change _ ↔ ((placeAfter true r.state.codeAlign r.cieOps (r.pcStart, 0)).bind
    (placeAfter false r.state.codeAlign r.fdeOps)).isSome
  rw [← hcie]
  cases hrun : runStream true r.cieOps r.state
      (r.opened (TableBuilder.new fdeVaddr bias : TableBuilder δ)) with
  | error e => simp [bind, Except.bind, Except.toOption]
  | ok res =>
    obtain ⟨st, b⟩ := res
    have hfde := @runStream_place _ _ false r.fdeOps st (r.resumed b)
    rw [runStream_codeAlign hrun] at hfde
    have hstack : placeOf (st, r.resumed b) = placeOf (st, b) := by
      rw [placeOf, (r.resumed_resumed b).stack]
      rfl
    rw [hstack] at hfde
    simp only [bind, Except.bind, Except.toOption, Option.map_some, Option.bind_some]
    rw [← hfde]
    cases runStream false r.fdeOps st (r.resumed b) with
    | error e => simp [Except.toOption]
    | ok res => simp [Except.toOption, pure, Except.pure]

end FDERecord

/-- `ParseFDE` accepts an address exactly if there is a record of the format there whose instructions
can be run, and what it then builds is what running them gives. -/
theorem parseFDE_accepts (mem : Word → Byte) (bounds : Word × Word) (addr fdeVaddr bias : Word) :
    ((∃ b, parseFDE mem bounds addr (TableBuilder.new fdeVaddr bias : TableBuilder δ) = .ok b) ↔
      ∃ r, FDEAt mem bounds addr r ∧ r.Runs) ∧
      ∀ r, FDEAt mem bounds addr r → ∀ b,
        parseFDE mem bounds addr (TableBuilder.new fdeVaddr bias : TableBuilder δ) = .ok b ↔
          r.build (TableBuilder.new fdeVaddr bias) = .ok b := by
  constructor
  · constructor
    · intro h
      obtain ⟨b, hb⟩ := h
      obtain ⟨r, hr, hbuild⟩ := parseFDE_ok_iff.mp hb
      exact ⟨r, readRecord_ok_iff.mp hr, (r.build_ok_iff fdeVaddr bias).mp ⟨b, hbuild⟩⟩
    · intro h
      obtain ⟨r, hr, hruns⟩ := h
      obtain ⟨b, hbuild⟩ := (r.build_ok_iff (δ := δ) fdeVaddr bias).mpr hruns
      exact ⟨b, parseFDE_ok_iff.mpr ⟨r, readRecord_ok_iff.mpr hr, hbuild⟩⟩
  · intro r hr b
    have hread := readRecord_ok_iff.mpr hr
    rw [parseFDE_ok_iff]
    constructor
    · intro h
      obtain ⟨r', hr', hbuild⟩ := h
      obtain rfl : r = r' := Except.ok.inj (hread.symm.trans hr')
      exact hbuild
    · exact fun hbuild => ⟨r, hread, hbuild⟩

/-- A record that is read, and refused because it restores what was never remembered. -/
example : ¬ (⟨⟨1, -8, 16, true, ⟨0x1b, kDwEhPeOmitted, false⟩⟩, 0x1000, 16, [.defCfa 7 8, .offset 16 1],
    none, [.restoreState]⟩ : FDERecord).Runs := by
  decide

end UnwindCheck
