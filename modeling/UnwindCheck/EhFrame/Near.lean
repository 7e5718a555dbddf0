import UnwindCheck.EhFrame.Program
import UnwindCheck.Lib.Signed

/-! How far from the CFA the rows of a table get: no further than the operands of its program. -/
namespace UnwindCheck
open Lib

/-- The offset rules that give a register the value of an address. -/
def RegsNear (B : ℤ) (regs : Fin 17 → RegRule Int64) : Prop :=
  ∀ r offset, regs r = .valOffset offset → -B ≤ offset.toInt ∧ offset.toInt ≤ B

/-- The offsets a row seeds a state with, or is compared by. -/
structure CFIRow.Near (B : ℤ) (row : CFIRow Int64) : Prop where
  cfa : -B ≤ row.cfa.offset.toInt ∧ row.cfa.offset.toInt ≤ B
  regs : RegsNear B row.regs

/-- The offset an operation carries, scaled where it is factored. -/
def CfaOp.carried (dataAlign : Word) : CfaOp → Option ℤ
  | .defCfa _ n | .defCfaOffset n => some n.toInt
  | .offset _ n | .defCfaSf _ n | .defCfaOffsetSf n | .valOffset _ n => some (n.toInt * dataAlign.toInt)
  | _ => none

def CfaOp.Near (B : ℤ) (dataAlign : Word) (op : CfaOp) : Prop :=
  ∀ n, op.carried dataAlign = some n → -B ≤ n ∧ n ≤ B

/-- Every operation the table of an FDE is made by. -/
def FDEProgram.Near (B : ℤ) (prog : FDEProgram) : Prop :=
  ∀ op ∈ prog.cieOps ++ prog.fdeOps, op.Near B prog.state.dataAlign

/-- What is recorded, in force, remembered or kept from the CIE. -/
structure TableBuilder.Near (B : ℤ) (b : TableBuilder Int64) : Prop where
  cfa : -B ≤ b.curCfa.offset.toInt ∧ b.curCfa.offset.toInt ≤ B
  regs : RegsNear B b.curRegs
  cieRegs : RegsNear B b.cieRegs
  stack : ∀ saved ∈ b.stack,
    (-B ≤ saved.cfa.offset.toInt ∧ saved.cfa.offset.toInt ≤ B) ∧ RegsNear B saved.regs
  rows : ∀ row ∈ b.result.rows, row.Near B

section Builder
variable {B : ℤ} {b : TableBuilder Int64}

theorem RegsNear.update {regs : Fin 17 → RegRule Int64} (h : RegsNear B regs) (q : Fin 17)
    {rule : RegRule Int64}
    (hrule : ∀ offset, rule = .valOffset offset → -B ≤ offset.toInt ∧ offset.toInt ≤ B) :
    RegsNear B (Function.update regs q rule) := by
  intro r offset hr
  rw [Function.update_apply] at hr
  split_ifs at hr
  · exact hrule offset hr
  · exact h r offset hr

/-- An operand is cast as it is. -/
theorem toInt_asOffset (w : Word) : (TableBuilder.asOffset w : Int64).toInt = w.toInt := by
  have hfits : Representable w.toInt := ⟨w.le_toInt, w.toInt_lt⟩
  show (Int64.ofInt w.toInt).toInt = w.toInt
  rw [Int64.toInt_ofInt]
  exact representable_iff_bmod.mp hfits

theorem toInt_scaled (hB : B < 2 ^ 63) {n dataAlign : Word}
    (h : -B ≤ n.toInt * dataAlign.toInt ∧ n.toInt * dataAlign.toInt ≤ B) :
    (TableBuilder.asOffset (n * dataAlign) : Int64).toInt = n.toInt * dataAlign.toInt := by
  have hfits : Representable (n.toInt * dataAlign.toInt) := ⟨by omega, by omega⟩
  rw [toInt_asOffset, BitVec.toInt_mul]
  exact representable_iff_bmod.mp hfits

theorem near_zero (hB : 0 ≤ B) :
    -B ≤ (Offset.ofInt 0 : Int64).toInt ∧ (Offset.ofInt 0 : Int64).toInt ≤ B := by
  have hzero : (Offset.ofInt 0 : Int64).toInt = 0 := rfl
  rw [hzero]
  constructor
  · omega
  · omega

namespace TableBuilder.Near

theorem of_fresh {prog : FDEProgram} (hB : 0 ≤ B) (h : b.Fresh prog) : b.Near B := by
  have hunset : RegsNear B fun _ => .unset := fun r offset hr => by cases hr
  constructor
  · rw [h.curCfa]
    exact near_zero hB
  · rw [h.curRegs]
    exact hunset
  · rw [h.cieRegs]
    exact hunset
  · rw [h.stack]
    exact fun saved hsaved => by cases hsaved
  · rw [h.rows]
    exact fun row hrow => by cases hrow

theorem of_resumed {b' : TableBuilder Int64} (hb : b.Near B) (h : b.Resumed b') : b'.Near B := by
  constructor
  · rw [h.curCfa]
    exact hb.cfa
  · rw [h.curRegs]
    exact hb.regs
  · rw [h.cieRegs]
    exact hb.regs
  · rw [h.stack]
    exact hb.stack
  · rw [h.rows]
    exact hb.rows

theorem setRule (h : b.Near B) (reg : Word) {rule : RegRule Int64}
    (hrule : ∀ offset, rule = .valOffset offset → -B ≤ offset.toInt ∧ offset.toInt ≤ B) :
    (b.setRule reg rule).Near B := by
  unfold TableBuilder.setRule
  split
  · exact ⟨h.cfa, h.regs.update _ hrule, h.cieRegs, h.stack, h.rows⟩
  · exact ⟨h.cfa, h.regs, h.cieRegs, h.stack, h.rows⟩

/-- A rule that is no offset, or the offset of a slot. -/
theorem setPlain (h : b.Near B) (reg : Word) {rule : RegRule Int64}
    (hrule : ∀ offset, rule ≠ .valOffset offset) : (b.setRule reg rule).Near B :=
  h.setRule reg fun offset heq => absurd heq (hrule offset)

theorem withCfa (h : b.Near B) {cfa : CFARule Int64}
    (hcfa : -B ≤ cfa.offset.toInt ∧ cfa.offset.toInt ≤ B) : TableBuilder.Near B { b with curCfa := cfa } :=
  ⟨hcfa, h.regs, h.cieRegs, h.stack, h.rows⟩

theorem handleSetLoc (h : b.Near B) (newPc : Word) : (b.handleSetLoc newPc).Near B := by
  refine ⟨h.cfa, h.regs, h.cieRegs, h.stack, fun row hrow => ?_⟩
  rcases b.mem_rows_handleSetLoc hrow with hrow | rfl
  · exact h.rows row hrow
  · exact ⟨h.cfa, h.regs⟩

theorem handleRestore (h : b.Near B) (reg : Word) : (b.handleRestore reg).Near B := by
  unfold TableBuilder.handleRestore
  split
  · exact ⟨h.cfa, h.regs.update _ fun offset => h.cieRegs _ offset, h.cieRegs, h.stack, h.rows⟩
  · exact ⟨h.cfa, h.regs, h.cieRegs, h.stack, h.rows⟩

theorem handleRememberState {b' : TableBuilder Int64} (h : b.Near B)
    (hrun : b.handleRememberState = .ok b') : b'.Near B := by
  unfold TableBuilder.handleRememberState at hrun
  split_ifs at hrun
  cases hrun
  refine ⟨h.cfa, h.regs, h.cieRegs, fun saved hsaved => ?_, h.rows⟩
  rcases List.mem_cons.mp hsaved with rfl | hsaved
  · exact ⟨h.cfa, h.regs⟩
  · exact h.stack saved hsaved

theorem handleRestoreState {b' : TableBuilder Int64} (h : b.Near B)
    (hrun : b.handleRestoreState = .ok b') : b'.Near B := by
  unfold TableBuilder.handleRestoreState at hrun
  split at hrun
  · cases hrun
  · rename_i saved stack hstack
    cases hrun
    obtain ⟨hcfa, hregs⟩ := h.stack saved (by rw [hstack]; exact List.mem_cons_self)
    refine ⟨hcfa, hregs, h.cieRegs, fun s hs => h.stack s ?_, h.rows⟩
    rw [hstack]
    exact List.mem_cons_of_mem _ hs

/-- One operation sets nothing further away than what it carries. -/
theorem runOp {isCie : Bool} {op : CfaOp} {st st' : EHReaderState} {b' : TableBuilder Int64}
    (hB : 0 ≤ B ∧ B < 2 ^ 63) (h : b.Near B) (hop : op.Near B st.dataAlign)
    (hrun : UnwindCheck.runOp isCie op st b = .ok (st', b')) : b'.Near B := by
  cases hmove : op.isMove with
  | true =>
    obtain ⟨-, -, rfl⟩ := runOp_move hmove hrun
    exact h.handleSetLoc _
  | false =>
    cases op with
    | setLoc loc | advanceLoc delta => cases hmove
    | nop =>
      cases hrun
      exact h
    | defCfa reg n | defCfaOffset n =>
      cases hrun
      have hn := hop n.toInt rfl
      rw [← toInt_asOffset n] at hn
      exact h.withCfa hn
    | defCfaSf reg n | defCfaOffsetSf n =>
      cases hrun
      have hn := hop _ rfl
      rw [← toInt_scaled hB.2 hn] at hn
      exact h.withCfa hn
    | defCfaRegister reg =>
      cases hrun
      exact h.withCfa h.cfa
    | defCfaExpression =>
      cases hrun
      exact h.withCfa (near_zero hB.1)
    | valOffset reg n =>
      cases hrun
      have hn := hop _ rfl
      rw [← toInt_scaled hB.2 hn] at hn
      refine h.setRule reg fun offset heq => ?_
      cases heq
      exact hn
    | restore reg =>
      cases hrun
      exact h.handleRestore reg
    | rememberState =>
      obtain ⟨b₁, hb₁, hrun⟩ := except_bind_ok hrun
      cases hrun
      exact h.handleRememberState hb₁
    | restoreState =>
      obtain ⟨b₁, hb₁, hrun⟩ := except_bind_ok hrun
      cases hrun
      exact h.handleRestoreState hb₁
    | offset reg n | expression reg | valExpression reg | undefined reg | sameValue reg | register reg n =>
      cases hrun
      exact h.setPlain reg fun offset heq => by cases heq

end TableBuilder.Near

theorem runOp_dataAlign {isCie : Bool} {op : CfaOp} {st st' : EHReaderState} {b b' : TableBuilder Int64}
    (h : runOp isCie op st b = .ok (st', b')) : st'.dataAlign = st.dataAlign := by
  cases hop : op.isMove with
  | true =>
    obtain ⟨-, rfl, -⟩ := runOp_move hop h
    rfl
  | false =>
    obtain ⟨rfl, -⟩ := runOp_samePlace hop h
    rfl

/-- The alignment is the CIE's throughout. -/
theorem TableBuilder.Near.runStream {isCie : Bool} {ops : List CfaOp} {st st' : EHReaderState}
    {b' : TableBuilder Int64} (hB : 0 ≤ B ∧ B < 2 ^ 63) (h : b.Near B)
    (hops : ∀ op ∈ ops, op.Near B st.dataAlign)
    (hrun : UnwindCheck.runStream isCie ops st b = .ok (st', b')) : b'.Near B := by
  induction ops generalizing st b with
  | nil =>
    cases hrun
    exact h
  | cons op ops ih =>
    obtain ⟨⟨st₁, b₁⟩, hop, hrun⟩ := except_bind_ok hrun
    have h₁ := h.runOp hB (hops op List.mem_cons_self) hop
    refine ih h₁ (fun op' hop' => ?_) hrun
    rw [runOp_dataAlign hop]
    exact hops op' (List.mem_cons_of_mem _ hop')

end Builder

/-- The rows that are read stay as near as the program's operands. -/
theorem readFDE_near {B : ℤ} (hB : 0 ≤ B ∧ B < 2 ^ 63) {mem : Word → Byte}
    {fdeVaddr ehFrameStart ehFrameEnd bias : Word} {cfi : CFI Int64} {prog : FDEProgram}
    (h : readFDE mem fdeVaddr ehFrameStart ehFrameEnd bias = .ok cfi)
    (hprog : readProgram mem fdeVaddr ehFrameStart ehFrameEnd bias = .ok prog) (hnear : prog.Near B) :
    ∀ row ∈ cfi.rows, row.Near B := by
  obtain ⟨prog', b₀, b₁, b₂, b₃, st, hprog', hy⟩ := readFDE_yields h
  obtain rfl : prog' = prog := Except.ok.inj (hprog'.symm.trans hprog)
  have hfresh := TableBuilder.Near.of_fresh hB.1 hy.fresh
  have hcie := hfresh.runStream hB (fun op hop => hnear op (List.mem_append_left _ hop)) hy.cie
  have hresumed := hcie.of_resumed hy.resumed
  have hfde := hresumed.runStream hB (fun op hop => hnear op (List.mem_append_right _ hop)) hy.fde
  rw [hy.rows]
  exact (hfde.handleSetLoc _).rows

end UnwindCheck
