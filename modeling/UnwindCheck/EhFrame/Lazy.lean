import UnwindCheck.EhFrame.Program

/-! Call frame information as an unwinder runs it: no table, one interpretation per address. -/
namespace UnwindCheck

namespace CfaOp

/-- The operands that are register numbers. -/
def registers : CfaOp → List Word
  | .offset reg _ | .restore reg | .defCfa reg _ | .defCfaSf reg _ | .defCfaRegister reg
  | .expression reg | .valExpression reg | .undefined reg | .sameValue reg | .valOffset reg _ => [reg]
  | .register reg storedIn => [reg, storedIn]
  | _ => []

/-- The operations that change one half of a register and offset rule. -/
def updatesCfa : CfaOp → Bool
  | .defCfaRegister _ | .defCfaOffset _ | .defCfaOffsetSf _ => true
  | _ => false

end CfaOp

/-- The location, the rules in force at it and the rules remembered. -/
structure LazyState (δ : Type) where
  loc : Word
  cfa : CFARule δ
  regs : Fin 17 → RegRule δ
  stack : List (CFARule δ × (Fin 17 → RegRule δ))

section
variable {δ : Type} [Offset δ]

namespace LazyState

/-- The rule of one register; there is none above 16. -/
def setReg (s : LazyState δ) (reg : Word) (rule : Fin 17 → RegRule δ) : LazyState δ :=
  { s with regs := fun r => if r.val = reg.toNat then rule r else s.regs r }

/-- One operation that does not move the location. Half an update of a rule that is not a
register and an offset has no meaning, and neither has restoring what was not remembered. -/
def execute (dataAlign : Word) (cieRegs : Fin 17 → RegRule δ) (s : LazyState δ) :
    CfaOp → Option (LazyState δ)
  | .nop => some s
  | .setLoc _ | .advanceLoc _ => none
  | .offset reg offset =>
    some (s.setReg reg fun _ => .atCFAOffset (TableBuilder.asOffset (offset * dataAlign)))
  | .valOffset reg offset =>
    some (s.setReg reg fun _ => .valOffset (TableBuilder.asOffset (offset * dataAlign)))
  | .restore reg => some (s.setReg reg cieRegs)
  | .undefined reg => some (s.setReg reg fun _ => .undefined)
  | .sameValue reg => some (s.setReg reg fun _ => .sameValue)
  | .register reg storedIn => some (s.setReg reg fun _ => .inRegister storedIn.toNat)
  | .expression reg => some (s.setReg reg fun _ => .expression)
  | .valExpression reg => some (s.setReg reg fun _ => .valExpression)
  | .defCfa reg offset =>
    some { s with cfa := .regOffset reg.toNat (TableBuilder.asOffset offset) }
  | .defCfaSf reg offset =>
    some { s with cfa := .regOffset reg.toNat (TableBuilder.asOffset (offset * dataAlign)) }
  | .defCfaRegister reg =>
    if s.cfa.kind = .regOffset then some { s with cfa := .regOffset reg.toNat s.cfa.offset } else none
  | .defCfaOffset offset =>
    if s.cfa.kind = .regOffset then
      some { s with cfa := .regOffset s.cfa.reg (TableBuilder.asOffset offset) }
    else none
  | .defCfaOffsetSf offset =>
    if s.cfa.kind = .regOffset then
      some { s with cfa := .regOffset s.cfa.reg (TableBuilder.asOffset (offset * dataAlign)) }
    else none
  | .defCfaExpression => some { s with cfa := ⟨.expression, 0, Offset.ofInt 0⟩ }
  | .rememberState => some { s with stack := (s.cfa, s.regs) :: s.stack }
  | .restoreState =>
    match s.stack with
    | [] => none
    | (cfa, regs) :: stack => some { s with cfa := cfa, regs := regs, stack := stack }

end LazyState

namespace FDEProgram
variable (prog : FDEProgram)

/-- The FDE's operations, stopping before the first that moves the location beyond `pc`. -/
def lazyRun (cieRegs : Fin 17 → RegRule δ) (pc : Word) :
    List CfaOp → LazyState δ → Option (LazyState δ)
  | [], s => some s
  | op :: ops, s =>
    if op.isMove then
      if pc < prog.moveLoc s.loc op then some s
      else lazyRun cieRegs pc ops { s with loc := prog.moveLoc s.loc op }
    else (s.execute prog.state.dataAlign cieRegs op).bind (lazyRun cieRegs pc ops)

def lazyInit : LazyState δ := ⟨prog.pcBegin, .initial, fun _ => .unset, []⟩

/-- The CIE's operations. -/
def lazyCie : Option (LazyState δ) :=
  prog.cieOps.foldlM (fun s op => s.execute prog.state.dataAlign (fun _ => .unset) op) prog.lazyInit

/-- The rules at `pc`. -/
def lazyRow (pc : Word) : Option (LazyState δ) :=
  prog.lazyCie.bind fun cie => prog.lazyRun cie.regs pc prog.fdeOps cie

/-- Locations never decrease, so they never wrap around either. -/
def Ascending : List CfaOp → Word → Prop
  | [], _ => True
  | op :: ops, loc => loc ≤ prog.moveLoc loc op ∧ Ascending ops (prog.moveLoc loc op)

/-- Half an update only meets a register and offset rule. -/
def Steady (cieRegs : Fin 17 → RegRule δ) : List CfaOp → LazyState δ → Prop
  | [], _ => True
  | op :: ops, s =>
    if op.isMove then Steady cieRegs ops { s with loc := prog.moveLoc s.loc op }
    else (op.updatesCfa → s.cfa.kind = .regOffset) ∧
      ∀ s', s.execute prog.state.dataAlign cieRegs op = some s' → Steady cieRegs ops s'

variable (δ) in
/-- The programs a table can stand for. -/
structure Plain : Prop where
  registers : ∀ op ∈ prog.cieOps ++ prog.fdeOps, ∀ reg ∈ op.registers, reg.toNat < 256
  ascending : prog.Ascending prog.fdeOps prog.pcBegin
  steady_cie : prog.Steady (fun _ => (.unset : RegRule δ)) prog.cieOps prog.lazyInit
  steady_fde : ∀ cie : LazyState δ, prog.lazyCie = some cie → prog.Steady cie.regs prog.fdeOps cie

end FDEProgram

/-- The builder holds the rules of the lazy state. -/
structure LazyState.Shows (s : LazyState δ) (b : TableBuilder δ) : Prop where
  cfa : b.curCfa = s.cfa
  regs : b.curRegs = s.regs
  stack : b.stack.map (fun saved => (saved.cfa, saved.regs)) = s.stack

variable {prog : FDEProgram} {s : LazyState δ} {st st' : EHReaderState} {b b' : TableBuilder δ}

theorem narrowReg_of_lt {reg : Word} (h : reg.toNat < 256) :
    TableBuilder.narrowReg reg = reg.toNat := Nat.mod_eq_of_lt h

namespace LazyState.Shows

omit [Offset δ] in
theorem setRule (h : s.Shows b) (reg : Word) (rule : RegRule δ) :
    (s.setReg reg fun _ => rule).Shows (b.setRule reg rule) := by
  refine ⟨by simp [LazyState.setReg, h.cfa], ?_, by simp [LazyState.setReg, h.stack]⟩
  rw [TableBuilder.curRegs_setRule, h.regs]
  rfl

omit [Offset δ] in
theorem setCfa (h : s.Shows b) {cfa cfa' : CFARule δ} (heq : cfa' = cfa) :
    LazyState.Shows { s with cfa := cfa } { b with curCfa := cfa' } :=
  ⟨heq, h.regs, h.stack⟩

/-- One operation, in the table builder and in the interpreter. -/
theorem execute {isCie : Bool} {op : CfaOp} (h : s.Shows b) (hmove : op.isMove = false)
    (hregs : ∀ reg ∈ op.registers, reg.toNat < 256)
    (hsteady : op.updatesCfa → s.cfa.kind = .regOffset)
    (hop : runOp isCie op st b = .ok (st', b')) :
    ∃ s', s.execute st.dataAlign b.cieRegs op = some s' ∧ s'.loc = s.loc ∧ s'.Shows b' := by
  cases op with
  | setLoc loc | advanceLoc delta => cases hmove
  | nop =>
    cases hop
    exact ⟨s, rfl, rfl, h⟩
  | offset reg offset | undefined reg | sameValue reg | expression reg | valExpression reg
  | valOffset reg offset =>
    cases hop
    exact ⟨_, rfl, rfl, h.setRule _ _⟩
  | register reg storedIn =>
    cases hop
    have hlt := hregs storedIn (by simp [CfaOp.registers])
    refine ⟨_, rfl, rfl, ?_⟩
    rw [TableBuilder.handleRegister, narrowReg_of_lt hlt]
    exact h.setRule _ _
  | restore reg =>
    cases hop
    refine ⟨_, rfl, rfl, by simp [LazyState.setReg, h.cfa], ?_, by simp [LazyState.setReg, h.stack]⟩
    rw [TableBuilder.curRegs_handleRestore, h.regs]
    rfl
  | defCfa reg offset | defCfaSf reg offset =>
    cases hop
    have hlt := hregs reg (by simp [CfaOp.registers])
    refine ⟨_, rfl, rfl, h.setCfa ?_⟩
    rw [narrowReg_of_lt hlt]
  | defCfaRegister reg =>
    cases hop
    have hlt := hregs reg (by simp [CfaOp.registers])
    refine ⟨_, if_pos (hsteady rfl), rfl, h.setCfa ?_⟩
    rw [narrowReg_of_lt hlt, h.cfa]
    rfl
  | defCfaOffset offset | defCfaOffsetSf offset =>
    cases hop
    refine ⟨_, if_pos (hsteady rfl), rfl, h.setCfa ?_⟩
    rw [h.cfa]
    rfl
  | defCfaExpression =>
    cases hop
    exact ⟨_, rfl, rfl, h.setCfa rfl⟩
  | rememberState =>
    simp only [runOp, TableBuilder.handleRememberState] at hop
    split at hop <;> cases hop
    exact ⟨_, rfl, rfl, h.cfa, h.regs, by simp [h.cfa, h.regs, h.stack]⟩
  | restoreState =>
    have hstack := h.stack
    simp only [runOp, TableBuilder.handleRestoreState] at hop
    cases hb : b.stack with
    | nil =>
      rw [hb] at hop
      cases hop
    | cons saved rest =>
      rw [hb] at hop hstack
      cases hop
      rw [List.map_cons] at hstack
      refine ⟨⟨s.loc, saved.cfa, saved.regs, rest.map fun x => (x.cfa, x.regs)⟩, ?_, rfl, rfl, rfl, rfl⟩
      simp only [LazyState.execute, ← hstack]

end LazyState.Shows

/-- The CIE's stream, in the table builder and in the interpreter. -/
theorem LazyState.Shows.cie {cieRegs : Fin 17 → RegRule δ} {ops : List CfaOp} (h : s.Shows b)
    (hat : prog.At st b) (hcie : b.cieRegs = cieRegs)
    (hregs : ∀ op ∈ ops, ∀ reg ∈ op.registers, reg.toNat < 256)
    (hsteady : prog.Steady cieRegs ops s) (hrun : runStream true ops st b = .ok (st', b')) :
    ∃ s', ops.foldlM (fun s op => s.execute prog.state.dataAlign cieRegs op) s = some s' ∧
      s'.loc = s.loc ∧ s'.Shows b' := by
  induction ops generalizing s st b with
  | nil =>
    cases hrun
    exact ⟨s, rfl, rfl, h⟩
  | cons op ops ih =>
    obtain ⟨⟨st₁, b₁⟩, hop, hrest⟩ := except_bind_ok hrun
    cases hmove : op.isMove with
    | true => exact absurd (runOp_move hmove hop).1 (by simp)
    | false =>
      simp only [FDEProgram.Steady, hmove, Bool.false_eq_true, if_false] at hsteady
      obtain ⟨s₁, hex, hloc, hs₁⟩ := h.execute hmove (hregs op (by simp)) hsteady.1 hop
      rw [hat.dataAlign, hcie] at hex
      have hb := (runOp_samePlace hmove hop).2
      obtain ⟨s', hfold, hloc', hs'⟩ := ih hs₁ (hat.runOp hop).1 (hb.cieRegs.trans hcie)
        (fun o ho => hregs o (List.mem_cons_of_mem _ ho)) (hsteady.2 s₁ hex) hrest
      refine ⟨s', ?_, hloc'.trans hloc, hs'⟩
      rw [List.foldlM_cons, hex]
      exact hfold

/-- Once the location is beyond `pc`, so are all the rows still to come. -/
theorem rows_beyond {isCie : Bool} {ops : List CfaOp} {pc : Word} (hat : prog.At st b)
    (hasc : prog.Ascending ops b.rowPc) (hpc : pc < b.rowPc)
    (hrun : runStream isCie ops st b = .ok (st', b')) :
    pc < b'.rowPc ∧ ∃ more, b'.result.rows = b.result.rows ++ more ∧
      ∀ row ∈ more, pc < row.pcStart := by
  induction ops generalizing st b with
  | nil =>
    cases hrun
    exact ⟨hpc, [], by simp, by simp⟩
  | cons op ops ih =>
    obtain ⟨⟨st₁, b₁⟩, hop, hrest⟩ := except_bind_ok hrun
    obtain ⟨hat₁, hloc⟩ := hat.runOp hop
    obtain ⟨hle, hasc₁⟩ := hasc
    rw [← hloc] at hle hasc₁
    obtain ⟨hpc', more, hrows, hmore⟩ := ih hat₁ hasc₁ (by bv_omega) hrest
    refine ⟨hpc', ?_⟩
    cases hmove : op.isMove with
    | false =>
      rw [(runOp_samePlace hmove hop).2.rows] at hrows
      exact ⟨more, hrows, hmore⟩
    | true =>
      obtain ⟨-, -, rfl⟩ := runOp_move hmove hop
      simp only [TableBuilder.handleSetLoc] at hrows
      split at hrows
      · refine ⟨b.currentRow :: more, by simpa using hrows, ?_⟩
        intro row hrow
        rcases List.mem_cons.mp hrow with rfl | hrow
        · exact hpc
        · exact hmore row hrow
      · exact ⟨more, hrows, hmore⟩

/-- A row at or before `pc` with only rows beyond `pc` after it. -/
structure Covering (rows : List (CFIRow δ)) (pc : Word) (row : CFIRow δ) : Prop where
  split : ∃ before after, rows = before ++ row :: after ∧ (∀ r ∈ before, r.pcStart ≤ pc) ∧
    ∀ r ∈ after, pc < r.pcStart
  start : row.pcStart ≤ pc

omit [Offset δ] in
/-- A row that is closed from beyond `pc` on changes nothing at `pc`. -/
theorem Covering.handleSetLoc {pc : Word} {row : CFIRow δ} (h : Covering b.result.rows pc row)
    (hpc : pc < b.rowPc) (newPc : Word) : Covering (b.handleSetLoc newPc).result.rows pc row := by
  obtain ⟨⟨before, after, hrows, hbefore, hafter⟩, hstart⟩ := h
  by_cases hlt : b.rowPc < newPc - b.bias
  · refine ⟨⟨before, after ++ [b.currentRow], ?_, hbefore, ?_⟩, hstart⟩
    · rw [b.rows_handleSetLoc hlt, hrows]
      simp
    · intro r hr
      rcases List.mem_append.mp hr with hr | hr
      · exact hafter r hr
      · rw [List.mem_singleton.mp hr]
        exact hpc
  · refine ⟨⟨before, after, ?_, hbefore, hafter⟩, hstart⟩
    unfold TableBuilder.handleSetLoc
    dsimp only
    rw [if_neg hlt]
    exact hrows

/-- The FDE's stream, from a location at or before `pc` on. -/
theorem LazyState.Shows.fde {cieRegs : Fin 17 → RegRule δ} {ops : List CfaOp} {pc : Word}
    (h : s.Shows b) (hat : prog.At st b) (hloc : s.loc = b.rowPc) (hcie : b.cieRegs = cieRegs)
    (hregs : ∀ op ∈ ops, ∀ reg ∈ op.registers, reg.toNat < 256)
    (hsteady : prog.Steady cieRegs ops s) (hasc : prog.Ascending ops b.rowPc)
    (hpc : b.rowPc ≤ pc) (hrows : ∀ r ∈ b.result.rows, r.pcStart ≤ pc) (hend : pc < prog.pcEnd)
    (hrun : runStream false ops st b = .ok (st', b')) :
    ∃ s' row, prog.lazyRun cieRegs pc ops s = some s' ∧
      Covering (b'.handleSetLoc prog.state.functionEnd).result.rows pc row ∧
      row.cfa = s'.cfa ∧ row.regs = s'.regs := by
  induction ops generalizing s st b with
  | nil =>
    -- the row in force at the end of the function
    cases hrun
    refine ⟨s, b'.currentRow, rfl, ⟨⟨b'.result.rows, [], ?_, hrows, by simp⟩, hpc⟩, h.cfa, h.regs⟩
    have hlt : b'.rowPc < prog.state.functionEnd - b'.bias := by
      rw [hat.bias]
      change b'.rowPc < prog.pcEnd
      bv_omega
    exact b'.rows_handleSetLoc hlt
  | cons op ops ih =>
    obtain ⟨⟨st₁, b₁⟩, hop, hrest⟩ := except_bind_ok hrun
    obtain ⟨hat₁, hloc₁⟩ := hat.runOp hop
    obtain ⟨hle, hasc₁⟩ := hasc
    rw [← hloc₁] at hle hasc₁
    cases hmove : op.isMove with
    | false =>
      simp only [FDEProgram.Steady, hmove, Bool.false_eq_true, if_false] at hsteady
      obtain ⟨s₁, hex, hsloc, hs₁⟩ := h.execute hmove (hregs op (by simp)) hsteady.1 hop
      have hb := (runOp_samePlace hmove hop).2
      rw [hat.dataAlign, hcie] at hex
      obtain ⟨s', row, hlazy, hrest⟩ := ih hs₁ hat₁ (by rw [hsloc, hloc, hb.rowPc])
        (hb.cieRegs.trans hcie) (fun o ho => hregs o (List.mem_cons_of_mem _ ho))
        (hsteady.2 s₁ hex) hasc₁ (hb.rowPc ▸ hpc) (hb.rows ▸ hrows) hrest
      refine ⟨s', row, ?_, hrest⟩
      simp only [FDEProgram.lazyRun, hmove, Bool.false_eq_true, if_false, hex]
      exact hlazy
    | true =>
      simp only [FDEProgram.Steady, hmove, if_true] at hsteady
      obtain ⟨-, hst₁, hb₁⟩ := runOp_move hmove hop
      by_cases hbeyond : pc < b₁.rowPc
      · -- this move closes the row that holds at `pc`
        obtain ⟨hpc₁, more, hmore, hgt⟩ := rows_beyond hat₁ hasc₁ hbeyond hrest
        have hrec : b₁.result.rows = b.result.rows ++ [b.currentRow] := by
          have hlt : b.rowPc < op.newLoc st - b.bias := by
            have heq : b₁.rowPc = op.newLoc st - b.bias := by
              rw [hb₁]
              rfl
            bv_omega
          rw [hb₁, b.rows_handleSetLoc hlt]
        have hcover : Covering b'.result.rows pc b.currentRow := by
          refine ⟨⟨b.result.rows, more, ?_, hrows, hgt⟩, hpc⟩
          rw [hmore, hrec]
          simp
        refine ⟨s, b.currentRow, ?_, hcover.handleSetLoc hpc₁ _, h.cfa, h.regs⟩
        simp only [FDEProgram.lazyRun, hmove, if_true]
        rw [hloc, ← hloc₁, if_pos hbeyond]
      · have hle₁ : b₁.rowPc ≤ pc := BitVec.not_lt.mp hbeyond
        have hrows₁ : ∀ r ∈ b₁.result.rows, r.pcStart ≤ pc := by
          intro r hr
          rw [hb₁] at hr
          rcases b.mem_rows_handleSetLoc hr with hr | rfl
          · exact hrows r hr
          · exact hpc
        have hs₁ : LazyState.Shows { s with loc := prog.moveLoc s.loc op } b₁ := by
          rw [hb₁]
          exact ⟨h.cfa, h.regs, h.stack⟩
        obtain ⟨s', row, hlazy, hrest⟩ := ih hs₁ hat₁ (by rw [hloc₁, ← hloc])
          (by rw [hb₁]; exact hcie) (fun o ho => hregs o (List.mem_cons_of_mem _ ho)) hsteady hasc₁
          hle₁ hrows₁ hrest
        refine ⟨s', row, ?_, hrest⟩
        simp only [FDEProgram.lazyRun, hmove, if_true]
        rw [if_neg (by rwa [hloc, ← hloc₁])]
        exact hlazy

omit [Offset δ] in
/-- The binary search finds the covering row. -/
theorem CFI.rowAt_eq_of_covering {cfi : CFI δ} {pc : Word} {row : CFIRow δ} (hc : cfi.Covers pc)
    (h : Covering cfi.rows pc row) : cfi.rowAt pc = some row := by
  obtain ⟨⟨before, after, hsplit, hbefore, hafter⟩, hstart⟩ := h
  have hit : Lib.upperBound (fun i => (cfi.rows[i]?).any fun r => pc < r.pcStart)
      cfi.rows.length = before.length + 1 := by
    apply Lib.upperBound_eq
    · simp [hsplit]
    · intro i hi
      rw [hsplit]
      rcases Nat.lt_or_ge i before.length with hlt | hge
      · rw [List.getElem?_append_left hlt, List.getElem?_eq_getElem hlt]
        simpa using hbefore _ (List.getElem_mem hlt)
      · obtain rfl : i = before.length := by omega
        simpa using hstart
    · intro i hi hlen
      rw [hsplit] at hlen ⊢
      obtain ⟨j, rfl⟩ : ∃ j, i = before.length + 1 + j := ⟨i - (before.length + 1), by omega⟩
      have hj : j < after.length := by
        rw [List.length_append, List.length_cons] at hlen
        omega
      rw [List.getElem?_append_right (by omega),
        show before.length + 1 + j - before.length = j + 1 by omega, List.getElem?_cons_succ,
        List.getElem?_eq_getElem hj]
      simpa using hafter _ (List.getElem_mem hj)
  have hlen : before.length < cfi.rows.length := by simp [hsplit]
  simp only [rowAt, rowIndexAt, hc, if_true, hit]
  rw [dif_pos ⟨by omega, by omega⟩]
  simp [hsplit]

/-- The table built in advance holds, at every address of the FDE, the rules an unwinder would
compute for that address. -/
theorem rowAt_eq_lazyRow (mem : Word → Byte) (fdeVaddr ehFrameStart ehFrameEnd bias : Word)
    (cfi : CFI δ) (h : readFDE mem fdeVaddr ehFrameStart ehFrameEnd bias = .ok cfi) :
    ∃ prog, readProgram mem fdeVaddr ehFrameStart ehFrameEnd bias = .ok prog ∧
      (prog.Plain δ → ∀ pc, cfi.Covers pc → ∃ row s, cfi.rowAt pc = some row ∧
        prog.lazyRow pc = some s ∧ row.cfa = s.cfa ∧ row.regs = s.regs) := by
  obtain ⟨prog, b₀, b₁, b₂, b₃, st, hprog, hy⟩ := readFDE_yields h
  refine ⟨prog, hprog, ?_⟩
  intro hplain pc hc
  have hf := hy.fresh
  have hr := hy.resumed
  have h₀ : (prog.lazyInit : LazyState δ).Shows b₀ :=
    ⟨hf.curCfa, hf.curRegs, by simp [hf.stack, FDEProgram.lazyInit]⟩
  obtain ⟨cie, hcie, hloc, h₁⟩ := h₀.cie hf.at hf.cieRegs
    (fun op hop => hplain.registers op (List.mem_append_left _ hop)) hplain.steady_cie hy.cie
  obtain ⟨-, hplace⟩ := runStream_cie hy.cie
  have hrowPc : b₂.rowPc = prog.pcBegin := (hr.rowPc.trans hplace.rowPc).trans hf.rowPc
  have hrows : b₂.result.rows = [] := (hr.rows.trans hplace.rows).trans hf.rows
  have h₂ : cie.Shows b₂ := ⟨hr.curCfa.trans h₁.cfa, hr.curRegs.trans h₁.regs, hr.stack ▸ h₁.stack⟩
  have hat₂ : prog.At prog.state b₂ :=
    ⟨hrowPc, (hr.bias.trans hplace.bias).trans hf.bias, rfl, rfl⟩
  have hlo := hc.1
  have hhi := hc.2
  rw [hy.pcBegin] at hlo
  rw [hy.pcEnd] at hhi
  obtain ⟨s, row, hlazy, hcover, hcfa, hregs⟩ := h₂.fde hat₂ (hloc.trans hrowPc.symm)
    (hr.cieRegs.trans h₁.regs) (fun op hop => hplain.registers op (List.mem_append_right _ hop))
    (hplain.steady_fde cie hcie) (hrowPc ▸ hplain.ascending) (hrowPc ▸ hlo) (by simp [hrows]) hhi
    hy.fde
  rw [← hy.rows] at hcover
  refine ⟨row, s, CFI.rowAt_eq_of_covering hc hcover, ?_, hcfa, hregs⟩
  rw [FDEProgram.lazyRow, show (prog.lazyCie : Option (LazyState δ)) = some cie from hcie]
  exact hlazy

end

namespace Sample

/-- The program of a function that pushes one register. -/
def pushProgram : FDEProgram :=
  ⟨⟨0x1000, 0x1010, 1, -8, 0x1b⟩, 0, [.defCfa 7 8, .offset 16 1, .nop, .nop],
    [.advanceLoc 1, .defCfaOffset 16]⟩

theorem pushProgram_plain : pushProgram.Plain Int64 := by
  refine ⟨?_, ?_, ?_, ?_⟩
  · simp [pushProgram, CfaOp.registers]
  · simp [pushProgram, FDEProgram.Ascending, FDEProgram.moveLoc, FDEProgram.pcBegin]
  · simp [pushProgram, FDEProgram.Steady, CfaOp.isMove, CfaOp.updatesCfa, LazyState.execute]
  · intro cie hcie
    cases hcie
    simp [pushProgram, FDEProgram.Steady, CfaOp.isMove, LazyState.setReg,
      FDEProgram.moveLoc, CFARule.regOffset]

end Sample

theorem rowAt_eq_lazyRow_of_push :
    ∃ cfi : CFI Int64, readFDE (Sample.ehFrameMem [0x41, 0x0e, 0x10]) 0x2018 0x2000 0x2034 0 = .ok cfi ∧
      Sample.pushProgram.Plain Int64 ∧
      ∃ prog, readProgram (Sample.ehFrameMem [0x41, 0x0e, 0x10]) 0x2018 0x2000 0x2034 0 = .ok prog ∧
        prog = Sample.pushProgram ∧
        ∀ pc, cfi.Covers pc → ∃ row s, cfi.rowAt pc = some row ∧
          prog.lazyRow pc = some s ∧ row.cfa = s.cfa ∧ row.regs = s.regs := by
  have hread : ∃ cfi : CFI Int64,
      readFDE (Sample.ehFrameMem [0x41, 0x0e, 0x10]) 0x2018 0x2000 0x2034 0 = .ok cfi := ⟨_, rfl⟩
  obtain ⟨cfi, hcfi⟩ := hread
  have hprog' : readProgram (Sample.ehFrameMem [0x41, 0x0e, 0x10]) 0x2018 0x2000 0x2034 0 =
      .ok Sample.pushProgram := rfl
  obtain ⟨prog, hprog, hrow⟩ := rowAt_eq_lazyRow _ _ _ _ _ cfi hcfi
  obtain rfl : prog = Sample.pushProgram := by
    rw [hprog'] at hprog
    cases hprog
    rfl
  exact ⟨cfi, hcfi, Sample.pushProgram_plain, _, hprog, rfl, hrow Sample.pushProgram_plain⟩

end UnwindCheck
