import UnwindCheck.EhFrame.Program

/-! Which operand of the opcode stream each register number in a row comes from. -/
namespace UnwindCheck

/-- Where a CFA rule comes from: the register operand of the last `def_cfa`, `def_cfa_sf` or
`def_cfa_register` executed for it, or none of these. -/
inductive CfaSource where
  | undefined
  | expression
  | operand (reg : Word)
  | unnamed
  deriving DecidableEq, Repr

/-- The operands behind one set of rules; for a register, the second operand of the
`DW_CFA_register` that set its rule. -/
structure RuleSource where
  cfa : CfaSource
  regs : Fin 17 → Option Word
  deriving DecidableEq

structure SourceState where
  cur : RuleSource
  cie : Fin 17 → Option Word
  stack : List RuleSource
  loc : Word
  rows : List RuleSource

namespace SourceState

def setCfa (s : SourceState) (src : CfaSource) : SourceState := { s with cur := { s.cur with cfa := src } }

/-- A change of the rule for one register; numbers above 16 have no rule. -/
def setReg (s : SourceState) (reg : Word) (src : Fin 17 → Option Word) : SourceState :=
  { s with cur := { s.cur with regs := fun i => if i.val = reg.toNat then src i else s.cur.regs i } }

/-- A row ends where the location moves forward. -/
def moveTo (s : SourceState) (loc : Word) : SourceState :=
  { s with loc := loc, rows := if s.loc < loc then s.rows ++ [s.cur] else s.rows }

def step (prog : FDEProgram) (s : SourceState) : CfaOp → SourceState
  | .nop => s
  | .setLoc loc => s.moveTo (prog.moveLoc s.loc (.setLoc loc))
  | .advanceLoc delta => s.moveTo (prog.moveLoc s.loc (.advanceLoc delta))
  | .defCfa reg _ | .defCfaSf reg _ | .defCfaRegister reg => s.setCfa (.operand reg)
  | .defCfaOffset _ | .defCfaOffsetSf _ =>
    match s.cur.cfa with
    | .operand _ => s
    | _ => s.setCfa .unnamed
  | .defCfaExpression => s.setCfa .expression
  | .register reg storedIn => s.setReg reg fun _ => some storedIn
  | .restore reg => s.setReg reg s.cie
  | .offset reg _ | .expression reg | .valExpression reg | .undefined reg | .sameValue reg
  | .valOffset reg _ => s.setReg reg fun _ => none
  | .rememberState => { s with stack := s.cur :: s.stack }
  | .restoreState =>
    match s.stack with
    | [] => s
    | saved :: stack => { s with cur := saved, stack := stack }

end SourceState

namespace FDEProgram
variable (prog : FDEProgram)

/-- After the CIE, with its register rules remembered for `DW_CFA_restore`. -/
def cieSources : SourceState :=
  let s := prog.cieOps.foldl (SourceState.step prog)
    ⟨⟨.undefined, fun _ => none⟩, fun _ => none, [], prog.pcBegin, []⟩
  { s with cie := s.cur.regs }

/-- The sources of the rows of `prog`, in their order. -/
def sources : List RuleSource :=
  ((prog.fdeOps.foldl (SourceState.step prog) prog.cieSources).moveTo prog.pcEnd).rows

end FDEProgram

section
variable {δ : Type}

/-- A row names the registers its operands named. -/
def CFIRow.Names (row : CFIRow δ) (src : RuleSource) : Prop :=
  (row.cfa.kind = .regOffset → ∃ w, src.cfa = .operand w ∧ w.toNat = row.cfa.reg) ∧
    ∀ r n, row.regs r = .inRegister n → ∃ w, src.regs r = some w ∧ w.toNat = n

/-- The CFA rule has an operand to name its register, and the operands fit in a byte. -/
def RuleSource.Bytes (src : RuleSource) : Prop :=
  src.cfa ≠ .unnamed ∧ (∀ w, src.cfa = .operand w → w.toNat < 256) ∧
    ∀ r w, src.regs r = some w → w.toNat < 256

/-- What a rule the builder holds is known to be, given its source. -/
def CfaSource.Of (rule : CFARule δ) : CfaSource → Prop
  | .undefined => rule.kind = .undefined
  | .expression => rule.kind = .expression
  | .operand reg => rule.kind = .regOffset ∧ rule.reg = TableBuilder.narrowReg reg
  | .unnamed => rule.kind = .regOffset

def RegSourceOf (rule : RegRule δ) : Option Word → Prop
  | none => ∀ n, rule ≠ .inRegister n
  | some w => rule = .inRegister (TableBuilder.narrowReg w)

structure RuleSource.Of (src : RuleSource) (cfa : CFARule δ) (regs : Fin 17 → RegRule δ) :
    Prop where
  cfa : src.cfa.Of cfa
  regs : ∀ r, RegSourceOf (regs r) (src.regs r)

/-- A row names its operands exactly when they can be named. -/
theorem RuleSource.Of.names_iff {src : RuleSource} {row : CFIRow δ} (h : src.Of row.cfa row.regs) :
    row.Names src ↔ src.Bytes := by
  have hcfa := h.cfa
  constructor
  · rintro ⟨hc, hr⟩
    refine ⟨?_, ?_, ?_⟩
    · intro hun
      rw [hun] at hcfa
      obtain ⟨w, hw, -⟩ := hc hcfa
      rw [hun] at hw
      cases hw
    · intro w hw
      rw [hw] at hcfa
      obtain ⟨hkind, hreg⟩ := hcfa
      obtain ⟨w', hw', heq⟩ := hc hkind
      rw [hw] at hw'
      cases hw'
      rw [hreg] at heq
      unfold TableBuilder.narrowReg at heq
      omega
    · intro r w hw
      have hrule := h.regs r
      rw [hw] at hrule
      obtain ⟨w', hw', heq⟩ := hr r _ hrule
      rw [hw] at hw'
      cases hw'
      unfold TableBuilder.narrowReg at heq
      omega
  · rintro ⟨hun, hc, hr⟩
    refine ⟨?_, ?_⟩
    · intro hkind
      cases hsrc : src.cfa with
      | undefined | expression =>
        rw [hsrc] at hcfa
        rw [CfaSource.Of, hkind] at hcfa
        cases hcfa
      | unnamed => exact absurd hsrc hun
      | operand w =>
        rw [hsrc] at hcfa
        refine ⟨w, rfl, ?_⟩
        rw [hcfa.2, TableBuilder.narrowReg, Nat.mod_eq_of_lt (hc w hsrc)]
    · intro r n hn
      have hrule := h.regs r
      cases hsrc : src.regs r with
      | none =>
        rw [hsrc] at hrule
        exact absurd hn (hrule n)
      | some w =>
        rw [hsrc] at hrule
        refine ⟨w, rfl, ?_⟩
        have heq := hn.symm.trans hrule
        cases heq
        rw [TableBuilder.narrowReg, Nat.mod_eq_of_lt (hr r w hsrc)]

/-- The sources collected so far are those of the builder. -/
structure SourceState.Tracks (s : SourceState) (b : TableBuilder δ) : Prop where
  cur : s.cur.Of b.curCfa b.curRegs
  cie : ∀ r, RegSourceOf (b.cieRegs r) (s.cie r)
  stack : List.Forall₂ (fun src saved => src.Of saved.cfa saved.regs) s.stack b.stack
  rows : List.Forall₂ (fun src row => src.Of row.cfa row.regs) s.rows b.result.rows
  loc : s.loc = b.rowPc

variable {prog : FDEProgram} {s : SourceState} {st : EHReaderState} {b : TableBuilder δ}

namespace SourceState.Tracks

theorem setReg (h : s.Tracks b) (reg : Word) (src : Fin 17 → Option Word)
    (rule : Fin 17 → RegRule δ) (hr : ∀ r, RegSourceOf (rule r) (src r)) {b' : TableBuilder δ}
    (hplace : TableBuilder.SamePlace b b') (hcfa : b'.curCfa = b.curCfa)
    (hstack : b'.stack = b.stack)
    (hregs : b'.curRegs = fun r => if r.val = reg.toNat then rule r else b.curRegs r) :
    (s.setReg reg src).Tracks b' := by
  refine ⟨⟨?_, ?_⟩, ?_, ?_, ?_, ?_⟩
  · rw [hcfa]
    exact h.cur.cfa
  · intro r
    rw [hregs]
    by_cases hreg : r.val = reg.toNat
    · simpa [SourceState.setReg, hreg] using hr r
    · simpa [SourceState.setReg, hreg] using h.cur.regs r
  · rw [hplace.cieRegs]
    exact h.cie
  · rw [hstack]
    exact h.stack
  · rw [hplace.rows]
    exact h.rows
  · rw [hplace.rowPc]
    exact h.loc

theorem setRule (h : s.Tracks b) (reg : Word) (src : Option Word) (rule : RegRule δ)
    (hr : RegSourceOf rule src) :
    (s.setReg reg fun _ => src).Tracks (b.setRule reg rule) := by
  exact h.setReg reg _ (fun _ => rule) (fun _ => hr) (b.samePlace_setRule reg rule) (by simp)
    (by simp) (b.curRegs_setRule reg rule)

theorem moveTo (h : s.Tracks b) (newLoc : Word) :
    (s.moveTo (newLoc - b.bias)).Tracks (b.handleSetLoc newLoc) := by
  refine ⟨h.cur, h.cie, h.stack, ?_, rfl⟩
  simp only [SourceState.moveTo, TableBuilder.handleSetLoc, h.loc]
  split
  · exact List.rel_append h.rows (.cons h.cur .nil)
  · exact h.rows

theorem setCfa (h : s.Tracks b) (src : CfaSource) (rule : CFARule δ) (hr : src.Of rule) :
    (s.setCfa src).Tracks { b with curCfa := rule } :=
  ⟨⟨hr, h.cur.regs⟩, h.cie, h.stack, h.rows, h.loc⟩

/-- A move ends the row at the same place in both. -/
theorem move {op : CfaOp} (h : s.Tracks b) (hat : prog.At st b) :
    (s.moveTo (prog.moveLoc s.loc op)).Tracks (b.handleSetLoc (op.newLoc st)) := by
  have hmove := h.moveTo (op.newLoc st)
  rw [hat.bias, hat.newLoc op, ← h.loc] at hmove
  exact hmove

variable [Offset δ]

/-- A partial update that keeps the register keeps its source, if it has one. -/
theorem setCfaOffset (h : s.Tracks b) (offset : Word) :
    (match s.cur.cfa with
      | .operand _ => s
      | _ => s.setCfa .unnamed).Tracks (b.handleDefCFAOffset offset) := by
  have hcfa := h.cur.cfa
  cases hsrc : s.cur.cfa with
  | operand w =>
    rw [hsrc] at hcfa
    refine ⟨⟨?_, h.cur.regs⟩, h.cie, h.stack, h.rows, h.loc⟩
    rw [hsrc]
    exact ⟨rfl, hcfa.2⟩
  | undefined | expression | unnamed => exact h.setCfa .unnamed _ rfl

theorem runOp {isCie : Bool} {op : CfaOp} {st' : EHReaderState} {b' : TableBuilder δ}
    (h : s.Tracks b) (hat : prog.At st b)
    (hop : UnwindCheck.runOp isCie op st b = .ok (st', b')) : (s.step prog op).Tracks b' := by
  cases op with
  | setLoc loc =>
    obtain ⟨-, -, rfl⟩ := runOp_move rfl hop
    exact h.move hat
  | advanceLoc delta =>
    obtain ⟨-, -, rfl⟩ := runOp_move rfl hop
    exact h.move hat
  | nop =>
    cases hop
    exact h
  | defCfa reg offset | defCfaSf reg offset | defCfaRegister reg =>
    cases hop
    exact h.setCfa _ _ ⟨rfl, rfl⟩
  | defCfaOffset offset | defCfaOffsetSf offset =>
    cases hop
    exact h.setCfaOffset _
  | defCfaExpression =>
    cases hop
    exact h.setCfa _ _ rfl
  | register reg storedIn =>
    cases hop
    exact h.setRule reg _ _ rfl
  | offset reg offset | expression reg | valExpression reg | undefined reg | sameValue reg
  | valOffset reg offset =>
    cases hop
    refine h.setRule reg none _ ?_
    intro n hn
    cases hn
  | restore reg =>
    obtain ⟨-, hplace⟩ := runOp_samePlace rfl hop
    cases hop
    exact h.setReg reg _ b.cieRegs h.cie hplace (by simp) (by simp) (b.curRegs_handleRestore reg)
  | rememberState =>
    simp only [UnwindCheck.runOp, TableBuilder.handleRememberState] at hop
    split at hop <;> cases hop
    exact ⟨h.cur, h.cie, .cons h.cur h.stack, h.rows, h.loc⟩
  | restoreState =>
    have hstack := h.stack
    simp only [UnwindCheck.runOp, TableBuilder.handleRestoreState] at hop
    cases hb : b.stack with
    | nil =>
      rw [hb] at hop
      cases hop
    | cons saved rest =>
      rw [hb] at hop hstack
      cases hop
      cases hs : s.stack with
      | nil =>
        rw [hs] at hstack
        cases hstack
      | cons src srcs =>
        rw [hs] at hstack
        obtain ⟨hcur, hrest⟩ := List.forall₂_cons.mp hstack
        simp only [SourceState.step, hs]
        exact ⟨hcur, h.cie, hrest, h.rows, h.loc⟩

theorem runStream {isCie : Bool} {ops : List CfaOp} {st' : EHReaderState} {b' : TableBuilder δ}
    (h : s.Tracks b) (hat : prog.At st b)
    (hrun : UnwindCheck.runStream isCie ops st b = .ok (st', b')) :
    (ops.foldl (SourceState.step prog) s).Tracks b' ∧ prog.At st' b' := by
  induction ops generalizing s st b with
  | nil =>
    cases hrun
    exact ⟨h, hat⟩
  | cons op ops ih =>
    obtain ⟨⟨st₁, b₁⟩, hop, hrest⟩ := except_bind_ok hrun
    exact ih (h.runOp hat hop) (hat.runOp hop).1 hrest

end SourceState.Tracks

variable [Offset δ]

/-- The rows of a table and their sources belong together. -/
theorem FDEProgram.Yields.sources_of {cfi : CFI δ} {b₀ b₁ b₂ b₃ : TableBuilder δ}
    (h : prog.Yields cfi b₀ b₁ b₂ b₃ st) :
    List.Forall₂ (fun src row => src.Of row.cfa row.regs) prog.sources cfi.rows := by
  have h₀ : SourceState.Tracks ⟨⟨.undefined, fun _ => none⟩, fun _ => none, [], prog.pcBegin, []⟩
      b₀ := by
    have hf := h.fresh
    refine ⟨⟨?_, ?_⟩, ?_, ?_, ?_, hf.rowPc.symm⟩
    · rw [hf.curCfa]
      rfl
    · rw [hf.curRegs]
      exact fun _ _ => nofun
    · rw [hf.cieRegs]
      exact fun _ _ => nofun
    · rw [hf.stack]
      exact .nil
    · rw [hf.rows]
      exact .nil
  obtain ⟨h₁, hat₁⟩ := h₀.runStream h.fresh.at h.cie
  have h₂ : prog.cieSources.Tracks b₂ := by
    have hr := h.resumed
    refine ⟨?_, ?_, ?_, ?_, ?_⟩
    · rw [hr.curCfa, hr.curRegs]
      exact h₁.cur
    · rw [hr.cieRegs]
      exact h₁.cur.regs
    · rw [hr.stack]
      exact h₁.stack
    · rw [hr.rows]
      exact h₁.rows
    · rw [hr.rowPc]
      exact h₁.loc
  obtain ⟨h₃, hat₃⟩ := h₂.runStream (h.resumed.at hat₁) h.fde
  have h₄ := h₃.moveTo prog.state.functionEnd
  rw [hat₃.bias] at h₄
  rw [h.rows]
  exact h₄.rows

/-- Every row of a table names the registers its operands named, exactly when each row's CFA
register was named at all and the operands in force fit in a byte. -/
theorem rows_name_operands_iff (mem : Word → Byte) (fdeVaddr ehFrameStart ehFrameEnd bias : Word)
    (cfi : CFI δ) (h : readFDE mem fdeVaddr ehFrameStart ehFrameEnd bias = .ok cfi) :
    ∃ prog, readProgram mem fdeVaddr ehFrameStart ehFrameEnd bias = .ok prog ∧
      (List.Forall₂ CFIRow.Names cfi.rows prog.sources ↔ ∀ src ∈ prog.sources, src.Bytes) := by
  obtain ⟨prog, b₀, b₁, b₂, b₃, st, hprog, hy⟩ := readFDE_yields h
  refine ⟨prog, hprog, ?_⟩
  have hof := hy.sources_of
  clear hy
  generalize prog.sources = sources, cfi.rows = rows at hof
  induction hof with
  | nil => simp
  | @cons src row srcs rows hhead htail ih =>
    rw [List.forall₂_cons, List.forall_mem_cons]
    exact and_congr hhead.names_iff ih

end

theorem rows_name_operands_of_push :
    ∃ cfi : CFI Int64, readFDE (Sample.ehFrameMem [0x41, 0x0e, 0x10]) 0x2018 0x2000 0x2034 0 = .ok cfi ∧
      ∃ prog, readProgram (Sample.ehFrameMem [0x41, 0x0e, 0x10]) 0x2018 0x2000 0x2034 0 = .ok prog ∧
        (List.Forall₂ CFIRow.Names cfi.rows prog.sources ↔ ∀ src ∈ prog.sources, src.Bytes) := by
  have hread : ∃ cfi : CFI Int64,
      readFDE (Sample.ehFrameMem [0x41, 0x0e, 0x10]) 0x2018 0x2000 0x2034 0 = .ok cfi := ⟨_, rfl⟩
  obtain ⟨cfi, hcfi⟩ := hread
  exact ⟨cfi, hcfi, rows_name_operands_iff _ _ _ _ _ cfi hcfi⟩

/-- `DW_CFA_def_cfa` with the register operand 263 makes a row computing the CFA from `%rsp`. -/
theorem row_names_unnamed_register :
    ∃ (cfi : CFI Int64) (prog : FDEProgram),
      readFDE (Sample.ehFrameMem [0x0c, 0x87, 0x02, 0x08]) 0x2018 0x2000 0x2034 0 = .ok cfi ∧
      readProgram (Sample.ehFrameMem [0x0c, 0x87, 0x02, 0x08]) 0x2018 0x2000 0x2034 0 = .ok prog ∧
      prog.fdeOps = [.defCfa 263 8] ∧ cfi.rows.map (·.cfa) = [.regOffset 7 8] ∧
      ¬ List.Forall₂ CFIRow.Names cfi.rows prog.sources := by
  refine ⟨_, _, rfl, rfl, rfl, rfl, ?_⟩
  intro h
  obtain ⟨hrow, -⟩ := List.forall₂_cons.mp h
  obtain ⟨w, hw, hreg⟩ := hrow.1 rfl
  cases hw
  exact absurd hreg (by decide)

end UnwindCheck
