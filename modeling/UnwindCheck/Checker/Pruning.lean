import UnwindCheck.Checker.Coverage

/-! Fall-through edges the walk drops because the declared rule fits neither side. -/
namespace UnwindCheck
variable {δ : Type} [Offset δ]

/-- A reached instruction that moves the register of the CFA rule of the row starting right after
it, while that rule is satisfied neither by what the register was nor by what it became. -/
structure Env.DoublyWrong (env : Env δ) (w : Walk δ) (pc : Word) (st : AbsState δ)
    (insn : Instruction) (row : CFIRow δ) (q : Fin 16) (was now : δ) : Prop where
  reached : w.inStates[pc]? = some st
  decoded : env.decodeAt pc = some insn
  falls : (transfer env.z insn st).1.fallsThrough = true
  no_call : (transfer env.z insn st).1.isCall = false
  declared : env.cfi.rowAt insn.next = some row
  starts : row.pcStart = insn.next
  kind : row.cfa.kind = .regOffset
  reg : row.cfa.reg = q
  before : st.gpr q = .cfaRel was
  after : (transfer env.z insn st).2.gpr q = .cfaRel now
  moved : was ≠ now
  before_wrong : was + row.cfa.offset ≠ Offset.ofInt 0
  after_wrong : now + row.cfa.offset ≠ Offset.ofInt 0

namespace CFI
variable {cfi : CFI δ}

omit [Offset δ] in
/-- The row found starts at or before the address. -/
theorem pcStart_le_of_rowIndexAt {pc : Word} {i : Fin cfi.rows.length}
    (h : cfi.rowIndexAt pc = some i) : (cfi.rows.get i).pcStart ≤ pc := by
  unfold rowIndexAt at h
  split_ifs at h with hc
  · dsimp only at h
    split_ifs at h with hit
    rw [Option.some.injEq] at h
    subst h
    rcases Lib.upperBound_left
      (fun i => (cfi.rows[i]?).any fun row => pc < row.pcStart) cfi.rows.length with hz | hl
    · omega
    · rw [List.getElem?_eq_getElem hit.2] at hl
      simpa [BitVec.not_lt] using hl

end CFI

namespace Env
variable {env : Env δ} {w : Walk δ}

/-- The walk does not take such an edge. -/
theorem DoublyWrong.dropped {pc : Word} {st : AbsState δ} {insn : Instruction} {row : CFIRow δ}
    {q : Fin 16} {was now : δ} (h : env.DoublyWrong w pc st insn row q was now)
    (hw : w.Inv env none) :
    fallThroughIsReal env.cfi (env.cfi.rowIndexAt pc) insn.next st.gpr (transfer env.z insn st).2
      false = some false := by
  obtain ⟨i, hi, hrow⟩ := Option.map_eq_some_iff.mp h.declared
  have hc := hw.covered pc st h.reached
  have hnext := (next_toNat h.decoded hc).1
  have hsize := one_le_size h.decoded
  have hne : some i ≠ env.cfi.rowIndexAt pc := by
    intro he
    have hle := CFI.pcStart_le_of_rowIndexAt he.symm
    rw [hrow, h.starts, BitVec.le_def] at hle
    omega
  have hreg : row.cfa.reg < 16 := h.reg ▸ q.isLt
  have hq : (⟨row.cfa.reg, hreg⟩ : Fin 16) = q := Fin.ext h.reg
  unfold fallThroughIsReal
  simp only [hi, if_neg hne, hrow, Bool.false_and, Bool.false_eq_true, if_false]
  rw [dif_pos ⟨h.kind, hreg⟩]
  simp only [hq, h.before, h.after, cfaSatisfiedBy, h.before_wrong, h.after_wrong, decide_false,
    Bool.or_false]

end Env

/-- An edge dropped so keeps the FDE from being blessed, unless the scan finds its target in an
instruction reached another way or in a gap of mere padding. -/
theorem doublyWrong_not_blessed {options : FDECheckerOptions δ} {cfi : CFI δ}
    {atFunctionEntry guessing : Bool} (hon : options.reportCoverageGaps = true) {pc : Word}
    {st : AbsState δ} {insn : Instruction} {row : CFIRow δ} {q : Fin 16} {was now : δ}
    (h : (Env.of options cfi guessing).DoublyWrong (settledWalk options cfi guessing) pc st insn row
      q was now)
    (hgap : ¬ (Env.of options cfi guessing).Accounted (settledWalk options cfi guessing) insn.next) :
    fallThroughIsReal cfi (cfi.rowIndexAt pc) insn.next st.gpr
        (transfer options.disasm insn st).2 false = some false ∧
      (check options cfi atFunctionEntry guessing).verdict ≠ .blessed := by
  obtain ⟨first, hfirst, hra⟩ := exists_row_of_reached h.reached
  have hcov : cfi.Covers insn.next := cfi.covers_of_rowAt h.declared
  have hbegin : cfi.Covers cfi.pcBegin := ⟨BitVec.le_refl _, hcov.nonempty⟩
  have hinv : ((Env.of options cfi guessing).settle first).Inv (Env.of options cfi guessing) none :=
    Env.inv_settle first hbegin
  rw [settledWalk_eq hfirst hra] at h hgap
  constructor
  · exact h.dropped hinv
  · intro hb
    have hra' : cfi.raUndefined = false := by simpa [CFI.raUndefined, hfirst] using hra
    obtain ⟨first', hfirst', hs, -⟩ := silent_of_blessed hra' hb
    obtain rfl : first = first' := Option.some.inj (hfirst.symm.trans hfirst')
    exact hgap (hs.accounted hon hcov)

namespace Sample

/-- `push; ret` where the row of the `ret` fits rsp neither before nor after the `push`. -/
def stranded : CFI Int64 := cfi 2 [row 0x1000 8, row 0x1001 32]

def strandedOptions : FDECheckerOptions Int64 := options [0x50, 0xc3] stranded

/-- `je` over two pushes to a `ret`, the row of the `ret` right for the jump only. -/
def rescued : CFI Int64 := cfi 5 [row 0x1000 8, row 0x1003 16, row 0x1004 8]

def rescuedOptions : FDECheckerOptions Int64 := options [0x74, 0x02, 0x50, 0x50, 0xc3] rescued

/-- The settled state at an address. -/
def stateAt (w : Walk Int64) (pc : Word) : AbsState Int64 := (w.inStates[pc]?).getD .init

end Sample

theorem stranded_not_blessed :
    fallThroughIsReal Sample.stranded (Sample.stranded.rowIndexAt 0x1000) 0x1001
        (Sample.stateAt (settledWalk Sample.strandedOptions Sample.stranded false) 0x1000).gpr
        (transfer Sample.decoder ⟨0x1000, Sample.push⟩
          (Sample.stateAt (settledWalk Sample.strandedOptions Sample.stranded false) 0x1000)).2
        false = some false ∧
      (check Sample.strandedOptions Sample.stranded true false).verdict ≠ .blessed := by
  have h : (Env.of Sample.strandedOptions Sample.stranded false).DoublyWrong
      (settledWalk Sample.strandedOptions Sample.stranded false) 0x1000
      (Sample.stateAt (settledWalk Sample.strandedOptions Sample.stranded false) 0x1000)
      ⟨0x1000, Sample.push⟩ (Sample.row 0x1001 32) 7 (-8) (-16) := by
    constructor <;> decide +kernel
  exact doublyWrong_not_blessed rfl h (by decide +kernel)

/-- The jump brings a state that fits the row, so the edge that does not fit goes unnoticed. -/
theorem rescued_blessed :
    (Env.of Sample.rescuedOptions Sample.rescued false).DoublyWrong
        (settledWalk Sample.rescuedOptions Sample.rescued false) 0x1003
        (Sample.stateAt (settledWalk Sample.rescuedOptions Sample.rescued false) 0x1003)
        ⟨0x1003, Sample.push⟩ (Sample.row 0x1004 8) 7 (-16) (-24) ∧
      (check Sample.rescuedOptions Sample.rescued true false).verdict = .blessed := by
  refine ⟨?_, by decide +kernel⟩
  constructor <;> decide +kernel

end UnwindCheck
