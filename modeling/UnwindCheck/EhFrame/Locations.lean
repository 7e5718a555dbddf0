import UnwindCheck.EhFrame.Program
import UnwindCheck.Lib.Ascents

/-! The order of the rows in a table, from the locations the opcode stream goes through. -/
namespace UnwindCheck
variable {δ : Type} [Offset δ]

namespace FDEProgram
variable (prog : FDEProgram)

/-- The addresses the operations move to one after the other, and the end of the function. -/
def locationsFrom : (loc : Word) → List CfaOp → List Word
  | _, [] => [prog.pcEnd]
  | loc, op :: ops =>
    if op.isMove then prog.moveLoc loc op :: locationsFrom (prog.moveLoc loc op) ops
    else locationsFrom loc ops

def locations : List ℕ := (prog.locationsFrom prog.pcBegin prog.fdeOps).map BitVec.toNat

/-- No move backwards that lands before the function, or at or before an address that was left
forwards, is followed by a move forwards. -/
def NeverReturns : Prop := Lib.NoReturn prog.pcBegin.toNat [] prog.pcBegin.toNat prog.locations

end FDEProgram

omit [Offset δ] in
/-- A row is recorded when its location is left forwards. -/
theorem TableBuilder.map_pcStart_handleSetLoc (b : TableBuilder δ) (newPc : Word) :
    (b.handleSetLoc newPc).result.rows.map (·.pcStart.toNat) =
      b.result.rows.map (·.pcStart.toNat) ++
        if b.rowPc.toNat < (newPc - b.bias).toNat then [b.rowPc.toNat] else [] := by
  unfold handleSetLoc
  dsimp only
  by_cases h : b.rowPc < newPc - b.bias
  · have h' : b.rowPc.toNat < (newPc - b.bias).toNat := h
    rw [if_pos h, if_pos h', List.map_append]
    rfl
  · have h' : ¬ b.rowPc.toNat < (newPc - b.bias).toNat := h
    rw [if_neg h, if_neg h', List.append_nil]

/-- The rows a stream records start at the ascents of its locations. -/
theorem map_pcStart_runStream {prog : FDEProgram} {ops : List CfaOp} {st st' : EHReaderState}
    {b b' : TableBuilder δ} (hat : prog.At st b) (hrun : runStream false ops st b = .ok (st', b')) :
    (b'.handleSetLoc prog.state.functionEnd).result.rows.map (·.pcStart.toNat) =
      b.result.rows.map (·.pcStart.toNat) ++
        Lib.ascents b.rowPc.toNat ((prog.locationsFrom b.rowPc ops).map BitVec.toNat) := by
  induction ops generalizing st b with
  | nil =>
    cases hrun
    rw [TableBuilder.map_pcStart_handleSetLoc, hat.bias]
    change _ = _ ++ ((if b'.rowPc.toNat < prog.pcEnd.toNat then [b'.rowPc.toNat] else []) ++ [])
    rw [List.append_nil]
    rfl
  | cons op ops ih =>
    obtain ⟨⟨st₁, b₁⟩, hop, hrest⟩ := except_bind_ok hrun
    obtain ⟨hat₁, hloc⟩ := hat.runOp hop
    rw [ih hat₁ hrest]
    cases hmove : op.isMove with
    | false =>
      have hb := (runOp_samePlace hmove hop).2
      rw [hb.rows, hb.rowPc, FDEProgram.locationsFrom, hmove]
      rfl
    | true =>
      obtain ⟨-, -, rfl⟩ := runOp_move hmove hop
      have hpc : (b.handleSetLoc (op.newLoc st)).rowPc = op.newLoc st - b.bias := rfl
      rw [TableBuilder.map_pcStart_handleSetLoc, FDEProgram.locationsFrom, hmove, if_pos rfl,
        List.map_cons, Lib.ascents_cons, List.append_assoc, ← hloc, hpc]

/-- The table as its declaration has it: sorted by start, from the start of the function on. -/
structure CFI.InOrder (cfi : CFI δ) : Prop where
  sorted : cfi.rows.Pairwise fun row row' => row.pcStart < row'.pcStart
  first : cfi.rows.head?.map CFIRow.pcStart = some cfi.pcBegin

omit [Offset δ] in
theorem CFI.inOrder_iff {cfi : CFI δ} {starts : List ℕ}
    (h : cfi.rows.map (·.pcStart.toNat) = starts) :
    cfi.InOrder ↔ starts.Pairwise (· < ·) ∧ starts.head? = some cfi.pcBegin.toNat := by
  have hfirst : cfi.rows.head?.map CFIRow.pcStart = some cfi.pcBegin ↔
      starts.head? = some cfi.pcBegin.toNat := by
    rw [← h]
    cases cfi.rows with
    | nil => simp
    | cons row rows => simp [BitVec.toNat_inj]
  have hsorted : cfi.rows.Pairwise (fun row row' => row.pcStart < row'.pcStart) ↔
      starts.Pairwise (· < ·) := by
    rw [← h, List.pairwise_map]
    rfl
  exact ⟨fun h => ⟨hsorted.mp h.sorted, hfirst.mp h.first⟩,
    fun h => ⟨hsorted.mpr h.1, hfirst.mpr h.2⟩⟩

/-- A table with rows is in order exactly when its program never returns. -/
theorem readFDE_inOrder_iff {mem : Word → Byte} {fdeVaddr ehFrameStart ehFrameEnd bias : Word}
    {cfi : CFI δ} {prog : FDEProgram}
    (h : readFDE mem fdeVaddr ehFrameStart ehFrameEnd bias = .ok cfi)
    (hprog : readProgram mem fdeVaddr ehFrameStart ehFrameEnd bias = .ok prog)
    (hne : cfi.rows ≠ []) : cfi.InOrder ↔ prog.NeverReturns := by
  obtain ⟨prog', b₀, b₁, b₂, b₃, st, hprog', hy⟩ := readFDE_yields h
  obtain rfl : prog' = prog := Except.ok.inj (hprog'.symm.trans hprog)
  have hsame := (runStream_cie hy.cie).2
  have hat₁ : prog'.At prog'.state b₁ :=
    ⟨hsame.rowPc.trans hy.fresh.rowPc, hsame.bias.trans hy.fresh.bias, rfl, rfl⟩
  have hstarts : cfi.rows.map (·.pcStart.toNat) =
      Lib.ascents prog'.pcBegin.toNat prog'.locations := by
    have hrows : b₂.result.rows = [] := by
      rw [hy.resumed.rows, hsame.rows, hy.fresh.rows]
    have hpc : b₂.rowPc = prog'.pcBegin := by
      rw [hy.resumed.rowPc, hsame.rowPc, hy.fresh.rowPc]
    rw [hy.rows, map_pcStart_runStream (hy.resumed.at hat₁) hy.fde, hrows, hpc]
    rfl
  have hascent : Lib.ascents prog'.pcBegin.toNat prog'.locations ≠ [] := by
    rw [← hstarts]
    simpa using hne
  rw [CFI.inOrder_iff hstarts, FDEProgram.NeverReturns, Lib.noReturn_iff_sorted hascent, hy.pcBegin]

namespace Sample

/-- A CIE with the code alignment factor 2^64 - 1, and an FDE over the 16 bytes at 0x1000 with
set_loc 0x1008 and advance_loc 16. -/
def returning : List Byte :=
  [0x1b, 0, 0, 0, 0, 0, 0, 0, 1, 0x7a, 0x52, 0, 0xff, 0xff, 0xff, 0xff, 0xff, 0xff, 0xff, 0xff, 0xff,
    1, 0x78, 0x10, 1, 0x1b, 0x0c, 7, 8, 0x90, 1, 0x13, 0, 0, 0, 0x23, 0, 0, 0, 0xd9, 0xef, 0xff, 0xff,
    16, 0, 0, 0, 0, 0x01, 0xd7, 0xef, 0xff, 0xff, 0x50]

def returningMem : Word → Byte := fun a => returning.getD (a - 0x2000).toNat 0

end Sample

/-- The second row starts before the first. -/
theorem returning_not_inOrder : ∃ cfi : CFI Int64,
    readFDE Sample.returningMem 0x201f 0x2000 0x2036 0 = .ok cfi ∧
      cfi.rows.map CFIRow.pcStart = [0x1000, 0xff8] ∧ ¬ cfi.InOrder := by
  have h : (readFDE (δ := Int64) Sample.returningMem 0x201f 0x2000 0x2036 0).map
      (fun cfi => cfi.rows.map CFIRow.pcStart) = .ok [0x1000, 0xff8] := by
    decide +kernel
  obtain ⟨cfi, hcfi, hrows⟩ := except_map_ok h
  refine ⟨cfi, hcfi, hrows, fun hord => ?_⟩
  have hsorted : ([0x1000, 0xff8] : List Word).Pairwise (· < ·) := by
    rw [← hrows, List.pairwise_map]
    exact hord.sorted
  revert hsorted
  decide

theorem push_inOrder : ∃ cfi : CFI Int64,
    readFDE (Sample.ehFrameMem [0x41, 0x0e, 0x10]) 0x2018 0x2000 0x2034 0 = .ok cfi ∧
      cfi.rows ≠ [] ∧ cfi.InOrder := by
  have h : (readFDE (δ := Int64) (Sample.ehFrameMem [0x41, 0x0e, 0x10]) 0x2018 0x2000 0x2034 0).map
      (fun cfi => cfi.rows.map CFIRow.pcStart) = .ok [0x1000, 0x1001] := by
    decide +kernel
  obtain ⟨cfi, hcfi, hrows⟩ := except_map_ok h
  have hne : cfi.rows ≠ [] := by
    intro hnil
    rw [hnil] at hrows
    cases hrows
  have hp : (readProgram (Sample.ehFrameMem [0x41, 0x0e, 0x10]) 0x2018 0x2000 0x2034 0).map
      (fun prog => (prog.pcBegin.toNat, prog.locations)) = .ok (0x1000, [0x1001, 0x1010]) := by
    decide +kernel
  obtain ⟨prog, hprog, hlocs⟩ := except_map_ok hp
  obtain ⟨hbegin, hlocs⟩ := Prod.mk.inj hlocs
  refine ⟨cfi, hcfi, hne, (readFDE_inOrder_iff hcfi hprog hne).mpr ?_⟩
  rw [FDEProgram.NeverReturns, hbegin, hlocs]
  exact ⟨fun hback => absurd hback (by decide), fun hback => absurd hback (by decide), trivial⟩

end UnwindCheck
