import UnwindCheck.Cfi.Row

/-! Turning the opcode stream of one FDE into a row table: the visitor's side. -/
namespace UnwindCheck

/-- What `DW_CFA_remember_state` saves. -/
structure TableBuilder.Saved (δ : Type) where
  cfa : CFARule δ
  regs : Fin 17 → RegRule δ

structure TableBuilder (δ : Type) where
  result : CFI δ
  bias : Word
  rowPc : Word
  curCfa : CFARule δ
  curRegs : Fin 17 → RegRule δ
  cieRegs : Fin 17 → RegRule δ
  stack : List (TableBuilder.Saved δ)

namespace TableBuilder
variable {δ : Type} [Offset δ]

/-- A freshly constructed builder. -/
def new (fdeVaddr bias : Word) : TableBuilder δ where
  result := ⟨fdeVaddr, 0, 0, kDWARFRip, false, 0, false, []⟩
  bias := bias
  rowPc := 0
  curCfa := .initial
  curRegs := fun _ => .unset
  cieRegs := fun _ => .unset
  stack := []

variable (b : TableBuilder δ)

def startFDE (returnReg : ℕ) (pcStart pcEnd : Word) : TableBuilder δ :=
  { b with
    result := { b.result with
      returnReg := returnReg, pcBegin := pcStart - b.bias, pcEnd := pcEnd - b.bias }
    rowPc := pcStart - b.bias }

def handleAugS : TableBuilder δ := { b with result := { b.result with signalFrame := true } }

def handleLSDA (lsdaPtr : Word) : TableBuilder δ :=
  if lsdaPtr ≠ 0 then { b with result := { b.result with lsdaAddr := lsdaPtr - b.bias } } else b

def afterCIE : TableBuilder δ := { b with cieRegs := b.curRegs }

/-- The row in force, as it would be recorded now. -/
def currentRow : CFIRow δ := ⟨b.rowPc, b.curCfa, b.curRegs⟩

/-- Closes the row in force. A row that ends where it starts, or before, is not recorded. -/
def handleSetLoc (newPc : Word) : TableBuilder δ :=
  let pc := newPc - b.bias
  let rows := if b.rowPc < pc then b.result.rows ++ [b.currentRow] else b.result.rows
  { b with result := { b.result with rows := rows }, rowPc := pc }

/-- The register operand of a CFA rule is kept in a `uint8_t`. -/
def narrowReg (reg : Word) : ℕ := reg.toNat % 256

/-- The `int64_t` an `uintptr_t` operand is cast to. -/
def asOffset (w : Word) : δ := Offset.ofInt w.toInt

def handleDefCFA (reg offset : Word) : TableBuilder δ :=
  { b with curCfa := .regOffset (narrowReg reg) (asOffset offset) }

def handleDefCFAReg (reg : Word) : TableBuilder δ :=
  { b with curCfa := { b.curCfa with kind := .regOffset, reg := narrowReg reg } }

def handleDefCFAOffset (offset : Word) : TableBuilder δ :=
  { b with curCfa := { b.curCfa with kind := .regOffset, offset := asOffset offset } }

def handleDefCFAExpression : TableBuilder δ :=
  { b with curCfa := ⟨.expression, 0, Offset.ofInt 0⟩ }

/-- Registers beyond the return address are noted and otherwise ignored. -/
def setRule (reg : Word) (rule : RegRule δ) : TableBuilder δ :=
  if h : reg.toNat < 17 then { b with curRegs := Function.update b.curRegs ⟨reg.toNat, h⟩ rule }
  else { b with result := { b.result with hasExoticRegs := true } }

def handleOffset (reg newOffset : Word) : TableBuilder δ :=
  b.setRule reg (.atCFAOffset (asOffset newOffset))

def handleRegister (reg storedInReg : Word) : TableBuilder δ :=
  b.setRule reg (.inRegister (narrowReg storedInReg))

def handleRestore (reg : Word) : TableBuilder δ :=
  if h : reg.toNat < 17 then
    { b with curRegs := Function.update b.curRegs ⟨reg.toNat, h⟩ (b.cieRegs ⟨reg.toNat, h⟩) }
  else { b with result := { b.result with hasExoticRegs := true } }

def handleSameValue (reg : Word) : TableBuilder δ := b.setRule reg .sameValue

def handleUndefined (reg : Word) : TableBuilder δ := b.setRule reg .undefined

def handleValOffset (reg offset : Word) : TableBuilder δ :=
  b.setRule reg (.valOffset (asOffset offset))

def handleExpression (reg : Word) : TableBuilder δ := b.setRule reg .expression

def handleValExpression (reg : Word) : TableBuilder δ := b.setRule reg .valExpression

def handleRememberState : Except String (TableBuilder δ) :=
  if 32 ≤ b.stack.length then
    .error "DW_CFA_remember_state nested deeper than 32 levels"
  else .ok { b with stack := ⟨b.curCfa, b.curRegs⟩ :: b.stack }

def handleRestoreState : Except String (TableBuilder δ) :=
  match b.stack with
  | [] => .error "DW_CFA_restore_state with nothing remembered"
  | s :: stack => .ok { b with curCfa := s.cfa, curRegs := s.regs, stack := stack }

end TableBuilder

namespace TableBuilder
variable {δ : Type} (b : TableBuilder δ)

/-- Same rows so far and same place in the location stream. -/
structure SameRows (b b' : TableBuilder δ) : Prop where
  rows : b'.result.rows = b.result.rows
  rowPc : b'.rowPc = b.rowPc
  pcBegin : b'.result.pcBegin = b.result.pcBegin
  pcEnd : b'.result.pcEnd = b.result.pcEnd

theorem sameRows_setRule (reg : Word) (rule : RegRule δ) : SameRows b (b.setRule reg rule) := by
  unfold setRule
  split <;> exact ⟨rfl, rfl, rfl, rfl⟩

theorem sameRows_handleRestore (reg : Word) : SameRows b (b.handleRestore reg) := by
  unfold handleRestore
  split <;> exact ⟨rfl, rfl, rfl, rfl⟩

theorem sameRows_handleLSDA (p : Word) : SameRows b (b.handleLSDA p) := by
  unfold handleLSDA
  split <;> exact ⟨rfl, rfl, rfl, rfl⟩

theorem rows_handleSetLoc {newPc : Word} (h : b.rowPc < newPc - b.bias) :
    (b.handleSetLoc newPc).result.rows = b.result.rows ++ [b.currentRow] := by
  unfold handleSetLoc
  dsimp only
  rw [if_pos h]

/-- Closing a row records that one at most. -/
theorem mem_rows_handleSetLoc {newPc : Word} {row : CFIRow δ} (h : row ∈ (b.handleSetLoc newPc).result.rows) :
    row ∈ b.result.rows ∨ row = b.currentRow := by
  unfold handleSetLoc at h
  dsimp only at h
  split_ifs at h
  · rcases List.mem_append.mp h with h | h
    · exact .inl h
    · exact .inr (List.mem_singleton.mp h)
  · exact .inl h

/-- No address of the FDE lies to the left of the first row: either the first row starts at or
before `pcBegin`, or there is no row yet and the next one would. -/
def Anchored : Prop :=
  match b.result.rows with
  | [] => b.rowPc ≤ b.result.pcBegin
  | first :: _ => first.pcStart ≤ b.result.pcBegin

variable {b}

theorem SameRows.anchored {b' : TableBuilder δ} (h : SameRows b b') (hb : b.Anchored) :
    b'.Anchored := by
  unfold Anchored at hb ⊢
  rw [h.rows, h.pcBegin, h.rowPc]
  exact hb

/-- Locations may go backwards; until a row is recorded that only moves the anchor left. -/
theorem Anchored.handleSetLoc (hb : b.Anchored) (newPc : Word) : (b.handleSetLoc newPc).Anchored := by
  unfold Anchored at hb ⊢
  unfold TableBuilder.handleSetLoc
  cases hrows : b.result.rows with
  | cons first rest =>
    simp only [hrows] at hb
    by_cases h : b.rowPc < newPc - b.bias
    · simpa [h] using hb
    · simpa [h] using hb
  | nil =>
    simp only [hrows] at hb
    by_cases h : b.rowPc < newPc - b.bias
    · simpa [h, currentRow] using hb
    · simpa [h] using BitVec.le_trans (BitVec.not_lt.mp h) hb

end TableBuilder

end UnwindCheck
