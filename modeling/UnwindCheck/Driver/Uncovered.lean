import UnwindCheck.Elf.Binary
import UnwindCheck.Checker.Run

/-! Functions in executable memory that no FDE covers. -/
namespace UnwindCheck

/-- One iteration of `MergeRanges`, the ranges merged so far last one first. -/
def mergeRange (merged : List (Word × Word)) (r : Word × Word) : List (Word × Word) :=
  match merged with
  | last :: rest => if r.1 ≤ last.2 then (last.1, stdMax last.2 r.2) :: rest else r :: last :: rest
  | [] => [r]

/-- The order of pairs. -/
def rangeLE (a b : Word × Word) : Bool := a.1 < b.1 ∨ a.1 = b.1 ∧ a.2 ≤ b.2

def mergeRanges (ranges : List (Word × Word)) : List (Word × Word) :=
  ((ranges.insertionSort fun a b => rangeLE a b).foldl mergeRange []).reverse

/-- The loop of `UncoveredBytes`: the cursor and the bytes counted so far. -/
def uncoveredFrom (stop : Word) : (coverage : List (Word × Word)) → (cursor uncovered : Word) →
    Word × Word
  | [], cursor, uncovered => (cursor, uncovered)
  | it :: rest, cursor, uncovered =>
    if it.1 < stop ∧ cursor < stop then
      uncoveredFrom stop rest (stdMax cursor (stdMin it.2 stop))
        (if cursor < it.1 then uncovered + (stdMin it.1 stop - cursor) else uncovered)
    else (cursor, uncovered)

def uncoveredBytes (start stop : Word) (coverage : List (Word × Word)) : Word :=
  let it := Lib.upperBound (fun i => (coverage[i]?).any fun iv => start < iv.2) coverage.length
  let (cursor, uncovered) := uncoveredFrom stop (coverage.drop it) start 0
  if cursor < stop then uncovered + (stop - cursor) else uncovered

/-- The result for one symbol, if it calls for any. -/
def uncoveredResult (bin : ELFBinary) (coverage : List (Word × Word)) (sym : FuncSymbol) :
    Option FDEResult :=
  if !bin.isExecutable sym.vaddr sym.size ∨ bin.inPLT sym.vaddr sym.size then none
  else
    let uncovered := uncoveredBytes sym.vaddr (sym.vaddr + sym.size) coverage
    if uncovered = 0 then none
    else
      let message := if uncovered = sym.size then "no FDE covers this symbol at all"
        else "no FDE covers " ++ toString uncovered.toNat ++ " of its " ++ toString sym.size.toNat ++
          " bytes"
      some ⟨0, sym.vaddr, sym.vaddr + sym.size, false, .review,
        [⟨.review, sym.vaddr, message, 0⟩], 0, none, []⟩

/-- The loop of `CheckUncoveredSymbols`; aliases of an address already seen are passed over. -/
def uncoveredSymbols (bin : ELFBinary) (coverage : List (Word × Word)) :
    (flagged : List Word) → List FuncSymbol → List FDEResult
  | _, [] => []
  | flagged, sym :: syms =>
    if sym.size = 0 ∨ sym.vaddr ∈ flagged then uncoveredSymbols bin coverage flagged syms
    else (uncoveredResult bin coverage sym).toList ++
      uncoveredSymbols bin coverage (sym.vaddr :: flagged) syms

def checkUncoveredSymbols (bin : ELFBinary) (fdeRanges : List (Word × Word)) : List FDEResult :=
  uncoveredSymbols bin (mergeRanges fdeRanges) [] bin.funcSymbols

/-- A symbol that is reported is never blessed. -/
theorem verdict_of_mem_uncoveredSymbols {bin : ELFBinary} {coverage : List (Word × Word)}
    {flagged : List Word} {syms : List FuncSymbol} {r : FDEResult}
    (h : r ∈ uncoveredSymbols bin coverage flagged syms) : r.verdict = .review := by
  induction syms generalizing flagged with
  | nil => cases h
  | cons sym syms ih =>
    unfold uncoveredSymbols at h
    split_ifs at h
    · exact ih h
    · rcases List.mem_append.mp h with h | h
      · unfold uncoveredResult at h
        dsimp only at h
        split_ifs at h <;> simp at h <;> rw [h]
      · exact ih h

end UnwindCheck
