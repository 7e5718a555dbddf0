import UnwindCheck.Driver.Exit

/-! Which overlapping FDEs the comparison of neighbours reports. -/
namespace UnwindCheck
variable {δ : Type}

/-- Two FDEs with an address in common. -/
def CFI.Intersects (a b : CFI δ) : Prop := ∃ pc, a.Covers pc ∧ b.Covers pc

/-- Ranges with something in common are nonempty and start before the other one ends. -/
theorem CFI.intersects_iff (a b : CFI δ) : (a.pcBegin < a.pcEnd ∧ b.pcBegin < b.pcEnd) ∧
    a.pcBegin < b.pcEnd ∧ b.pcBegin < a.pcEnd ↔ a.Intersects b := by
  constructor
  · rintro ⟨⟨ha, hb⟩, hab, hba⟩
    by_cases h : a.pcBegin ≤ b.pcBegin
    · exact ⟨b.pcBegin, ⟨h, hba⟩, BitVec.le_refl _, hb⟩
    · exact ⟨a.pcBegin, ⟨BitVec.le_refl _, ha⟩, BitVec.le_of_lt (BitVec.not_le.mp h), hab⟩
  · rintro ⟨pc, ⟨hlo, hhi⟩, hlo', hhi'⟩
    refine ⟨⟨?_, ?_⟩, ?_, ?_⟩ <;> bv_omega

instance (a b : CFI δ) : Decidable (a.Intersects b) := decidable_of_iff _ (a.intersects_iff b)

/-- The FDEs of a list that share an address with one before them. -/
def overlapping (fdes : List (Word × CFI δ)) : List (Word × CFI δ) :=
  Lib.relatedBefore (fun prev cur => prev.2.Intersects cur.2) [] fdes

/-- Where two neighbours share no address, nothing further left reaches the second of them. -/
def NeighboursTell (fdes : List (Word × CFI δ)) : Prop :=
  Lib.NoneHidden (fun prev cur => prev.2.Intersects cur.2) [] fdes

instance (fdes : List (Word × CFI δ)) : Decidable (NeighboursTell fdes) :=
  inferInstanceAs (Decidable (Lib.NoneHidden _ _ _))

/-- A mismatch that names the range of an FDE. -/
structure FDEResult.IsOverlapOf (r : FDEResult) (fde : Word × CFI δ) : Prop where
  fdeAddr : r.fdeAddr = fde.1
  pcBegin : r.pcBegin = fde.2.pcBegin
  pcEnd : r.pcEnd = fde.2.pcEnd
  verdict : r.verdict = .mismatch
  findings : r.findings.map Finding.severity = [.mismatch]

/-- An FDE with nothing else for the structural checks to object to. -/
def ELFBinary.Sound (bin : ELFBinary) (raw : RawFDE δ) : Prop :=
  ∃ cfi, raw.cfi = .ok cfi ∧ cfi.pcBegin < cfi.pcEnd ∧
    bin.isExecutable cfi.pcBegin (cfi.pcEnd - cfi.pcBegin) = true ∧
    bin.inPLT cfi.pcBegin (cfi.pcEnd - cfi.pcBegin) = false

theorem triage_of_sound {bin : ELFBinary} {raw : RawFDE δ} (h : bin.Sound raw) :
    ∃ cfi, triage bin raw = .inr cfi ∧ cfi.pcBegin < cfi.pcEnd := by
  obtain ⟨cfi, hcfi, hlt, hexec, hplt⟩ := h
  refine ⟨cfi, ?_, hlt⟩
  have hne : cfi.pcEnd ≠ cfi.pcBegin := by bv_omega
  have hback : ¬ cfi.pcEnd < cfi.pcBegin := by bv_omega
  unfold triage
  rw [hcfi]
  simp [hne, hback, hexec, hplt]

/-- What is left of sound FDEs after the first loop: all of them, and no result. -/
theorem structuralResults_of_sound (tools : Tools δ) {bin : ELFBinary} {fdes : List (RawFDE δ)}
    (h : ∀ raw ∈ fdes, bin.Sound raw) :
    structuralResults tools bin fdes =
      overlapResults (tools.sortByBegin.sort (soundFDEs bin fdes)) := by
  have hnone : (fdes.filterMap fun raw => (triage bin raw).getLeft?) = [] := by
    rw [List.filterMap_eq_nil_iff]
    intro raw hraw
    obtain ⟨cfi, hcfi, -⟩ := triage_of_sound (h raw hraw)
    rw [hcfi]
    rfl
  rw [structuralResults, hnone, List.nil_append]

/-- In begin order the test on neighbours is intersection. -/
theorem overlapResults_neighbours {fdes : List (Word × CFI δ)}
    (hne : ∀ fde ∈ fdes, fde.2.pcBegin < fde.2.pcEnd)
    (hs : fdes.Pairwise fun a b => a.2.pcBegin.toNat ≤ b.2.pcBegin.toNat) :
    List.Forall₂ FDEResult.IsOverlapOf (overlapResults fdes)
      (Lib.relatedNeighbours (fun prev cur => prev.2.Intersects cur.2) fdes) := by
  induction fdes with
  | nil => exact .nil
  | cons prev fdes ih =>
    cases fdes with
    | nil => exact .nil
    | cons cur rest =>
      obtain ⟨hfirst, hrest⟩ := List.pairwise_cons.mp hs
      have ih := ih (fun fde hfde => hne fde (List.mem_cons_of_mem prev hfde)) hrest
      have hle := hfirst cur List.mem_cons_self
      have hprev := hne prev List.mem_cons_self
      have hcur := hne cur (List.mem_cons_of_mem prev List.mem_cons_self)
      have hmeets : cur.2.pcBegin < prev.2.pcEnd ↔ prev.2.Intersects cur.2 := by
        rw [← CFI.intersects_iff]
        constructor
        · intro h
          exact ⟨⟨hprev, hcur⟩, by bv_omega, h⟩
        · intro h
          exact h.2.2
      rw [overlapResults, Lib.relatedNeighbours]
      refine List.rel_append ?_ ih
      by_cases h : cur.2.pcBegin < prev.2.pcEnd
      · rw [if_pos h, if_pos (hmeets.mp h)]
        exact .cons ⟨rfl, rfl, rfl, rfl, rfl⟩ .nil
      · rw [if_neg h, if_neg fun hm => h (hmeets.mpr hm)]
        exact .nil

/-- The structural checks flag exactly the FDEs that share an address with an earlier one, in begin
order, if and only if no overlap is hidden behind a neighbour. -/
theorem overlapsFlagged_iff (tools : Tools δ) (bin : ELFBinary) (fdes : List (RawFDE δ))
    (h : ∀ raw ∈ fdes, bin.Sound raw) :
    List.Forall₂ FDEResult.IsOverlapOf (structuralResults tools bin fdes)
        (overlapping (tools.sortByBegin.sort (soundFDEs bin fdes))) ↔
      NeighboursTell (tools.sortByBegin.sort (soundFDEs bin fdes)) := by
  have hperm := tools.sortByBegin.perm (soundFDEs bin fdes)
  have hne : ∀ fde ∈ tools.sortByBegin.sort (soundFDEs bin fdes), fde.2.pcBegin < fde.2.pcEnd :=
    fun fde hfde => (mem_soundFDEs (hperm.mem_iff.mp hfde)).2
  have hflags := overlapResults_neighbours hne (tools.sortByBegin.sorted _)
  rw [structuralResults_of_sound tools h]
  generalize tools.sortByBegin.sort (soundFDEs bin fdes) = sorted at hflags
  cases sorted with
  | nil => simp [overlapResults, overlapping, Lib.relatedBefore, NeighboursTell, Lib.NoneHidden]
  | cons first rest =>
    have hall : overlapping (first :: rest) =
        Lib.relatedBefore (fun prev cur => prev.2.Intersects cur.2) [first] rest := by
      simp [overlapping, Lib.relatedBefore]
    rw [NeighboursTell, ← Lib.relatedNeighbours_eq_iff, hall]
    constructor
    · intro hreported
      refine (Lib.relatedNeighbours_sublist _ [] first rest).eq_of_length ?_
      rw [← hflags.length_eq, hreported.length_eq]
    · intro heq
      rw [← heq]
      exact hflags

namespace Sample

/-- An image with nothing but 256 bytes of code at 0x1000. -/
def codeOnly : ELFBinary where
  segments := [⟨⟨0x1000, 0x100, true⟩, 0x100, 0⟩]
  mem _ := 0x90
  bias := 0
  ehFrameStart := 0
  ehFrameEnd := 0
  pltRanges := []
  funcSymbols := []

def fdeOver (vaddr pcBegin pcEnd : Word) : RawFDE Int64 :=
  ⟨vaddr, .ok ⟨vaddr, pcBegin, pcEnd, kDWARFRip, false, 0, false, []⟩⟩

/-- One long range and two short ones inside it. -/
def nestedFDEs : List (RawFDE Int64) :=
  [fdeOver 0x2000 0x1000 0x1030, fdeOver 0x2020 0x1008 0x1010, fdeOver 0x2040 0x1018 0x1020]

/-- Two ranges that overlap, and one apart from both. -/
def crossingFDEs : List (RawFDE Int64) :=
  [fdeOver 0x2000 0x1000 0x1010, fdeOver 0x2020 0x1008 0x1020, fdeOver 0x2040 0x1020 0x1030]

theorem codeOnly_sound {vaddr pcBegin pcEnd : Word} (h : pcBegin < pcEnd)
    (hexec : codeOnly.isExecutable pcBegin (pcEnd - pcBegin) = true) :
    codeOnly.Sound (fdeOver vaddr pcBegin pcEnd) := ⟨_, rfl, h, hexec, rfl⟩

end Sample

/-- Only the first of the two short ranges is reported. -/
theorem nested_overlap_hidden :
    (∀ raw ∈ Sample.nestedFDEs, Sample.codeOnly.Sound raw) ∧
      (overlapping (Sample.tools.sortByBegin.sort
        (soundFDEs Sample.codeOnly Sample.nestedFDEs))).map Prod.fst = [0x2020, 0x2040] ∧
      (structuralResults Sample.tools Sample.codeOnly Sample.nestedFDEs).map (·.fdeAddr) = [0x2020] ∧
      ¬ List.Forall₂ FDEResult.IsOverlapOf
        (structuralResults Sample.tools Sample.codeOnly Sample.nestedFDEs)
        (overlapping (Sample.tools.sortByBegin.sort
          (soundFDEs Sample.codeOnly Sample.nestedFDEs))) := by
  refine ⟨?_, by decide +kernel, by decide +kernel, ?_⟩
  · simp only [Sample.nestedFDEs, List.forall_mem_cons, List.not_mem_nil, false_implies,
      implies_true, and_true]
    refine ⟨?_, ?_, ?_⟩ <;> exact Sample.codeOnly_sound (by decide) (by decide)
  · intro h
    have hlen := h.length_eq
    revert hlen
    decide +kernel

theorem crossing_overlap_flagged :
    (∀ raw ∈ Sample.crossingFDEs, Sample.codeOnly.Sound raw) ∧
      List.Forall₂ FDEResult.IsOverlapOf
        (structuralResults Sample.tools Sample.codeOnly Sample.crossingFDEs)
        (overlapping (Sample.tools.sortByBegin.sort
          (soundFDEs Sample.codeOnly Sample.crossingFDEs))) := by
  have hsound : ∀ raw ∈ Sample.crossingFDEs, Sample.codeOnly.Sound raw := by
    simp only [Sample.crossingFDEs, List.forall_mem_cons, List.not_mem_nil, false_implies,
      implies_true, and_true]
    refine ⟨?_, ?_, ?_⟩ <;> exact Sample.codeOnly_sound (by decide) (by decide)
  have htell : NeighboursTell (Sample.tools.sortByBegin.sort
      (soundFDEs Sample.codeOnly Sample.crossingFDEs)) := by decide +kernel
  exact ⟨hsound, (overlapsFlagged_iff Sample.tools Sample.codeOnly _ hsound).mpr htell⟩

end UnwindCheck
