import UnwindCheck.Driver.Run
import UnwindCheck.Lib.Missing

/-! The functions that no FDE covers in full: which of them are reported, and which are hidden
behind an alias. -/
namespace UnwindCheck

/-- An address inside one of the half-open ranges. -/
def Covers (ranges : List (Word × Word)) (addr : Word) : Prop := ∃ r ∈ ranges, r.1 ≤ addr ∧ addr < r.2

def Forward (ranges : List (Word × Word)) : Prop := ∀ r ∈ ranges, r.1 ≤ r.2

section Merge
variable {ranges merged : List (Word × Word)} {r : Word × Word} {addr : Word}

theorem covers_cons : Covers (r :: ranges) addr ↔ (r.1 ≤ addr ∧ addr < r.2) ∨ Covers ranges addr := by
  simp [Covers]

/-- The ranges merged so far, last one first: nothing touches, and no range to come starts before
the last. -/
structure Merging (merged : List (Word × Word)) (next : Word) : Prop where
  forward : Forward merged
  apart : merged.Pairwise fun a b => b.2 < a.1
  last : ∀ a ∈ merged, a.1 ≤ next

theorem Merging.mono {next next' : Word} (h : Merging merged next) (hle : next ≤ next') :
    Merging merged next' :=
  ⟨h.forward, h.apart, fun a ha => by have := h.last a ha; bv_omega⟩

/-- A range that starts in the last one extends it, any other comes behind. -/
theorem mergeRange_merging (h : Merging merged r.1) (hr : r.1 ≤ r.2) :
    Merging (mergeRange merged r) r.1 := by
  cases merged with
  | nil => exact ⟨by simpa [mergeRange, Forward] using hr, by simp [mergeRange], by simp [mergeRange]⟩
  | cons last rest =>
    obtain ⟨hlast, hrest⟩ := List.forall_mem_cons.mp h.forward
    obtain ⟨hapart, hpair⟩ := List.pairwise_cons.mp h.apart
    obtain ⟨hnext, hnexts⟩ := List.forall_mem_cons.mp h.last
    rw [mergeRange]
    split_ifs with htouch
    · refine ⟨List.forall_mem_cons.mpr ⟨?_, hrest⟩, List.pairwise_cons.mpr ⟨hapart, hpair⟩,
        List.forall_mem_cons.mpr ⟨hnext, hnexts⟩⟩
      unfold stdMax
      dsimp only
      split_ifs <;> bv_omega
    · refine ⟨List.forall_mem_cons.mpr ⟨hr, h.forward⟩, List.pairwise_cons.mpr ⟨?_, h.apart⟩,
        List.forall_mem_cons.mpr ⟨BitVec.le_refl _, h.last⟩⟩
      refine List.forall_mem_cons.mpr ⟨by bv_omega, fun a ha => ?_⟩
      have hbefore := hapart a ha
      bv_omega

theorem covers_mergeRange (h : Merging merged r.1) :
    Covers (mergeRange merged r) addr ↔ (r.1 ≤ addr ∧ addr < r.2) ∨ Covers merged addr := by
  cases merged with
  | nil => exact covers_cons
  | cons last rest =>
    have hnext := h.last last List.mem_cons_self
    rw [mergeRange]
    split_ifs with htouch
    · rw [covers_cons, covers_cons, ← or_assoc]
      refine or_congr ?_ Iff.rfl
      unfold stdMax
      dsimp only
      split_ifs <;> constructor <;> intro hin <;> bv_omega
    · exact covers_cons

theorem foldl_mergeRange (hsorted : ranges.Pairwise fun a b => a.1 ≤ b.1) (hforward : Forward ranges)
    (h : ∀ r ∈ ranges, Merging merged r.1) (hmerged : ∃ next, Merging merged next) :
    (∃ next, Merging (ranges.foldl mergeRange merged) next) ∧
      ∀ addr, Covers (ranges.foldl mergeRange merged) addr ↔ Covers ranges addr ∨ Covers merged addr := by
  induction ranges generalizing merged with
  | nil => exact ⟨hmerged, fun addr => by simp [Covers]⟩
  | cons r ranges ih =>
    obtain ⟨hfirst, hsorted⟩ := List.pairwise_cons.mp hsorted
    obtain ⟨hr, hforward⟩ := List.forall_mem_cons.mp hforward
    obtain ⟨hmerging, -⟩ := List.forall_mem_cons.mp h
    have hstep := mergeRange_merging hmerging hr
    obtain ⟨hrun, hcovers⟩ := ih hsorted hforward (fun a ha => hstep.mono (hfirst a ha)) ⟨r.1, hstep⟩
    refine ⟨hrun, fun addr => ?_⟩
    rw [List.foldl_cons, hcovers, covers_mergeRange hmerging, covers_cons]
    tauto

theorem pairwise_insertionSort_rangeLE (ranges : List (Word × Word)) :
    (ranges.insertionSort fun a b => rangeLE a b).Pairwise fun a b => a.1 ≤ b.1 := by
  have htotal : Std.Total fun a b : Word × Word => rangeLE a b = true := by
    constructor
    intro a b
    simp only [rangeLE, decide_eq_true_eq]
    bv_omega
  have htrans : IsTrans (Word × Word) fun a b => rangeLE a b = true := by
    constructor
    intro a b c hab hbc
    simp only [rangeLE, decide_eq_true_eq] at hab hbc ⊢
    bv_omega
  refine (List.pairwise_insertionSort _ ranges).imp fun {a b} hab => ?_
  simp only [rangeLE, decide_eq_true_eq] at hab
  bv_omega

/-- Merging covers what the ranges did, by ranges in order that do not touch. -/
theorem mergeRanges_spec (h : Forward ranges) :
    Forward (mergeRanges ranges) ∧ (mergeRanges ranges).Pairwise (fun a b => a.2 < b.1) ∧
      ∀ addr, Covers (mergeRanges ranges) addr ↔ Covers ranges addr := by
  have hmem : ∀ r, r ∈ ranges.insertionSort (fun a b => rangeLE a b) ↔ r ∈ ranges :=
    fun r => (List.perm_insertionSort _ ranges).mem_iff
  have hempty : ∀ next, Merging [] next := fun next =>
    ⟨by simp [Forward], List.Pairwise.nil, by simp⟩
  obtain ⟨⟨next, hmerging⟩, hcovers⟩ := foldl_mergeRange (pairwise_insertionSort_rangeLE ranges)
    (fun r hr => h r ((hmem r).mp hr)) (fun r _ => hempty r.1) ⟨0, hempty 0⟩
  refine ⟨fun r hr => hmerging.forward r (List.mem_reverse.mp hr),
    List.pairwise_reverse.mpr hmerging.apart, fun addr => ?_⟩
  have hreverse : Covers (mergeRanges ranges) addr ↔
      Covers ((ranges.insertionSort fun a b => rangeLE a b).foldl mergeRange []) addr := by
    simp [Covers, mergeRanges]
  have hsort : Covers (ranges.insertionSort fun a b => rangeLE a b) addr ↔ Covers ranges addr := by
    simp only [Covers, hmem]
  rw [hreverse, hcovers, hsort]
  simp [Covers]

end Merge

section Count
variable {stop : Word} {coverage ranges ranges' : List (Word × Word)}

instance (ranges : List (Word × Word)) (addr : Word) : Decidable (Covers ranges addr) :=
  inferInstanceAs (Decidable (∃ r ∈ ranges, r.1 ≤ addr ∧ addr < r.2))

/-- How many addresses from `lo` up to `hi` belong to no range. -/
def missed (ranges : List (Word × Word)) (lo hi : Word) : ℕ :=
  Lib.missing (fun a => Covers ranges (BitVec.ofNat 64 a)) lo.toNat hi.toNat

/-- Numbers between two addresses are addresses between them. -/
theorem ofNat_between {lo hi : Word} {a : ℕ} (hlo : lo.toNat ≤ a) (hhi : a < hi.toNat) :
    lo ≤ BitVec.ofNat 64 a ∧ BitVec.ofNat 64 a < hi := by
  have hlt : a < 2 ^ 64 := hhi.trans hi.isLt
  rw [BitVec.le_def, BitVec.lt_def, BitVec.toNat_ofNat, Nat.mod_eq_of_lt hlt]
  exact ⟨hlo, hhi⟩

theorem missed_split (ranges : List (Word × Word)) {lo mid hi : Word} (hlo : lo ≤ mid) (hhi : mid ≤ hi) :
    missed ranges lo hi = missed ranges lo mid + missed ranges mid hi :=
  Lib.missing_split _ hlo hhi

theorem missed_congr {lo hi : Word}
    (h : ∀ addr, lo ≤ addr → addr < hi → (Covers ranges addr ↔ Covers ranges' addr)) :
    missed ranges lo hi = missed ranges' lo hi := by
  refine Lib.missing_congr fun a hlo hhi => ?_
  have hin := ofNat_between hlo hhi
  exact h _ hin.1 hin.2

theorem missed_eq_sub {lo hi : Word} (h : ∀ addr, lo ≤ addr → addr < hi → ¬ Covers ranges addr) :
    missed ranges lo hi = hi.toNat - lo.toNat := by
  refine Lib.missing_eq_sub fun a hlo hhi => ?_
  have hin := ofNat_between hlo hhi
  exact h _ hin.1 hin.2

theorem missed_eq_zero_iff {lo hi : Word} :
    missed ranges lo hi = 0 ↔ ∀ addr, lo ≤ addr → addr < hi → Covers ranges addr := by
  refine Lib.missing_eq_zero_iff.trans ⟨fun h addr hlo hhi => ?_, fun h a hlo hhi => ?_⟩
  · have haddr := h addr.toNat hlo hhi
    rwa [BitVec.ofNat_toNat, BitVec.setWidth_eq] at haddr
  · have hin := ofNat_between hlo hhi
    exact h _ hin.1 hin.2

/-- The same number, as the size of a set of addresses. -/
theorem missed_eq_card (ranges : List (Word × Word)) (lo hi : Word) : missed ranges lo hi =
    Nat.card {addr : Word // (lo ≤ addr ∧ addr < hi) ∧ ¬ Covers ranges addr} := by
  unfold missed Lib.missing
  rw [← Fintype.card_coe, ← Nat.card_eq_fintype_card]
  refine Nat.card_congr ⟨fun a => ⟨BitVec.ofNat 64 a.1, ?_⟩, fun addr => ⟨addr.1.toNat, ?_⟩, ?_, ?_⟩
  · obtain ⟨hin, hout⟩ := Finset.mem_filter.mp a.2
    obtain ⟨hlo, hhi⟩ := Finset.mem_Ico.mp hin
    exact ⟨ofNat_between hlo hhi, hout⟩
  · obtain ⟨hin, hout⟩ := addr.2
    refine Finset.mem_filter.mpr ⟨Finset.mem_Ico.mpr hin, ?_⟩
    dsimp only
    rwa [BitVec.ofNat_toNat, BitVec.setWidth_eq]
  · intro a
    obtain ⟨hin, -⟩ := Finset.mem_filter.mp a.2
    have hlt : a.1 < 2 ^ 64 := (Finset.mem_Ico.mp hin).2.trans hi.isLt
    refine Subtype.ext ?_
    show (BitVec.ofNat 64 a.1).toNat = a.1
    rw [BitVec.toNat_ofNat, Nat.mod_eq_of_lt hlt]
  · intro addr
    refine Subtype.ext ?_
    show BitVec.ofNat 64 addr.1.toNat = addr.1
    rw [BitVec.ofNat_toNat, BitVec.setWidth_eq]

/-- What `UncoveredBytes` returns once its loop has ended. -/
def uncoveredAfter (stop : Word) (last : Word × Word) : Word :=
  if last.1 < stop then last.2 + (stop - last.1) else last.2

/-- The loop ends where nothing ahead is covered. -/
theorem uncoveredAfter_toNat {cursor uncovered : Word} (hcount : uncovered ≤ cursor)
    (hnone : ∀ addr, cursor ≤ addr → addr < stop → ¬ Covers coverage addr) :
    (uncoveredAfter stop (cursor, uncovered)).toNat = uncovered.toNat + missed coverage cursor stop := by
  rw [missed_eq_sub hnone]
  unfold uncoveredAfter
  dsimp only
  split_ifs with hlt <;> bv_omega

/-- Addresses behind a range that ends before the next one starts are none of theirs. -/
theorem not_covers_of_le {it : Word × Word} {rest : List (Word × Word)}
    (hbehind : ∀ r ∈ rest, it.2 < r.1) {addr : Word} (hle : addr ≤ it.2) : ¬ Covers rest addr := by
  rintro ⟨r, hr, hlo, -⟩
  have hnext := hbehind r hr
  bv_omega

/-- One range ahead: what comes before it is missed, and it reaches as far as the next cursor. -/
theorem missed_cons {it : Word × Word} {rest : List (Word × Word)} (hit : it.1 ≤ it.2)
    (hbehind : ∀ r ∈ rest, it.2 < r.1) {cursor : Word} (hgo : it.1 < stop) (hcursor : cursor < stop) :
    missed (it :: rest) cursor stop = (it.1.toNat - cursor.toNat) +
      missed rest (stdMax cursor (stdMin it.2 stop)) stop := by
  have hfirst : cursor ≤ stdMax cursor it.1 := by
    unfold stdMax
    split_ifs <;> bv_omega
  have hnext : stdMax cursor it.1 ≤ stdMax cursor (stdMin it.2 stop) := by
    unfold stdMax stdMin
    split_ifs <;> bv_omega
  have hlast : stdMax cursor (stdMin it.2 stop) ≤ stop := by
    unfold stdMax stdMin
    split_ifs <;> bv_omega
  rw [missed_split _ hfirst (BitVec.le_trans hnext hlast), missed_split _ hnext hlast]
  have hbefore : missed (it :: rest) cursor (stdMax cursor it.1) = it.1.toNat - cursor.toNat := by
    rw [missed_eq_sub]
    · unfold stdMax
      split_ifs <;> bv_omega
    · intro addr hlo hhi hin
      have hlt : addr < it.1 := by
        unfold stdMax at hhi
        split_ifs at hhi <;> bv_omega
      rcases covers_cons.mp hin with hin | hin
      · bv_omega
      · exact not_covers_of_le hbehind (by bv_omega) hin
  have hinside : missed (it :: rest) (stdMax cursor it.1) (stdMax cursor (stdMin it.2 stop)) = 0 := by
    refine missed_eq_zero_iff.mpr fun addr hlo hhi => covers_cons.mpr (Or.inl ?_)
    unfold stdMax stdMin at hhi
    unfold stdMax at hlo
    split_ifs at hlo hhi <;> constructor <;> bv_omega
  have hbeyond : missed (it :: rest) (stdMax cursor (stdMin it.2 stop)) stop =
      missed rest (stdMax cursor (stdMin it.2 stop)) stop := by
    refine missed_congr fun addr hlo hhi => covers_cons.trans (or_iff_right ?_)
    unfold stdMax stdMin at hlo
    split_ifs at hlo <;> bv_omega
  rw [hbefore, hinside, hbeyond, Nat.zero_add]

/-- The count never wraps, as it is at most the bytes behind the cursor. -/
theorem uncoveredFrom_toNat (hforward : Forward coverage)
    (hapart : coverage.Pairwise fun a b => a.2 < b.1) {cursor uncovered : Word}
    (hcount : uncovered ≤ cursor) :
    (uncoveredAfter stop (uncoveredFrom stop coverage cursor uncovered)).toNat =
      uncovered.toNat + missed coverage cursor stop := by
  induction coverage generalizing cursor uncovered with
  | nil => exact uncoveredAfter_toNat hcount fun addr _ _ hin => by simp [Covers] at hin
  | cons it rest ih =>
    obtain ⟨hit, hrest⟩ := List.forall_mem_cons.mp hforward
    obtain ⟨hbehind, hapart⟩ := List.pairwise_cons.mp hapart
    unfold uncoveredFrom
    split_ifs with hgo hbefore
    · -- the bytes before the range are counted
      have hmin : stdMin it.1 stop = it.1 := by
        unfold stdMin
        split_ifs <;> bv_omega
      have hnext : it.1 ≤ stdMax cursor (stdMin it.2 stop) := by
        unfold stdMax stdMin
        split_ifs <;> bv_omega
      rw [hmin, ih hrest hapart (by bv_omega), missed_cons hit hbehind hgo.1 hgo.2]
      bv_omega
    · have hle : cursor ≤ stdMax cursor (stdMin it.2 stop) := by
        unfold stdMax
        split_ifs <;> bv_omega
      rw [ih hrest hapart (by bv_omega), missed_cons hit hbehind hgo.1 hgo.2]
      bv_omega
    · refine uncoveredAfter_toNat hcount fun addr hlo hhi hin => ?_
      rcases covers_cons.mp hin with hin | hin
      · bv_omega
      · exact not_covers_of_le hbehind (by bv_omega) hin

/-- The ranges that the search skips end at the start or before. -/
theorem covers_drop_iff (hforward : Forward coverage)
    (hapart : coverage.Pairwise fun a b => a.2 < b.1) {start addr : Word} (hle : start ≤ addr) :
    Covers (coverage.drop (Lib.upperBound (fun i => (coverage[i]?).any fun iv => start < iv.2)
      coverage.length)) addr ↔ Covers coverage addr := by
  refine ⟨fun ⟨r, hr, hin⟩ => ⟨r, List.mem_of_mem_drop hr, hin⟩, fun ⟨r, hr, hlo, hhi⟩ => ?_⟩
  obtain ⟨i, hi, rfl⟩ := List.mem_iff_getElem.mp hr
  have hlen := Lib.upperBound_le (fun i => (coverage[i]?).any fun iv => start < iv.2) coverage.length
  have hleft := Lib.upperBound_left (fun i => (coverage[i]?).any fun iv => start < iv.2) coverage.length
  generalize Lib.upperBound _ coverage.length = n at hlen hleft ⊢
  by_cases hskip : i < n
  · -- the last range skipped ends at the start or before, and this one no later
    exfalso
    have hj : n - 1 < coverage.length := by omega
    have hlast : coverage[n - 1].2 ≤ start := by
      rcases hleft with hzero | hlast
      · omega
      · simp only [List.getElem?_eq_getElem hj, Option.any_some, decide_eq_false_iff_not] at hlast
        bv_omega
    rcases Nat.lt_or_ge i (n - 1) with hlt | hge
    · have hbehind := List.pairwise_iff_getElem.mp hapart i (n - 1) hi hj hlt
      have hfwd := hforward _ (List.getElem_mem hj)
      bv_omega
    · have heq : i = n - 1 := by omega
      subst heq
      bv_omega
  · refine ⟨coverage[i], List.mem_drop_iff_getElem.mpr ⟨i - n, by omega, ?_⟩, hlo, hhi⟩
    simp [Nat.add_sub_cancel' (Nat.le_of_not_lt hskip)]

/-- `UncoveredBytes` counts the bytes that no range has. -/
theorem uncoveredBytes_toNat (hforward : Forward coverage)
    (hapart : coverage.Pairwise fun a b => a.2 < b.1) (start stop : Word) :
    (uncoveredBytes start stop coverage).toNat = missed coverage start stop := by
  have hdrop : ∀ n, Forward (coverage.drop n) := fun n r hr => hforward r (List.mem_of_mem_drop hr)
  show (uncoveredAfter stop (uncoveredFrom stop _ start 0)).toNat = _
  rw [uncoveredFrom_toNat (hdrop _) hapart.drop (by bv_omega)]
  show 0 + _ = _
  rw [Nat.zero_add]
  exact missed_congr fun addr hlo _ => covers_drop_iff hforward hapart hlo

/-- It finds none exactly where every byte is covered. -/
theorem uncoveredBytes_eq_zero_iff (hforward : Forward coverage)
    (hapart : coverage.Pairwise fun a b => a.2 < b.1) (start stop : Word) :
    uncoveredBytes start stop coverage = 0 ↔
      ∀ addr, start ≤ addr → addr < stop → Covers coverage addr := by
  rw [← missed_eq_zero_iff, ← uncoveredBytes_toNat hforward hapart, ← BitVec.toNat_inj]
  rfl

/-- However the ranges lie, `MergeRanges` keeps their union in ranges that leave gaps, in order, and
`UncoveredBytes` counts exactly the addresses outside of it. -/
theorem uncoveredBytes_mergeRanges (ranges : List (Word × Word)) (hforward : ∀ r ∈ ranges, r.1 ≤ r.2)
    (start stop : Word) :
    (mergeRanges ranges).Pairwise (fun a b => a.2 < b.1) ∧
      (∀ r ∈ mergeRanges ranges, r.1 ≤ r.2) ∧
      (∀ addr, (∃ r ∈ mergeRanges ranges, r.1 ≤ addr ∧ addr < r.2) ↔
        ∃ r ∈ ranges, r.1 ≤ addr ∧ addr < r.2) ∧
      (uncoveredBytes start stop (mergeRanges ranges)).toNat =
        Nat.card {addr : Word // (start ≤ addr ∧ addr < stop) ∧
          ¬ ∃ r ∈ ranges, r.1 ≤ addr ∧ addr < r.2} := by
  obtain ⟨hmerged, hapart, hcovers⟩ := mergeRanges_spec hforward
  refine ⟨hapart, hmerged, hcovers, ?_⟩
  rw [uncoveredBytes_toNat hmerged hapart, missed_congr fun addr _ _ => hcovers addr]
  exact missed_eq_card ranges start stop

/-- Touching, nested, empty and repeated ranges, out of order. -/
def Sample.scatteredRanges : List (Word × Word) :=
  [(0x30, 0x38), (0x10, 0x20), (0x20, 0x24), (0x12, 0x14), (0x28, 0x28), (0x10, 0x20)]

/-- A symbol that starts in one of them and ends in another. -/
theorem scattered_uncoveredBytes :
    (∀ r ∈ Sample.scatteredRanges, r.1 ≤ r.2) ∧
      uncoveredBytes 0x18 0x34 (mergeRanges Sample.scatteredRanges) = 12 ∧
      Nat.card {addr : Word // ((0x18 : Word) ≤ addr ∧ addr < 0x34) ∧
        ¬ ∃ r ∈ Sample.scatteredRanges, r.1 ≤ addr ∧ addr < r.2} = 12 := by
  have hforward : ∀ r ∈ Sample.scatteredRanges, r.1 ≤ r.2 := by simp [Sample.scatteredRanges]
  have hbytes : uncoveredBytes 0x18 0x34 (mergeRanges Sample.scatteredRanges) = 12 := by
    decide +kernel
  refine ⟨hforward, hbytes, ?_⟩
  rw [← (uncoveredBytes_mergeRanges _ hforward 0x18 0x34).2.2.2, hbytes]
  rfl

end Count

/-- A function in executable memory, outside the PLT, with a byte that no range has. -/
structure FuncSymbol.Gap (sym : FuncSymbol) (bin : ELFBinary) (ranges : List (Word × Word)) : Prop where
  sized : sym.size ≠ 0
  executable : bin.isExecutable sym.vaddr sym.size = true
  notPLT : bin.inPLT sym.vaddr sym.size = false
  byte : ∃ i < sym.size.toNat, ¬ Covers ranges (sym.vaddr + BitVec.ofNat 64 i)

/-- The last byte is not at the end of the address space or behind it. -/
def FuncSymbol.EndsInside (sym : FuncSymbol) : Prop := sym.vaddr.toNat + sym.size.toNat < 2 ^ 64

/-- The symbol of its address that `CheckUncoveredSymbols` looks at. -/
def firstAt (syms : List FuncSymbol) (vaddr : Word) : Option FuncSymbol :=
  syms.find? fun sym => sym.size ≠ 0 ∧ sym.vaddr = vaddr

section Symbols
variable {bin : ELFBinary} {ranges : List (Word × Word)} {sym : FuncSymbol} {r : FDEResult}

/-- A symbol that wraps around counts as covered. -/
theorem uncoveredBytes_mergeRanges_ne_zero_iff (h : Forward ranges) (sym : FuncSymbol) :
    uncoveredBytes sym.vaddr (sym.vaddr + sym.size) (mergeRanges ranges) ≠ 0 ↔
      sym.EndsInside ∧ ∃ i < sym.size.toNat, ¬ Covers ranges (sym.vaddr + BitVec.ofNat 64 i) := by
  obtain ⟨hforward, hapart, hcovers⟩ := mergeRanges_spec h
  rw [Ne, uncoveredBytes_eq_zero_iff hforward hapart]
  simp only [hcovers]
  push Not
  unfold FuncSymbol.EndsInside
  constructor
  · rintro ⟨addr, hlo, hhi, hout⟩
    have hwrap : sym.vaddr.toNat + sym.size.toNat < 2 ^ 64 := by bv_omega
    refine ⟨hwrap, (addr - sym.vaddr).toNat, by bv_omega, ?_⟩
    have haddr : sym.vaddr + BitVec.ofNat 64 (addr - sym.vaddr).toNat = addr := by
      rw [BitVec.ofNat_toNat, BitVec.setWidth_eq]
      bv_omega
    rwa [haddr]
  · rintro ⟨hwrap, i, hi, hout⟩
    exact ⟨sym.vaddr + BitVec.ofNat 64 i, by bv_omega, by bv_omega, hout⟩

theorem uncoveredResult_range (h : r ∈ uncoveredResult bin ranges sym) :
    r.pcBegin = sym.vaddr ∧ r.pcEnd = sym.vaddr + sym.size := by
  unfold uncoveredResult at h
  dsimp only at h
  split_ifs at h <;> simp at h <;> subst h <;> exact ⟨rfl, rfl⟩

/-- The result for a symbol that is looked at. -/
theorem uncoveredResult_isSome_iff (h : Forward ranges) (hsize : sym.size ≠ 0) :
    (uncoveredResult bin (mergeRanges ranges) sym).isSome = true ↔
      sym.Gap bin ranges ∧ sym.EndsInside := by
  have hbytes := uncoveredBytes_mergeRanges_ne_zero_iff h sym
  unfold uncoveredResult
  dsimp only
  by_cases hout : (!bin.isExecutable sym.vaddr sym.size) = true ∨ bin.inPLT sym.vaddr sym.size = true
  · rw [if_pos hout]
    refine iff_of_false (by simp) fun hgap => ?_
    simp [hgap.1.executable, hgap.1.notPLT] at hout
  · rw [if_neg hout]
    by_cases hzero : uncoveredBytes sym.vaddr (sym.vaddr + sym.size) (mergeRanges ranges) = 0
    · rw [if_pos hzero]
      exact iff_of_false (by simp) fun hgap => hbytes.mpr ⟨hgap.2, hgap.1.byte⟩ hzero
    · rw [if_neg hzero]
      obtain ⟨hends, hbyte⟩ := hbytes.mp hzero
      refine iff_of_true rfl ⟨⟨hsize, ?_, ?_, hbyte⟩, hends⟩
      · simpa using (not_or.mp hout).1
      · simpa using (not_or.mp hout).2

/-- The loop: a result is that of the first symbol at an address which was not yet seen. -/
theorem mem_uncoveredSymbols_iff {coverage : List (Word × Word)} {flagged : List Word}
    {syms : List FuncSymbol} :
    r ∈ uncoveredSymbols bin coverage flagged syms ↔
      ∃ sym, sym.vaddr ∉ flagged ∧ firstAt syms sym.vaddr = some sym ∧
        r ∈ uncoveredResult bin coverage sym := by
  induction syms generalizing flagged with
  | nil => simp [uncoveredSymbols, firstAt]
  | cons sym syms ih =>
    have hfirst : ∀ vaddr, firstAt (sym :: syms) vaddr =
        if sym.size ≠ 0 ∧ sym.vaddr = vaddr then some sym else firstAt syms vaddr := by
      intro vaddr
      simp only [firstAt, List.find?_cons]
      split <;> simp_all
    rw [uncoveredSymbols]
    split_ifs with hskip
    · rw [ih]
      refine exists_congr fun first => and_congr_right fun hnew => ?_
      rw [hfirst, if_neg]
      rintro ⟨hsize, hsame⟩
      rcases hskip with hzero | hseen
      · exact hsize hzero
      · exact hnew (hsame ▸ hseen)
    · obtain ⟨hsize, hnew⟩ := not_or.mp hskip
      rw [List.mem_append, ih]
      constructor
      · rintro (hr | ⟨first, hout, hfind, hr⟩)
        · exact ⟨sym, hnew, by rw [hfirst, if_pos ⟨hsize, rfl⟩], by simpa using hr⟩
        · obtain ⟨hother, hout⟩ := not_or.mp (mt List.mem_cons.mpr hout)
          refine ⟨first, hout, ?_, hr⟩
          rw [hfirst, if_neg fun hsame => hother hsame.2.symm]
          exact hfind
      · rintro ⟨first, hout, hfind, hr⟩
        rw [hfirst] at hfind
        split_ifs at hfind with hsame
        · cases hfind
          exact Or.inl (by simpa using hr)
        · refine Or.inr ⟨first, ?_, hfind, hr⟩
          refine mt List.mem_cons.mp (not_or.mpr ⟨fun heq => ?_, hout⟩)
          exact hsame ⟨hsize, heq.symm⟩

/-- An address that was looked at is not looked at again. -/
theorem nodup_uncoveredSymbols (coverage : List (Word × Word)) (flagged : List Word)
    (syms : List FuncSymbol) :
    ((uncoveredSymbols bin coverage flagged syms).map FDEResult.pcBegin).Nodup := by
  induction syms generalizing flagged with
  | nil => simp [uncoveredSymbols]
  | cons sym syms ih =>
    rw [uncoveredSymbols]
    split_ifs
    · exact ih flagged
    · rw [List.map_append]
      refine List.nodup_append.mpr ⟨?_, ih _, ?_⟩
      · cases uncoveredResult bin coverage sym <;> simp
      · intro a ha b hb heq
        obtain ⟨r, hr, rfl⟩ := List.mem_map.mp ha
        obtain ⟨r', hr', rfl⟩ := List.mem_map.mp hb
        obtain ⟨first, hnew, -, hfirst⟩ := mem_uncoveredSymbols_iff.mp hr'
        have hsame : sym.vaddr = first.vaddr := by
          rw [← (uncoveredResult_range (Option.mem_toList.mp hr)).1, heq,
            (uncoveredResult_range hfirst).1]
        exact hnew (hsame ▸ List.mem_cons_self)

theorem firstAt_spec {syms : List FuncSymbol} {vaddr : Word} {sym : FuncSymbol}
    (h : firstAt syms vaddr = some sym) : sym ∈ syms ∧ sym.size ≠ 0 ∧ sym.vaddr = vaddr := by
  have hp := List.find?_some h
  simp only [decide_eq_true_eq] at hp
  exact ⟨List.mem_of_find?_eq_some h, hp⟩

/-- What is reported is a gap. -/
theorem gap_of_mem_checkUncoveredSymbols (h : Forward ranges) (hr : r ∈ checkUncoveredSymbols bin ranges) :
    ∃ sym ∈ bin.funcSymbols, sym.Gap bin ranges ∧ r.pcBegin = sym.vaddr ∧
      r.pcEnd = sym.vaddr + sym.size := by
  obtain ⟨sym, -, hfind, hresult⟩ := mem_uncoveredSymbols_iff.mp hr
  obtain ⟨hsym, hsize, -⟩ := firstAt_spec hfind
  have hgap := (uncoveredResult_isSome_iff h hsize).mp (Option.isSome_iff_exists.mpr ⟨r, hresult⟩)
  exact ⟨sym, hsym, hgap.1, uncoveredResult_range hresult⟩

/-- The ranges the driver passes are forward ones. -/
theorem forward_fdeRanges {δ : Type} [Offset δ] (fdes : List (RawFDE δ)) : Forward (fdeRanges fdes) := by
  intro range hrange
  obtain ⟨raw, -, hraw⟩ := List.mem_filterMap.mp hrange
  cases hcfi : raw.cfi with
  | error e => simp [hcfi] at hraw
  | ok cfi =>
    simp only [hcfi, Option.ite_none_right_eq_some, Option.some.injEq] at hraw
    rw [← hraw.2]
    exact BitVec.le_of_lt hraw.1

end Symbols

/-- `CheckUncoveredSymbols` misses no gap: each is reported at its address, what is reported is one,
and no address is reported twice. -/
structure ReportsGaps (bin : ELFBinary) (ranges : List (Word × Word)) : Prop where
  found : ∀ sym ∈ bin.funcSymbols, sym.Gap bin ranges →
    ∃ r ∈ checkUncoveredSymbols bin ranges, r.verdict = .review ∧ r.pcBegin = sym.vaddr
  gap : ∀ r ∈ checkUncoveredSymbols bin ranges, ∃ sym ∈ bin.funcSymbols,
    sym.Gap bin ranges ∧ r.pcBegin = sym.vaddr ∧ r.pcEnd = sym.vaddr + sym.size
  once : ((checkUncoveredSymbols bin ranges).map FDEResult.pcBegin).Nodup

/-- No gap is missed exactly where each has, first among the sized symbols at its address, a gap
that ends inside the address space. -/
theorem reportsGaps_iff {bin : ELFBinary} {ranges : List (Word × Word)} (h : Forward ranges) :
    ReportsGaps bin ranges ↔ ∀ sym ∈ bin.funcSymbols, sym.Gap bin ranges →
      ∃ first, firstAt bin.funcSymbols sym.vaddr = some first ∧ first.Gap bin ranges ∧
        first.EndsInside := by
  constructor
  · intro hall sym hsym hgap
    obtain ⟨r, hr, -, hbegin⟩ := hall.found sym hsym hgap
    obtain ⟨first, -, hfirst, hresult⟩ := mem_uncoveredSymbols_iff.mp hr
    have hsame : first.vaddr = sym.vaddr := (uncoveredResult_range hresult).1.symm.trans hbegin
    rw [hsame] at hfirst
    exact ⟨first, hfirst, (uncoveredResult_isSome_iff h (firstAt_spec hfirst).2.1).mp
      (Option.isSome_iff_exists.mpr ⟨r, hresult⟩)⟩
  · intro hfirst
    refine ⟨fun sym hsym hgap => ?_, fun r hr => gap_of_mem_checkUncoveredSymbols h hr,
      nodup_uncoveredSymbols _ _ _⟩
    obtain ⟨first, hfind, hfirstGap⟩ := hfirst sym hsym hgap
    obtain ⟨-, hsize, hsame⟩ := firstAt_spec hfind
    obtain ⟨r, hr⟩ := Option.isSome_iff_exists.mp ((uncoveredResult_isSome_iff h hsize).mpr hfirstGap)
    have hmem : r ∈ checkUncoveredSymbols bin ranges :=
      mem_uncoveredSymbols_iff.mpr ⟨first, by simp, by rw [hsame]; exact hfind, hr⟩
    exact ⟨r, hmem, verdict_of_mem_uncoveredSymbols hmem, (uncoveredResult_range hr).1.trans hsame⟩

namespace Sample

/-- Sixteen executable bytes at 0x1000. -/
def sixteen (syms : List FuncSymbol) : ELFBinary where
  segments := [⟨⟨0x1000, 16, true⟩, 16, 0⟩]
  mem _ := 0x90
  bias := 0
  ehFrameStart := 0
  ehFrameEnd := 0
  pltRanges := []
  funcSymbols := syms

/-- The four bytes of the FDE, and all sixteen. -/
def short : FuncSymbol := ⟨0x1000, 4, "f"⟩
def long : FuncSymbol := ⟨0x1000, 16, "f"⟩

theorem gap_long (syms : List FuncSymbol) : long.Gap (sixteen syms) [(0x1000, 0x1004)] where
  sized := by decide
  executable := rfl
  notPLT := rfl
  byte := ⟨4, by decide, by simp [Covers, long]⟩

end Sample

/-- The alias that is covered comes first and hides the one that is not. -/
theorem short_long_not_reportsGaps :
    ¬ ReportsGaps (Sample.sixteen [Sample.short, Sample.long]) [(0x1000, 0x1004)] := by
  intro h
  obtain ⟨r, hr, -⟩ := h.found Sample.long (by decide) (Sample.gap_long _)
  have hempty : checkUncoveredSymbols (Sample.sixteen [Sample.short, Sample.long]) [(0x1000, 0x1004)] =
      [] := by decide
  rw [hempty] at hr
  cases hr

theorem long_short_reportsGaps :
    ReportsGaps (Sample.sixteen [Sample.long, Sample.short]) [(0x1000, 0x1004)] := by
  have hends : Sample.long.EndsInside := by
    unfold FuncSymbol.EndsInside
    decide
  have hforward : Forward [((0x1000 : Word), (0x1004 : Word))] := by simp [Forward]
  refine (reportsGaps_iff hforward).mpr fun sym hsym _ => ⟨Sample.long, ?_, Sample.gap_long _, hends⟩
  have hsyms : sym = Sample.long ∨ sym = Sample.short := by simpa [Sample.sixteen] using hsym
  rcases hsyms with rfl | rfl <;> decide

end UnwindCheck
