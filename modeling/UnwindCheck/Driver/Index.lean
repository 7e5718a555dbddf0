import UnwindCheck.Driver.Overlap

/-! The index of FDEs both checkers look addresses up in: which addresses the search by start finds
when ranges overlap. -/
namespace UnwindCheck
variable {δ : Type}

/-- The order `std::sort` gives pairs of pairs, as far as the ranges decide it. -/
def Before (a b : (Word × Word) × CFI δ) : Prop :=
  a.1.1 < b.1.1 ∨ a.1.1 = b.1.1 ∧ a.1.2 ≤ b.1.2

theorem Before.start_le {a b : (Word × Word) × CFI δ} (h : Before a b) : a.1.1 ≤ b.1.1 := by
  rcases h with h | h <;> bv_omega

/-- Where a range ends inside one that starts earlier, another one starts in time: behind it in the
order, and not behind its end. -/
def NestedFollowed (ranges : List (Word × Word)) : Prop :=
  ∀ a ∈ ranges, ∀ b ∈ ranges, a.1 < b.1 → b.2 < a.2 →
    ∃ c ∈ ranges, c.1 = b.1 ∧ b.2 < c.2 ∨ b.1 < c.1 ∧ c.1 ≤ b.2

section Search
variable {index : List ((Word × Word) × CFI δ)}

/-- What the search returns is an entry that holds the address. -/
theorem mem_of_cfiContaining (hs : index.Pairwise Before) {pc : Word} {cfi : CFI δ}
    (h : cfiContaining index pc = some cfi) : ∃ e ∈ index, e.2 = cfi ∧ e.1.1 ≤ pc ∧ pc < e.1.2 := by
  rcases cfiContaining_cases hs (fun _ _ => Before.start_le) pc with
    ⟨hnone, -⟩ | ⟨last, hlast, hstart, hfound, -⟩
  · rw [hnone] at h
    cases h
  · rw [hfound] at h
    split_ifs at h with hlt
    exact ⟨last, hlast, Option.some.inj h, hstart, hlt⟩

/-- Every address of every entry is found exactly when no nested range hides one. -/
theorem cfiContaining_isSome_iff (hs : index.Pairwise Before) (hne : ∀ e ∈ index, e.1.1 < e.1.2) :
    (∀ pc, (cfiContaining index pc).isSome ↔ ∃ e ∈ index, e.1.1 ≤ pc ∧ pc < e.1.2) ↔
      NestedFollowed (index.map Prod.fst) := by
  constructor
  · intro hfound a ha b hb hab hends
    obtain ⟨ea, hea, rfl⟩ := List.mem_map.mp ha
    obtain ⟨eb, heb, rfl⟩ := List.mem_map.mp hb
    have hnonempty := hne eb heb
    -- the address where the inner range ends is found, and not in the inner range
    have hsome := (hfound eb.1.2).mpr ⟨ea, hea, by bv_omega, hends⟩
    rcases cfiContaining_cases hs (fun _ _ => Before.start_le) eb.1.2 with
      ⟨hnone, -⟩ | ⟨last, hlast, hstart, hlookup, hbefore⟩
    · rw [hnone] at hsome
      cases hsome
    · have hlt : eb.1.2 < last.1.2 := by
        by_contra hge
        rw [hlookup, if_neg hge] at hsome
        cases hsome
      refine ⟨last.1, List.mem_map_of_mem hlast, ?_⟩
      rcases hbefore eb heb (by bv_omega) with h | rfl
      · rcases h with h | h <;> bv_omega
      · bv_omega
  · intro hfollowed pc
    rcases cfiContaining_cases hs (fun _ _ => Before.start_le) pc with
      ⟨hnone, hall⟩ | ⟨last, hlast, hstart, hlookup, hbefore⟩
    · rw [hnone]
      refine iff_of_false (by simp) ?_
      rintro ⟨e, he, hlo, -⟩
      have hbehind := hall e he
      bv_omega
    · rw [hlookup]
      by_cases hlt : pc < last.1.2
      · rw [if_pos hlt]
        exact iff_of_true rfl ⟨last, hlast, hstart, hlt⟩
      · rw [if_neg hlt]
        refine iff_of_false (by simp) ?_
        rintro ⟨e, he, hlo, hhi⟩
        -- an entry that holds the address starts before the candidate and ends behind it
        have hearlier : e.1.1 < last.1.1 := by
          rcases hbefore e he hlo with h | rfl
          · rcases h with h | h <;> bv_omega
          · exact absurd hhi hlt
        obtain ⟨c, hc, hnext⟩ := hfollowed e.1 (List.mem_map_of_mem he) last.1
          (List.mem_map_of_mem hlast) hearlier (by bv_omega)
        obtain ⟨ec, hec, rfl⟩ := List.mem_map.mp hc
        rcases hbefore ec hec (by bv_omega) with h | rfl
        · rcases h with h | h <;> bv_omega
        · bv_omega

end Search

/-- Every FDE over an address can be found: the lookup fails nowhere else, a direct jump inside the
FDE being checked is compared with a row, and so is a jump to an address with a declared row. -/
structure FDEsFound [Offset δ] (options : FDECheckerOptions δ) : Prop where
  found : ∀ pc, (cfiContaining options.allCfis pc).isSome ↔ ∃ e ∈ options.allCfis, e.2.Covers pc
  holds : ∀ pc cfi, cfiContaining options.allCfis pc = some cfi → cfi.Covers pc
  direct : ∀ e ∈ options.allCfis, ∀ (outcome : TransferOutcome) (target : Word),
    outcome.directTarget = some target → e.2.Covers target →
      (Light.directRow options e.2 outcome).isSome
  cross : ∀ env : Env δ, env.options = options → ∀ (edgePc target : Word) (state : AbsState δ),
    (∃ e ∈ options.allCfis, (e.2.rowAt target).isSome) →
      (env.checkCrossFDEEdge edgePc target state).isSome

section Run
variable [Offset δ] (tools : Tools δ) (z : Zydis) (flags : Flags) (bin : ELFBinary)

/-- The ranges of the FDEs that are checked. -/
def checkedRanges (δ : Type) [Offset δ] (bin : ELFBinary) : List (Word × Word) :=
  (checkable bin (bin.fdes (δ := δ))).map fun cfi => (cfi.pcBegin, cfi.pcEnd)

variable {tools z flags bin}

theorem mem_allCfis {e : (Word × Word) × CFI δ} : e ∈ (runOptions tools z flags bin).allCfis ↔
    ∃ cfi ∈ checkable bin bin.fdes, ((cfi.pcBegin, cfi.pcEnd), cfi) = e :=
  (tools.sortIndex.perm _).mem_iff.trans List.mem_map

theorem allCfis_sorted : (runOptions tools z flags bin).allCfis.Pairwise Before := by
  refine (tools.sortIndex.sorted _).imp ?_
  intro a b hab
  rcases Prod.Lex.le_iff.mp hab with h | ⟨h, hle⟩
  · exact Or.inl h
  · exact Or.inr ⟨BitVec.eq_of_toNat_eq h, hle⟩

/-- What is checked was read from the section, and is not empty. -/
theorem checkable_read {cfi : CFI δ} (h : cfi ∈ checkable bin bin.fdes) :
    cfi.pcBegin < cfi.pcEnd ∧ ∃ vaddr, bin.readFDE vaddr = .ok cfi := by
  obtain ⟨fde, hfde, rfl⟩ := List.mem_map.mp h
  obtain ⟨⟨raw, hraw, -, hok⟩, hlt⟩ := mem_soundFDEs hfde
  obtain ⟨addr, -, rfl⟩ := List.mem_map.mp hraw
  exact ⟨hlt, _, hok⟩

/-- The row of an FDE that was read is there for each of its addresses. -/
theorem rowAt_of_mem_allCfis {e : (Word × Word) × CFI δ}
    (he : e ∈ (runOptions tools z flags bin).allCfis) {pc : Word} (hc : e.2.Covers pc) :
    (e.2.rowAt pc).isSome := by
  obtain ⟨cfi, hcfi, rfl⟩ := mem_allCfis.mp he
  obtain ⟨-, vaddr, hread⟩ := checkable_read hcfi
  exact readFDE_rowAt_isSome hread hc

/-- An address of some FDE leads to a row once the lookup fails nowhere else. -/
theorem declaredRow_isSome
    (hfound : ∀ pc, (cfiContaining (runOptions tools z flags bin).allCfis pc).isSome ↔
      ∃ e ∈ (runOptions tools z flags bin).allCfis, e.2.Covers pc) {e : (Word × Word) × CFI δ}
    (he : e ∈ (runOptions tools z flags bin).allCfis) {pc : Word} (hc : e.2.Covers pc) :
    ∃ cfi row, cfiContaining (runOptions tools z flags bin).allCfis pc = some cfi ∧
      cfi.rowAt pc = some row := by
  obtain ⟨cfi, hcfi⟩ := Option.isSome_iff_exists.mp ((hfound pc).mpr ⟨e, he, hc⟩)
  obtain ⟨e', he', rfl, hlo, hhi⟩ := mem_of_cfiContaining allCfis_sorted hcfi
  have hc' : e'.2.Covers pc := by
    obtain ⟨cfi', -, rfl⟩ := mem_allCfis.mp he'
    exact ⟨hlo, hhi⟩
  obtain ⟨row, hrow⟩ := Option.isSome_iff_exists.mp (rowAt_of_mem_allCfis he' hc')
  exact ⟨e'.2, row, hcfi, hrow⟩

/-- On the index a run builds, every FDE over an address is found if and only if none that ends
inside an earlier one leaves addresses of it behind. -/
theorem fdesFound_iff (tools : Tools δ) (z : Zydis) (flags : Flags) (bin : ELFBinary) :
    FDEsFound (runOptions tools z flags bin) ↔ NestedFollowed (checkedRanges δ bin) := by
  have hne : ∀ e ∈ (runOptions tools z flags bin).allCfis, e.1.1 < e.1.2 := by
    intro e he
    obtain ⟨cfi, hcfi, rfl⟩ := mem_allCfis.mp he
    exact (checkable_read hcfi).1
  have hranges : ∀ r, r ∈ (runOptions tools z flags bin).allCfis.map Prod.fst ↔
      r ∈ checkedRanges δ bin := by
    intro r
    simp only [List.mem_map, mem_allCfis, checkedRanges]
    constructor
    · rintro ⟨e, ⟨cfi, hcfi, rfl⟩, rfl⟩
      exact ⟨cfi, hcfi, rfl⟩
    · rintro ⟨cfi, hcfi, rfl⟩
      exact ⟨_, ⟨cfi, hcfi, rfl⟩, rfl⟩
  have hcovers : ∀ pc, (∃ e ∈ (runOptions tools z flags bin).allCfis, e.2.Covers pc) ↔
      ∃ e ∈ (runOptions tools z flags bin).allCfis, e.1.1 ≤ pc ∧ pc < e.1.2 := by
    intro pc
    refine exists_congr fun e => and_congr_right fun he => ?_
    obtain ⟨cfi, -, rfl⟩ := mem_allCfis.mp he
    exact Iff.rfl
  have hsearch := cfiContaining_isSome_iff (@allCfis_sorted δ _ tools z flags bin) hne
  unfold NestedFollowed at hsearch ⊢
  simp only [hranges] at hsearch
  rw [← hsearch]
  constructor
  · intro h pc
    rw [← hcovers]
    exact h.found pc
  · intro h
    have hfound : ∀ pc, (cfiContaining (runOptions tools z flags bin).allCfis pc).isSome ↔
        ∃ e ∈ (runOptions tools z flags bin).allCfis, e.2.Covers pc := by
      intro pc
      rw [hcovers]
      exact h pc
    refine ⟨hfound, ?_, ?_, ?_⟩
    · intro pc cfi hcfi
      obtain ⟨e, he, rfl, hin⟩ := mem_of_cfiContaining allCfis_sorted hcfi
      obtain ⟨cfi', -, rfl⟩ := mem_allCfis.mp he
      exact hin
    · intro e he outcome target htarget hc
      obtain ⟨cfi, row, hcfi, hrow⟩ := declaredRow_isSome hfound he hc
      simp [Light.directRow, htarget, hcfi, hrow]
    · rintro env henv edgePc target state ⟨e, he, hsome⟩
      obtain ⟨row, hrow⟩ := Option.isSome_iff_exists.mp hsome
      obtain ⟨cfi, row', hcfi, hrow'⟩ := declaredRow_isSome hfound he (e.2.covers_of_rowAt hrow)
      simp [Env.checkCrossFDEEdge, Env.crossRow, henv, hcfi, hrow']

end Run

namespace Sample

/-- A second FDE over the four bytes at 0x1004, inside the first one, and the terminator. -/
def nestedRecord : List Byte :=
  [13, 0, 0, 0, 0x2d, 0, 0, 0, 0xd3, 0xef, 0xff, 0xff, 4, 0, 0, 0, 0, 0, 0, 0, 0]

def nestedBinary : ELFBinary := binary nestedRecord

end Sample

/-- The last eight bytes of the outer FDE are nobody's. -/
theorem nested_not_found :
    checkedRanges Int64 Sample.nestedBinary = [(0x1000, 0x1010), (0x1004, 0x1008)] ∧
      cfiContaining (runOptions Sample.tools Sample.decoder {} Sample.nestedBinary).allCfis 0x1008 = none ∧
      (∃ e ∈ (runOptions Sample.tools Sample.decoder {} Sample.nestedBinary).allCfis, e.2.Covers 0x1008) ∧
      ¬ FDEsFound (runOptions Sample.tools Sample.decoder {} Sample.nestedBinary) := by
  have hranges : checkedRanges Int64 Sample.nestedBinary = [(0x1000, 0x1010), (0x1004, 0x1008)] := by
    decide +kernel
  have hnone : cfiContaining (runOptions Sample.tools Sample.decoder {} Sample.nestedBinary).allCfis 0x1008 =
      none := by decide +kernel
  have hcovered : ∃ e ∈ (runOptions Sample.tools Sample.decoder {} Sample.nestedBinary).allCfis,
      e.2.Covers 0x1008 := by decide +kernel
  refine ⟨hranges, hnone, hcovered, fun h => ?_⟩
  have hsome := (h.found 0x1008).mpr hcovered
  rw [hnone] at hsome
  cases hsome

end UnwindCheck
