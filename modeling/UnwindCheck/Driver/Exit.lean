import UnwindCheck.Driver.Run
import UnwindCheck.Checker.Coverage

/-! What exit code 0 says about a binary. -/
namespace UnwindCheck
variable {δ : Type} [Offset δ]

/-- The result an FDE gets on its own account. -/
def Judges (options : FDECheckerOptions δ) (full : Bool) (bin : ELFBinary) (raw : RawFDE δ)
    (r : FDEResult) : Prop :=
  triage bin raw = .inl r ∨ ∃ cfi, triage bin raw = .inr cfi ∧ checkFDE options full bin cfi = some r

/-- The command line asks for every FDE to be checked. -/
structure Flags.Plain (flags : Flags) : Prop where
  function : flags.function = ""
  pc : flags.pc = ""
  dumpCfi : flags.dumpCfi = false
  inspect : flags.inspect = false

section
variable (tools : Tools δ) (z : Zydis) (flags : Flags) (bin : ELFBinary)

/-- The FDEs that were read. -/
abbrev ELFBinary.fdes : List (RawFDE δ) := bin.readAllFDEs.1

/-- The options of a run. -/
abbrev runOptions : FDECheckerOptions δ := checkerOptions tools z flags bin (checkable bin bin.fdes)

/-- The walk saw the whole section, and everything it met was decoded and blessed. -/
structure AllBlessed : Prop where
  complete : bin.walk.Complete bin.live (bin.ehFrameEnd + bin.bias)
  decoded : ∀ raw ∈ bin.fdes, ∃ cfi : CFI δ, raw.cfi = .ok cfi
  judged : ∀ raw ∈ bin.fdes, ∃ r, Judges (runOptions tools z flags bin) flags.full bin raw r ∧
    r.verdict = .blessed
  results : ∀ rs, runResults tools z flags ⟨none, none⟩ bin = some rs → ∀ r ∈ rs, r.verdict = .blessed

/-- Nothing is wrong with the FDEs the walk met, nor missing between them: each one decodes, covers
executable memory, shares none of it and is blessed by its checker, and they leave no function
uncovered that the run would report. -/
structure Clean : Prop where
  placed : ∀ raw ∈ bin.fdes, ∃ cfi : CFI δ, raw.cfi = .ok cfi ∧ cfi.pcBegin < cfi.pcEnd ∧
    bin.isExecutable cfi.pcBegin (cfi.pcEnd - cfi.pcBegin)
  apart : (checkable bin (bin.fdes (δ := δ))).Pairwise
    (Lib.Apart (·.pcBegin.toNat) (·.pcEnd.toNat))
  blessed : ∀ cfi ∈ checkable bin bin.fdes, ∃ r,
    checkFDE (runOptions tools z flags bin) flags.full bin cfi = some r ∧ r.verdict = .blessed
  covered : uncoveredResults flags bin (bin.fdes (δ := δ)) = []

end

section Results
omit [Offset δ]

theorem exitCode_eq_blessed {rs : List FDEResult} :
    exitCode rs = kExitBlessed ↔ ∀ r ∈ rs, r.verdict = .blessed := by
  unfold exitCode summarize
  dsimp only
  constructor
  · intro h r hr
    have hno (v : Verdict) (hv : rs.countP (·.verdict = v) = 0) : r.verdict ≠ v := by
      simpa using List.countP_eq_zero.mp hv r hr
    split_ifs at h with hmismatch hreview
    · cases h
    · cases h
    · have h₁ := hno .mismatch (by omega)
      have h₂ := hno .review (by omega)
      have h₃ := hno .reviewLight (by omega)
      cases hv : r.verdict with
      | blessed => rfl
      | reviewLight => exact absurd hv h₃
      | review => exact absurd hv h₂
      | mismatch => exact absurd hv h₁
  · intro h
    have hzero (v : Verdict) (hv : v ≠ .blessed) : rs.countP (·.verdict = v) = 0 := by
      refine List.countP_eq_zero.mpr fun r hr => ?_
      rw [h r hr]
      simpa using hv.symm
    rw [hzero .mismatch (by decide), hzero .review (by decide), hzero .reviewLight (by decide)]
    rfl

/-- An FDE that is settled without being checked is blessed only in the PLT. -/
theorem triage_blessed_iff {bin : ELFBinary} {raw : RawFDE δ} :
    (∀ r, triage bin raw = .inl r → r.verdict = .blessed) ↔
      ∃ cfi, raw.cfi = .ok cfi ∧ cfi.pcBegin < cfi.pcEnd ∧
        bin.isExecutable cfi.pcBegin (cfi.pcEnd - cfi.pcBegin) := by
  unfold triage
  cases hcfi : raw.cfi with
  | error e => simp [makeStructuralResult]
  | ok cfi =>
    dsimp only
    split_ifs with hempty hback hexec hplt
    · simp [makeStructuralResult, hempty]
    · have hnot : ¬ cfi.pcBegin < cfi.pcEnd := by bv_omega
      simp [makeStructuralResult, hnot]
    · have hno : bin.isExecutable cfi.pcBegin (cfi.pcEnd - cfi.pcBegin) = false := by simpa using hexec
      simp [makeStructuralResult, hno]
    · have hlt : cfi.pcBegin < cfi.pcEnd := by bv_omega
      have hyes : bin.isExecutable cfi.pcBegin (cfi.pcEnd - cfi.pcBegin) = true := by simpa using hexec
      simp [hlt, hyes]
    · have hlt : cfi.pcBegin < cfi.pcEnd := by bv_omega
      have hyes : bin.isExecutable cfi.pcBegin (cfi.pcEnd - cfi.pcBegin) = true := by simpa using hexec
      simp [hlt, hyes]

theorem triage_inr {bin : ELFBinary} {raw : RawFDE δ} {cfi : CFI δ} (h : triage bin raw = .inr cfi) :
    raw.cfi = .ok cfi ∧ cfi.pcBegin < cfi.pcEnd := by
  unfold triage at h
  cases hcfi : raw.cfi with
  | error e =>
    rw [hcfi] at h
    cases h
  | ok cfi' =>
    rw [hcfi] at h
    dsimp only at h
    split_ifs at h
    cases h
    exact ⟨rfl, by bv_omega⟩

/-- Overlaps are reported exactly when two neighbours overlap, and never blessed. -/
theorem overlapResults_blessed_iff {l : List (Word × CFI δ)} :
    (∀ r ∈ overlapResults l, r.verdict = .blessed) ↔
      l.IsChain fun a b => a.2.pcEnd.toNat ≤ b.2.pcBegin.toNat := by
  induction l with
  | nil => simp [overlapResults]
  | cons a l ih =>
    cases l with
    | nil => simp [overlapResults]
    | cons b l =>
      rw [overlapResults, List.isChain_cons_cons, ← ih]
      split_ifs with hover
      · have hnot : ¬ a.2.pcEnd.toNat ≤ b.2.pcBegin.toNat := by bv_omega
        simp [makeStructuralResult, hnot]
      · have hle : a.2.pcEnd.toNat ≤ b.2.pcBegin.toNat := by bv_omega
        simp [hle]

/-- What is structurally sound came from a record, and is not empty. -/
theorem mem_soundFDEs {bin : ELFBinary} {fdes : List (RawFDE δ)} {e : Word × CFI δ}
    (h : e ∈ soundFDEs bin fdes) :
    (∃ raw ∈ fdes, raw.vaddr = e.1 ∧ raw.cfi = .ok e.2) ∧ e.2.pcBegin < e.2.pcEnd := by
  obtain ⟨raw, hraw, he⟩ := List.mem_filterMap.mp h
  obtain ⟨cfi, hcfi, rfl⟩ := Option.map_eq_some_iff.mp he
  obtain ⟨hok, hlt⟩ := triage_inr (Sum.getRight?_eq_some_iff.mp hcfi)
  exact ⟨⟨raw, hraw, rfl, hok⟩, hlt⟩

/-- The structural checks pass exactly when every FDE covers executable memory that no other one
to be checked covers. -/
theorem structuralResults_blessed_iff {tools : Tools δ} {bin : ELFBinary} {fdes : List (RawFDE δ)} :
    (∀ r ∈ structuralResults tools bin fdes, r.verdict = .blessed) ↔
      (∀ raw ∈ fdes, ∃ cfi, raw.cfi = .ok cfi ∧ cfi.pcBegin < cfi.pcEnd ∧
        bin.isExecutable cfi.pcBegin (cfi.pcEnd - cfi.pcBegin)) ∧
      (checkable bin fdes).Pairwise (Lib.Apart (·.pcBegin.toNat) (·.pcEnd.toNat)) := by
  have hsettled : (∀ r ∈ fdes.filterMap fun raw => (triage bin raw).getLeft?, r.verdict = .blessed) ↔
      ∀ raw ∈ fdes, ∀ r, triage bin raw = .inl r → r.verdict = .blessed := by
    simp only [List.mem_filterMap, Sum.getLeft?_eq_some_iff]
    exact ⟨fun h raw hraw r hr => h r ⟨raw, hraw, hr⟩, fun h r ⟨raw, hraw, hr⟩ => h raw hraw r hr⟩
  set sorted := tools.sortByBegin.sort (soundFDEs bin fdes) with hsorted
  have hperm : sorted.Perm (soundFDEs bin fdes) := tools.sortByBegin.perm _
  have hlo : sorted.Pairwise fun a b => a.2.pcBegin.toNat ≤ b.2.pcBegin.toNat :=
    tools.sortByBegin.sorted _
  have hne : ∀ e ∈ sorted, e.2.pcBegin.toNat < e.2.pcEnd.toNat :=
    fun e he => (mem_soundFDEs (hperm.mem_iff.mp he)).2
  have hchain := Lib.isChain_iff_pairwise_apart (fun e : Word × CFI δ => e.2.pcBegin.toNat)
    (fun e => e.2.pcEnd.toNat) hne hlo
  have hapart := hperm.pairwise_iff (R := Lib.Apart (fun e : Word × CFI δ => e.2.pcBegin.toNat)
    fun e => e.2.pcEnd.toNat) fun h => h.symm
  unfold structuralResults checkable
  rw [List.forall_mem_append, hsettled, overlapResults_blessed_iff, ← hsorted, hchain, hapart,
    List.pairwise_map]
  simp only [triage_blessed_iff]
  rfl

end Results

section Run
variable {tools : Tools δ} {z : Zydis} {flags : Flags} {bin : ELFBinary}

omit [Offset δ] in
theorem uncoveredResults_blessed_iff {fdes : List (RawFDE δ)} :
    (∀ r ∈ uncoveredResults flags bin fdes, r.verdict = .blessed) ↔
      uncoveredResults flags bin fdes = [] := by
  constructor
  · intro h
    refine List.eq_nil_iff_forall_not_mem.mpr fun r hr => ?_
    have hblessed := h r hr
    unfold uncoveredResults at hr
    split_ifs at hr
    · rw [verdict_of_mem_uncoveredSymbols hr] at hblessed
      cases hblessed
    · cases hr
  · intro h
    simp [h]

/-- A run over all FDEs finds nothing exactly when there is nothing to find. -/
theorem runResults_blessed_iff :
    (∃ rs, runResults tools z flags ⟨none, none⟩ bin = some rs ∧ ∀ r ∈ rs, r.verdict = .blessed) ↔
      Clean tools z flags bin := by
  have hall : (checkable bin (bin.fdes (δ := δ))).filter (Filters.selects ⟨none, none⟩ tools) =
    checkable bin bin.fdes := List.filter_eq_self.mpr fun _ _ => rfl
  unfold runResults
  dsimp only
  rw [hall]
  constructor
  · rintro ⟨rs, hrs, hblessed⟩
    obtain ⟨checked, hchecked, rfl⟩ := Option.map_eq_some_iff.mp hrs
    obtain ⟨hfirst, hlast⟩ := List.forall_mem_append.mp hblessed
    obtain ⟨hstructural, huncovered⟩ := List.forall_mem_append.mp hfirst
    obtain ⟨hplaced, hapart⟩ := structuralResults_blessed_iff.mp hstructural
    exact ⟨hplaced, hapart, exists_mapM_iff.mp ⟨checked, hchecked, hlast⟩,
      uncoveredResults_blessed_iff.mp huncovered⟩
  · intro h
    obtain ⟨checked, hchecked, hlast⟩ := exists_mapM_iff.mpr h.blessed
    refine ⟨_, Option.map_eq_some_iff.mpr ⟨checked, hchecked, rfl⟩, ?_⟩
    refine List.forall_mem_append.mpr ⟨List.forall_mem_append.mpr ⟨?_, ?_⟩, hlast⟩
    · exact structuralResults_blessed_iff.mpr ⟨h.placed, h.apart⟩
    · exact uncoveredResults_blessed_iff.mpr h.covered

/-- The walk broke off before it met any FDE. -/
def ELFBinary.Unread (bin : ELFBinary) : Prop := bin.walk.fdes = [] ∧ ∃ e, bin.walk.ended = .error e

/-- When a run over a whole binary exits with 0. -/
theorem run_eq_blessed_iff (heh : bin.hasEhFrame) (hz : tools.disasm = .ok z) (hplain : flags.Plain) :
    run tools flags (.ok bin) = some kExitBlessed ↔ ¬ bin.Unread ∧ Clean tools z flags bin := by
  have hfilters : parseFilters tools flags = .ok ⟨none, none⟩ := by
    simp only [parseFilters, hplain.function, hplain.pc, if_true]
    rfl
  have hunread : (bin.readAllFDEs (δ := δ)).1.isEmpty ∧ (bin.readAllFDEs (δ := δ)).2.isSome ↔
      bin.Unread := by
    unfold ELFBinary.readAllFDEs ELFBinary.Unread
    cases bin.walk.ended <;> simp
  unfold run
  simp only [heh, hz, hfilters, hplain.inspect, hplain.dumpCfi, Bool.not_true, Bool.false_eq_true,
    if_false]
  by_cases h : bin.Unread
  · rw [if_pos (hunread.mpr h)]
    simp [h, kExitFailure, kExitBlessed]
  · rw [if_neg fun hempty => h (hunread.mp hempty), ← runResults_blessed_iff]
    simp [h, Option.map_eq_some_iff, exitCode_eq_blessed]

/-- Nothing a run over a clean binary met goes unblessed. -/
theorem Clean.judged (h : Clean tools z flags bin) {raw : RawFDE δ} (hraw : raw ∈ bin.fdes) :
    ∃ r, Judges (runOptions tools z flags bin) flags.full bin raw r ∧ r.verdict = .blessed := by
  cases ht : triage bin raw with
  | inl r => exact ⟨r, Or.inl ht, triage_blessed_iff.mpr (h.placed raw hraw) r ht⟩
  | inr cfi =>
    have hmem : cfi ∈ checkable bin bin.fdes := by
      refine List.mem_map.mpr ⟨(raw.vaddr, cfi), ?_, rfl⟩
      exact List.mem_filterMap.mpr ⟨raw, hraw, by simp [ht]⟩
    obtain ⟨r, hr, hblessed⟩ := h.blessed cfi hmem
    exact ⟨r, Or.inr ⟨cfi, ht, hr⟩, hblessed⟩

/-- Exit code 0 says that the whole section was read and blessed exactly when the walk reaches the
end of the section, or breaks off before the first FDE, or something it met is not clean: a walk
that breaks off later only leaves a line on stderr. -/
theorem exit_blessed_iff (heh : bin.hasEhFrame) (hz : tools.disasm = .ok z) (hplain : flags.Plain) :
    (run tools flags (.ok bin) = some kExitBlessed → AllBlessed tools z flags bin) ↔
      bin.walk.Complete bin.live (bin.ehFrameEnd + bin.bias) ∨ bin.Unread ∨
        ¬ Clean tools z flags bin := by
  rw [run_eq_blessed_iff heh hz hplain]
  constructor
  · intro h
    by_cases hunread : bin.Unread
    · exact Or.inr (Or.inl hunread)
    · by_cases hclean : Clean tools z flags bin
      · exact Or.inl (h ⟨hunread, hclean⟩).complete
      · exact Or.inr (Or.inr hclean)
  · rintro (hcomplete | hunread | hdirty) ⟨hread, hclean⟩
    · refine ⟨hcomplete, ?_, fun raw hraw => hclean.judged hraw, ?_⟩
      · intro raw hraw
        obtain ⟨cfi, hcfi, -⟩ := hclean.placed raw hraw
        exact ⟨cfi, hcfi⟩
      · intro rs hrs
        obtain ⟨rs', hrs', hblessed⟩ := runResults_blessed_iff.mpr hclean
        obtain rfl : rs' = rs := Option.some.inj (hrs'.symm.trans hrs)
        exact hblessed
    · exact absurd hunread hread
    · exact absurd hclean hdirty

end Run

namespace Sample

/-- Fifteen times `nop` and `ret` at 0x1000, with a CIE and an FDE for them at 0x2000, followed by
`tail`. -/
def binary (tail : List Byte) : ELFBinary where
  segments := [⟨⟨0x1000, 16, true⟩, 16, 0⟩,
    ⟨⟨0x2000, BitVec.ofNat 64 (41 + tail.length), false⟩, BitVec.ofNat 64 (41 + tail.length), 0x1000⟩]
  mem a :=
    if a < 0x2000 then (List.replicate 15 0x90 ++ [0xc3]).getD (a - 0x1000).toNat 0
    else ((ehFrame []).take 41 ++ tail).getD (a - 0x2000).toNat 0
  bias := 0x10000
  ehFrameStart := 0x2000
  ehFrameEnd := 0x2000 + BitVec.ofNat 64 (41 + tail.length)
  pltRanges := []
  funcSymbols := [⟨0x1000, 16, "f"⟩]

def terminated : ELFBinary := binary [0, 0, 0, 0]

/-- A record that claims 0x7fffffff bytes. -/
def overrun : ELFBinary := binary [0xff, 0xff, 0xff, 0x7f, 0x29, 0, 0, 0]

def tools : Tools Int64 where
  disasm := .ok decoder
  sortByBegin := .stable _
  sortIndex := .stable _
  symbolName _ := ""
  regex _ := .error ""
  simpleHexAtoi _ := none
  runInspectPipeline _ _ _ := .error ""

theorem plain : ({} : Flags).Plain := ⟨rfl, rfl, rfl, rfl⟩

end Sample

theorem terminated_all_blessed :
    run Sample.tools {} (.ok Sample.terminated) = some kExitBlessed ∧
      AllBlessed Sample.tools Sample.decoder {} Sample.terminated := by
  have hrun : run Sample.tools {} (.ok Sample.terminated) = some kExitBlessed := by decide +kernel
  have hcomplete : Sample.terminated.walk.Complete Sample.terminated.live
      (Sample.terminated.ehFrameEnd + Sample.terminated.bias) :=
    ⟨0x12029, rfl, Or.inr ⟨by decide +kernel, by decide +kernel⟩⟩
  exact ⟨hrun, (exit_blessed_iff rfl rfl Sample.plain).mpr (Or.inl hcomplete) hrun⟩

/-- The malformed record is never mentioned to whoever only looks at the exit code. -/
theorem overrun_exits_blessed :
    Sample.overrun.hasEhFrame = true ∧ run Sample.tools {} (.ok Sample.overrun) = some kExitBlessed ∧
      (∃ e, Sample.overrun.walk.ended = .error e) ∧
        ¬ AllBlessed Sample.tools Sample.decoder {} Sample.overrun := by
  have hended : ∃ e, Sample.overrun.walk.ended = .error e := ⟨_, rfl⟩
  refine ⟨by decide +kernel, by decide +kernel, hended, ?_⟩
  intro h
  obtain ⟨e, he⟩ := hended
  obtain ⟨pos, hpos, -⟩ := h.complete
  rw [he] at hpos
  cases hpos

end UnwindCheck
