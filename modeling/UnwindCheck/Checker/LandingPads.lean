import UnwindCheck.Checker.Coverage
import UnwindCheck.Lib.Sorted

/-! From a call to its landing pad, and what becomes of the pads no call leads to. -/
namespace UnwindCheck
variable {δ : Type}

namespace LSDACallSite

/-- Addresses of calls that can throw into the pad. -/
def Contains (cs : LSDACallSite) (pc : Word) : Prop := cs.start ≤ pc ∧ pc < cs.stop

/-- Sites without a call in common. -/
def Apart (cs cs' : LSDACallSite) : Prop :=
  Lib.Apart (fun site : LSDACallSite => site.start.toNat) (fun site => site.stop.toNat) cs cs'

end LSDACallSite

/-- What `SetupCallSites` keeps of the table: the sites in start order whose pad is ours. -/
def ownCallSites (cfi : CFI δ) (sites : List LSDACallSite) : List LSDACallSite :=
  (sites.insertionSort fun a b => a.start ≤ b.start).filter fun cs => cfi.Covers cs.landingPad

theorem mem_ownCallSites {cfi : CFI δ} {sites : List LSDACallSite} {cs : LSDACallSite} :
    cs ∈ ownCallSites cfi sites ↔ cs ∈ sites ∧ cfi.Covers cs.landingPad := by
  simp [ownCallSites, List.mem_insertionSort]

theorem setupCallSites_eq {image : ELFImage} {cfi : CFI δ} {sites : List LSDACallSite} {stop : Word}
    (hlsda : cfi.lsdaAddr ≠ 0)
    (hread : (readLSDA image cfi.pcBegin).run cfi.lsdaAddr = .ok (sites, stop)) :
    (setupCallSites image cfi).1 = ownCallSites cfi sites := by
  have hsites : readLSDACallSites image cfi.lsdaAddr cfi.pcBegin =
      .ok (sites.insertionSort fun a b => a.start ≤ b.start) := by
    unfold readLSDACallSites
    rw [hread]
    rfl
  rw [setupCallSites, if_neg hlsda, hsites]
  rfl

/-- The kept sites are in start order, and still apart. -/
theorem ownCallSites_sorted (cfi : CFI δ) (sites : List LSDACallSite) :
    (ownCallSites cfi sites).Pairwise fun a b => a.start ≤ b.start := by
  have htotal : Std.Total fun a b : LSDACallSite => a.start ≤ b.start :=
    ⟨fun a b => BitVec.le_total a.start b.start⟩
  have htrans : IsTrans LSDACallSite fun a b => a.start ≤ b.start := ⟨fun _ _ _ => BitVec.le_trans⟩
  exact (List.pairwise_insertionSort _ sites).filter _

theorem ownCallSites_apart (cfi : CFI δ) {sites : List LSDACallSite}
    (h : sites.Pairwise LSDACallSite.Apart) :
    (ownCallSites cfi sites).Pairwise LSDACallSite.Apart := by
  refine List.Pairwise.filter _ ?_
  refine h.perm (List.perm_insertionSort _ sites).symm ?_
  intro a b hab
  exact hab.symm

/-- The search by start looks at the last site that starts at or before the call. -/
theorem Env.landingPadForCall_cases {env : Env δ} {R : LSDACallSite → LSDACallSite → Prop}
    (hs : env.callSites.Pairwise R) (hR : ∀ a b, R a b → a.start ≤ b.start) (pc : Word) :
    (env.landingPadForCall pc = none ∧ ∀ cs ∈ env.callSites, pc < cs.start) ∨
      ∃ last ∈ env.callSites, last.start ≤ pc ∧
        env.landingPadForCall pc = (if pc < last.stop then some last.landingPad else none) ∧
        ∀ cs ∈ env.callSites, cs.start ≤ pc → R cs last ∨ cs = last := by
  have hgreater : ∀ a b, R a b → decide (pc < a.start) = true → decide (pc < b.start) = true := by
    intro a b hab h
    have hle := hR a b hab
    simp only [decide_eq_true_eq] at h ⊢
    bv_omega
  rcases Lib.upperBound_cases hs hgreater with ⟨hzero, hall⟩ | ⟨last, hlast, hstart, hpos, hget, hbefore⟩
  · left
    unfold landingPadForCall
    rw [hzero, if_pos rfl]
    exact ⟨rfl, fun cs hcs => by simpa using hall cs hcs⟩
  · right
    have hstart : last.start ≤ pc := by simpa using hstart
    refine ⟨last, hlast, hstart, ?_, fun cs hcs hle => hbefore cs hcs (by simpa using hle)⟩
    unfold landingPadForCall
    dsimp only
    rw [if_neg hpos, hget]
    simp [hstart]

/-- The last of them is the only one that can hold the call. -/
theorem Env.landingPadForCall_iff {env : Env δ}
    (hne : ∀ cs ∈ env.callSites, cs.start < cs.stop)
    (hs : env.callSites.Pairwise fun a b => a.start ≤ b.start)
    (ha : env.callSites.Pairwise LSDACallSite.Apart) (pc pad : Word) :
    env.landingPadForCall pc = some pad ↔
      ∃ cs ∈ env.callSites, cs.landingPad = pad ∧ cs.Contains pc := by
  rcases landingPadForCall_cases (hs.and ha) (fun _ _ h => h.1) pc with
    ⟨hnone, hall⟩ | ⟨last, hlast, hstart, hfound, hbefore⟩
  · rw [hnone]
    refine iff_of_false (by simp) ?_
    rintro ⟨cs, hcs, -, hlo, -⟩
    have hbehind := hall cs hcs
    bv_omega
  · rw [hfound]
    constructor
    · intro h
      split_ifs at h with hstop
      exact ⟨last, hlast, Option.some.inj h, hstart, hstop⟩
    · rintro ⟨cs, hcs, rfl, hlo, hhi⟩
      rcases hbefore cs hcs hlo with ⟨hle, hapart⟩ | rfl
      · -- a site further left that reached the call would reach into the last one
        have hnonempty := hne last hlast
        unfold LSDACallSite.Apart Lib.Apart at hapart
        bv_omega
      · rw [if_pos hhi]

variable [Offset δ]

/-- Every pad that has a row ends up with a state: reached before, or seeded now. -/
theorem Env.seedUnreachedLandingPads_reaches (env : Env δ) (w : Walk δ) {cs : LSDACallSite}
    (hcs : cs ∈ env.callSites) (hrow : (env.cfi.rowAt cs.landingPad).isSome) :
    (env.seedUnreachedLandingPads w).inStates.contains cs.landingPad := by
  have hdistinct : cs.landingPad ∈ env.distinctLandingPads := by
    rw [distinctLandingPads, List.mem_dedup, List.mem_insertionSort]
    exact List.mem_map_of_mem hcs
  obtain ⟨row, hrow⟩ := Option.isSome_iff_exists.mp hrow
  suffices h : ∃ st, (env.seedUnreachedLandingPads w).inStates[cs.landingPad]? = some st by
    obtain ⟨st, hst⟩ := h
    exact (Std.ExtTreeMap.mem_iff_isSome_getElem?).mpr (by rw [hst]; rfl)
  unfold seedUnreachedLandingPads
  dsimp only
  by_cases hreached : cs.landingPad ∈ w.inStates
  · have hw : ∃ st : AbsState δ, w.inStates[cs.landingPad]? = some st :=
      Option.isSome_iff_exists.mp (Std.ExtTreeMap.mem_iff_isSome_getElem?.mp hreached)
    split
    · exact hw
    · exact ((Walk.grows_propagateAll _ _).trans (Walk.grows_drainFor env _ _)).reached hw
  · have hseed : (cs.landingPad, AbsState.seedFromRow row false) ∈ env.unreachedPads w := by
      refine List.mem_filterMap.mpr ⟨cs.landingPad, hdistinct, ?_⟩
      rw [if_neg (by simpa using hreached), hrow]
      rfl
    have hne : (env.unreachedPads w).isEmpty = false :=
      List.isEmpty_eq_false_iff_exists_mem.mpr ⟨_, hseed⟩
    rw [hne, if_neg (by simp)]
    obtain ⟨st, hst, -⟩ := (Walk.grows_drainFor env _ _).absorbs (Walk.absorbs_propagateAll w hseed)
    exact ⟨st, hst⟩

/-- For sites that are nonempty and apart, in whatever order the table has them, the lookup finds a
pad exactly where a site with a pad of ours holds the call, and no such pad with a row is left
without a state. -/
theorem landingPads_exact (sites : List LSDACallSite) (hne : ∀ cs ∈ sites, cs.start < cs.stop)
    (ha : sites.Pairwise LSDACallSite.Apart) :
    (∀ (image : ELFImage) (cfi : CFI δ) (stop : Word), cfi.lsdaAddr ≠ 0 →
      (readLSDA image cfi.pcBegin).run cfi.lsdaAddr = .ok (sites, stop) →
      (setupCallSites image cfi).1 = ownCallSites cfi sites) ∧
    ∀ env : Env δ, env.callSites = ownCallSites env.cfi sites →
      (∀ pc pad, env.landingPadForCall pc = some pad ↔
        ∃ cs ∈ sites, cs.landingPad = pad ∧ env.cfi.Covers pad ∧ cs.Contains pc) ∧
      ∀ w, ∀ cs ∈ env.callSites, (env.cfi.rowAt cs.landingPad).isSome →
        (env.seedUnreachedLandingPads w).inStates.contains cs.landingPad := by
  refine ⟨fun image cfi stop => setupCallSites_eq, ?_⟩
  intro env henv
  constructor
  · intro pc pad
    have hlookup : env.landingPadForCall pc = some pad ↔
        ∃ cs ∈ env.callSites, cs.landingPad = pad ∧ cs.Contains pc := by
      apply Env.landingPadForCall_iff
      · intro cs hcs
        rw [henv] at hcs
        exact hne cs (mem_ownCallSites.mp hcs).1
      · rw [henv]
        exact ownCallSites_sorted env.cfi sites
      · rw [henv]
        exact ownCallSites_apart env.cfi ha
    rw [hlookup, henv]
    constructor
    · rintro ⟨cs, hcs, rfl, hc⟩
      obtain ⟨hmem, hcovers⟩ := mem_ownCallSites.mp hcs
      exact ⟨cs, hmem, rfl, hcovers, hc⟩
    · rintro ⟨cs, hmem, rfl, hcovers, hc⟩
      exact ⟨cs, mem_ownCallSites.mpr ⟨hmem, hcovers⟩, rfl, hc⟩
  · intro w cs hcs hrow
    exact env.seedUnreachedLandingPads_reaches w hcs hrow

namespace Sample

/-- Two calls in reverse order, one of them with its pad in another FDE, and a third. -/
def callSites : List LSDACallSite :=
  [⟨0x1008, 0x100c, 0x1002⟩, ⟨0x1004, 0x1008, 0x5000⟩, ⟨0x1000, 0x1001, 0x1001⟩]

def padsEnv : Env Int64 :=
  ⟨leafOptions, leaf, ownCallSites leaf callSites, false, fun _ h => (mem_ownCallSites.mp h).2⟩

end Sample

theorem callSites_looked_up :
    (∀ cs ∈ Sample.callSites, cs.start < cs.stop) ∧
      Sample.callSites.Pairwise LSDACallSite.Apart ∧
      Sample.padsEnv.landingPadForCall 0x1009 = some 0x1002 ∧
      Sample.padsEnv.landingPadForCall 0x1005 = none ∧
      (Sample.padsEnv.seedUnreachedLandingPads .init).inStates.contains 0x1001 := by
  have hne : ∀ cs ∈ Sample.callSites, cs.start < cs.stop := by decide
  have ha : Sample.callSites.Pairwise LSDACallSite.Apart := by
    simp [Sample.callSites, LSDACallSite.Apart, Lib.Apart]
  obtain ⟨hlookup, hseeded⟩ := (landingPads_exact Sample.callSites hne ha).2 Sample.padsEnv rfl
  refine ⟨hne, ha, (hlookup _ _).mpr ?_, ?_, ?_⟩
  · exact ⟨⟨0x1008, 0x100c, 0x1002⟩, by decide, rfl, by decide, by decide, by decide⟩
  · -- the only site there has its pad elsewhere
    rw [Option.eq_none_iff_forall_ne_some]
    intro pad hpad
    obtain ⟨cs, hcs, rfl, hcovers, hc⟩ := (hlookup _ _).mp hpad
    simp only [Sample.callSites, List.mem_cons, List.not_mem_nil, or_false] at hcs
    rcases hcs with rfl | rfl | rfl
    · exact absurd hc.1 (by decide)
    · exact absurd hcovers (by decide)
    · exact absurd hc.2 (by decide)
  · exact hseeded .init ⟨0x1000, 0x1001, 0x1001⟩ (by decide) (by decide)

end UnwindCheck
