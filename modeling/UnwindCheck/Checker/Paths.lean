import UnwindCheck.Checker.Coverage
import UnwindCheck.Insn.Agree

/-! Single paths against the merged states of the walk. `Join` takes `top` for its identity, so a
merged state can name what one of its paths has lost; where the merges a path goes through agree
on what matters, the merged state speaks for the path. -/
namespace UnwindCheck
variable {δ : Type} [Offset δ]

/-- The function returns with the frame as it found it. -/
structure AbsState.Restored (s : AbsState δ) : Prop where
  rsp : s.gpr kDWARFRsp = .cfaRel (Offset.ofInt (-8))
  saved : ∀ r ∈ kCalleeSaved, s.gpr r = .origReg r
  ra : s.slot (Offset.ofInt (-8)) = .origReg kDWARFRip

/-- The components a return is judged by. -/
def exitComponents : Set (Component δ) :=
  {c | c = .reg kDWARFRsp ∨ (∃ r ∈ kCalleeSaved, c = .reg r) ∨ c = .slot (Offset.ofInt (-8))}

theorem AbsState.Restored.of_agreeOn {s t : AbsState δ} (ht : t.Restored)
    (h : s.AgreeOn exitComponents t) : s.Restored where
  rsp := by
    have hc := h (.reg kDWARFRsp) (.inl rfl)
    exact (AbsVal.eq_of_named hc.symm (by simp [AbsState.get, ht.rsp, AbsVal.named])).symm.trans ht.rsp
  saved r hr := by
    have hc := h (.reg r) (.inr (.inl ⟨r, hr, rfl⟩))
    exact (AbsVal.eq_of_named hc.symm
      (by simp [AbsState.get, ht.saved r hr, AbsVal.named])).symm.trans (ht.saved r hr)
  ra := by
    have hc := h (.slot (Offset.ofInt (-8))) (.inr (.inr rfl))
    exact (AbsVal.eq_of_named hc.symm (by simp [AbsState.get, ht.ra, AbsVal.named])).symm.trans ht.ra

/-- The exit check of a canonical FDE is silent at the three conditions of a return, for a jump out as
for a `ret`. -/
theorem checkExitState_eq_nil {pc : Word} {st : AbsState δ} {isTailCall : Bool} :
    checkExitState true pc st isTailCall = [] ↔ st.Restored := by
  unfold checkExitState
  simp only [Bool.not_true, Bool.false_eq_true, if_false]
  by_cases hrsp : st.gpr kDWARFRsp = .cfaRel (Offset.ofInt (-8))
  · have hat : (AbsVal.cfaRel (Offset.ofInt (-8)) : AbsVal δ).isCFARel (Offset.ofInt (-8)) = true :=
      AbsVal.isCFARel_iff.mpr rfl
    simp only [hrsp, hat, Bool.not_true, Bool.and_false, Bool.false_eq_true, if_false, if_true,
      List.nil_append, List.append_eq_nil_iff, List.flatMap_eq_nil_iff]
    constructor
    · rintro ⟨hregs, hra⟩
      refine ⟨hrsp, fun r hr => ?_, ?_⟩
      · have hr' := hregs r hr
        split_ifs at hr' with hu ho
        simpa using ho
      · split_ifs at hra with hu ho
        simpa using ho
    · rintro ⟨-, hregs, hra⟩
      refine ⟨fun r hr => ?_, ?_⟩
      · simp [hregs r hr]
      · simp [hra]
  · have hat : (st.gpr kDWARFRsp).isCFARel (Offset.ofInt (-8)) = false :=
      Bool.eq_false_iff.mpr fun h => hrsp (AbsVal.isCFARel_iff.mp h)
    refine iff_of_false ?_ fun h => hrsp h.rsp
    intro hnil
    -- whatever rsp holds, its own check has something to say
    generalize st.gpr kDWARFRsp = rsp at hnil hat
    rw [hat] at hnil
    cases isTailCall with
    | true => cases rsp <;> cases hnil
    | false => cases rsp <;> cases hnil

namespace Walk
variable {env : Env δ} {Good : Word → AbsState δ → Prop}

/-- Every state recorded is good for its address. -/
def Every (Good : Word → AbsState δ → Prop) (w : Walk δ) : Prop :=
  ∀ (pc : Word) (st : AbsState δ), w.inStates[pc]? = some st → Good pc st

section
variable (hjoin : ∀ pc s t, Good pc s → Good pc t → Good pc (join s t).state)
include hjoin

theorem Every.propagate {w : Walk δ} (h : w.Every Good) {call : Word × AbsState δ}
    (hc : Good call.1 call.2) : (w.propagate call).Every Good := by
  obtain ⟨pc, state⟩ := call
  intro q st hst
  rcases propagate_cases w pc state with ⟨-, hin, -⟩ | ⟨old, hold, hin, -⟩
  · rw [hin, Std.ExtTreeMap.getElem?_insert] at hst
    by_cases hq : pc = q
    · subst hq
      have : state = st := by simpa using hst
      exact this ▸ hc
    · exact h q st (by simpa [hq] using hst)
  · rw [hin, Std.ExtTreeMap.getElem?_insert] at hst
    by_cases hq : pc = q
    · subst hq
      have : (join state old).state = st := by simpa using hst
      exact this ▸ hjoin pc state old hc (h pc old hold)
    · exact h q st (by simpa [hq] using hst)

theorem Every.propagateAll {w : Walk δ} (h : w.Every Good) {calls : List (Word × AbsState δ)}
    (hc : ∀ call ∈ calls, Good call.1 call.2) : (w.propagateAll calls).Every Good := by
  induction calls generalizing w with
  | nil => exact h
  | cons call calls ih =>
    exact ih (h.propagate hjoin (hc call List.mem_cons_self))
      fun c hm => hc c (List.mem_cons_of_mem _ hm)

/-- A loop that only propagates good states visits and leaves behind only good states. -/
theorem Every.drainFor {fuel : ℕ} {w : Walk δ} (hinv : Inv env none w) (h : w.Every Good)
    (hc : ∀ visit ∈ w.popsFor env fuel, ∀ call ∈ env.callsFrom visit.1 visit.2,
      Good call.1 call.2) :
    (w.drainFor env fuel).Every Good ∧ ∀ visit ∈ w.popsFor env fuel, Good visit.1 visit.2 := by
  induction fuel generalizing w with
  | zero =>
    refine ⟨?_, fun visit hv => by cases hv⟩
    rw [Walk.drainFor]
    split
    · exact h
    · exact h
  | succ fuel ih =>
    rw [Walk.drainFor]
    rw [popsFor] at hc ⊢
    cases hp : w.popped with
    | none => exact ⟨h, fun visit hv => by cases hv⟩
    | some v =>
      simp only [hp] at hc ⊢
      have hv : Good v.1 v.2 := h v.1 v.2 (hinv.popped hp)
      have hstep : (w.visit env v.1 v.2).Every Good := by
        rw [visit_eq]
        refine Every.propagateAll hjoin ?_ (hc v List.mem_cons_self)
        intro pc st hst
        exact h pc st (by simpa using hst)
      obtain ⟨hend, hrest⟩ := ih (hinv.visit hp) hstep fun u hu => hc u (List.mem_cons_of_mem _ hu)
      exact ⟨hend, fun u hu => (List.mem_cons.mp hu).elim (fun he => he ▸ hv) (hrest u)⟩

end

end Walk

namespace Env
variable {env : Env δ}

/-- If what a run propagates is good and joins keep it so, everything it visits and settles on
is good. -/
theorem every_settle (Good : Word → AbsState δ → Prop) {row : CFIRow δ}
    (hjoin : ∀ pc s t, Good pc s → Good pc t → Good pc (join s t).state)
    (hc : env.cfi.Covers env.cfi.pcBegin)
    (hcalls : ∀ call ∈ env.runCalls row, Good call.1 call.2) :
    (env.settle row).Every Good ∧ ∀ visit ∈ env.runPops row, Good visit.1 visit.2 := by
  have hinit : (Walk.init : Walk δ).Every Good := by
    intro pc st hst
    simp [Walk.init] at hst
  have hseed := hinit.propagate hjoin (hcalls _ List.mem_cons_self)
  have hvisits : ∀ visit ∈ env.runPops row, ∀ call ∈ env.callsFrom visit.1 visit.2,
      Good call.1 call.2 := by
    intro visit hv call hm
    refine hcalls call (List.mem_cons_of_mem _ (List.mem_append_right _ ?_))
    exact List.mem_flatMap.mpr ⟨visit, hv, hm⟩
  obtain ⟨hfirst, hpops⟩ := Walk.Every.drainFor hjoin ((Walk.inv_init env).propagate hc) hseed
    fun visit hv => hvisits visit (List.mem_append_left _ hv)
  have hfirst' : (env.firstWalk row).Every Good := hfirst
  by_cases hpads : (env.unreachedPads (env.firstWalk row)).isEmpty
  · refine ⟨?_, fun visit hv => ?_⟩
    · rw [settle, seedUnreachedLandingPads]
      simpa only [hpads, if_true] using hfirst'
    · rw [runPops] at hv
      simp only [hpads, if_true, List.append_nil] at hv
      exact hpops visit hv
  · have hpadded : ((env.firstWalk row).propagateAll (env.unreachedPads (env.firstWalk row))).Every
        Good := hfirst'.propagateAll hjoin
      fun call hm => hcalls call (List.mem_cons_of_mem _ (List.mem_append_left _ hm))
    have hinv : Walk.Inv env none
        ((env.firstWalk row).propagateAll (env.unreachedPads (env.firstWalk row))) :=
      (inv_firstWalk row hc).propagateAll fun _ hm => covers_of_mem_unreachedPads hm
    rw [runPops] at hvisits ⊢
    rw [settle, seedUnreachedLandingPads]
    simp only [hpads, Bool.false_eq_true, if_false] at hvisits ⊢
    obtain ⟨hend, hrest⟩ := Walk.Every.drainFor hjoin hinv hpadded
      fun visit hv => hvisits visit (List.mem_append_right _ hv)
    exact ⟨hend, fun visit hv => (List.mem_append.mp hv).elim (hpops visit) (hrest visit)⟩

/-- `Drain` walked this edge, at some visit of `p`. -/
def Walked (env : Env δ) (row : CFIRow δ) (p : Word) (insn : Instruction) (kind : EdgeKind)
    (q : Word) : Prop :=
  env.decodeAt p = some insn ∧ ∃ visit ∈ env.runPops row, visit.1 = p ∧
    (kind, q) ∈ env.edges insn visit.2

instance (row : CFIRow δ) (p : Word) (insn : Instruction) (kind : EdgeKind) (q : Word) :
    Decidable (env.Walked row p insn kind q) := inferInstanceAs (Decidable (_ ∧ _))

/-- A path of walked edges from the start of the FDE, with the state `Transfer` and
`TransferEdge` fold to along it. -/
inductive Path (env : Env δ) (row : CFIRow δ) : Word → AbsState δ → Prop
  | entry : Path env row env.cfi.pcBegin (AbsState.seedFromRow row true)
  | step {p q : Word} {s : AbsState δ} {insn : Instruction} {kind : EdgeKind} :
      Path env row p s → env.Walked row p insn kind q → Path env row q (env.edgeState insn kind s)

/-- Everything ever propagated to `q` names the same things in `K`: no join there meets a named
value with anything else. -/
def MergesAgree (env : Env δ) (row : CFIRow δ) (q : Word) (K : Set (Component δ)) : Prop :=
  ∀ a ∈ env.runCalls row, ∀ b ∈ env.runCalls row, a.1 = q → b.1 = q → a.2.AgreeOn K b.2

/-- What is named in `K'` after the instruction depends on what is named in `K` before it. -/
def Carries (env : Env δ) (insn : Instruction) (kind : EdgeKind) (K K' : Set (Component δ)) : Prop :=
  ∀ s t : AbsState δ, s.AgreeOn K t → (env.edgeState insn kind s).AgreeOn K' (env.edgeState insn kind t)

/-- Components worth watching at each address: those a return is judged by, and whatever the
instructions compute them from. All paths into an address name the same things there. -/
structure Watch (env : Env δ) (row : CFIRow δ) (K : Word → Set (Component δ)) : Prop where
  returns : ∀ p insn, env.decodeAt p = some insn → isReturnMnemonic insn.id = true →
    exitComponents ⊆ K p
  carries : ∀ p insn kind q, env.Walked row p insn kind q → env.Carries insn kind (K p) (K q)
  agree : ∀ q, env.MergesAgree row q (K q)

theorem edgeState_agree {insn : Instruction} (hd : insn.insn.MarksDest) (kind : EdgeKind)
    {s t : AbsState δ} (h : s.Agree t) :
    (env.edgeState insn kind s).Agree (env.edgeState insn kind t) := by
  have ht := transfer_agree h env.z hd
  cases kind with
  | landingPad => exact ht
  | table => exact ht
  | fallThrough =>
    exact ht.of_eq (transferEdge_gpr _ _ _) (transferEdge_slots _ _ _) (transferEdge_gpr _ _ _)
      (transferEdge_slots _ _ _)
  | taken =>
    exact ht.of_eq (transferEdge_gpr _ _ _) (transferEdge_slots _ _ _) (transferEdge_gpr _ _ _)
      (transferEdge_slots _ _ _)

/-- Watching everything is always possible. -/
theorem Watch.univ {row : CFIRow δ} (hz : env.z.MarksDest)
    (h : ∀ q, env.MergesAgree row q Set.univ) : env.Watch row fun _ => Set.univ where
  returns _ _ _ _ := Set.subset_univ _
  carries p insn kind q hw s t hst := by
    rw [AbsState.agreeOn_univ] at hst ⊢
    refine edgeState_agree ?_ kind hst
    obtain ⟨d, hd, rfl⟩ := Option.map_eq_some_iff.mp hw.1
    exact hz _ d hd
  agree := h

/-- A walked edge is propagated along. -/
theorem Walked.mem_runCalls {row : CFIRow δ} {p q : Word} {insn : Instruction} {kind : EdgeKind}
    (h : env.Walked row p insn kind q) :
    ∃ st, (p, st) ∈ env.runPops row ∧ (q, env.edgeState insn kind st) ∈ env.runCalls row := by
  obtain ⟨hd, ⟨p', st⟩, hv, rfl, he⟩ := h
  refine ⟨st, hv, List.mem_cons_of_mem _ (List.mem_append_right _ ?_)⟩
  refine List.mem_flatMap.mpr ⟨(p', st), hv, ?_⟩
  rw [callsFrom, hd]
  exact List.mem_map.mpr ⟨(kind, q), he, rfl⟩

theorem Path.mem_runCalls {row : CFIRow δ} {pc : Word} {s : AbsState δ} (h : env.Path row pc s) :
    ∃ st, (pc, st) ∈ env.runCalls row := by
  cases h with
  | entry => exact ⟨_, List.mem_cons_self⟩
  | step _ hw =>
    obtain ⟨st, -, hm⟩ := hw.mem_runCalls
    exact ⟨_, hm⟩

/-- A state that agrees with all that was propagated to `pc` agrees with what was made of it. -/
theorem agreeOn_of_runCalls {row : CFIRow δ} (hc : env.cfi.Covers env.cfi.pcBegin) {pc : Word}
    {s : AbsState δ} {K : Set (Component δ)}
    (h : ∀ call ∈ env.runCalls row, call.1 = pc → s.AgreeOn K call.2) :
    (∀ st, (env.settle row).inStates[pc]? = some st → s.AgreeOn K st) ∧
      ∀ st, (pc, st) ∈ env.runPops row → s.AgreeOn K st := by
  obtain ⟨hsettle, hpops⟩ := every_settle (fun q t => q = pc → s.AgreeOn K t)
    (fun _ _ _ h₁ h₂ hq => (h₁ hq).join (h₂ hq)) hc h
  exact ⟨fun st hst => hsettle pc st hst rfl, fun st hv => hpops _ hv rfl⟩

theorem exitOf_return {insn : Instruction} (h : isReturnMnemonic insn.id = true) (st : AbsState δ) :
    env.exitOf insn st = .returns := by
  simp [exitOf, transfer, h]

/-- Along a path, the folded state names what everything propagated to the same address names. -/
theorem Watch.path {row : CFIRow δ} {K : Word → Set (Component δ)} (h : env.Watch row K)
    (hcanon : row.isCanonicalEntry = true) (hc : env.cfi.Covers env.cfi.pcBegin) {pc : Word}
    {s : AbsState δ} (hp : env.Path row pc s) :
    ∀ call ∈ env.runCalls row, call.1 = pc → s.AgreeOn (K pc) call.2 := by
  induction hp with
  | entry =>
    intro call hm hpc
    have := h.agree env.cfi.pcBegin _ List.mem_cons_self call hm rfl hpc
    rwa [hcanon] at this
  | @step p q s insn kind _ hw ih =>
    intro call hm hq
    obtain ⟨st, hv, hcall⟩ := hw.mem_runCalls
    have hst := (agreeOn_of_runCalls hc ih).2 st hv
    exact (h.carries p insn kind q hw s st hst).trans (h.agree q _ hcall call hm rfl hq)

end Env

/-- Every path of walked edges to a return of the FDE restores the frame. -/
def PathsRestore (options : FDECheckerOptions δ) (cfi : CFI δ) (guessing : Bool) (row : CFIRow δ) :
    Prop :=
  ∀ (pc : Word) (s : AbsState δ) (insn : Instruction),
    (Env.of options cfi guessing).Path row pc s →
    (Env.of options cfi guessing).decodeAt pc = some insn → isReturnMnemonic insn.id = true →
    s.Restored

/-- A blessed verdict speaks for every single path, where the merges agree on what is watched. -/
theorem blessed_pathsRestore {options : FDECheckerOptions δ} {cfi : CFI δ}
    {atFunctionEntry guessing : Bool} {row : CFIRow δ} (hrow : cfi.rowAt cfi.pcBegin = some row)
    (hcanon : row.isCanonicalEntry = true)
    (hb : (check options cfi atFunctionEntry guessing).verdict = .blessed)
    {K : Word → Set (Component δ)} (hK : (Env.of options cfi guessing).Watch row K) :
    PathsRestore options cfi guessing row := by
  intro pc s insn hp hd hret
  have hcov : cfi.Covers cfi.pcBegin := cfi.covers_of_rowAt hrow
  have hra : cfi.raUndefined = false := by
    simp only [CFIRow.isCanonicalEntry, Bool.decide_and, Bool.and_eq_true, decide_eq_true_eq] at hcanon
    simp [CFI.raUndefined, hrow, hcanon.2]
  obtain ⟨row', hrow', hs, -⟩ := silent_of_blessed hra hb
  obtain rfl : row = row' := Option.some.inj (hrow.symm.trans hrow')
  obtain ⟨call, hcall⟩ := hp.mem_runCalls
  obtain ⟨st, hst, -⟩ := Env.absorbs_settle hcall
  have hagree := (Env.agreeOn_of_runCalls hcov (hK.path hcanon hcov hp)).1 st hst
  obtain ⟨insn', r, hcomp, hexit⟩ := hs.compared hst
  obtain rfl : insn' = insn := Option.some.inj (hcomp.decoded.symm.trans hd)
  have hsilent : checkExitState true insn'.address st false = [] := by
    rw [Env.exitReports, Env.exitOf_return hret, hcanon] at hexit
    exact (List.append_eq_nil_iff.mp hexit).2
  exact (checkExitState_eq_nil.mp hsilent).of_agreeOn
    fun c hc => hagree c (hK.returns pc insn' hd hret hc)

namespace Sample

/-- `je` over `xor %ebx,%ebx` to a `ret`: one of the two paths loses rbx. -/
def forgetful : CFI Int64 := cfi 5 [row 0x1000 8]

def forgetfulOptions : FDECheckerOptions Int64 := options [0x74, 0x02, 0x31, 0xdb, 0xc3] forgetful

/-- `je` over a `nop` to a `ret`. -/
def harmless : CFI Int64 := cfi 4 [row 0x1000 8]

def harmlessOptions : FDECheckerOptions Int64 := options [0x74, 0x01, 0x90, 0xc3] harmless

end Sample

/-- The path that overwrote rbx is hidden behind the one that did not. -/
theorem forgetful_blessed :
    (Sample.row 0x1000 8).isCanonicalEntry = true ∧
      (check Sample.forgetfulOptions Sample.forgetful true false).verdict = .blessed ∧
      ¬ PathsRestore Sample.forgetfulOptions Sample.forgetful false (Sample.row 0x1000 8) := by
  refine ⟨by decide +kernel, by decide +kernel, fun h => ?_⟩
  have hje : (Env.of Sample.forgetfulOptions Sample.forgetful false).Walked (Sample.row 0x1000 8)
      0x1000 ⟨0x1000, Sample.je 2⟩ .fallThrough 0x1002 := by decide +kernel
  have hclear : (Env.of Sample.forgetfulOptions Sample.forgetful false).Walked (Sample.row 0x1000 8)
      0x1002 ⟨0x1002, Sample.clear⟩ .fallThrough 0x1004 := by decide +kernel
  have hr := h 0x1004 _ ⟨0x1004, Sample.ret⟩ ((Env.Path.entry.step hje).step hclear)
    (by decide +kernel) (by decide)
  exact absurd (hr.saved 3 (by decide)) (by decide +kernel)

theorem Sample.decoder_marksDest : Sample.decoder.MarksDest := by
  intro bytes i h hid
  obtain ⟨e, he, rfl⟩ := Option.map_eq_some_iff.mp h
  have hnone : ∀ e ∈ Sample.encodings, ¬ (e.2.mnemonic = .add ∨ e.2.mnemonic = .movsxd) := by
    decide
  exact absurd hid (hnone e (List.mem_of_find?_eq_some he))

theorem harmless_pathsRestore :
    (check Sample.harmlessOptions Sample.harmless true false).verdict = .blessed ∧
      PathsRestore Sample.harmlessOptions Sample.harmless false (Sample.row 0x1000 8) := by
  have hb : (check Sample.harmlessOptions Sample.harmless true false).verdict = .blessed := by
    decide +kernel
  have hsame : ∀ a ∈ (Env.of Sample.harmlessOptions Sample.harmless false).runCalls
      (Sample.row 0x1000 8), ∀ b ∈ (Env.of Sample.harmlessOptions Sample.harmless false).runCalls
      (Sample.row 0x1000 8), a.1 = b.1 → a.2 = b.2 := by
    decide +kernel
  refine ⟨hb, blessed_pathsRestore (by decide +kernel) (by decide +kernel) hb
    (Env.Watch.univ Sample.decoder_marksDest fun q a ha b hb haq hbq => ?_)⟩
  rw [hsame a ha b hb (haq.trans hbq.symm)]
  exact .refl _ _

end UnwindCheck
