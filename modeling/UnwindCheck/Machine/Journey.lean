import UnwindCheck.Machine.Activation

/-! Activations that leave one FDE for the start of another: the states the second one is walked with
are true of the machine that arrives there. -/
namespace UnwindCheck

/-- The same caller: one CFA, one return address, and the same values in the registers that a callee
must preserve. -/
structure Frame.SameCaller (f f' : Frame) : Prop where
  cfa : f'.cfa = f.cfa
  saved : ∀ r ∈ kCalleeSaved, f'.entry r = f.entry r
  ra : f'.entry kDWARFRip = f.entry kDWARFRip

theorem Frame.SameCaller.refl (f : Frame) : f.SameCaller f := ⟨rfl, fun _ _ => rfl, rfl⟩

theorem Frame.SameCaller.trans {f g h : Frame} (hfg : f.SameCaller g) (hgh : g.SameCaller h) :
    f.SameCaller h where
  cfa := hgh.cfa.trans hfg.cfa
  saved r hr := (hgh.saved r hr).trans (hfg.saved r hr)
  ra := hgh.ra.trans hfg.ra

theorem Frame.Restored.of_sameCaller {f f' : Frame} {m : Machine} (h : f'.Restored m)
    (hsame : f.SameCaller f') : f.Restored m where
  rsp := hsame.cfa ▸ h.rsp
  saved r hr := (h.saved r hr).trans (hsame.saved r hr)
  ra := by
    rw [← hsame.cfa, ← hsame.ra]
    exact h.ra

section Enter
variable {row : CFIRow Int64} {f : Frame} {m : Machine} {K : Set (Component Int64)}
  {st : AbsState Int64} {rc : RowChecker}

/-- A silent comparison is right about `val_offset` rules in its own reading of them. -/
theorem RowChecker.holdsOf_of_check (hsilent : rc.check row st = []) (hK : row.consulted ⊆ K)
    (h : f.reading.DescribesOn K st m) : row.HoldsOf f m := by
  refine ⟨unwinds_of_check hsilent hK h, fun r offset hr => ?_⟩
  have hcheck := (rc.check_eq_nil.mp hsilent).2 r.castSucc
  rw [hr] at hcheck
  have hval : st.gpr r = .cfaRel offset := by
    have := (rc.compareValue_eq_nil.mp hcheck).2
    rwa [show st.reg r.castSucc = st.gpr r from st.reg_fin r] at this
  have hin : Component.reg r ∈ K := by
    apply hK
    show rowDependsOn row (.reg r) = true
    simp only [rowDependsOn, Bool.or_eq_true, List.any_eq_true]
    exact .inr ⟨r.castSucc, List.mem_finRange _, by simp [hr]⟩
  have hw := h _ hin
  rw [AbsState.get, hval] at hw
  exact hw

/-- The frame of a function that is entered by a jump: the registers its first row is silent about are
its own to name. -/
def Frame.entered (f : Frame) (row : CFIRow Int64) (m : Machine) : Frame :=
  { f with
    entry := fun q =>
      if h : q < 16 then
        if row.isCanonicalEntry ∧ row.regs ⟨q, by omega⟩ = .unset ∧ ⟨q, h⟩ ∉ kCalleeSaved then m.regs ⟨q, h⟩
        else f.entry q
      else f.entry q }

theorem Frame.entered_sameCaller (f : Frame) (row : CFIRow Int64) (m : Machine) :
    f.SameCaller (f.entered row m) where
  cfa := rfl
  saved r hr := by simp [Frame.entered, hr]
  ra := rfl

theorem Frame.entered_entry (f : Frame) (m : Machine) {r : Fin 17} (hr : row.regs r ≠ .unset) :
    (f.entered row m).entry r = f.entry r := by
  unfold Frame.entered
  dsimp only
  split_ifs with hlt hcond
  · exact absurd hcond.2.1 hr
  · rfl
  · rfl

/-- A jump to a row that was silently compared with the state arrives in a machine the state seeded
from the row is right about. -/
theorem seedFromRow_of_check (hsilent : rc.check row st = []) (hK : row.consulted ⊆ K)
    (h : f.reading.DescribesOn K st m)
    (hsaved : row.isCanonicalEntry = true → rc.checkUnmentioned = true ∧ ∀ r ∈ kCalleeSaved, .reg r ∈ K)
    {K' : Set (Component Int64)}
    (hK' : ∀ p : Fin 16, .reg p ∈ K' → (row.regs p.castSucc).isMoved = false) :
    (f.entered row m).reading.DescribesOn K' (AbsState.seedFromRow row row.isCanonicalEntry) m := by
  have hof := rc.holdsOf_of_check hsilent hK h
  apply seedFromRow_describesOn _ _ hK'
  · refine ⟨⟨hof.cfa, fun r hplain => ?_⟩, hof.val⟩
    have hset : row.regs r ≠ .unset := by
      intro hr
      rw [hr] at hplain
      cases hplain
    rw [Frame.entered_entry f m hset]
    exact hof.regs r hplain
  · intro hcanon p hunset _
    by_cases hp : p ∈ kCalleeSaved
    · obtain ⟨hmentions, hwatched⟩ := hsaved hcanon
      have hcheck := (rc.check_eq_nil.mp hsilent).2 p.castSucc
      have his : isCalleeSaved p.castSucc = true := by
        simp only [isCalleeSaved, List.any_eq_true]
        exact ⟨p, hp, by simp⟩
      rw [hunset] at hcheck
      simp only [RowChecker.checkReg, hmentions, his, Bool.and_self, if_true] at hcheck
      have hval : st.gpr p = .origReg p := by
        have := (rc.compareValue_eq_nil.mp hcheck).2
        rwa [show st.reg p.castSucc = st.gpr p from st.reg_fin p] at this
      have hw := h _ (hwatched p hp)
      rw [AbsState.get, hval] at hw
      rw [(f.entered_sameCaller row m).saved p hp]
      exact hw
    · have hunset' : row.regs ⟨p.val, by omega⟩ = .unset := hunset
      simp only [Frame.entered, dif_pos p.isLt]
      rw [if_pos ⟨hcanon, hunset', hp⟩]

end Enter

/-- An FDE that was blessed without guessing, over a walk that is carried by what is watched. At the
jumps that leave it the rows of their targets are compared by nothing else, and the first row moves no
register that is watched. -/
structure Certified (options : FDECheckerOptions Int64) (K : Word → Set (Component Int64))
    (cfi : CFI Int64) (row : CFIRow Int64) : Prop where
  first : cfi.rowAt cfi.pcBegin = some row
  ra : row.regs 16 ≠ .undefined
  blessed : ∃ atFunctionEntry, (check options cfi atFunctionEntry false).verdict = .blessed
  observed : (Env.of options cfi false).Observed row K
  exits : ∀ p insn st, (Env.of options cfi false).decodeAt p = some insn →
    (settledWalk options cfi false).inStates[p]? = some st →
    ∀ target ∈ (Env.of options cfi false).crossTargets insn st, ∀ rc r,
      (Env.of options cfi false).crossRow insn.address target = some (rc, r) →
      r.consulted ⊆ K p ∧ ∀ q ∈ kCalleeSaved, .reg q ∈ K p
  start : ∀ p : Fin 16, .reg p ∈ K cfi.pcBegin → (row.regs p.castSucc).isMoved = false

/-- A call into an FDE that runs along walked edges, and by the jumps that leave an FDE for the first
address of another one. `P` are the FDEs it passes. -/
inductive Journey (options : FDECheckerOptions Int64) (K : Word → Set (Component Int64))
    (P : Set (CFI Int64)) (f : Frame) : CFI Int64 → Word → Machine → Prop
  | start {c : CFI Int64} {row : CFIRow Int64} {m : Machine} :
      c ∈ P → c.rowAt c.pcBegin = some row →
      f.reading.DescribesOn (K c.pcBegin) (AbsState.seedFromRow row row.isCanonicalEntry) m →
      Journey options K P f c c.pcBegin m
  | step {c : CFI Int64} {row : CFIRow Int64} {p q : Word} {m m' : Machine} {insn : Instruction}
      {kind : EdgeKind} {st : AbsState Int64} :
      Journey options K P f c p m → c.rowAt c.pcBegin = some row →
      (Env.of options c false).Walked row p insn kind q →
      (settledWalk options c false).inStates[p]? = some st → insn.RegStep m m' →
      insn.MemStep options.disasm f.cfa (st.restrict (K p)) m m' → Journey options K P f c q m'
  | jump {c c' : CFI Int64} {p : Word} {m m' : Machine} {insn : Instruction} {st : AbsState Int64} :
      Journey options K P f c p m → (Env.of options c false).decodeAt p = some insn →
      (settledWalk options c false).inStates[p]? = some st →
      c'.pcBegin ∈ (Env.of options c false).crossTargets insn st →
      cfiContaining options.allCfis c'.pcBegin = some c' → c' ∈ P → insn.RegStep m m' →
      insn.MemStep options.disasm f.cfa (st.restrict (K p)) m m' →
      Journey options K P f c' c'.pcBegin m'

section
variable {options : FDECheckerOptions Int64} {K : Word → Set (Component Int64)} {P : Set (CFI Int64)}
  {f : Frame}

theorem Certified.silent {c : CFI Int64} {row : CFIRow Int64} (h : Certified options K c row) :
    (Env.of options c false).Silent row ∧
      settledWalk options c false = (Env.of options c false).settle row := by
  obtain ⟨atFunctionEntry, hb⟩ := h.blessed
  have hra : c.raUndefined = false := by simp [CFI.raUndefined, h.first, h.ra]
  obtain ⟨row', hrow, hs, hwalk⟩ := silent_of_blessed hra hb
  obtain rfl : row = row' := Option.some.inj (h.first.symm.trans hrow)
  exact ⟨hs, hwalk⟩

/-- A jump to the start of an FDE is held to its first row. -/
theorem crossRow_of_start (env : Env Int64) {r : CFIRow Int64} {c : CFI Int64}
    (hc : cfiContaining env.options.allCfis c.pcBegin = some c) (hr : c.rowAt c.pcBegin = some r)
    (edgePc : Word) : ∃ rc, env.crossRow edgePc c.pcBegin = some (rc, r) ∧
      (r.isCanonicalEntry = true → rc.checkUnmentioned = true) := by
  unfold Env.crossRow
  rw [hc]
  dsimp only
  rw [hr, Option.map_some]
  exact ⟨_, rfl, fun hcanon => by simp [hcanon]⟩

/-- Every point of a journey is one of an activation of the FDE it is in, with the same caller. -/
theorem Journey.activation (hz : options.disasm.MarksDest) (hsized : options.disasm.Sized)
    (hall : ∀ c ∈ P, ∃ row, Certified options K c row) {c : CFI Int64} {pc : Word}
    {m : Machine} (h : Journey options K P f c pc m) :
    ∃ f' row, f.SameCaller f' ∧ Certified options K c row ∧
      (Env.of options c false).Activation row K f' pc m := by
  induction h with
  | @start c row m hmem hrow hm =>
    obtain ⟨row', hcert⟩ := hall _ hmem
    obtain rfl : row = row' := Option.some.inj (hrow.symm.trans hcert.first)
    exact ⟨f, row, .refl f, hcert, .entry hm⟩
  | @step c row p q m m' insn kind st _ hrow hw hst hx hmem ih =>
    obtain ⟨f', row', hsame, hcert, hact⟩ := ih
    obtain rfl : row = row' := Option.some.inj (hrow.symm.trans hcert.first)
    rw [hcert.silent.2] at hst
    refine ⟨f', row, hsame, hcert, hact.step hw hst hx ?_⟩
    rw [hsame.cfa]
    exact hmem
  | @jump c c' p m m' insn st _ hd hst ht hc' hpassed hx hmem ih =>
    obtain ⟨f', row, hsame, hcert, hact⟩ := ih
    obtain ⟨hs, hwalk⟩ := hcert.silent
    obtain ⟨row', hcert'⟩ := hall _ hpassed
    have hst' := hst
    rw [hwalk] at hst'
    -- what the settled state says is still so behind the jump
    have hcov : (Env.of options c false).cfi.Covers (Env.of options c false).cfi.pcBegin :=
      c.covers_of_rowAt hcert.first
    obtain ⟨hbr, hret⟩ := Env.branch_of_mem_crossTargets ht
    have hbehind := hact.behind hs hcov hz hsized hcert.observed ⟨hd, hst', hx, hsame.cfa ▸ hmem⟩ hbr hret
    obtain ⟨insn', r, hcomp, hexit⟩ := hs.compared hst'
    obtain rfl : insn' = insn := Option.some.inj (hcomp.decoded.symm.trans hd)
    obtain ⟨rc, hcross, hmentions⟩ :=
      crossRow_of_start (Env.of options c false) hc' hcert'.first insn'.address
    have hsilent := (Env.check_of_crossTargets hexit ht).1 rc row' hcross
    obtain ⟨hconsulted, hsaved⟩ := hcert.exits p insn' st hd hst _ ht rc row' hcross
    refine ⟨f'.entered row' m', row', hsame.trans (f'.entered_sameCaller row' m'), hcert', .entry ?_⟩
    exact seedFromRow_of_check hsilent hconsulted hbehind (fun hcanon => ⟨hmentions hcanon, hsaved⟩)
      hcert'.start

/-- Certified FDEs compose: wherever a journey through them gets to, the row declared there finds the CFA
of the call it started with, the return address, and the caller's value of each register that a callee
must preserve and a plain rule is declared for. Where it returns, it returns as it was called, and where
it leaves by another branch, to any address, it hands the frame of its caller over. -/
theorem journey_unwinds (hz : options.disasm.MarksDest) (hsized : options.disasm.Sized)
    (hall : ∀ c ∈ P, ∃ row, Certified options K c row) {c : CFI Int64} {pc : Word}
    {m : Machine} (h : Journey options K P f c pc m) :
    (∃ r, c.rowAt pc = some r ∧ evalCFA r.cfa m.regs = some f.cfa ∧
      ∀ q : Fin 17, (q.val = kDWARFRip ∨ isCalleeSaved q = true) → (r.regs q).isPlain = true →
        recover (r.regs q) q f.cfa m.regs (fun a => m.load a 8) = some (f.entry q)) ∧
      (∀ insn, (Env.of options c false).decodeAt pc = some insn → isReturnMnemonic insn.id = true →
        f.Restored m) ∧
      ∀ row, c.rowAt c.pcBegin = some row → ∀ insn st m',
        (Env.of options c false).Leaves row K f pc insn st m m' →
        ∃ f', f.SameCaller f' ∧ (Env.of options c false).HandsOver (K pc) f' insn st m' := by
  obtain ⟨f', row, hsame, hcert, hact⟩ := h.activation hz hsized hall
  obtain ⟨hs, -⟩ := hcert.silent
  have hcov : (Env.of options c false).cfi.Covers (Env.of options c false).cfi.pcBegin :=
    c.covers_of_rowAt hcert.first
  constructor
  · obtain ⟨insn, r, -, hr, hun⟩ := hact.unwound hs hcov hz hsized hcert.observed
    refine ⟨r, hr, hsame.cfa ▸ hun.cfa, fun q hq hplain => ?_⟩
    have hentry : f'.entry q = f.entry q := by
      rcases hq with hq | hq
      · rw [hq]
        exact hsame.ra
      · obtain ⟨p, hp, hpq⟩ := List.any_eq_true.mp hq
        have hpq' : p.val = q.val := by simpa using hpq
        rw [← hpq']
        exact hsame.saved p hp
    rw [← hentry, ← hsame.cfa]
    exact hun.regs q hplain
  constructor
  · intro insn hd hret
    exact (hact.restored hs hcov hz hsized hcert.observed hd hret).of_sameCaller hsame
  · intro row' hrow' insn st m' hl
    obtain rfl : row = row' := Option.some.inj (hcert.first.symm.trans hrow')
    have hl' : (Env.of options c false).Leaves row K f' pc insn st m m' :=
      ⟨hl.decoded, hl.reached, hl.step, hsame.cfa ▸ hl.mem⟩
    exact ⟨f', hsame, hact.handsOver hs hcov hz hsized hcert.observed hl'⟩

end

namespace Sample

theorem relayed_observed :
    (Env.of relayOptions relayed false).Observed (row 0x1004 8) fun _ => Set.univ where
  watch := by
    have hsame : ∀ a ∈ (Env.of relayOptions relayed false).runCalls (row 0x1004 8),
        ∀ b ∈ (Env.of relayOptions relayed false).runCalls (row 0x1004 8), a.1 = b.1 → a.2 = b.2 := by
      decide +kernel
    refine Env.Watch.univ relayDecoder_marksDest fun q a ha b hb haq hbq => ?_
    rw [hsame a ha b hb (haq.trans hbq.symm)]
    exact .refl _ _
  rows _ _ _ := Set.subset_univ _
  tracks p i st hd hst := by
    have hkeys : p ∈ [(0x1004 : Word), 0x1005] := by
      have hmem := Std.ExtTreeMap.mem_toList_iff_getElem?_eq_some.mpr hst
      have hlist : ((Env.of relayOptions relayed false).settle (row 0x1004 8)).inStates.toList.map
          Prod.fst = [0x1004, 0x1005] := by decide +kernel
      rw [← hlist]
      exact List.mem_map.mpr ⟨_, hmem, rfl⟩
    simp only [List.mem_cons, List.not_mem_nil, or_false] at hkeys
    rcases hkeys with rfl | rfl
    · have hins : (Env.of relayOptions relayed false).decodeAt 0x1004 =
          some ⟨0x1004, insn 1 .nop .other []⟩ := by decide +kernel
      cases hins.symm.trans hd
      refine Instruction.tracks_of_plain (by decide) (fun r hr => ?_) fun h => ?_
      · obtain ⟨op, hop, -⟩ := hr
        cases hop
      · rcases h.kind with ⟨hid, -⟩ | hfq | ⟨hmov, -⟩ | hnone
        · simp [Instruction.id, Sample.insn] at hid
        · cases hfq
        · simp [Instruction.id, Sample.insn] at hmov
        · cases hnone
    · have hins : (Env.of relayOptions relayed false).decodeAt 0x1005 = some ⟨0x1005, ret⟩ := by
        decide +kernel
      cases hins.symm.trans hd
      refine Instruction.tracks_of_plain (by decide) (fun r hr => ?_) fun h => ?_
      · obtain ⟨op, hop, -⟩ := hr
        cases hop
      · exact absurd h.isReturn (by decide)

theorem row_isMoved (pcStart : Word) (p : Fin 16) :
    ((row pcStart 8).regs p.castSucc).isMoved = false := by
  have hne : p.castSucc ≠ 16 := by
    intro h
    have := congrArg Fin.val h
    have hlt := p.isLt
    simp at this
    omega
  simp [row, hne, RegRule.isMoved]

/-- Both are certified; nothing is asked of other FDEs. -/
theorem relay_certified (c : CFI Int64) (hc : c = relay ∨ c = relayed) :
    ∃ row, Certified relayOptions (fun _ => Set.univ) c row := by
  rcases hc with rfl | rfl
  · refine ⟨row 0x1000 8, by decide +kernel, by decide +kernel, ⟨true, by decide +kernel⟩,
      relay_observed, fun _ _ _ _ _ _ _ _ _ _ => ⟨Set.subset_univ _, fun _ _ => trivial⟩,
      fun p _ => row_isMoved _ p⟩
  · refine ⟨row 0x1004 8, by decide +kernel, by decide +kernel, ⟨true, by decide +kernel⟩,
      relayed_observed, fun _ _ _ _ _ _ _ _ _ _ => ⟨Set.subset_univ _, fun _ _ => trivial⟩,
      fun p _ => row_isMoved _ p⟩

def passed : Set (CFI Int64) := fun c => c = relay ∨ c = relayed

/-- The whole of `relay`, the jump, and `relayed` as far as its return. -/
theorem relay_journey :
    Journey relayOptions (fun _ => Set.univ) passed relayFrame relayed 0x1005 (relayAt 0x7ff8) := by
  have hfirst : relay.rowAt relay.pcBegin = some (row 0x1000 8) := by decide +kernel
  have hfirst' : relayed.rowAt relayed.pcBegin = some (row 0x1004 8) := by decide +kernel
  have h₀ : ((settledWalk relayOptions relay false).inStates[(0x1000 : Word)]?).isSome := by
    decide +kernel
  have h₁ : ((settledWalk relayOptions relay false).inStates[(0x1001 : Word)]?).isSome := by
    decide +kernel
  have h₂ : ((settledWalk relayOptions relay false).inStates[(0x1002 : Word)]?).map
      ((Env.of relayOptions relay false).crossTargets ⟨0x1002, jmpNext⟩) = some [0x1004] := by
    decide +kernel
  have h₃ : ((settledWalk relayOptions relayed false).inStates[(0x1004 : Word)]?).isSome := by
    decide +kernel
  obtain ⟨st₀, hst₀⟩ := Option.isSome_iff_exists.mp h₀
  obtain ⟨st₁, hst₁⟩ := Option.isSome_iff_exists.mp h₁
  obtain ⟨st₂, hst₂, htargets⟩ := Option.map_eq_some_iff.mp h₂
  obtain ⟨st₃, hst₃⟩ := Option.isSome_iff_exists.mp h₃
  have hquiet : ∀ {insn : Instruction} {m : Machine}, insn.storedWord m = none →
      ∀ a w, insn.storedWord m = some (a, w) → (relayAt 0x7ff8).load a 8 = w := by
    intro insn m hnone a w h
    rw [hnone] at h
    cases h
  have hstart : Journey relayOptions (fun _ => Set.univ) passed relayFrame relay 0x1000 (relayAt 0x7ff8) :=
    .start (Or.inl rfl) hfirst
      (Frame.called_describesOn (by decide +kernel) (by decide +kernel) _ _)
  have hpush : Journey relayOptions (fun _ => Set.univ) passed relayFrame relay 0x1001 (relayAt 0x7ff0) := by
    have hwalked : (Env.of relayOptions relay false).Walked (row 0x1000 8) 0x1000 ⟨0x1000, pushRbx⟩
        .fallThrough 0x1001 := by decide +kernel
    refine hstart.step hfirst hwalked hst₀ ?_ (relayAt_memStep ?_)
    · show (relayAt 0x7ff0).regs = _
      decide +kernel
    · intro a w h
      have hw : (0x7ff0, 0x1234) = (a, w) := Option.some.inj h
      cases hw
      decide +kernel
  have hpop : Journey relayOptions (fun _ => Set.univ) passed relayFrame relay 0x1002 (relayAt 0x7ff8) := by
    have hwalked : (Env.of relayOptions relay false).Walked (row 0x1000 8) 0x1001 ⟨0x1001, popRbx⟩
        .fallThrough 0x1002 := by decide +kernel
    refine hpush.step hfirst hwalked hst₁ ?_ (relayAt_memStep (hquiet rfl))
    show (relayAt 0x7ff8).regs = _
    decide +kernel
  have hjump : Journey relayOptions (fun _ => Set.univ) passed relayFrame relayed 0x1004 (relayAt 0x7ff8) := by
    have hdecoded : (Env.of relayOptions relay false).decodeAt 0x1002 = some ⟨0x1002, jmpNext⟩ := by
      decide +kernel
    have htarget : relayed.pcBegin ∈
        (Env.of relayOptions relay false).crossTargets ⟨0x1002, jmpNext⟩ st₂ := by
      rw [htargets]
      exact List.mem_singleton_self _
    exact hpop.jump hdecoded hst₂ htarget (by decide +kernel) (Or.inr rfl) (fun r _ => rfl)
      (relayAt_memStep (hquiet rfl))
  have hwalked : (Env.of relayOptions relayed false).Walked (row 0x1004 8) 0x1004
      ⟨0x1004, insn 1 .nop .other []⟩ .fallThrough 0x1005 := by decide +kernel
  refine hjump.step hfirst' hwalked hst₃ ?_ (relayAt_memStep (hquiet rfl))
  show (relayAt 0x7ff8).regs = (relayAt 0x7ff8).regs
  rfl

end Sample

/-- `relayed` returns to the caller of `relay`. -/
theorem relay_returns : Sample.relayFrame.Restored (Sample.relayAt 0x7ff8) :=
  (journey_unwinds Sample.relayDecoder_marksDest Sample.relayDecoder_sized Sample.relay_certified
    Sample.relay_journey).2.1 ⟨0x1005, Sample.ret⟩ (by decide +kernel) rfl

end UnwindCheck
