import UnwindCheck.Checker.TailCalls
import UnwindCheck.Machine.Watched

/-! One activation of a function on the machine, along the edges the walk followed: the settled
states of the walk describe it, and so the rows that pass two compared with them unwind it. -/
namespace UnwindCheck

/-- The size of an operand is a 16-bit field of the decoder's. -/
def Zydis.Sized (z : Zydis) : Prop :=
  ∀ (bytes : List Byte) (i : DecodedInsn), z.decodeFull bytes = some i →
    ∀ op ∈ i.operands, op.size < 2 ^ 16

namespace Env
variable {env : Env Int64} {row : CFIRow Int64} {K : Word → Set (Component Int64)} {f : Frame}

/-- One activation with frame `f`, as far as it stays inside the FDE and on edges the walk followed.
It starts in a machine state that the first row is right about; stores that cannot be placed from what
is watched do not alias the frame. -/
inductive Activation (env : Env Int64) (row : CFIRow Int64) (K : Word → Set (Component Int64))
    (f : Frame) : Word → Machine → Prop
  | entry {m : Machine} :
      f.reading.DescribesOn (K env.cfi.pcBegin) (AbsState.seedFromRow row row.isCanonicalEntry) m →
      Activation env row K f env.cfi.pcBegin m
  | step {p q : Word} {m m' : Machine} {insn : Instruction} {kind : EdgeKind} {st : AbsState Int64} :
      Activation env row K f p m → env.Walked row p insn kind q →
      (env.settle row).inStates[p]? = some st → insn.RegStep m m' →
      insn.MemStep env.z f.cfa (st.restrict (K p)) m m' → Activation env row K f q m'

/-- Instructions that an edge leaves are no returns and no traps. -/
theorem stays_of_mem_edges {insn : Instruction} {state : AbsState Int64} {e : EdgeKind × Word}
    (h : e ∈ env.edges insn state) : isReturnMnemonic insn.id = false ∧
      (insn.isBranch = false → isTrapMnemonic insn.id = false) := by
  have hout : ∀ b : Bool, (transfer env.z insn state).1 ≠ { fallsThrough := false, isReturn := b } := by
    intro b ho
    simp [edges, padEdges, fallThroughEdges, takenEdges, tableEdges, tableTargets, ho] at h
  constructor
  · rw [Bool.eq_false_iff]
    intro hret
    exact hout true (by simp [transfer, hret])
  · intro hbr
    rw [Bool.eq_false_iff]
    intro htrap
    have hcat : ¬ (insn.insn.category = .condBr ∨ insn.insn.category = .uncondBr) := by
      simpa [Instruction.isBranch] using hbr
    have hret : isReturnMnemonic insn.id = false := by
      cases hid : insn.id <;> simp [hid, isTrapMnemonic] at htrap <;> rfl
    exact hout false (by simp [transfer, hret, hcat, htrap])

/-- Ways out of the FDE other than a return are taken by branches. -/
theorem branch_of_exitOf {insn : Instruction} {st : AbsState Int64} (hstays : env.exitOf insn st ≠ .stays)
    (hreturns : env.exitOf insn st ≠ .returns) : insn.isBranch = true ∧ isReturnMnemonic insn.id = false := by
  have hret : isReturnMnemonic insn.id = false := by
    rw [Bool.eq_false_iff]
    exact fun hret => hreturns (exitOf_return hret st)
  refine ⟨?_, hret⟩
  by_contra hbr
  have hbr' : insn.isBranch = false := by simpa using hbr
  cases htrap : isTrapMnemonic insn.id with
  | true =>
    have hcat : ¬ (insn.insn.category = .condBr ∨ insn.insn.category = .uncondBr) := by
      simpa [Instruction.isBranch] using hbr'
    exact hstays (by simp [exitOf, transfer, hret, hcat, htrap])
  | false =>
    have hplain : (transfer env.z insn st).1.Plain := by
      rw [transfer_of_switch hret hbr' htrap]
      cases hn : transferNamed env.z insn (dropStaleCmp insn st) with
      | none => exact TransferOutcome.plain_default
      | some r => exact transferNamed_plain hn
    exact hstays (by simp [exitOf, hplain.jumpTable, hplain.unboundedJumpTarget, hplain.isReturn,
      hplain.directTarget, hplain.indirectBranch])

theorem branch_of_mem_crossTargets {insn : Instruction} {st : AbsState Int64} {target : Word}
    (h : target ∈ env.crossTargets insn st) : insn.isBranch = true ∧ isReturnMnemonic insn.id = false := by
  unfold crossTargets at h
  have hstays : env.exitOf insn st ≠ .stays := by
    intro hstays
    simp [hstays] at h
  have hreturns : env.exitOf insn st ≠ .returns := by
    intro hreturns
    simp [hreturns] at h
  exact branch_of_exitOf hstays hreturns

/-- What a jump out of the FDE was silently held to: the row declared at its target, or the exit
convention where none is. -/
theorem check_of_crossTargets {insn : Instruction} {st : AbsState Int64} {canonical : Bool}
    (hexit : env.exitReports canonical insn st = []) {target : Word}
    (ht : target ∈ env.crossTargets insn st) :
    (∀ rc r, env.crossRow insn.address target = some (rc, r) → rc.check r st = []) ∧
      (env.crossRow insn.address target = none → st.Restored) := by
  have hcross := (List.append_eq_nil_iff.mp hexit).1
  rw [List.flatMap_eq_nil_iff] at hcross
  have hout := hcross _ ht
  unfold checkOutEdge checkCrossFDEEdge at hout
  constructor
  · intro rc r hrow
    rwa [hrow] at hout
  · intro hrow
    rw [hrow] at hout
    change env.uncoveredTarget canonical insn st target = [] at hout
    unfold uncoveredTarget at hout
    split at hout
    · cases hout
    · cases hout
    · exact restored_of_checkExitState hout

/-- Silence of pass two about an instruction includes the width of its stack accesses. -/
theorem Silent.wide (hs : env.Silent row) {pc : Word} {st : AbsState Int64} {insn : Instruction}
    (hst : (env.settle row).inStates[pc]? = some st) (hd : env.decodeAt pc = some insn) : insn.Wide := by
  intro hbr hid
  have hid' : insn.id = .push ∨ insn.id = .pop := by simpa using hid
  have hret : isReturnMnemonic insn.id = false := by rcases hid' with h | h <;> rw [h] <;> rfl
  have htrap : isTrapMnemonic insn.id = false := by rcases hid' with h | h <;> rw [h] <;> rfl
  have hquiet : (transfer env.z insn st).1.reviewReason.isEmpty = true := by
    have hv := hs.verify pc st hst
    simp only [verifyAt, hd] at hv
    split at hv
    · cases hv
    · simp only [List.append_eq_nil_iff] at hv
      by_contra hreason
      simp [hreason] at hv
  rw [transfer_of_switch hret hbr htrap] at hquiet
  by_contra hnarrow
  have hodd : insn.opCount ≠ 1 ∨ insn.insn.operandWidth ≠ 64 := by tauto
  rcases hid' with h | h
  · simp only [transferNamed, h, transferPush, if_pos hodd, Option.getD_some] at hquiet
    exact absurd hquiet (by decide)
  · simp only [transferNamed, h, transferPop, if_pos hodd, Option.getD_some] at hquiet
    exact absurd hquiet (by decide)

/-- What the decoder says about an instruction of the FDE. -/
theorem decoded_of_decodeAt {P : DecodedInsn → Prop}
    (hz : ∀ (bytes : List Byte) (i : DecodedInsn), env.z.decodeFull bytes = some i → P i) {pc : Word}
    {insn : Instruction} (hd : env.decodeAt pc = some insn) : P insn.insn := by
  obtain ⟨d, hfull, rfl⟩ := Option.map_eq_some_iff.mp hd
  exact hz _ d hfull

/-- One edge of the walk: what was described before the instruction is described after it. -/
theorem edgeState_describes {insn : Instruction} {kind : EdgeKind} {s : AbsState Int64} {m m' : Machine}
    {state : AbsState Int64} {q : Word} (he : (kind, q) ∈ env.edges insn state)
    (h : f.reading.Describes s m) (ht : insn.Tracks env.z s) (hwide : insn.Wide)
    (hd : insn.insn.MarksDest) (hsized : ∀ op ∈ insn.insn.operands, op.size < 2 ^ 16)
    (hx : insn.RegStep m m') (hm : insn.MemStep env.z f.cfa s m m') :
    f.reading.Describes (env.edgeState insn kind s) m' := by
  obtain ⟨hret, htrap⟩ := stays_of_mem_edges he
  have hafter := transfer_describes env.z h ht hwide hd hsized hx hm hret htrap
  have hedge : ∀ edge, f.reading.Describes (transferEdge insn edge (transfer env.z insn s).2) m' := by
    intro edge
    refine ⟨?_, fun k => ?_⟩
    · rw [transferEdge_gpr]
      exact hafter.gpr
    · unfold AbsState.slot
      rw [transferEdge_slots]
      exact hafter.slot k
  cases kind with
  | landingPad | table => exact hafter
  | fallThrough => exact hedge _
  | taken => exact hedge _

/-- Everything propagated to an address says the same about what is watched there as the state that
is settled on, and as the states it is visited with. -/
theorem Watch.settled (hK : env.Watch row K) (hc : env.cfi.Covers env.cfi.pcBegin) {pc : Word}
    {s : AbsState Int64} (hs : (pc, s) ∈ env.runCalls row) :
    (∃ st, (env.settle row).inStates[pc]? = some st ∧ s.AgreeOn (K pc) st) ∧
      ∀ st, (pc, st) ∈ env.runPops row → s.AgreeOn (K pc) st := by
  have hcalls : ∀ call ∈ env.runCalls row, call.1 = pc → s.AgreeOn (K pc) call.2 :=
    fun call hcall hpc => hK.agree pc _ hs call hcall rfl hpc
  obtain ⟨hsettle, hpops⟩ := agreeOn_of_runCalls hc hcalls
  obtain ⟨st, hst, -⟩ := absorbs_settle hs
  exact ⟨⟨st, hst, hsettle st hst⟩, hpops⟩

/-- What is watched carries the walk of one FDE: all paths into an address agree on it, the rows are
compared by nothing else, and `Transfer` follows every instruction in it. -/
structure Observed (env : Env Int64) (row : CFIRow Int64) (K : Word → Set (Component Int64)) : Prop where
  watch : env.Watch row K
  rows : ∀ p r, env.cfi.rowAt p = some r → r.consulted ⊆ K p
  tracks : ∀ p insn st, env.decodeAt p = some insn → (env.settle row).inStates[p]? = some st →
    insn.Tracks env.z (st.restrict (K p))

/-- One more instruction of an activation, wherever it leads. -/
structure Leaves (env : Env Int64) (row : CFIRow Int64) (K : Word → Set (Component Int64)) (f : Frame)
    (pc : Word) (insn : Instruction) (st : AbsState Int64) (m m' : Machine) : Prop where
  decoded : env.decodeAt pc = some insn
  reached : (env.settle row).inStates[pc]? = some st
  step : insn.RegStep m m'
  mem : insn.MemStep env.z f.cfa (st.restrict (K pc)) m m'

/-- The frame behind a branch out of the FDE, as far as `K` is enough to tell: the row declared at a
target unwinds it, where none is declared the machine is back in the state of the call, and so it is
behind a jump through a register, but for the return address, which is not looked at there. -/
structure HandsOver (env : Env Int64) (K : Set (Component Int64)) (f : Frame) (insn : Instruction)
    (st : AbsState Int64) (m' : Machine) : Prop where
  declared : ∀ target ∈ env.crossTargets insn st, ∀ rc r,
    env.crossRow insn.address target = some (rc, r) → r.consulted ⊆ K → r.Unwinds f m'
  undeclared : ∀ target ∈ env.crossTargets insn st, env.crossRow insn.address target = none →
    exitComponents ⊆ K → f.Restored m'
  indirect : env.exitOf insn st = .indirect → exitComponents ⊆ K → f.Held m'

section
variable {pc : Word} {m : Machine} (ha : env.Activation row K f pc m) (hs : env.Silent row)
  (hc : env.cfi.Covers env.cfi.pcBegin) (hz : env.z.MarksDest) (hsized : env.z.Sized)
  (hK : env.Observed row K)
include ha hs hc hz hsized hK

/-- The settled state of every address an activation gets to describes it there, in all that is
watched. -/
theorem Activation.describes : ∃ s st, (pc, s) ∈ env.runCalls row ∧
    (env.settle row).inStates[pc]? = some st ∧ f.reading.DescribesOn (K pc) st m := by
  induction ha with
  | entry hm =>
    have hseed : (env.cfi.pcBegin, AbsState.seedFromRow row row.isCanonicalEntry) ∈ env.runCalls row :=
      List.mem_cons_self
    obtain ⟨⟨st, hst, hagree⟩, -⟩ := hK.watch.settled hc hseed
    exact ⟨_, st, hseed, hst, hm.congr hagree⟩
  | @step p q m m' insn kind st hp hw hst hx hm ih =>
    obtain ⟨s, st', hs', hst', hdesc⟩ := ih
    obtain rfl : st' = st := Option.some.inj (hst'.symm.trans hst)
    obtain ⟨⟨st'', hst'', hagree⟩, hpops⟩ := hK.watch.settled hc hs'
    obtain rfl : st'' = st' := Option.some.inj (hst''.symm.trans hst)
    obtain ⟨visit, hvisit, hcall⟩ := hw.mem_runCalls
    have hrestrict : (st''.restrict (K p)).AgreeOn (K p) visit :=
      (st''.restrict_agreeOn (K p)).trans (hagree.symm.trans (hpops visit hvisit))
    obtain ⟨hdec, u, -, -, he⟩ := id hw
    have hafter := edgeState_describes he hdesc.restrict (hK.tracks p insn st'' hdec hst)
      (hs.wide hst hdec) (decoded_of_decodeAt hz hdec) (decoded_of_decodeAt hsized hdec) hx hm
    obtain ⟨⟨next, hnext, hagree'⟩, -⟩ := hK.watch.settled hc hcall
    refine ⟨_, next, hcall, hnext, (hafter.describesOn (K q)).congr ?_⟩
    exact (hK.watch.carries p insn kind q hw _ visit hrestrict).trans hagree'

/-- A branch leaves alone what the settled state says. -/
theorem Activation.behind {insn : Instruction} {st : AbsState Int64} {m' : Machine}
    (hl : env.Leaves row K f pc insn st m m') (hbr : insn.isBranch = true)
    (hret : isReturnMnemonic insn.id = false) : f.reading.DescribesOn (K pc) st m' := by
  obtain ⟨s, st', -, hst', hdesc⟩ := ha.describes hs hc hz hsized hK
  obtain rfl : st' = st := Option.some.inj (hst'.symm.trans hl.reached)
  have hmarks := decoded_of_decodeAt hz hl.decoded
  have hsmall := decoded_of_decodeAt hsized hl.decoded
  have hafter := transfer_describes env.z hdesc.restrict (hK.tracks pc insn st' hl.decoded hst')
    (fun hno => by rw [hbr] at hno; cases hno) hmarks hsmall hl.step hl.mem hret
    (fun hno => by rw [hbr] at hno; cases hno)
  rw [transfer_of_branch hret hbr] at hafter
  refine Reading.DescribesOn.congr ?_ (st'.restrict_agreeOn (K pc))
  refine Reading.Describes.describesOn ⟨?_, fun k => ?_⟩ (K pc)
  · rw [← dropStaleCmp_gpr insn]
    exact hafter.gpr
  · rw [← slot_dropStaleCmp _ insn]
    exact hafter.slot k

/-- A branch out of the FDE hands the frame over. -/
theorem Activation.handsOver {insn : Instruction} {st : AbsState Int64} {m' : Machine}
    (hl : env.Leaves row K f pc insn st m m') : env.HandsOver (K pc) f insn st m' := by
  obtain ⟨insn', r, hcomp, hexit⟩ := hs.compared hl.reached
  obtain rfl : insn' = insn := Option.some.inj (hcomp.decoded.symm.trans hl.decoded)
  constructor
  · intro target ht rc r' hrow hconsulted
    obtain ⟨hbr, hret⟩ := branch_of_mem_crossTargets ht
    have hbehind := ha.behind hs hc hz hsized hK hl hbr hret
    exact RowChecker.unwinds_of_check ((check_of_crossTargets hexit ht).1 rc r' hrow) hconsulted hbehind
  · intro target ht hrow hwatched
    obtain ⟨hbr, hret⟩ := branch_of_mem_crossTargets ht
    have hbehind := ha.behind hs hc hz hsized hK hl hbr hret
    exact Frame.restored_of_describesOn hwatched hbehind ((check_of_crossTargets hexit ht).2 hrow)
  · intro hind hwatched
    have hstays : env.exitOf insn' st ≠ .stays := by simp [hind]
    have hreturns : env.exitOf insn' st ≠ .returns := by simp [hind]
    obtain ⟨hbr, hret⟩ := branch_of_exitOf hstays hreturns
    have hbehind := ha.behind hs hc hz hsized hK hl hbr hret
    have hstate : isExitState st = true := by
      have hlast := (List.append_eq_nil_iff.mp hexit).2
      simp only [hind] at hlast
      split_ifs at hlast with hheld
      exact (Bool.and_eq_true_iff.mp hheld).2
    obtain ⟨hrsp, hsaved⟩ := isExitState_iff.mp hstate
    exact Frame.held_of_describesOn hwatched hbehind hrsp hsaved

/-- A row is declared wherever an activation gets to, and it unwinds it. -/
theorem Activation.unwound : ∃ insn r, env.decodeAt pc = some insn ∧ env.cfi.rowAt pc = some r ∧
    r.Unwinds f m := by
  obtain ⟨s, st, -, hst, hdesc⟩ := ha.describes hs hc hz hsized hK
  obtain ⟨insn, r, hcomp, -⟩ := hs.compared hst
  exact ⟨insn, r, hcomp.decoded, hcomp.declared,
    RowChecker.unwinds_of_check hcomp.agrees (hK.rows pc r hcomp.declared) hdesc⟩

/-- An activation that gets to a return leaves as it was called. -/
theorem Activation.restored {insn : Instruction} (hd : env.decodeAt pc = some insn)
    (hret : isReturnMnemonic insn.id = true) : f.Restored m := by
  obtain ⟨s, st, -, hst, hdesc⟩ := ha.describes hs hc hz hsized hK
  obtain ⟨insn', r, hcomp, hexit⟩ := hs.compared hst
  obtain rfl : insn' = insn := Option.some.inj (hcomp.decoded.symm.trans hd)
  have hsilent : checkExitState row.isCanonicalEntry insn'.address st false = [] := by
    rw [exitReports, exitOf_return hret] at hexit
    exact (List.append_eq_nil_iff.mp hexit).2
  exact Frame.restored_of_describesOn (hK.watch.returns pc insn' hd hret) hdesc
    (restored_of_checkExitState hsilent)

end

end Env

/-- A blessed FDE whose walk is observed unwinds at every instruction of every activation. An activation
that gets to a return leaves as it was called, and one that gets to another branch out of the FDE hands
the frame over. -/
theorem blessed_unwinds {options : FDECheckerOptions Int64} {cfi : CFI Int64}
    {atFunctionEntry guessing : Bool} {row : CFIRow Int64} (hrow : cfi.rowAt cfi.pcBegin = some row)
    (hra : row.regs 16 ≠ .undefined)
    (hb : (check options cfi atFunctionEntry guessing).verdict = .blessed)
    (hz : options.disasm.MarksDest) (hsized : options.disasm.Sized)
    {K : Word → Set (Component Int64)} (hK : (Env.of options cfi guessing).Observed row K)
    {f : Frame} {pc : Word} {m : Machine}
    (ha : (Env.of options cfi guessing).Activation row K f pc m) :
    (∃ r, cfi.rowAt pc = some r ∧ r.Unwinds f m) ∧
      (∀ insn, (Env.of options cfi guessing).decodeAt pc = some insn → isReturnMnemonic insn.id = true →
        f.Restored m) ∧
      ∀ insn st m', (Env.of options cfi guessing).Leaves row K f pc insn st m m' →
        (Env.of options cfi guessing).HandsOver (K pc) f insn st m' := by
  have hra' : cfi.raUndefined = false := by simp [CFI.raUndefined, hrow, hra]
  obtain ⟨row', hrow', hs, -⟩ := silent_of_blessed hra' hb
  obtain rfl : row = row' := Option.some.inj (hrow.symm.trans hrow')
  have hc : (Env.of options cfi guessing).cfi.Covers (Env.of options cfi guessing).cfi.pcBegin :=
    cfi.covers_of_rowAt hrow
  constructor
  · obtain ⟨insn, r, -, hr, hun⟩ := ha.unwound hs hc hz hsized hK
    exact ⟨r, hr, hun⟩
  constructor
  · intro insn hd hret
    exact ha.restored hs hc hz hsized hK hd hret
  · intro insn st m' hl
    exact ha.handsOver hs hc hz hsized hK hl

/-- Instructions that move no stack register, mark no register and place no store. -/
theorem Instruction.tracks_of_plain {z : Zydis} {insn : Instruction} {s : AbsState Int64}
    (hid : insn.id ∉ [.push, .pushfq, .pop, .popfq, .leave]) (hmarks : ∀ r, ¬ insn.Marks r)
    (hst : ¬ insn.Stores z s) : insn.Tracks z s where
  stack hin := absurd (by simp only [List.mem_cons] at hin ⊢; tauto) hid
  frame he := absurd (by simp [he]) hid
  branch _ r hr := absurd hr (hmarks r)
  overlap h := absurd h hst

/-- A slot that names something is one that is recorded. -/
theorem AbsState.mem_keys_of_slot {s : AbsState Int64} {k : Int64} (h : (s.slot k).named ≠ none) :
    k ∈ s.slots.toList.map Prod.fst := by
  cases hk : s.slots[k]? with
  | none =>
    rw [AbsState.slot, hk] at h
    exact absurd rfl h
  | some v => exact List.mem_map.mpr ⟨(k, v), Std.ExtTreeMap.mem_toList_iff_getElem?_eq_some.mpr hk, rfl⟩

namespace Sample

/-- `push %rbx` -/
def pushRbx : DecodedInsn := insn 1 .push .other [⟨.register (.gpr64 .rbx), 64, false, false⟩]

/-- `pop %rbx` -/
def popRbx : DecodedInsn := insn 1 .pop .other [⟨.register (.gpr64 .rbx), 64, true, false⟩]

/-- `jmp` to the next instruction. -/
def jmpNext : DecodedInsn := insn 2 .jmp .uncondBr [⟨.immediate 0, 8, false, false⟩]

def relayDecoder : Zydis :=
  .ofTable [([0x53], pushRbx), ([0x5b], popRbx), ([0xeb, 0x00], jmpNext),
    ([0x90], insn 1 .nop .other []), ([0xc3], ret)]

/-- rbx saved below the return address. -/
def savedRow (pcStart : Word) : CFIRow Int64 :=
  ⟨pcStart, .regOffset 7 16,
    fun r => if r = 16 then .atCFAOffset (-8) else if r = 3 then .atCFAOffset (-16) else .unset⟩

/-- `push %rbx; pop %rbx`, and a jump to the function behind. -/
def relay : CFI Int64 := cfi 4 [row 0x1000 8, savedRow 0x1001, row 0x1002 8]

/-- `nop; ret` -/
def relayed : CFI Int64 := ⟨0x2038, 0x1004, 0x1006, 16, false, 0, false, [row 0x1004 8]⟩

def relayOptions : FDECheckerOptions Int64 where
  image := .ofCode 0x1000 [0x53, 0x5b, 0xeb, 0x00, 0x90, 0xc3]
  disasm := relayDecoder
  allCfis := [((0x1000, 0x1004), relay), ((0x1004, 0x1006), relayed)]

theorem relayDecoder_marksDest : relayDecoder.MarksDest := by
  intro bytes i h hid
  obtain ⟨e, he, rfl⟩ := Option.map_eq_some_iff.mp h
  have hnone : ∀ e ∈ [([0x53], pushRbx), ([0x5b], popRbx), ([0xeb, 0x00], jmpNext),
      ([0x90], insn 1 .nop .other []), (([0xc3] : List Byte), ret)],
      ¬ (e.2.mnemonic = .add ∨ e.2.mnemonic = .movsxd) := by decide
  exact absurd hid (hnone e (List.mem_of_find?_eq_some he))

theorem relayDecoder_sized : relayDecoder.Sized := by
  intro bytes i h
  obtain ⟨e, he, rfl⟩ := Option.map_eq_some_iff.mp h
  have hall : ∀ e ∈ [([0x53], pushRbx), ([0x5b], popRbx), ([0xeb, 0x00], jmpNext),
      ([0x90], insn 1 .nop .other []), (([0xc3] : List Byte), ret)],
      ∀ op ∈ e.2.operands, op.size < 2 ^ 16 := by decide
  exact hall e (List.mem_of_find?_eq_some he)

/-- The settled walk of `relay`. -/
def relayWalk : Walk Int64 := (Env.of relayOptions relay false).settle (row 0x1000 8)

theorem relay_tracks (p : Word) (insn : Instruction) (st : AbsState Int64)
    (hd : (Env.of relayOptions relay false).decodeAt p = some insn)
    (hst : ((Env.of relayOptions relay false).settle (row 0x1000 8)).inStates[p]? = some st) :
    insn.Tracks relayDecoder (st.restrict Set.univ) := by
  rw [AbsState.restrict_univ]
  have hkeys : p ∈ [(0x1000 : Word), 0x1001, 0x1002] := by
    have hmem := Std.ExtTreeMap.mem_toList_iff_getElem?_eq_some.mpr hst
    have hlist : ((Env.of relayOptions relay false).settle (row 0x1000 8)).inStates.toList.map Prod.fst =
        [0x1000, 0x1001, 0x1002] := by decide +kernel
    rw [← hlist]
    exact List.mem_map.mpr ⟨_, hmem, rfl⟩
  simp only [List.mem_cons, List.not_mem_nil, or_false] at hkeys
  rcases hkeys with rfl | rfl | rfl
  · have hins : (Env.of relayOptions relay false).decodeAt 0x1000 = some ⟨0x1000, pushRbx⟩ := by
      decide +kernel
    have hentry : (relayWalk.inStates[(0x1000 : Word)]?).map
        (fun s => (s.gpr kDWARFRsp, s.slots.toList.map Prod.fst)) = some (.cfaRel (-8), [-8]) := by
      decide +kernel
    cases hins.symm.trans hd
    rw [relayWalk, hst] at hentry
    simp only [Option.map_some, Option.some.injEq, Prod.mk.injEq] at hentry
    obtain ⟨hrsp, hkeys⟩ := hentry
    refine ⟨fun _ => ?_, fun h => ?_, fun h => ?_, fun _ w hw k hk hnamed => ?_⟩
    · rintro ⟨q, hq⟩
      rw [hrsp] at hq
      cases hq
    · cases h
    · cases h
    · have hk8 := AbsState.mem_keys_of_slot hnamed
      rw [hkeys, List.mem_singleton] at hk8
      subst hk8
      have hstores : Instruction.stores ⟨0x1000, pushRbx⟩ st =
          [⟨-8 - Offset.ofInt 8, 8, some (pushedValue ⟨0x1000, pushRbx⟩ st)⟩] := by
        simp only [Instruction.stores, show Instruction.id ⟨0x1000, pushRbx⟩ = .push from rfl, hrsp]
      rw [hstores] at hw
      rw [List.mem_singleton.mp hw] at hk
      obtain ⟨i, hi, j, hj, heq⟩ := hk
      have hne : ∀ i < 8, ∀ j < 8,
          (-8 : Int64) + Offset.ofInt (i : ℕ) ≠ -8 - Offset.ofInt 8 + Offset.ofInt (j : ℕ) := by decide
      exact absurd heq (hne i hi j hj)
  · have hins : (Env.of relayOptions relay false).decodeAt 0x1001 = some ⟨0x1001, popRbx⟩ := by
      decide +kernel
    have hsaved : (((Env.of relayOptions relay false).settle (row 0x1000 8)).inStates[(0x1001 : Word)]?).map
        (fun s => s.gpr kDWARFRsp) = some (.cfaRel (-16)) := by decide +kernel
    cases hins.symm.trans hd
    rw [hst] at hsaved
    have hrsp : st.gpr kDWARFRsp = .cfaRel (-16) := Option.some.inj hsaved
    refine ⟨fun _ => ?_, fun h => ?_, fun h => ?_, fun h => ?_⟩
    · rintro ⟨q, hq⟩
      rw [hrsp] at hq
      cases hq
    · cases h
    · cases h
    · rcases h.kind with ⟨-, -, -, hmem⟩ | hfq | ⟨hmov, -⟩ | hnone
      · obtain ⟨mem, hmem⟩ := hmem rfl
        cases hmem
      · cases hfq
      · simp [Instruction.id, popRbx, insn] at hmov
      · cases hnone
  · have hins : (Env.of relayOptions relay false).decodeAt 0x1002 = some ⟨0x1002, jmpNext⟩ := by
      decide +kernel
    cases hins.symm.trans hd
    refine Instruction.tracks_of_plain (by decide) ?_ fun h => ?_
    · rintro r ⟨op, hop, hw⟩
      simp [jmpNext, insn] at hop
      subst hop
      cases hw
    · exact absurd h.isBranch (by decide)

theorem relay_observed :
    (Env.of relayOptions relay false).Observed (row 0x1000 8) fun _ => Set.univ where
  watch := by
    have hsame : ∀ a ∈ (Env.of relayOptions relay false).runCalls (row 0x1000 8),
        ∀ b ∈ (Env.of relayOptions relay false).runCalls (row 0x1000 8), a.1 = b.1 → a.2 = b.2 := by
      decide +kernel
    refine Env.Watch.univ relayDecoder_marksDest fun q a ha b hb haq hbq => ?_
    rw [hsame a ha b hb (haq.trans hbq.symm)]
    exact .refl _ _
  rows _ _ _ := Set.subset_univ _
  tracks := relay_tracks

/-- A machine in the middle of `relay`; the word at 0x7ff0 is the caller's rbx all the time. -/
def relayAt (rsp : Word) : Machine where
  regs r := if r = 7 then rsp else if r = 3 then 0x1234 else 0
  mem a := if a = 0x7ff0 then 0x34 else if a = 0x7ff1 then 0x12 else 0

/-- The frame of the call. -/
def relayFrame : Frame := .called (relayAt 0x7ff8)

theorem relayAt_memStep {insn : Instruction} {s : AbsState Int64} {rsp rsp' : Word}
    (h : ∀ a w, insn.storedWord (relayAt rsp) = some (a, w) → (relayAt rsp').load a 8 = w) :
    insn.MemStep relayDecoder 0x8000 s (relayAt rsp) (relayAt rsp') :=
  ⟨fun _ _ _ _ => rfl, h⟩

theorem relay_pushed : (Env.of relayOptions relay false).Activation (row 0x1000 8)
    (fun _ => Set.univ) relayFrame 0x1001 (relayAt 0x7ff0) := by
  have hwalked : (Env.of relayOptions relay false).Walked (row 0x1000 8) 0x1000 ⟨0x1000, pushRbx⟩
      .fallThrough 0x1001 := by decide +kernel
  have hreached :
      (((Env.of relayOptions relay false).settle (row 0x1000 8)).inStates[(0x1000 : Word)]?).isSome := by
    decide +kernel
  obtain ⟨st, hst⟩ := Option.isSome_iff_exists.mp hreached
  have hentry : (Env.of relayOptions relay false).Activation (row 0x1000 8) (fun _ => Set.univ)
      relayFrame 0x1000 (relayAt 0x7ff8) :=
    .entry (Frame.called_describesOn (by decide +kernel) (by decide +kernel) _ _)
  refine hentry.step hwalked hst ?_ (relayAt_memStep ?_)
  · show (relayAt 0x7ff0).regs = _
    decide +kernel
  · intro a w h
    have : (0x7ff0, 0x1234) = (a, w) := Option.some.inj h
    cases this
    decide +kernel

theorem relay_popped : (Env.of relayOptions relay false).Activation (row 0x1000 8)
    (fun _ => Set.univ) relayFrame 0x1002 (relayAt 0x7ff8) := by
  have hwalked : (Env.of relayOptions relay false).Walked (row 0x1000 8) 0x1001 ⟨0x1001, popRbx⟩
      .fallThrough 0x1002 := by decide +kernel
  have hreached :
      (((Env.of relayOptions relay false).settle (row 0x1000 8)).inStates[(0x1001 : Word)]?).isSome := by
    decide +kernel
  obtain ⟨st, hst⟩ := Option.isSome_iff_exists.mp hreached
  refine relay_pushed.step hwalked hst ?_ (relayAt_memStep ?_)
  · show (relayAt 0x7ff8).regs = _
    decide +kernel
  · intro a w h
    cases h

end Sample

/-- Between the push and the pop of `relay`, its row finds the CFA, the return address and rbx; and the
row of `relayed` finds them behind the jump. -/
theorem relay_unwinds : (∃ r, Sample.relay.rowAt 0x1001 = some r ∧
      r.Unwinds Sample.relayFrame (Sample.relayAt 0x7ff0)) ∧
    (Sample.row 0x1004 8).Unwinds Sample.relayFrame (Sample.relayAt 0x7ff8) := by
  have hb : (check Sample.relayOptions Sample.relay true false).verdict = .blessed := by decide +kernel
  have hrow : Sample.relay.rowAt Sample.relay.pcBegin = some (Sample.row 0x1000 8) := by decide +kernel
  have hra : (Sample.row 0x1000 8).regs 16 ≠ .undefined := by decide +kernel
  constructor
  · exact (blessed_unwinds hrow hra hb Sample.relayDecoder_marksDest Sample.relayDecoder_sized
      Sample.relay_observed Sample.relay_pushed).1
  · have hreached : ((Sample.relayWalk.inStates[(0x1002 : Word)]?).map
        ((Env.of Sample.relayOptions Sample.relay false).crossTargets ⟨0x1002, Sample.jmpNext⟩)) =
          some [0x1004] := by
      decide +kernel
    obtain ⟨st, hst, htargets⟩ := Option.map_eq_some_iff.mp hreached
    have hcross : ((Env.of Sample.relayOptions Sample.relay false).crossRow 0x1002 0x1004).map Prod.snd =
        some (Sample.row 0x1004 8) := by
      decide +kernel
    obtain ⟨⟨rc, r⟩, hrc, rfl⟩ := Option.map_eq_some_iff.mp hcross
    have hleaves := (blessed_unwinds hrow hra hb Sample.relayDecoder_marksDest Sample.relayDecoder_sized
      Sample.relay_observed Sample.relay_popped).2.2 ⟨0x1002, Sample.jmpNext⟩ st (Sample.relayAt 0x7ff8)
    have hjump : (Env.of Sample.relayOptions Sample.relay false).Leaves (Sample.row 0x1000 8)
        (fun _ => Set.univ) Sample.relayFrame 0x1002 ⟨0x1002, Sample.jmpNext⟩ st (Sample.relayAt 0x7ff8)
        (Sample.relayAt 0x7ff8) := by
      refine ⟨by decide +kernel, hst, fun r _ => rfl, Sample.relayAt_memStep ?_⟩
      intro a w h
      cases h
    have htarget : (0x1004 : Word) ∈
        (Env.of Sample.relayOptions Sample.relay false).crossTargets ⟨0x1002, Sample.jmpNext⟩ st := by
      rw [htargets]
      exact List.mem_singleton_self _
    exact (hleaves hjump).declared 0x1004 htarget rc _ hrc (Set.subset_univ _)

end UnwindCheck
