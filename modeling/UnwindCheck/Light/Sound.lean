import UnwindCheck.Light.Sweep
import UnwindCheck.Machine.Sound
import UnwindCheck.Machine.Unwinder

/-! What a blessed light check says about real executions: along every path of the sweep the
declared CFA rule keeps yielding one and the same address. -/
namespace UnwindCheck

/-- The rows the sweep can follow: rsp- or rbp-based, and no register promised an address of the
frame that is not its own. -/
structure CFIRow.Followable (row : CFIRow Int64) : Prop where
  kind : row.cfa.kind = .regOffset
  reg : row.cfa.reg = 6 ∨ row.cfa.reg = 7
  no_valOffset : ∀ r offset, row.regs r ≠ .valOffset offset

/-- Frame addresses only; entry values say nothing. -/
def Reading.addresses (cfa : Word) : Reading := ⟨cfa, fun _ _ => True⟩

namespace Reading
variable {C : Word}

theorem vacuous_addresses {v : AbsVal Int64} (h : ∀ d, v ≠ .cfaRel d) :
    (addresses C).Vacuous v := by
  intro w
  cases v with
  | cfaRel d => exact absurd rfl (h d)
  | top | bottom | origReg | other => trivial

theorem settled_addresses (v : AbsVal Int64) : (addresses C).Settled v := by
  by_cases h : ∃ d, v = .cfaRel d
  · exact .inl h
  · exact .inr (vacuous_addresses fun d hd => h ⟨d, hd⟩)

end Reading

/-- A state without frame addresses and without table values. -/
structure AbsState.Plain (s : AbsState Int64) : Prop where
  gpr : ∀ r d, s.gpr r ≠ .cfaRel d
  slot : ∀ k d, s.slot k ≠ .cfaRel d
  tbl : ∀ r, (s.tbl r).kind = .none

namespace AbsState

theorem Plain.putGpr {s : AbsState Int64} (h : s.Plain) (r : ℕ) {v : AbsVal Int64}
    (hv : ∀ d, v ≠ .cfaRel d) : (s.putGpr r v).Plain := by
  unfold AbsState.putGpr
  split
  · refine ⟨fun q d => ?_, h.slot, h.tbl⟩
    simp only [Function.update_apply]
    split
    · exact hv d
    · exact h.gpr q d
  · exact h

theorem Plain.seedReg {row : CFIRow Int64} (hrow : row.Followable) {s : AbsState Int64}
    (h : s.Plain) (atFunctionEntry : Bool) (r : Fin 17) :
    (AbsState.seedReg row atFunctionEntry s r).Plain := by
  unfold AbsState.seedReg
  split
  · split
    · exact h
    · exact h.putGpr _ (by simp)
  · exact h
  · refine ⟨h.gpr, fun k d => ?_, h.tbl⟩
    simp only [AbsState.slot, Std.ExtTreeMap.getElem?_insert]
    split
    · simp
    · exact h.slot k d
  · exact h.putGpr _ (by simp)
  · rename_i offset hr
    exact absurd hr (hrow.no_valOffset r offset)
  all_goals exact h.putGpr _ (by simp)

/-- A seeded state has one frame address, in the register of the CFA rule. -/
theorem seedFromRow_gpr {row : CFIRow Int64} (hrow : row.Followable) :
    ∃ (hreg : row.cfa.reg < 16) (s : AbsState Int64), s.Plain ∧
      seedFromRow row false =
        { s with gpr := Function.update s.gpr ⟨row.cfa.reg, hreg⟩ (.cfaRel (-row.cfa.offset)) } := by
  have hreg : row.cfa.reg < 16 := by
    rcases hrow.reg with h | h <;> omega
  have hfold : ∀ (rs : List (Fin 17)) (s : AbsState Int64), s.Plain →
      (rs.foldl (seedReg row false) s).Plain := by
    intro rs
    induction rs with
    | nil => exact fun _ h => h
    | cons r rs ih => exact fun s h => ih _ (h.seedReg hrow false r)
  have hinit : ({ (init : AbsState Int64) with gpr := fun r => .origReg r }).Plain :=
    ⟨by simp, by simp [slot, init], by simp [init, TableVal.none]⟩
  refine ⟨hreg, _, (hfold (List.finRange 17) _ hinit).putGpr kDWARFRsp (v := .top) (by simp), ?_⟩
  simp only [seedFromRow, hrow.kind]
  rw [putGpr, dif_pos hreg]

end AbsState

/-- A 16-bit `leave`, or a 16-bit `pop` into rbp. -/
def Instruction.narrowFrame (insn : Instruction) : Bool :=
  insn.insn.operandWidth ≠ 64 &&
    (insn.id = .leave || insn.id = .pop && insn.popDest = some kDWARFRbp)

section
variable {row : CFIRow Int64} (hrow : row.Followable) {C : Word} {m m' : Machine}
include hrow

theorem seedFromRow_gpr_ne {r : Fin 16} (hr : r.val ≠ row.cfa.reg) (d : Int64) :
    (AbsState.seedFromRow row false).gpr r ≠ .cfaRel d := by
  obtain ⟨hreg, s, hs, he⟩ := AbsState.seedFromRow_gpr hrow
  have hne : r ≠ ⟨row.cfa.reg, hreg⟩ := fun h => hr (by rw [h])
  rw [he]
  simpa [Function.update_of_ne hne] using hs.gpr r d

/-- Where the row's rule yields `C`, the seeded state speaks the truth about the frame at `C`. -/
theorem seedFromRow_describes (hC : evalCFA row.cfa m.regs = some C) :
    (Reading.addresses C).Describes (AbsState.seedFromRow row false) m := by
  obtain ⟨hreg, s, hs, he⟩ := AbsState.seedFromRow_gpr hrow
  have hw : m.regs ⟨row.cfa.reg, hreg⟩ + row.cfa.offset.toBitVec = C := by
    simpa [evalCFA, hrow.kind, regValue, hreg] using hC
  rw [he]
  refine ⟨fun r => ?_, fun k => Reading.vacuous_addresses (hs.slot k) _⟩
  by_cases hr : r = ⟨row.cfa.reg, hreg⟩
  · subst hr
    dsimp only
    rw [Function.update_self]
    show m.regs ⟨row.cfa.reg, hreg⟩ = C + (-row.cfa.offset).toBitVec
    rw [← hw, Int64.toBitVec_neg]
    bv_omega
  · dsimp only
    rw [Function.update_of_ne hr]
    exact Reading.vacuous_addresses (hs.gpr r) _

theorem seedFromRow_follows {insn : Instruction}
    (ht : row.cfa.reg = 6 → insn.narrowFrame = false) :
    (Reading.addresses C).Follows insn (AbsState.seedFromRow row false) := by
  obtain ⟨hreg, s, hs, he⟩ := AbsState.seedFromRow_gpr hrow
  have hvac : ∀ r : Fin 16, r.val ≠ row.cfa.reg →
      (Reading.addresses C).Vacuous ((AbsState.seedFromRow row false).gpr r) :=
    fun r hr => Reading.vacuous_addresses (seedFromRow_gpr_ne hrow hr)
  refine ⟨Reading.settled_addresses _, Reading.settled_addresses _, ?_, ⟨?_, ?_⟩, ?_, ?_⟩
  · rw [he]
    exact hs.tbl
  · exact hvac 0 (by rcases hrow.reg with h | h <;> simp [h])
  · exact hvac 2 (by rcases hrow.reg with h | h <;> simp [h])
  · intro hw hid
    refine hvac kDWARFRbp fun h => ?_
    have := ht h.symm
    simp [Instruction.narrowFrame, hw, hid] at this
  · intro hw hid d hd hsp
    refine hvac d fun h => ?_
    have h6 : row.cfa.reg = 6 := by
      refine hrow.reg.resolve_right fun h7 => hsp (Fin.ext ?_)
      rw [h, h7]
      rfl
    have hbp : d = kDWARFRbp := Fin.ext (by rw [h, h6]; rfl)
    have := ht h6
    simp [Instruction.narrowFrame, hw, hid, hd, hbp] at this

/-- One visit on the machine: executed where the row's rule yields `C`, the instruction leaves the
registers where the visit says they are. -/
theorem visit_regs (z : Zydis) {insn : Instruction} (hC : evalCFA row.cfa m.regs = some C)
    (hx : insn.Exec m m') (hstay : insn.leaves = false)
    (ht : row.cfa.reg = 6 → insn.narrowFrame = false) :
    (Reading.addresses C).Regs (transfer z insn (AbsState.seedFromRow row false)).2.gpr m'.regs :=
  transfer_sound z (seedFromRow_describes hrow hC) (seedFromRow_follows hrow ht) hx hstay

end

/-- Off the CFA by `delta`, and the rule adds its offset. -/
theorem evalCFA_of_regs {C : Word} {s : AbsState Int64} {regs : Fin 16 → Word}
    (h : (Reading.addresses C).Regs s.gpr regs) {cfa : CFARule Int64} (hk : cfa.kind = .regOffset)
    {delta : Int64} (hd : s.reg cfa.reg = .cfaRel delta) :
    evalCFA cfa regs = some (C + (delta + cfa.offset).toBitVec) := by
  by_cases hlt : cfa.reg < 16
  · rw [s.reg_of_lt hlt] at hd
    have hr := h ⟨cfa.reg, hlt⟩
    rw [hd] at hr
    have hr' : regs ⟨cfa.reg, hlt⟩ = C + delta.toBitVec := hr
    simp [evalCFA, hk, regValue, hlt, hr', Int64.toBitVec_add, BitVec.add_assoc]
  · rw [s.reg_of_ge (by omega)] at hd
    cases hd

namespace Light

/-- Everything `CheckCFA` can do. -/
theorem checkCFA_cases (pc : Word) (target : CFARule Int64) (s : AbsState Int64) (desc : String) :
    (∃ msg, checkCFA pc target s desc = ([⟨.review, pc, msg⟩], true)) ∨
      ∃ delta, target.kind = .regOffset ∧ s.reg target.reg = .cfaRel delta ∧
        (delta + target.offset = Offset.ofInt 0 ∧ checkCFA pc target s desc = ([], false) ∨
          delta + target.offset ≠ Offset.ofInt 0 ∧
            ∃ msg, checkCFA pc target s desc = ([⟨.mismatch, pc, msg⟩], false)) := by
  unfold checkCFA
  by_cases hk : target.kind = .regOffset
  · rw [if_neg (not_not.mpr hk)]
    cases hv : s.reg target.reg with
    | cfaRel delta =>
      refine .inr ⟨delta, hk, rfl, ?_⟩
      by_cases hz : delta + target.offset = Offset.ofInt 0
      · exact .inl ⟨hz, by simp [cfaSatisfiedBy, hk, hz]⟩
      · refine .inr ⟨hz, ?_⟩
        have hsat : cfaSatisfiedBy target (.cfaRel delta) = false := by simp [cfaSatisfiedBy, hz]
        simp only [hsat, Bool.false_eq_true, if_false]
        exact ⟨_, rfl⟩
    | top | bottom | origReg | other => exact .inl ⟨_, rfl⟩
  · rw [if_pos hk]
    exact .inl ⟨_, rfl⟩

/-- What `CheckCFA` lets pass yields the CFA. -/
theorem checkCFA_passes {pc : Word} {target : CFARule Int64} {s : AbsState Int64} {desc : String}
    (hs : (checkCFA pc target s desc).1 = []) {C : Word} {regs : Fin 16 → Word}
    (h : (Reading.addresses C).Regs s.gpr regs) : evalCFA target regs = some C := by
  rcases checkCFA_cases pc target s desc with
    ⟨msg, he⟩ | ⟨delta, hk, hd, ⟨hz, -⟩ | ⟨-, msg, he⟩⟩
  · simp [he] at hs
  · rw [evalCFA_of_regs h hk hd, (ofInt_zero_iff _).mp hz]
    simp
  · simp [he] at hs

/-- What it calls a mismatch yields something else. -/
theorem checkCFA_mismatch {pc : Word} {target : CFARule Int64} {s : AbsState Int64} {desc : String}
    {report : Report} (hr : report ∈ (checkCFA pc target s desc).1) (hm : report.severity = .mismatch)
    {C : Word} {regs : Fin 16 → Word} (h : (Reading.addresses C).Regs s.gpr regs) :
    ∃ w, evalCFA target regs = some w ∧ w ≠ C := by
  rcases checkCFA_cases pc target s desc with
    ⟨msg, he⟩ | ⟨delta, hk, hd, ⟨-, he⟩ | ⟨hz, -⟩⟩
  · rw [he, List.mem_singleton] at hr
    subst hr
    cases hm
  · simp [he] at hr
  · refine ⟨_, evalCFA_of_regs h hk hd, fun hC => hz ((ofInt_zero_iff _).mpr ?_)⟩
    simpa using hC

end Light

/-- The FDE is in the index, which is sorted and has only non-empty ranges, and no other range
overlaps it. -/
structure Indexed {δ : Type} (index : List ((Word × Word) × CFI δ)) (cfi : CFI δ) : Prop where
  sorted : index.Pairwise fun a b => a.1.1 ≤ b.1.1
  nonempty : ∀ e ∈ index, e.1.1 < e.1.2
  mem : ((cfi.pcBegin, cfi.pcEnd), cfi) ∈ index
  alone : ∀ e ∈ index, e = ((cfi.pcBegin, cfi.pcEnd), cfi) ∨ e.1.2 ≤ cfi.pcBegin ∨ cfi.pcEnd ≤ e.1.1

/-- The search finds the FDE for each of its addresses. -/
theorem Indexed.cfiContaining {δ : Type} {index : List ((Word × Word) × CFI δ)} {cfi : CFI δ}
    (h : Indexed index cfi) {pc : Word} (hc : cfi.Covers pc) :
    UnwindCheck.cfiContaining index pc = some cfi := by
  obtain ⟨hlo, hhi⟩ := hc
  rcases cfiContaining_cases h.sorted (fun _ _ hle => hle) pc with
    ⟨-, hall⟩ | ⟨last, hlast, hstart, hlookup, hbefore⟩
  · have hbehind := hall _ h.mem
    bv_omega
  · -- the candidate starts no earlier than the FDE, so it can only be the FDE itself
    have hentry : last = ((cfi.pcBegin, cfi.pcEnd), cfi) := by
      rcases hbefore _ h.mem hlo with hle | heq
      · have hne := h.nonempty last hlast
        rcases h.alone last hlast with heq | hends | hstarts
        · exact heq
        · bv_omega
        · bv_omega
      · exact heq.symm
    rw [hlookup, hentry, if_pos hhi]

/-- `leave` is no branch to the decoder. -/
def Zydis.KnowsLeave (z : Zydis) : Prop :=
  ∀ (bytes : List Byte) (i : DecodedInsn), z.decodeFull bytes = some i → i.mnemonic = .leave →
    i.category = .other

namespace Light
variable {options : FDECheckerOptions Int64} {cfi : CFI Int64}

/-- The edges a path may take out of an instruction: to the next one, except after a `call`, across
a `nop` at which the CFA rule changes and across the exempted `pop %rbp`; and to a direct target in
the FDE. -/
inductive Edge (z : Zydis) (cfi : CFI Int64) (row : CFIRow Int64) (insn : Instruction) : Word → Prop
  | next (nextRow : CFIRow Int64) : insn.fallsThrough = true → cfi.rowAt insn.next = some nextRow →
      ¬ (isPopRbp insn = true ∧ row.cfa = .regOffset 6 (Offset.ofInt 16) ∧
        nextRow.cfa = .regOffset 7 (Offset.ofInt 8)) →
      (insn.id = .nop → nextRow.cfa = row.cfa) → Edge z cfi row insn insn.next
  | jump (target : Word) : insn.directTarget z = some target → cfi.Covers target →
      Edge z cfi row insn target

/-- Executions from the start of the FDE over instructions of the sweep that satisfy `P`, each
given with the row in force where it stands. -/
inductive Reaches (options : FDECheckerOptions Int64) (cfi : CFI Int64)
    (P : CFIRow Int64 → Instruction → Prop) (m₀ : Machine) : Word → Machine → Prop
  | start : Reaches options cfi P m₀ cfi.pcBegin m₀
  | step {pc q : Word} {m m' : Machine} {insn : Instruction} {row : CFIRow Int64} :
      Reaches options cfi P m₀ pc m → insn ∈ (sweep options cfi).swept → insn.address = pc →
      cfi.rowAt pc = some row → P row insn → insn.Exec m m' →
      Edge options.disasm cfi row insn q → Reaches options cfi P m₀ q m'

/-- Started where the first row's rule yields `C`, every such execution stays where the declared
rules yield `C`. -/
def KeepsCFA (options : FDECheckerOptions Int64) (cfi : CFI Int64)
    (P : CFIRow Int64 → Instruction → Prop) : Prop :=
  ∀ (row : CFIRow Int64) (C : Word) (m₀ : Machine), cfi.rowAt cfi.pcBegin = some row →
    evalCFA row.cfa m₀.regs = some C → ∀ (q : Word) (m : Machine), Reaches options cfi P m₀ q m →
    ∃ r, cfi.rowAt q = some r ∧ evalCFA r.cfa m.regs = some C

/-- No narrow load of the frame pointer while the CFA hangs on it. -/
def Tame (row : CFIRow Int64) (insn : Instruction) : Prop :=
  row.cfa.reg = 6 → insn.narrowFrame = false

theorem visit_proceed {row : CFIRow Int64} {insn : Instruction} {rs : List Report}
    (h : visit options cfi row insn = .proceed rs) :
    ∃ rs₁ rs₂, rs = rs₁ ++ rs₂ ∧
      stepFallThrough cfi row insn (transfer options.disasm insn (.seedFromRow row false)).1
        (transfer options.disasm insn (.seedFromRow row false)).2 = .proceed rs₁ ∧
      stepDirect options cfi insn (transfer options.disasm insn (.seedFromRow row false)).1
        (transfer options.disasm insn (.seedFromRow row false)).2 = .proceed rs₂ := by
  unfold visit at h
  dsimp only at h
  split at h
  · cases h
  · cases h
  · rename_i rs₁ h₁
    split at h
    · cases h
    · cases h
    · rename_i rs₂ h₂
      cases h
      exact ⟨rs₁, rs₂, rfl, h₁, h₂⟩

/-- The exempted `leave` needs no check: it loads rsp from the register the CFA hung on. -/
theorem leave_keeps {row nextRow : CFIRow Int64} {insn : Instruction} {C : Word} {m m' : Machine}
    (hid : insn.id = .leave) (hbr : insn.isBranch = false) (ht : Tame row insn)
    (hcfa : row.cfa = .regOffset 6 (Offset.ofInt 16))
    (hnext : nextRow.cfa = .regOffset 7 (Offset.ofInt 8))
    (hC : evalCFA row.cfa m.regs = some C) (hx : insn.Exec m m') :
    evalCFA nextRow.cfa m'.regs = some C := by
  have hw : insn.insn.operandWidth = 64 := by
    have := ht (by rw [hcfa]; rfl)
    simpa [Instruction.narrowFrame, hid] using this
  have hbp : m.regs kDWARFRbp + 16 = C := by
    rw [hcfa] at hC
    exact Option.some.inj hC
  have hregs : m'.regs = insn.leaveRegs m := by
    simpa [Instruction.Exec, hid, hbr, isReturnMnemonic, isTrapMnemonic] using hx
  have hsp : m'.regs kDWARFRsp = m.regs kDWARFRbp + 8 := by
    simp [hregs, Instruction.leaveRegs, Instruction.stackBytes, hw]
  rw [hnext]
  show some (m'.regs kDWARFRsp + 8) = some C
  rw [hsp, ← hbp, BitVec.add_assoc]
  rfl

/-- A `nop` moves nothing. -/
theorem nop_keeps {row : CFIRow Int64} {insn : Instruction} {C : Word} {m m' : Machine}
    (hrow : row.Followable) (hid : insn.id = .nop) (hC : evalCFA row.cfa m.regs = some C)
    (hx : insn.Exec m m') : evalCFA row.cfa m'.regs = some C := by
  have hreg : ∀ r : Fin 16, r ≠ 0 → r ≠ 2 → m'.regs r = m.regs r := by
    intro r h0 h2
    unfold Instruction.Exec at hx
    cases hbr : insn.isBranch with
    | true =>
      simp only [hid, isReturnMnemonic, Bool.false_eq_true, if_false, hbr, if_true] at hx
      exact hx r (by simp [h0, h2])
    | false =>
      have he : m'.regs = m.regs := by
        simpa [hid, isReturnMnemonic, isTrapMnemonic, hbr] using hx
      rw [he]
  have hlt : row.cfa.reg < 16 := by
    rcases hrow.reg with h | h <;> omega
  have hsame : m'.regs ⟨row.cfa.reg, hlt⟩ = m.regs ⟨row.cfa.reg, hlt⟩ := by
    refine hreg _ ?_ ?_ <;> rcases hrow.reg with h | h <;> simp [Fin.ext_iff, h]
  simpa [evalCFA, hrow.kind, regValue, hlt, hsame] using hC

/-- A visit without a word: the edges it vouches for keep the CFA. -/
theorem Passed.keeps {insn : Instruction} {row : CFIRow Int64} (h : Passed options cfi insn row)
    (hrow : row.Followable) (hz : options.disasm.KnowsLeave) (hidx : Indexed options.allCfis cfi)
    (htotal : ∀ pc, cfi.Covers pc → (cfi.rowAt pc).isSome) {C : Word} {m m' : Machine}
    (hC : evalCFA row.cfa m.regs = some C) (hx : insn.Exec m m') (ht : Tame row insn) {q : Word}
    (he : Edge options.disasm cfi row insn q) :
    ∃ r, cfi.rowAt q = some r ∧ evalCFA r.cfa m'.regs = some C := by
  obtain ⟨rs₁, rs₂, hrs, h₁, h₂⟩ := visit_proceed h.silent
  obtain ⟨rfl, rfl⟩ := List.append_eq_nil_iff.mp hrs.symm
  cases he with
  | next nextRow hfalls hnext hpop hnop =>
    refine ⟨nextRow, hnext, ?_⟩
    obtain ⟨hf, hcall⟩ := transfer_fallsThrough (z := options.disasm)
      (s := AbsState.seedFromRow row false) hfalls
    have hstay : insn.leaves = false := stays_of_transfer (.inl ⟨hf, hcall⟩)
    have hlt : insn.next < cfi.pcEnd := (cfi.covers_of_rowAt hnext).2
    simp only [stepFallThrough, fallThrough, hf, hcall, hlt, hnext, Bool.false_eq_true, not_false_eq_true,
      and_self, if_true] at h₁
    by_cases hframe : row.cfa = .regOffset 6 (Offset.ofInt 16) ∧
        nextRow.cfa = .regOffset 7 (Offset.ofInt 8)
    · rw [if_pos hframe] at h₁
      by_cases hleave : insn.id = .leave
      · obtain ⟨d, hd, hdi⟩ := Option.map_eq_some_iff.mp h.decoded
        have hid' : d.mnemonic = .leave := by rw [← hleave, ← hdi]; rfl
        have hbr : insn.isBranch = false := by
          rw [← hdi]
          simp [Instruction.isBranch, hz _ d hd hid']
        exact leave_keeps hleave hbr ht hframe.1 hframe.2 hC hx
      · have hnot : ¬ (isPopRbp insn = true ∨ insn.id = .leave) :=
          not_or.mpr ⟨fun hp => hpop ⟨hp, hframe⟩, hleave⟩
        rw [if_neg hnot] at h₁
        cases h₁
    · rw [if_neg hframe] at h₁
      by_cases hid : insn.id = .nop
      · rw [hnop hid]
        exact nop_keeps hrow hid hC hx
      · rw [if_neg hid] at h₁
        exact checkCFA_passes (ofCheck_proceed h₁).2.symm
          (visit_regs hrow options.disasm hC hx hstay ht)
  | jump _ htarget hcov =>
    obtain ⟨r, hr⟩ := Option.isSome_iff_exists.mp (htotal q hcov)
    refine ⟨r, hr, ?_⟩
    have hd := transfer_directTarget (s := AbsState.seedFromRow row false) htarget
    have hstay : insn.leaves = false := stays_of_transfer (.inr (by rw [hd]; simp))
    simp only [stepDirect, directRow, hd, hidx.cfiContaining hcov, hr, Option.bind_eq_bind,
      Option.bind_some, Option.pure_def] at h₂
    exact checkCFA_passes (ofCheck_proceed h₂).2.symm (visit_regs hrow options.disasm hC hx hstay ht)

theorem keepsCFA_of_silent (hne : cfi.pcBegin < cfi.pcEnd)
    (htotal : ∀ pc, cfi.Covers pc → (cfi.rowAt pc).isSome)
    (hrows : ∀ row ∈ cfi.rows, row.Followable) (hz : options.disasm.KnowsLeave)
    (hidx : Indexed options.allCfis cfi) (hs : (sweep options cfi).reports = []) :
    KeepsCFA options cfi Tame := by
  have hfuel : cfi.pcEnd.toNat - cfi.pcBegin.toNat ≤ (cfi.pcEnd - cfi.pcBegin).toNat := by
    rw [BitVec.toNat_sub_of_le (BitVec.le_of_lt hne)]
  have hpassed := (sweepFrom_silent htotal (BitVec.le_refl _) (BitVec.le_of_lt hne) hfuel hs).2
  intro first C m₀ hfirst hC q m hm
  induction hm with
  | start => exact ⟨first, hfirst, hC⟩
  | @step pc q m m' insn row _ hin haddr hrow ht hx he ih =>
    obtain ⟨r, hr, hCr⟩ := ih
    obtain rfl : r = row := Option.some.inj (hr.symm.trans hrow)
    obtain ⟨row', hp⟩ := hpassed insn hin
    obtain rfl : row' = r := by
      have := hp.declared
      rw [haddr, hr] at this
      exact (Option.some.inj this).symm
    exact hp.keeps (hrows _ (cfi.mem_rows_of_rowAt hr)) hz hidx htotal hCr hx ht he

/-- What a visit says. -/
def Step.reports : Step → List Report
  | .checkFailed => []
  | .stop rs | .proceed rs => rs

/-- The rows a visit compares the outcome of its instruction with. -/
def Judges (options : FDECheckerOptions Int64) (cfi : CFI Int64) (row : CFIRow Int64)
    (insn : Instruction) (target : CFIRow Int64) : Prop :=
  fallThrough cfi row insn (transfer options.disasm insn (.seedFromRow row false)).1 =
      .compare target ∨
    ∃ t desc, directRow options cfi (transfer options.disasm insn (.seedFromRow row false)).1 =
      some (t, target, desc)

theorem Judges.stays {row target : CFIRow Int64} {insn : Instruction}
    (h : Judges options cfi row insn target) : insn.leaves = false := by
  rcases h with h | ⟨t, desc, h⟩
  · unfold fallThrough at h
    split at h
    · rename_i hc
      exact stays_of_transfer (.inl ⟨hc.1, by simpa using hc.2.1⟩)
    · cases h
  · refine stays_of_transfer (z := options.disasm) (s := .seedFromRow row false) (.inr fun hn => ?_)
    simp [directRow, hn] at h

theorem ofCheck_reports (r : List Report × Bool) : (Step.ofCheck r).reports = r.1 := by
  unfold Step.ofCheck
  split <;> rfl

/-- The comparison a report of a visit comes out of. -/
def Compares (options : FDECheckerOptions Int64) (cfi : CFI Int64) (row : CFIRow Int64)
    (insn : Instruction) (report : Report) : Prop :=
  ∃ target desc, Judges options cfi row insn target ∧
    report ∈ (checkCFA insn.address target.cfa
      (transfer options.disasm insn (.seedFromRow row false)).2 desc).1

theorem stepFallThrough_mismatch {row : CFIRow Int64} {insn : Instruction} {report : Report}
    (h : report ∈ (stepFallThrough cfi row insn
      (transfer options.disasm insn (.seedFromRow row false)).1
      (transfer options.disasm insn (.seedFromRow row false)).2).reports)
    (hm : report.severity = .mismatch) : Compares options cfi row insn report := by
  unfold stepFallThrough at h
  split at h
  · cases h
  · cases h
  · cases h
  · -- the transition to an rsp-based rule is a review
    simp only [Step.reports, List.mem_singleton] at h
    subst h
    cases hm
  · rename_i nextRow hcmp
    rw [ofCheck_reports] at h
    exact ⟨nextRow, "", .inl hcmp, h⟩

theorem stepDirect_report {row : CFIRow Int64} {insn : Instruction} {report : Report}
    (h : report ∈ (stepDirect options cfi insn
      (transfer options.disasm insn (.seedFromRow row false)).1
      (transfer options.disasm insn (.seedFromRow row false)).2).reports) :
    Compares options cfi row insn report := by
  unfold stepDirect at h
  split at h
  · cases h
  · rename_i t target desc hd
    rw [ofCheck_reports] at h
    exact ⟨target, desc, .inr ⟨t, desc, hd⟩, h⟩

/-- Every mismatch of a visit comes out of a comparison. -/
theorem visit_mismatch {row : CFIRow Int64} {insn : Instruction} {report : Report}
    (h : report ∈ (visit options cfi row insn).reports) (hm : report.severity = .mismatch) :
    Compares options cfi row insn report := by
  unfold visit at h
  dsimp only at h
  split at h
  · cases h
  · rename_i rs hs
    exact stepFallThrough_mismatch (by rw [hs]; exact h) hm
  · rename_i rs hs
    split at h
    · cases h
    all_goals
      rename_i rs' hs'
      rcases List.mem_append.mp h with h | h
      · exact stepFallThrough_mismatch (by rw [hs]; exact h) hm
      · exact stepDirect_report (by rw [hs']; exact h)

/-- Every report of the sweep is about an undecodable byte or comes out of a visit. -/
theorem sweepFrom_report {fuel : ℕ} {pc : Word} {report : Report}
    (h : report ∈ (sweepFrom options cfi fuel pc).reports) :
    (∃ p, report = undecodable options cfi p) ∨
      ∃ insn ∈ (sweepFrom options cfi fuel pc).swept, ∃ row,
        cfi.rowAt insn.address = some row ∧ report ∈ (visit options cfi row insn).reports := by
  induction fuel generalizing pc with
  | zero => cases h
  | succ fuel ih =>
    unfold sweepFrom at h ⊢
    split_ifs at h ⊢ with hlt
    · cases hrow : cfi.rowAt pc with
      | none => simp [hrow] at h
      | some row =>
        simp only [hrow] at h ⊢
        cases hd : decodeAt options cfi pc with
        | none =>
          simp only [hd, List.mem_singleton] at h
          exact .inl ⟨pc, h⟩
        | some insn =>
          have haddr : insn.address = pc := Zydis.decode_address hd
          simp only [hd] at h ⊢
          cases hv : visit options cfi row insn with
          | checkFailed => simp [hv] at h
          | stop rs =>
            simp only [hv] at h ⊢
            exact .inr ⟨insn, List.mem_singleton_self _, row, by rw [haddr, hrow], by rw [hv]; exact h⟩
          | proceed rs =>
            simp only [hv] at h ⊢
            rcases List.mem_append.mp h with h | h
            · exact .inr ⟨insn, List.mem_cons_self, row, by rw [haddr, hrow], by rw [hv]; exact h⟩
            · rcases ih h with hu | ⟨i, hi, r, hr, hrep⟩
              · exact .inl hu
              · exact .inr ⟨i, List.mem_cons_of_mem _ hi, r, hr, hrep⟩
    · cases h

/-- Every mismatch is an undecodable byte, or a comparison that came out wrong for good: executed
wherever the rule of its row yields `C`, the instruction makes the other row's rule yield something
else. -/
def MismatchesReal (options : FDECheckerOptions Int64) (cfi : CFI Int64)
    (P : CFIRow Int64 → Instruction → Prop) : Prop :=
  ∀ report ∈ (sweep options cfi).reports, report.severity = .mismatch →
    (∃ pc, report = undecodable options cfi pc) ∨
      ∃ insn ∈ (sweep options cfi).swept, ∃ row target desc,
        cfi.rowAt insn.address = some row ∧ Judges options cfi row insn target ∧
        report ∈ (checkCFA insn.address target.cfa
          (transfer options.disasm insn (.seedFromRow row false)).2 desc).1 ∧
        (P row insn → ∀ (C : Word) (m m' : Machine), evalCFA row.cfa m.regs = some C →
          insn.Exec m m' → ∃ w, evalCFA target.cfa m'.regs = some w ∧ w ≠ C)

theorem mismatchesReal (hrows : ∀ row ∈ cfi.rows, row.Followable) :
    MismatchesReal options cfi Tame := by
  intro report hr hm
  rcases sweepFrom_report hr with hu | ⟨insn, hin, row, hrow, hv⟩
  · exact .inl hu
  · obtain ⟨target, desc, hj, hc⟩ := visit_mismatch hv hm
    refine .inr ⟨insn, hin, row, target, desc, hrow, hj, hc, fun ht C m m' hC hx => ?_⟩
    exact checkCFA_mismatch hc hm
      (visit_regs (hrows row (cfi.mem_rows_of_rowAt hrow)) options.disasm hC hx hj.stays ht)

end Light

/-- A light check certifies the CFA rules along every tame execution, and disputes none without
cause. -/
theorem lightCheck_certifies {mem : Word → Byte} {fdeVaddr ehFrameStart ehFrameEnd bias : Word}
    {cfi : CFI Int64} (hread : readFDE mem fdeVaddr ehFrameStart ehFrameEnd bias = .ok cfi)
    (hrows : ∀ row ∈ cfi.rows, row.Followable) {options : FDECheckerOptions Int64}
    (hz : options.disasm.KnowsLeave) (hidx : Indexed options.allCfis cfi)
    (hra : cfi.raUndefined = false) :
    (∀ result, lightCheck options cfi = some result → result.verdict = .blessed →
        Light.KeepsCFA options cfi Light.Tame) ∧
      Light.MismatchesReal options cfi Light.Tame := by
  refine ⟨fun result hresult hb => ?_, Light.mismatchesReal hrows⟩
  have hne : cfi.pcBegin < cfi.pcEnd := hidx.nonempty _ hidx.mem
  exact Light.keepsCFA_of_silent hne (fun pc hc => readFDE_rowAt_isSome hread hc) hrows hz hidx
    (sweep_silent_of_blessed hresult hb hra).1

namespace Sample

/-- `pop %bp` -/
def popBp : DecodedInsn :=
  { insn 2 .pop .other [⟨.register (.gpr16 .rbp), 16, true, false⟩] with operandWidth := 16 }

def narrowDecoder : Zydis := .ofTable (([0x66, 0x5d], popBp) :: encodings)

def lightOptions (code : List Byte) (cfi : CFI Int64) : FDECheckerOptions Int64 :=
  { options code cfi with disasm := narrowDecoder }

theorem narrowDecoder_knowsLeave : narrowDecoder.KnowsLeave := by
  intro bytes i h hid
  obtain ⟨e, he, rfl⟩ := Option.map_eq_some_iff.mp h
  have hnone : ∀ e ∈ ([0x66, 0x5d], popBp) :: encodings, e.2.mnemonic ≠ .leave := by decide
  exact absurd hid (hnone e (List.mem_of_find?_eq_some he))

theorem indexed_options {cfi : CFI Int64} (h : cfi.pcBegin < cfi.pcEnd) (code : List Byte) :
    Indexed (lightOptions code cfi).allCfis cfi where
  sorted := List.pairwise_singleton _ _
  nonempty e he := by
    rw [List.mem_singleton.mp he]
    exact h
  mem := List.mem_singleton_self _
  alone e he := .inl (List.mem_singleton.mp he)

/-- A check of `Followable` that runs. -/
def followable (row : CFIRow Int64) : Bool :=
  row.cfa.kind = .regOffset && (row.cfa.reg = 6 || row.cfa.reg = 7) &&
    (List.finRange 17).all fun r =>
      match row.regs r with
      | .valOffset _ => false
      | _ => true

theorem followable_rows {cfi : CFI Int64} (h : cfi.rows.all followable = true) :
    ∀ row ∈ cfi.rows, row.Followable := by
  intro row hrow
  have hf := List.all_eq_true.mp h row hrow
  simp only [followable, Bool.and_eq_true, Bool.or_eq_true, decide_eq_true_eq, List.all_eq_true,
    List.mem_finRange, forall_const] at hf
  refine ⟨hf.1.1, hf.1.2, fun r offset hr => ?_⟩
  have := hf.2 r
  simp [hr] at this

/-- An FDE of three bytes that starts with CFA = rbp + 16 and stays there. -/
def framed : CFI Int64 :=
  (readFDE (section3 [0x0c, 0x06, 0x10]) 0x2018 0x2000 0x202c 0).toOption.getD leaf

theorem readFDE_framed : readFDE (section3 [0x0c, 0x06, 0x10]) 0x2018 0x2000 0x202c 0 = .ok framed :=
  eq_ok_getD (by decide +kernel) leaf

/-- `pop %bp; ret` -/
def framedOptions : FDECheckerOptions Int64 := lightOptions [0x66, 0x5d, 0xc3] framed

/-- An FDE of three bytes whose CFA rule is rsp + 8 at the first and rsp + 16 after it. -/
def pushed : CFI Int64 :=
  (readFDE (section3 [0x41, 0x0e, 0x10]) 0x2018 0x2000 0x202c 0).toOption.getD leaf

theorem readFDE_pushed : readFDE (section3 [0x41, 0x0e, 0x10]) 0x2018 0x2000 0x202c 0 = .ok pushed :=
  eq_ok_getD (by decide +kernel) leaf

/-- `push %rax; nop; int3` -/
def pushedOptions : FDECheckerOptions Int64 := lightOptions [0x50, 0x90, 0xcc] pushed

end Sample

theorem pushed_certified :
    (lightCheck Sample.pushedOptions Sample.pushed).map FDEResult.verdict = some .blessed ∧
      Light.KeepsCFA Sample.pushedOptions Sample.pushed Light.Tame ∧
      Light.MismatchesReal Sample.pushedOptions Sample.pushed Light.Tame := by
  have hb : (lightCheck Sample.pushedOptions Sample.pushed).map FDEResult.verdict =
      some .blessed := by
    decide +kernel
  have hcert := lightCheck_certifies Sample.readFDE_pushed
    (Sample.followable_rows (by decide +kernel)) Sample.narrowDecoder_knowsLeave
    (Sample.indexed_options (by decide +kernel) [0x50, 0x90, 0xcc]) (by decide +kernel)
  obtain ⟨result, hresult, hv⟩ := Option.map_eq_some_iff.mp hb
  exact ⟨hb, hcert.1 result hresult hv, hcert.2⟩

/-- `pop %bp` loads the low half of the register the CFA hangs on, and is blessed. -/
theorem framed_blessed :
    (readFDE (Sample.section3 [0x0c, 0x06, 0x10]) 0x2018 0x2000 0x202c 0 = .ok Sample.framed ∧
      (∀ row ∈ Sample.framed.rows, row.Followable) ∧ Sample.framedOptions.disasm.KnowsLeave ∧
      Indexed Sample.framedOptions.allCfis Sample.framed ∧ Sample.framed.raUndefined = false ∧
      (lightCheck Sample.framedOptions Sample.framed).map FDEResult.verdict = some .blessed) ∧
      ¬ Light.KeepsCFA Sample.framedOptions Sample.framed fun _ _ => True := by
  refine ⟨⟨Sample.readFDE_framed, Sample.followable_rows (by decide +kernel),
    Sample.narrowDecoder_knowsLeave, Sample.indexed_options (by decide +kernel) _,
    by decide +kernel, by decide +kernel⟩, fun h => ?_⟩
  have hfirst : (Sample.framed.rowAt 0x1000).map CFIRow.cfa = some (.regOffset 6 16) := by
    decide +kernel
  have hsecond : (Sample.framed.rowAt 0x1002).map CFIRow.cfa = some (.regOffset 6 16) := by
    decide +kernel
  have hbegin : Sample.framed.pcBegin = 0x1000 := by decide +kernel
  obtain ⟨row, hrow, hcfa⟩ := Option.map_eq_some_iff.mp hfirst
  obtain ⟨row', hrow', hcfa'⟩ := Option.map_eq_some_iff.mp hsecond
  let m : Machine := ⟨fun r => if r = 6 then 0x7010 else 0x6000, fun _ => 0⟩
  let m' : Machine := ⟨Instruction.popRegs ⟨0x1000, Sample.popBp⟩ m, fun _ => 0⟩
  have hstart : evalCFA row.cfa m.regs = some 0x7020 := by
    rw [hcfa]
    decide
  have hstep : Light.Reaches Sample.framedOptions Sample.framed (fun _ _ => True) m 0x1002 m' := by
    have hpop : Light.Edge Sample.framedOptions.disasm Sample.framed row ⟨0x1000, Sample.popBp⟩
        0x1002 := by
      refine .next row' (by decide) hrow' ?_ fun hid => absurd hid (by decide)
      exact fun hex => absurd hex.1 (by decide)
    have hzero : Light.Reaches Sample.framedOptions Sample.framed (fun _ _ => True) m 0x1000 m :=
      hbegin ▸ Light.Reaches.start
    have hexec : Instruction.Exec ⟨0x1000, Sample.popBp⟩ m m' := rfl
    exact .step hzero (by decide +kernel) rfl hrow trivial hexec hpop
  obtain ⟨r, hr, hC⟩ := h row 0x7020 m (by rw [hbegin]; exact hrow) hstart 0x1002 m' hstep
  obtain rfl : r = row' := Option.some.inj (hr.symm.trans hrow')
  rw [hcfa'] at hC
  exact absurd hC (by decide +kernel)

end UnwindCheck
