import UnwindCheck.Machine.Bounds

/-! A guard remembers a register and a width, and so not which byte of it was compared: which pairs
of a compared and a read spelling the recorded bounds are right about. -/
namespace UnwindCheck
variable {δ : Type} [Offset δ]

/-- Both bounds of a table half hold of a register's contents. -/
structure TableVal.Bounds (t : TableVal) (w : Word) : Prop where
  value : w.toNat ≤ t.valueBound
  table : w.toNat ≤ t.tableBound

/-- After `cmp $imm,%x` and a guard branch along its in-range edge: what is proven of the compared
bits, what is promoted to the register, and what any move of `%y` gives its destination are bounds
of what the registers hold. -/
def SpeaksTruly (δ : Type) [Offset δ] (z : Zydis) (x y : ZydisRegister) (r : Fin 16) : Prop :=
  ∀ (s s' : AbsState δ) (regs : Fin 16 → Word) (imm : Word) (cmp jcc : Instruction) (edge : BranchEdge),
    (s.tbl r).Bounds (regs r) → cmp.Compares x imm → jcc.Jcc → inRangeEdgeOf jcc.id edge ≠ .none →
    edge.TakenBy jcc.id (cmpFlags x.widthBits (x.value (regs r)) (imm.toNat % 2 ^ x.widthBits)) →
    s' = transferEdge jcc edge (transfer z jcc (transfer z cmp s).2).2 →
    (∀ g, s'.lastCmp = some g → g.proven = true → lowBits g.widthBits (regs g.reg) ≤ g.provenBound) ∧
    (s'.tbl r).Bounds (regs r) ∧
    ∀ (mov : Instruction) (q : ZydisRegister) (d : Fin 16) (src : Operand), mov.Move q src →
      q.dwarfRegOf = some d → src.kind = .register y → src.size = y.widthBits →
      ((transfer z mov s').2.tbl d).Bounds (q.put (regs d) (mov.moved src.size (y.value (regs r))))

theorem ZydisRegister.value_le_lowBits_of_high {y : ZydisRegister} {r : Fin 16}
    (hy : y.dwarfRegOf = some r) (hhigh : y.isLow = false) {bits : ℕ} (h16 : 16 ≤ bits) (w : Word) :
    y.value w ≤ lowBits bits w := by
  refine le_trans ?_ (lowBits_mono h16 w)
  cases y with
  | high8 g =>
    simp only [value, lowBits]
    omega
  | gpr64 | gpr32 | gpr16 | gpr8 => cases hhigh
  | none | rip | other => cases hy

section Sound
variable {x y : ZydisRegister} {r : Fin 16} {z : Zydis} {s : AbsState δ} {regs : Fin 16 → Word}
  {imm : Word} {cmp jcc : Instruction}

/-- Nothing but the comparison is waiting for the branch. -/
theorem lastCmp_of_guard (hcmp : cmp.Compares x imm) (hx : x.dwarfRegOf = some r) (hjcc : jcc.Jcc)
    {g : FlagsGuard} (hg : (transfer z jcc (transfer z cmp s).2).2.lastCmp = some g) :
    g = { reg := r, widthBits := x.widthBits, imm := imm.toNat % 2 ^ x.widthBits } := by
  rw [hjcc.transfer_eq, hcmp.transfer_eq hx] at hg
  exact (Option.some.inj (dropStaleCmp_lastCmp hg)).symm

/-- What can be read of the register is within what the guard says of it. -/
theorem le_readBound_of_guard {src : Operand} (hy : y.dwarfRegOf = some r)
    (hyx : y.isLow = true ∨ 16 ≤ x.widthBits) (hkind : src.kind = .register y)
    (hsize : src.size = y.widthBits) (hvalue : (regs r).toNat ≤ (s.tbl r).valueBound)
    (hguard : ∀ g, s.lastCmp = some g → g.proven = true → g.widthBits = x.widthBits ∧
      lowBits g.widthBits (regs g.reg) ≤ g.provenBound) :
    y.value (regs r) ≤ src.readBound s := by
  have hval := y.value_le (regs r)
  have hlt := ZydisRegister.value_lt hy (regs r)
  have htop := hval.trans (toNat_le_kBoundTop _)
  have hsr : src.reg?.bind ZydisRegister.dwarfRegOf = some r := by simp [Operand.reg?, hkind, hy]
  unfold Operand.readBound
  rw [hsr, hsize]
  refine le_min (le_min (le_widthBound hlt htop) (hval.trans hvalue)) ?_
  refine le_provenGuardBound hlt htop ?_
  rintro g hg hp rfl hbits
  obtain ⟨hwidth, hle⟩ := hguard g hg hp
  refine le_trans ?_ hle
  cases hlow : y.isLow with
  | true =>
    rw [ZydisRegister.value_of_isLow hlow]
    exact lowBits_mono hbits _
  | false =>
    have h16 := hyx.resolve_left (by simp [hlow])
    exact ZydisRegister.value_le_lowBits_of_high hy hlow (hwidth ▸ h16) _

end Sound

theorem speaksTruly_of_low {z : Zydis} {x y : ZydisRegister} {r : Fin 16} (hx : x.dwarfRegOf = some r)
    (hy : y.dwarfRegOf = some r) (hlow : x.isLow = true) (hyx : y.isLow = true ∨ 16 ≤ x.widthBits) :
    SpeaksTruly δ z x y r := by
  rintro s s' regs imm cmp jcc edge hbounds hcmp hjcc - htaken rfl
  have htbl : (transfer z jcc (transfer z cmp s).2).2.tbl r = s.tbl r := by
    rw [hjcc.transfer_eq, hcmp.transfer_eq hx]
    simp
  have hwaiting {g : FlagsGuard} := lastCmp_of_guard (z := z) (s := s) (g := g) hcmp hx hjcc
  generalize (transfer z jcc (transfer z cmp s).2).2 = s₁ at htbl hwaiting
  -- a low spelling reads exactly the bits the guard names, so the flags answer for it
  have hflags : FlagsAnswer s₁
      ⟨regs, cmpFlags x.widthBits (x.value (regs r)) (imm.toNat % 2 ^ x.widthBits)⟩ := by
    intro g hg hp
    rw [hwaiting hg, ZydisRegister.value_of_isLow hlow]
  have htrue := hflags.recordsTrue htaken
  have hguard : ∀ g, (transferEdge jcc edge s₁).lastCmp = some g → g.proven = true →
      g.widthBits = x.widthBits ∧ lowBits g.widthBits (regs g.reg) ≤ g.provenBound := by
    intro g hg hp
    obtain ⟨g₀, b, hg₀, rfl⟩ := transferEdge_lastCmp hg
    refine ⟨by rw [hwaiting hg₀], (htrue.guard _ hg hp).resolve_left fun hsame => ?_⟩
    rw [hwaiting hsame] at hp
    simp [FlagsGuard.proven] at hp
  have hreg : ((transferEdge jcc edge s₁).tbl r).Bounds (regs r) := by
    rcases htrue.promoted r with heq | ⟨b, heq, hb⟩
    · rw [heq, htbl]
      exact hbounds
    · rw [htbl] at heq hb
      have hle := hb hbounds.value
      rw [heq]
      exact ⟨le_min hbounds.value hle, le_min hbounds.table hle⟩
  refine ⟨fun g hg hp => (hguard g hg hp).2, hreg, fun mov q d src hm hq hkind hsize => ?_⟩
  have hle : y.value (regs r) ≤ src.readBound (dropStaleCmp mov (transferEdge jcc edge s₁)) := by
    refine le_readBound_of_guard hy hyx hkind hsize ?_ fun g hg => hguard g (dropStaleCmp_lastCmp hg)
    rw [dropStaleCmp_tbl]
    exact hreg.value
  obtain ⟨t, hw, hcarried⟩ := hm.wrote (z := z) hq hle (regs d)
  rw [hw.tbl, Function.update_self]
  refine ⟨hcarried.value, hcarried.table (by simp [Operand.reg?, hkind]) ?_⟩
  simpa [Operand.reg?, hkind, hy, AbsState.table] using (y.value_le (regs r)).trans hreg.table

namespace Sample

/-- cmp $5 of any spelling -/
def cmpOf (x : ZydisRegister) : DecodedInsn :=
  { cmpInsn with operands := [⟨.register x, x.widthBits, false, false⟩, ⟨.immediate 5, 8, false, false⟩] }

/-- movzx of any spelling to ecx -/
def movzxOf (y : ZydisRegister) : DecodedInsn :=
  { narrowMovInsn with
    mnemonic := .movzx
    operands := [⟨.register (.gpr32 .rcx), 32, true, false⟩, ⟨.register y, y.widthBits, false, false⟩] }

theorem compares_cmpOf (x : ZydisRegister) : Instruction.Compares ⟨0x1000, cmpOf x⟩ x 5 :=
  ⟨rfl, rfl, _, _, rfl, rfl, rfl, rfl⟩

theorem move_movzxOf (y : ZydisRegister) : Instruction.Move ⟨0x1005, movzxOf y⟩ (.gpr32 .rcx)
    ⟨.register y, y.widthBits, false, false⟩ where
  mnemonic := by
    rw [show (⟨0x1005, movzxOf y⟩ : Instruction).id = .movzx from rfl]
    decide
  ops := ⟨_, rfl, rfl⟩
  isBranch := rfl
  writes := by
    refine ⟨_, _, rfl, rfl, rfl, fun op hin hwrites => ?_⟩
    obtain rfl := List.mem_singleton.mp hin
    cases hwrites

theorem takenBy_ja {a : ℕ} (h : a ≤ 5) : BranchEdge.fallThrough.TakenBy .jnbe (cmpFlags 8 a 5) := by
  intro jump hjump
  cases hjump
  rw [if_neg]
  simp [cmpFlags]
  omega

end Sample

theorem bounds_init (r : Fin 16) (w : Word) : ((AbsState.init : AbsState δ).tbl r).Bounds w :=
  ⟨toNat_le_kBoundTop w, toNat_le_kBoundTop w⟩

/-- The guard on `%ah` is taken for one on `%al`. -/
theorem not_speaksTruly_of_high (z : Zydis) (h : HighByte) (y : ZydisRegister) :
    ¬ SpeaksTruly δ z (.high8 h) y h.parent.dwarf := by
  intro hall
  obtain ⟨hguard, -⟩ := hall .init _ (fun _ => 0xff#64) 5 ⟨0x1000, Sample.cmpOf (.high8 h)⟩
    ⟨0x1003, Sample.jaInsn⟩ .fallThrough (bounds_init _ _) (Sample.compares_cmpOf _) Sample.jcc_jaInsn
    (by decide) (Sample.takenBy_ja (Nat.zero_le 5)) rfl
  have hle := hguard { reg := h.parent.dwarf, widthBits := 8, imm := 5, provenBound := 5 }
    (by cases h <;> rfl) rfl
  have hbad : 255 ≤ 5 := hle
  omega

/-- The guard on `%al` is taken for one on `%ah`. -/
theorem not_speaksTruly_of_low_high (z : Zydis) (h : HighByte) :
    ¬ SpeaksTruly δ z (.gpr8 h.parent) (.high8 h) h.parent.dwarf := by
  intro hall
  obtain ⟨-, -, hmove⟩ := hall .init _ (fun _ => 0xff00#64) 5 ⟨0x1000, Sample.cmpOf (.gpr8 h.parent)⟩
    ⟨0x1003, Sample.jaInsn⟩ .fallThrough (bounds_init _ _) (Sample.compares_cmpOf _) Sample.jcc_jaInsn
    (by decide) (Sample.takenBy_ja (Nat.zero_le 5)) rfl
  have hle := (hmove ⟨0x1005, Sample.movzxOf (.high8 h)⟩ _ 2 _ (Sample.move_movzxOf _) rfl rfl rfl).value
  have hbad : 255 ≤ 5 := by cases h <;> exact hle
  omega

/-- Guards and moves speak about the bits they name exactly where no high byte is compared, and none
is read behind a comparison of the low byte. -/
theorem speaksTruly_iff {z : Zydis} {x y : ZydisRegister} {r : Fin 16} (hx : x.dwarfRegOf = some r)
    (hy : y.dwarfRegOf = some r) :
    SpeaksTruly δ z x y r ↔ x.isLow = true ∧ (y.isLow = true ∨ 16 ≤ x.widthBits) := by
  refine ⟨fun h => ?_, fun h => speaksTruly_of_low hx hy h.1 h.2⟩
  have hlow : x.isLow = true := by
    cases x with
    | gpr64 | gpr32 | gpr16 | gpr8 => rfl
    | high8 g =>
      cases hx
      exact absurd h (not_speaksTruly_of_high z g y)
    | none | rip | other => cases hx
  refine ⟨hlow, ?_⟩
  by_contra hno
  obtain ⟨hyhigh, hnarrow⟩ := not_or.mp hno
  cases y with
  | high8 g =>
    cases x with
    | gpr8 a =>
      cases hy
      have hsame : a = g.parent := by
        have hdwarf := Option.some.inj hx
        cases a <;> cases g <;> first | rfl | cases hdwarf
      subst hsame
      exact not_speaksTruly_of_low_high z g h
    | gpr64 | gpr32 | gpr16 => simp [ZydisRegister.widthBits] at hnarrow
    | high8 | none | rip | other => cases hlow
  | gpr64 | gpr32 | gpr16 | gpr8 => exact hyhigh rfl
  | none | rip | other => cases hy

/-- With rax = 0xff, `cmp $5,%ah; ja` falls through, and the low byte counts as at most 5. -/
theorem ah_not_speaksTruly :
    ¬ SpeaksTruly Int64 (Zydis.ofTable []) (.high8 .ah) (.gpr8 .rax) 0 :=
  not_speaksTruly_of_high _ .ah _

theorem ax_ah_speaksTruly :
    SpeaksTruly Int64 (Zydis.ofTable []) (.gpr16 .rax) (.high8 .ah) 0 :=
  (speaksTruly_iff rfl rfl).mpr (by decide)

end UnwindCheck
