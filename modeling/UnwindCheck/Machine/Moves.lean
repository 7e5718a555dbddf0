import UnwindCheck.Machine.Frame
import UnwindCheck.Machine.Bounds

/-! What a move leaves in the table half of its destination. -/
namespace UnwindCheck
variable {δ : Type} [Offset δ]

/-- A full-width move between two registers. -/
structure Instruction.Copies (insn : Instruction) (d e : Fin 16) : Prop where
  mnemonic : insn.id = .mov ∨ insn.id = .movq
  isBranch : insn.isBranch = false
  ops : ∃ dst src x q, insn.ops2? = some (dst, src) ∧ dst.kind = .register x ∧ src.kind = .register q ∧
    x.isFull64 = true ∧ q.isFull64 = true ∧ x.dwarfRegOf = some d ∧ q.dwarfRegOf = some e

/-- The moves that hand the table bound of their source to a register which is itself no part of a
dispatch: of a 32-bit destination, of `movzx`, and of sign extensions with nothing to extend. -/
def Instruction.Widens (insn : Instruction) (x : ZydisRegister) (src : Operand) (s : AbsState δ) : Prop :=
  match insn.id with
  | .mov | .movq => x.widthBits = 32
  | .movzx => 32 ≤ x.widthBits
  | .movsx => 32 ≤ x.widthBits ∧ src.size < 64 ∧ src.readBound s < 2 ^ (src.size - 1)
  | .movsxd => x.isFull64 = true ∧ src.size < 64 ∧ src.readBound s < 2 ^ (src.size - 1)
  | _ => False

theorem clobberReg_kind (s : AbsState δ) (d : Fin 16) : ((s.clobberReg d).tbl d).kind = .none := by
  rw [AbsState.clobberReg_tbl, Function.update_self]
  rfl

theorem clobberWrittenReg_kind (s : AbsState δ) (x : ZydisRegister) (d : Fin 16) :
    ((clobberWrittenReg s x d).tbl d).kind = .none := by
  rw [clobberWrittenReg_tbl, Function.update_self]
  rfl

/-- Register `d` has no identity in the table half, and a table bound only where it was `handed` one. -/
structure Unnamed (u : AbsState δ) (d : Fin 16) (handed : Prop) : Prop where
  kind : (u.tbl d).kind = .none
  bound : (u.tbl d).tableBound = kBoundTop ∨ handed

namespace Unnamed
variable {u : AbsState δ} {d : Fin 16} {handed : Prop}

theorem of_tbl {b : ℕ} (htbl : u.tbl d = { TableVal.none with valueBound := b }) : Unnamed u d handed := by
  constructor
  · rw [htbl]
    rfl
  · left
    rw [htbl]
    rfl

theorem setVal (s : AbsState δ) (d : Fin 16) (v : AbsVal δ) : Unnamed (s.setVal d v) d handed := by
  apply of_tbl (b := kBoundTop)
  unfold AbsState.setVal
  rw [AbsState.setReg_tbl, Function.update_self]
  rfl

theorem clobberWrittenReg (s : AbsState δ) (x : ZydisRegister) (d : Fin 16) :
    Unnamed (clobberWrittenReg s x d) d handed := by
  apply of_tbl (b := writtenRegBound x)
  rw [clobberWrittenReg_tbl, Function.update_self]

theorem modifyTable (h : (u.tbl d).kind = .none) {f : TableVal → TableVal} (hkind : ∀ t, (f t).kind = t.kind)
    (hbound : (f (u.tbl d)).tableBound = kBoundTop ∨ handed) : Unnamed (u.modifyTable d f) d handed := by
  have htbl : (u.modifyTable d f).tbl d = f (u.tbl d) := Function.update_self _ _ _
  constructor
  · rw [htbl, hkind]
    exact h
  · rw [htbl]
    exact hbound

theorem capped (h : Unnamed u d handed) (b : ℕ) :
    Unnamed (u.modifyTable d fun t => { t with valueBound := min t.valueBound b }) d handed :=
  modifyTable (f := fun t => { t with valueBound := min t.valueBound b }) h.kind (fun _ => rfl) h.bound

/-- A zero extension hands on the bound of its source register. -/
theorem zeroExtended {s : AbsState δ} {sr : Option (Fin 16)} {bits : ℕ} (h : (u.tbl d).kind = .none)
    (hsr : sr.isSome = true → handed) :
    Unnamed (u.modifyTable d (applyZeroExtendedFrom (s.table sr) bits (sourceGuard s sr bits))) d handed := by
  refine modifyTable (f := applyZeroExtendedFrom (s.table sr) bits (sourceGuard s sr bits)) h (fun _ => rfl) ?_
  cases sr with
  | none => exact .inl (min_self _)
  | some e => exact .inr (hsr rfl)

/-- A sign extension does where there is nothing to extend. -/
theorem signExtended {s : AbsState δ} {sr : Option (Fin 16)} {bits : ℕ} (h : (u.tbl d).kind = .none)
    (hsr : sr.isSome = true → bits < 64 →
      min (min (widthBound bits) (s.table sr).valueBound) (sourceGuard s sr bits) < 2 ^ (bits - 1) → handed) :
    Unnamed (u.modifyTable d (applySignExtendedFrom (s.table sr) bits (sourceGuard s sr bits))) d handed := by
  refine modifyTable (f := applySignExtendedFrom (s.table sr) bits (sourceGuard s sr bits)) h
    (fun t => ?_) ?_
  · unfold applySignExtendedFrom
    dsimp only
    split_ifs <;> rfl
  · unfold applySignExtendedFrom
    dsimp only
    split_ifs with hsign
    · exact .inl rfl
    · cases sr with
      | none => exact .inl (min_self _)
      | some e => exact .inr (hsr rfl (by omega) (by omega))

end Unnamed

section Moves
variable {z : Zydis} {insn : Instruction} {s : AbsState δ} {x : ZydisRegister} {src : Operand} {r : Fin 16}

theorem movToReg_unnamed (hid : insn.id = .mov ∨ insn.id = .movq) (s : AbsState δ) :
    (∃ q e, x.isFull64 = true ∧ src.kind = .register q ∧ q.isFull64 = true ∧ q.dwarfRegOf = some e) ∨
      Unnamed (movToReg insn s x r src) r
        (insn.Widens x src s ∧ (src.reg?.bind ZydisRegister.dwarfRegOf).isSome = true) := by
  unfold movToReg
  cases hfull : x.isFull64 with
  | false =>
    right
    simp only [Bool.not_false, if_true]
    by_cases h32 : x.widthBits = 32
    · simp only [h32, if_true]
      split_ifs with hsome
      · refine .zeroExtended (clobberWrittenReg_kind s x r) fun _ => ⟨?_, hsome⟩
        unfold Instruction.Widens
        rcases hid with hid | hid
        · rw [hid]
          exact h32
        · rw [hid]
          exact h32
      · exact .clobberWrittenReg s x r
    · simp only [h32, if_false]
      exact .clobberWrittenReg s x r
  | true =>
    simp only [Bool.not_true, Bool.false_eq_true, if_false]
    cases hkind : src.kind with
    | register q =>
      cases hq : q.dwarfRegOf with
      | none =>
        right
        simp only [hq]
        exact .setVal s r .top
      | some e =>
        cases hqf : q.isFull64 with
        | false =>
          right
          simp only [hq, hqf, Bool.false_eq_true, if_false]
          exact .setVal s r .top
        | true => exact .inl ⟨q, e, trivial, rfl, hqf, hq⟩
    | memory mem =>
      right
      dsimp only
      split
      · exact .setVal s r _
      · exact .setVal s r _
    | immediate _ | pointer =>
      right
      exact .setVal s r .top

theorem loadsTable_of_tableLoad {u : AbsState δ} {dst : Operand} {mem : MemOperand}
    (hid : insn.id = .movsxd) (hbr : insn.isBranch = false) (hops : insn.ops2? = some (dst, src))
    (hdst : dst.kind = .register x) (hx : x.dwarfRegOf = some r) (hfull : x.isFull64 = true)
    (hmem : src.kind = .memory mem) (hload : tableLoad s r mem = some u) :
    ∃ idx value, insn.LoadsTable s r idx mem value := by
  unfold tableLoad at hload
  split at hload
  · cases hload
  · rename_i hform
    simp only [Option.bind_eq_bind, Option.bind_eq_some_iff] at hload
    obtain ⟨idx, hidx, base, hbase, hload⟩ := hload
    cases hb : mem.base with
    | gpr64 b =>
      rw [hb] at hbase hload
      cases hbase
      split at hload
      · cases hload
      · split at hload
        · rename_i value hconst
          refine ⟨idx, value, hid, hbr, ⟨dst, src, x, hops, hdst, hx, hfull, hmem⟩, hidx, ?_, b, hb, hconst⟩
          by_contra hscale
          exact hform (.inr (.inl hscale))
        · cases hload
    | gpr32 | gpr16 | gpr8 | high8 | none | rip | other =>
      rw [hb] at hload
      cases hload

theorem transferMovsxd_unnamed (hm : insn.Move x src) (hid : insn.id = .movsxd) (hx : x.dwarfRegOf = some r)
    (s : AbsState δ) :
    (∃ idx mem value, insn.LoadsTable s r idx mem value) ∨
      Unnamed ((transferMovsxd insn s).getD (clobberWrites insn s)) r
        (insn.Widens x src s ∧ (src.reg?.bind ZydisRegister.dwarfRegOf).isSome = true) := by
  obtain ⟨⟨kind, size, write, condWrite⟩, hops, hkind⟩ := hm.ops
  dsimp only at hkind
  subst hkind
  rw [hm.writes.clobberWrites hx]
  unfold transferMovsxd
  simp only [hops, hx]
  cases hfull : x.isFull64 with
  | false => exact .inr (.clobberWrittenReg s x r)
  | true =>
    simp only [Bool.not_true, Bool.false_eq_true, if_false]
    cases hk : src.kind with
    | register q =>
      have hsr : src.reg?.bind ZydisRegister.dwarfRegOf = q.dwarfRegOf := by simp [Operand.reg?, hk]
      right
      dsimp only
      rw [Option.getD_some]
      split_ifs with hsome
      · refine .signExtended (clobberReg_kind s r) fun _ hsize hlow => ?_
        constructor
        · unfold Instruction.Widens Operand.readBound
          rw [hid, hsr]
          exact ⟨hfull, hsize, hlow⟩
        · rw [hsr]
          exact hsome
      · exact .setVal s r .top
    | memory mem =>
      cases hload : tableLoad s r mem with
      | none =>
        right
        simp only [hload]
        exact .clobberWrittenReg s x r
      | some u =>
        left
        obtain ⟨idx, value, h⟩ := loadsTable_of_tableLoad hid hm.isBranch hops rfl hx hfull hk hload
        exact ⟨idx, mem, value, h⟩
    | immediate _ | pointer => exact .inr (.clobberWrittenReg s x r)

theorem transferMovx_unnamed (hm : insn.Move x src) (hid : insn.id = .movzx ∨ insn.id = .movsx)
    (hx : x.dwarfRegOf = some r) (s : AbsState δ) :
    Unnamed ((transferMovx insn s).getD (clobberWrites insn s)) r
      (insn.Widens x src s ∧ (src.reg?.bind ZydisRegister.dwarfRegOf).isSome = true) := by
  obtain ⟨⟨kind, size, write, condWrite⟩, hops, hkind⟩ := hm.ops
  dsimp only at hkind
  subst hkind
  rw [hm.writes.clobberWrites hx]
  unfold transferMovx
  simp only [hops, hx]
  cases hk : src.kind with
  | register q | memory mem =>
    have hnone := clobberWrittenReg_kind s x r
    dsimp only
    split_ifs with h32 hzx
    · exact .clobberWrittenReg s x r
    · refine .capped (.zeroExtended hnone fun hsome => ⟨?_, hsome⟩) _
      simp only [Instruction.Widens, hzx]
      exact not_lt.mp h32
    · have hsx := hid.resolve_left hzx
      refine .capped (.signExtended hnone fun hsome hsize hlow => ⟨?_, hsome⟩) _
      simp only [Instruction.Widens, hsx]
      exact ⟨not_lt.mp h32, hsize, hlow⟩
  | immediate _ | pointer => exact .clobberWrittenReg s x r

theorem transfer_mov (hid : insn.id = .mov ∨ insn.id = .movq) (hbr : insn.isBranch = false)
    (s : AbsState δ) :
    (transfer z insn s).2 =
      (transferMov insn (dropStaleCmp insn s)).getD (clobberWrites insn (dropStaleCmp insn s)) := by
  rcases hid with hid | hid
  · rw [transfer_of_switch (by rw [hid]; rfl) hbr (by rw [hid]; rfl)]
    simp only [transferNamed, hid, getD_map_plain]
  · rw [transfer_of_switch (by rw [hid]; rfl) hbr (by rw [hid]; rfl)]
    simp only [transferNamed, hid, getD_map_plain]

theorem transfer_movx (hid : insn.id = .movzx ∨ insn.id = .movsx) (hbr : insn.isBranch = false)
    (s : AbsState δ) :
    (transfer z insn s).2 =
      (transferMovx insn (dropStaleCmp insn s)).getD (clobberWrites insn (dropStaleCmp insn s)) := by
  rcases hid with hid | hid
  · rw [transfer_of_switch (by rw [hid]; rfl) hbr (by rw [hid]; rfl)]
    simp only [transferNamed, hid, getD_map_plain]
  · rw [transfer_of_switch (by rw [hid]; rfl) hbr (by rw [hid]; rfl)]
    simp only [transferNamed, hid, getD_map_plain]

theorem transfer_movsxd (hid : insn.id = .movsxd) (hbr : insn.isBranch = false) (s : AbsState δ) :
    (transfer z insn s).2 =
      (transferMovsxd insn (dropStaleCmp insn s)).getD (clobberWrites insn (dropStaleCmp insn s)) := by
  rw [transfer_of_switch (by rw [hid]; rfl) hbr (by rw [hid]; rfl)]
  simp only [transferNamed, hid, getD_map_plain]

theorem Instruction.Copies.tbl {e : Fin 16} (h : insn.Copies r e) : (transfer z insn s).2.tbl r = s.tbl e := by
  obtain ⟨⟨kind, size, write, condWrite⟩, ⟨kind', size', write', condWrite'⟩, x, q, hops, hkind, hkind',
    hx, hq, hd, he⟩ := h.ops
  dsimp only at hkind hkind'
  subst hkind hkind'
  rw [transfer_mov h.mnemonic h.isBranch]
  simp only [transferMov, hops, hd, Option.map_some, Option.getD_some, movToReg, hx, Bool.not_true,
    Bool.false_eq_true, if_false, he, hq, if_true]
  unfold AbsState.copyReg
  rw [AbsState.setReg_tbl, Function.update_self, dropStaleCmp_tbl]

/-- What a move leaves in the table half of its destination: that of its source, that of an entry, and
otherwise no identity. -/
theorem Instruction.Move.table (hm : insn.Move x src) (hx : x.dwarfRegOf = some r) :
    (∃ q e, src.kind = .register q ∧ x.isFull64 = true ∧ q.isFull64 = true ∧ q.dwarfRegOf = some e ∧
        insn.Copies r e) ∨
      (∃ idx mem value, insn.LoadsTable s r idx mem value) ∨
      Unnamed (transfer z insn s).2 r (insn.Widens x src (dropStaleCmp insn s) ∧
        (src.reg?.bind ZydisRegister.dwarfRegOf).isSome = true) := by
  have hid := hm.mnemonic
  simp only [List.mem_cons, List.not_mem_nil, or_false] at hid
  have hmov (hid : insn.id = .mov ∨ insn.id = .movq) :
      (∃ q e, src.kind = .register q ∧ x.isFull64 = true ∧ q.isFull64 = true ∧ q.dwarfRegOf = some e ∧
          insn.Copies r e) ∨
        Unnamed (transfer z insn s).2 r (insn.Widens x src (dropStaleCmp insn s) ∧
          (src.reg?.bind ZydisRegister.dwarfRegOf).isSome = true) := by
    obtain ⟨⟨kind, size, write, condWrite⟩, hops, hkind⟩ := hm.ops
    dsimp only at hkind
    subst hkind
    rw [transfer_mov hid hm.isBranch]
    simp only [transferMov, hops, hx, Option.map_some, Option.getD_some]
    rcases movToReg_unnamed (x := x) (r := r) hid (dropStaleCmp insn s) with
      ⟨q, e, hfull, hk, hqf, hq⟩ | hun
    · exact .inl ⟨q, e, hk, hfull, hqf, hq, hid, hm.isBranch, _, _, x, q, hops, rfl, hk, hfull, hqf, hx, hq⟩
    · exact .inr hun
  rcases hid with hid | hid | hid | hid | hid
  · exact (hmov (.inl hid)).imp_right .inr
  · exact (hmov (.inr hid)).imp_right .inr
  · rw [transfer_movx (.inl hid) hm.isBranch]
    exact .inr (.inr (transferMovx_unnamed hm (.inl hid) hx _))
  · rw [transfer_movx (.inr hid) hm.isBranch]
    exact .inr (.inr (transferMovx_unnamed hm (.inr hid) hx _))
  · rw [transfer_movsxd hid hm.isBranch]
    rcases transferMovsxd_unnamed hm hid hx (dropStaleCmp insn s) with ⟨idx, mem, value, hload⟩ | hun
    · obtain ⟨b, hbase, hconst⟩ := hload.base
      rw [dropStaleCmp_tbl] at hconst
      exact .inr (.inl ⟨idx, mem, value, hload.mnemonic, hload.isBranch, hload.ops, hload.index, hload.scale,
        b, hbase, hconst⟩)
    · exact .inr (.inr hun)

/-- A move of a constant only clobbers. -/
theorem Instruction.Move.immediate {imm : Word} (hm : insn.Move x src) (hx : x.dwarfRegOf = some r)
    (himm : src.kind = .immediate imm) :
    (transfer z insn s).2 = clobberWrittenReg (dropStaleCmp insn s) x r ∨
      (transfer z insn s).2 = (dropStaleCmp insn s).setVal r .top := by
  obtain ⟨⟨kind, size, write, condWrite⟩, hops, hkind⟩ := hm.ops
  obtain ⟨kind', size', write', condWrite'⟩ := src
  dsimp only at hkind himm
  subst hkind himm
  have hgen := hm.writes.clobberWrites hx (dropStaleCmp insn s)
  have hid := hm.mnemonic
  simp only [List.mem_cons, List.not_mem_nil, or_false] at hid
  have hmov (hid : insn.id = .mov ∨ insn.id = .movq) :
      (transfer z insn s).2 = clobberWrittenReg (dropStaleCmp insn s) x r ∨
        (transfer z insn s).2 = (dropStaleCmp insn s).setVal r .top := by
    rw [transfer_mov hid hm.isBranch]
    simp only [transferMov, hops, hx, Option.map_some, Option.getD_some]
    cases hfull : x.isFull64 with
    | false =>
      left
      simp [movToReg, hfull, Operand.reg?]
    | true =>
      right
      simp only [movToReg, hfull, Bool.not_true, Bool.false_eq_true, if_false]
      rfl
  rcases hid with hid | hid | hid | hid | hid
  · exact hmov (.inl hid)
  · exact hmov (.inr hid)
  · left
    rw [transfer_movx (.inl hid) hm.isBranch, hgen]
    simp [transferMovx, hops, hx]
  · left
    rw [transfer_movx (.inr hid) hm.isBranch, hgen]
    simp [transferMovx, hops, hx]
  · left
    rw [transfer_movsxd hid hm.isBranch, hgen]
    cases hfull : x.isFull64 <;> simp [transferMovsxd, hops, hx, hfull]

end Moves

end UnwindCheck
