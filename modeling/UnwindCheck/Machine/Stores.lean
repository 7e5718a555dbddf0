import UnwindCheck.Insn.Agree
import UnwindCheck.Insn.Footprint
import UnwindCheck.Machine.Stale
import UnwindCheck.Machine.Widths

/-! Writes to memory whose place in the frame is known: which of the tracked slots they leave
behind. -/
namespace UnwindCheck

/-- A write of `size` bytes at `start`, with the word it stores where that is eight bytes of a
known origin. -/
structure Store where
  start : Int64
  size : ℕ
  value : Option (AbsVal Int64)

namespace Store
variable (w : Store)

/-- One of the eight bytes of slot `k` is one of those written. -/
def Overlaps (k : Int64) : Prop :=
  ∃ i < 8, ∃ j < w.size, k + (Offset.ofInt (i : ℕ) : Int64) = w.start + Offset.ofInt (j : ℕ)

/-- The keys that `EraseSlots` goes through, first and last, are there to be computed. -/
def Fits : Prop := -2 ^ 63 ≤ w.start.toInt - 7 ∧ w.start.toInt + w.size < 2 ^ 63

instance : Decidable w.Fits := inferInstanceAs (Decidable (_ ∧ _))

/-- Two bytes of the address space are the same exactly where their offsets differ by a multiple of
its size. -/
theorem byte_eq_iff {k a : Int64} {i j : ℕ} :
    k + (Offset.ofInt i : Int64) = a + Offset.ofInt j ↔
      (k.toInt + i).bmod (2 ^ 64) = (a.toInt + j).bmod (2 ^ 64) := by
  rw [← toInt_add_ofInt, ← toInt_add_ofInt, Int64.toInt_inj]

/-- The window of erased keys is the overlapping ones, or nothing when its ends wrap around. -/
theorem window_iff (hpos : 0 < w.size) (hsize : w.size < 2 ^ 16) (k : Int64) :
    (w.start - Offset.ofInt 7 ≤ k ∧ k < w.start + Offset.ofInt w.size) ↔ w.Fits ∧ w.Overlaps k := by
  have hlo := w.start.le_toInt
  have hhi := w.start.toInt_lt
  have hklo := k.le_toInt
  have hkhi := k.toInt_lt
  simp only [Overlaps, byte_eq_iff]
  rw [Int64.le_iff_toInt_le, Int64.lt_iff_toInt_lt, toInt_add_ofInt, toInt_sub_ofInt]
  unfold Fits
  generalize w.start.toInt = a at *
  generalize k.toInt = k at *
  constructor
  · rintro ⟨hle, hlt⟩
    have hfits : -2 ^ 63 ≤ a - 7 ∧ a + w.size < 2 ^ 63 := by
      simp only [Int.bmod_def] at hle hlt
      split_ifs at hle hlt <;> omega
    rw [Int.bmod_eq_of_le (by omega) (by omega)] at hle hlt
    refine ⟨hfits, ?_⟩
    rcases le_total a k with hak | hka
    · exact ⟨0, by omega, (k - a).toNat, by omega, by congr 1; omega⟩
    · exact ⟨(a - k).toNat, by omega, 0, by omega, by congr 1; omega⟩
  · rintro ⟨hfits, i, hi, j, hj, heq⟩
    rw [Int.bmod_eq_of_le (by omega) (by omega), Int.bmod_eq_of_le (by omega) (by omega)]
    simp only [Int.bmod_def] at heq
    split_ifs at heq <;> omega

theorem overlaps_start (hpos : 0 < w.size) : w.Overlaps w.start :=
  ⟨0, by omega, 0, hpos, rfl⟩

end Store

/-- Bytes an operand of `bits` bits writes, at least one. -/
def byteCount (bits : ℕ) : ℕ := max 1 (bits / 8)

theorem byteCount_pos (bits : ℕ) : 0 < byteCount bits := by
  unfold byteCount
  omega

namespace Instruction
variable (insn : Instruction)

/-- The write of one operand of an instruction that is not modelled, where it can be placed. -/
def operandStore (s : AbsState Int64) (op : Operand) : List Store :=
  match op.writes, op.kind with
  | true, .memory mem => ((memSlot s insn mem).map fun k => ⟨k, byteCount op.size, none⟩).toList
  | _, _ => []

/-- Each is placed by the registers as the operands before it have left them. -/
def operandStores : AbsState Int64 → List Operand → List Store
  | _, [] => []
  | s, op :: ops => insn.operandStore s op ++ operandStores (clobberOperand insn s op) ops

/-- The writes to memory that `Transfer` can place. A push is below rsp, and a `pop` addresses its
destination with rsp already moved. -/
def stores (s : AbsState Int64) : List Store :=
  match insn.id with
  | .push =>
    match s.gpr kDWARFRsp with
    | .cfaRel d => [⟨d - Offset.ofInt 8, 8, some (pushedValue insn s)⟩]
    | _ => []
  | .pushfq =>
    match s.gpr kDWARFRsp with
    | .cfaRel d => [⟨d - Offset.ofInt 8, 8, some .top⟩]
    | _ => []
  | .pop =>
    match (insn.op? 0).map Operand.kind with
    | some (.memory mem) =>
      match memSlot (popValue s).2 insn mem with
      | some k => [⟨k, 8, some (popValue s).1⟩]
      | none => []
    | _ => []
  | .mov | .movq =>
    match insn.ops2? with
    | some (⟨.memory mem, size, _, _⟩, src) =>
      match memSlot s insn mem with
      | some k =>
        [⟨k, byteCount size,
          match src.kind with
          | .register q => if size = 64 ∧ q.isFull64 then some (readReg s q) else none
          | _ => none⟩]
      | none => []
    | _ => insn.operandStores s insn.insn.operands
  | _ => insn.operandStores s insn.insn.operands

/-- Where a push or a pop leaves rsp. -/
def newRsp (s : AbsState Int64) : Option Int64 :=
  match insn.id, s.gpr kDWARFRsp with
  | .push, .cfaRel d | .pushfq, .cfaRel d => some (d - Offset.ofInt 8)
  | .pop, .cfaRel d => some (d + Offset.ofInt 8)
  | _, _ => none

/-- Slot `k` lies below the red zone of a newly set rsp. -/
def DropsBelow (s : AbsState Int64) (k : Int64) : Prop :=
  ∃ e, insn.newRsp s = some e ∧ k < e - Offset.ofInt AbsState.kRedZoneBytes

/-- The instructions whose writes are placed: a 64-bit push, `pushfq`, a 64-bit pop to memory, a
`mov` to memory, and what the generic clobber handles. The size of an operand is a `uint16_t`. -/
structure Stores (z : Zydis) (s : AbsState Int64) : Prop where
  isReturn : isReturnMnemonic insn.id = false
  isBranch : insn.isBranch = false
  isTrap : isTrapMnemonic insn.id = false
  kind : (insn.id ∈ [.push, .pop] ∧ insn.opCount = 1 ∧ insn.insn.operandWidth = 64 ∧
        (insn.id = .pop → ∃ mem, (insn.op? 0).map Operand.kind = some (.memory mem))) ∨
      insn.id = .pushfq ∨
      (insn.id ∈ [.mov, .movq] ∧ ∃ dst src mem, insn.ops2? = some (dst, src) ∧ dst.kind = .memory mem) ∨
      transferNamed z insn (dropStaleCmp insn s) = none
  sized : ∀ op ∈ insn.insn.operands, op.size < 2 ^ 16

end Instruction

section Congr
variable {insn : Instruction} {s t : AbsState Int64}

theorem clobberOperand_gpr_congr (h : s.gpr = t.gpr) (op : Operand) :
    (clobberOperand insn s op).gpr = (clobberOperand insn t op).gpr := by
  rcases clobberOperand_cases insn s op with ⟨hno, hs, -⟩ | ⟨r, d, hr, hd, hw, hs⟩
  · rcases clobberOperand_cases insn t op with ⟨-, ht, -⟩ | ⟨r, d, -, -, hw, -⟩
    · rw [hs, ht, h]
    · rw [hno] at hw
      cases hw
  · rcases clobberOperand_cases insn t op with ⟨hno, -⟩ | ⟨r', d', hr', hd', -, ht⟩
    · rw [hno] at hw
      cases hw
    · cases hr.symm.trans hr'
      cases hd.symm.trans hd'
      rw [hs, ht, clobberWrittenReg_gpr, clobberWrittenReg_gpr, h]

/-- Where a write goes depends on the registers alone. -/
theorem operandStores_congr (h : s.gpr = t.gpr) (ops : List Operand) :
    insn.operandStores s ops = insn.operandStores t ops := by
  induction ops generalizing s t with
  | nil => rfl
  | cons op ops ih =>
    simp only [Instruction.operandStores, Instruction.operandStore, ih (clobberOperand_gpr_congr h op),
      memSlot_congr h]

theorem stores_dropStaleCmp (insn : Instruction) (s : AbsState Int64) :
    insn.stores (dropStaleCmp insn s) = insn.stores s := by
  have hgpr := dropStaleCmp_gpr insn s
  have hops : insn.operandStores (dropStaleCmp insn s) insn.insn.operands =
      insn.operandStores s insn.insn.operands := operandStores_congr hgpr _
  have hread : ∀ q, readReg (dropStaleCmp insn s) q = readReg s q := by
    intro q
    unfold readReg
    rw [hgpr]
  have hslot := slot_dropStaleCmp s insn
  have hpushed : pushedValue insn (dropStaleCmp insn s) = pushedValue insn s := by
    unfold pushedValue
    simp only [hread, hslot, memSlot_congr hgpr]
  have hpop : (popValue (dropStaleCmp insn s)).1 = (popValue s).1 ∧
      (popValue (dropStaleCmp insn s)).2.gpr = (popValue s).2.gpr := by
    unfold popValue
    rw [hgpr]
    split <;> simp [hslot]
  unfold Instruction.stores
  simp only [hgpr, hops, hread, hpushed, hpop.1, memSlot_congr hpop.2, memSlot_congr hgpr]

end Congr

/-- What is dropped besides a slot that is written over: below the red zone of a new rsp, and in the
window that `EraseSlots` goes through. A push and a pop go through none. -/
def Instruction.Drops (insn : Instruction) (s : AbsState Int64) (k : Int64) : Prop :=
  insn.DropsBelow s k ∨
    insn.id ∉ [.push, .pushfq, .pop] ∧ ∃ w ∈ insn.stores s, w.Fits ∧ w.Overlaps k

/-- The slots of `s'`, where `ws` were written in `s` and `drops` names what else went. -/
def AfterStores (ws : List Store) (drops : Int64 → Prop) (s s' : AbsState Int64) : Prop :=
  ∀ k, (∃ w ∈ ws, w.start = k ∧ w.value = some (s'.slot k)) ∨
    (∀ w ∈ ws, w.start = k → w.value = none) ∧
      (drops k ∧ s'.slot k = .top ∨ ¬ drops k ∧ s'.slot k = s.slot k)

section Spec
variable {insn : Instruction} {s : AbsState Int64}

/-- One word is stored over slot `a`. -/
theorem afterStores_setSlot {s' : AbsState Int64} {drops : Int64 → Prop} (a : Int64) (v : AbsVal Int64)
    (h : ∀ k, drops k ∧ s'.slot k = .top ∨ ¬ drops k ∧ s'.slot k = s.slot k) (n : ℕ) :
    AfterStores [⟨a, n, some v⟩] drops s (s'.setSlot a v) := by
  intro k
  rw [AbsState.slot_setSlot]
  by_cases hk : a = k
  · left
    exact ⟨_, List.mem_singleton_self _, hk, by rw [if_pos hk]⟩
  · right
    rw [if_neg hk]
    refine ⟨fun w hw he => ?_, h k⟩
    rw [List.mem_singleton.mp hw] at he
    exact absurd he hk

theorem afterStores_nil {drops : Int64 → Prop} (h : ∀ k, ¬ drops k) : AfterStores [] drops s s :=
  fun k => Or.inr ⟨fun _ hw => absurd hw List.not_mem_nil, Or.inr ⟨h k, rfl⟩⟩

/-- Moving rsp drops what is below its red zone. -/
theorem slot_setRsp (s : AbsState Int64) (e k : Int64) :
    k < e - Offset.ofInt AbsState.kRedZoneBytes ∧ (s.setVal kDWARFRsp (.cfaRel e)).slot k = .top ∨
      ¬ k < e - Offset.ofInt AbsState.kRedZoneBytes ∧
        (s.setVal kDWARFRsp (.cfaRel e)).slot k = s.slot k := by
  rw [AbsState.setVal, AbsState.slot_setReg]
  by_cases hk : k < e - Offset.ofInt AbsState.kRedZoneBytes
  · exact Or.inl ⟨hk, if_pos ⟨rfl, hk⟩⟩
  · exact Or.inr ⟨hk, if_neg fun hdrop => hk hdrop.2⟩

theorem pushValue_afterStores (hid : insn.id = .push ∨ insn.id = .pushfq) (v : AbsVal Int64)
    (hstores : insn.stores s = match s.gpr kDWARFRsp with
      | .cfaRel d => [⟨d - Offset.ofInt 8, 8, some v⟩]
      | _ => []) :
    AfterStores (insn.stores s) (insn.Drops s) s (pushValue s v) := by
  have hdrops : ∀ k, insn.Drops s k ↔ insn.DropsBelow s k := by
    intro k
    rcases hid with hid | hid <;> simp [Instruction.Drops, hid]
  unfold pushValue
  rw [hstores]
  cases hd : s.gpr kDWARFRsp with
  | cfaRel d =>
    have hbelow : ∀ k, insn.Drops s k ↔
        k < d - Offset.ofInt 8 - Offset.ofInt AbsState.kRedZoneBytes := by
      intro k
      rw [hdrops]
      rcases hid with hid | hid <;> simp [Instruction.DropsBelow, Instruction.newRsp, hid, hd]
    refine afterStores_setSlot _ v (fun k => ?_) 8
    rw [hbelow]
    exact slot_setRsp s _ k
  | top | bottom | origReg | other =>
    refine afterStores_nil fun k hk => ?_
    obtain ⟨e, he, -⟩ := (hdrops k).mp hk
    rcases hid with hid | hid <;> simp [Instruction.newRsp, hid, hd] at he

/-- A pop moves rsp before it stores. -/
theorem transferPop_afterStores (hid : insn.id = .pop) (hone : insn.opCount = 1)
    (hwide : insn.insn.operandWidth = 64) {mem : MemOperand}
    (hmem : (insn.op? 0).map Operand.kind = some (.memory mem)) :
    AfterStores (insn.stores s) (insn.Drops s) s (transferPop insn s).2 := by
  have hdrops : ∀ k, insn.Drops s k ∧ (popValue s).2.slot k = .top ∨
      ¬ insn.Drops s k ∧ (popValue s).2.slot k = s.slot k := by
    intro k
    unfold popValue
    cases hd : s.gpr kDWARFRsp with
    | cfaRel d =>
      have hbelow : insn.Drops s k ↔ k < d + Offset.ofInt 8 - Offset.ofInt AbsState.kRedZoneBytes := by
        simp [Instruction.Drops, Instruction.DropsBelow, Instruction.newRsp, hid, hd]
      rw [hbelow]
      exact slot_setRsp s _ k
    | top | bottom | origReg | other =>
      refine Or.inr ⟨fun hk => ?_, rfl⟩
      simp [Instruction.Drops, Instruction.DropsBelow, Instruction.newRsp, hid, hd] at hk
  rw [transferPop, if_neg (by simp [hone, hwide])]
  simp only [popInto, hmem, Instruction.stores, hid]
  cases memSlot (popValue s).2 insn mem with
  | some k => exact afterStores_setSlot k _ hdrops 8
  | none => exact fun k => Or.inr ⟨fun _ hw => absurd hw List.not_mem_nil, hdrops k⟩

/-- `EraseSlots` drops what the bytes overlap, if the ends of its window can be computed. -/
theorem slot_eraseSlots_store (s : AbsState Int64) {a : Int64} {bits : ℕ} (hbits : bits < 2 ^ 16)
    (v : Option (AbsVal Int64)) (k : Int64) :
    let w : Store := ⟨a, byteCount bits, v⟩
    (w.Fits ∧ w.Overlaps k) ∧ (eraseSlots s a (writtenBytes bits)).slot k = .top ∨
      ¬ (w.Fits ∧ w.Overlaps k) ∧ (eraseSlots s a (writtenBytes bits)).slot k = s.slot k := by
  intro w
  have hpos := byteCount_pos bits
  have hsize : byteCount bits < 2 ^ 16 := by
    unfold byteCount
    omega
  have hbytes : (writtenBytes bits : Int64) = Offset.ofInt (byteCount bits) := by
    unfold writtenBytes byteCount
    simp
  have hnonneg : ¬ (writtenBytes bits : Int64) ≤ Offset.ofInt 0 := by
    have hwidth : ((Int64.size : ℕ) : ℤ) = 2 ^ 64 := rfl
    rw [hbytes, Int64.le_iff_toInt_le]
    show ¬ (Int64.ofInt (byteCount bits)).toInt ≤ 0
    rw [Int64.toInt_ofInt, Int.bmod_eq_of_le (by omega) (by omega)]
    omega
  rw [← w.window_iff hpos hsize k, AbsState.slot_eraseSlots, hbytes]
  by_cases hwin : w.start - Offset.ofInt 7 ≤ k ∧ k < w.start + Offset.ofInt w.size
  · exact Or.inl ⟨hwin, if_pos ⟨hbytes ▸ hnonneg, hwin⟩⟩
  · exact Or.inr ⟨hwin, if_neg fun h => hwin h.2⟩

theorem movToMem_afterStores (hid : insn.id ∈ [.mov, .movq]) {dst src : Operand} {mem : MemOperand}
    (hops : insn.ops2? = some (dst, src)) (hdst : dst.kind = .memory mem) (hsize : dst.size < 2 ^ 16) :
    AfterStores (insn.stores s) (insn.Drops s) s (movToMem insn s mem dst.size src) := by
  obtain ⟨kind, size, write, condWrite⟩ := dst
  dsimp only at hdst hsize
  subst hdst
  have hid' : insn.id = .mov ∨ insn.id = .movq := by simpa using hid
  have hdrops : ∀ k, insn.Drops s k ↔ ∃ w ∈ insn.stores s, w.Fits ∧ w.Overlaps k := by
    intro k
    rcases hid' with hid | hid <;>
      simp [Instruction.Drops, Instruction.DropsBelow, Instruction.newRsp, hid]
  cases hk : memSlot s insn mem with
  | none =>
    have hstores : insn.stores s = [] := by
      rcases hid' with hid | hid <;> simp [Instruction.stores, hid, hops, hk]
    simp only [movToMem, hk, hstores]
    refine afterStores_nil fun k hdrop => ?_
    obtain ⟨w, hw, -⟩ := (hdrops k).mp hdrop
    rw [hstores] at hw
    exact absurd hw List.not_mem_nil
  | some a =>
    let value : Option (AbsVal Int64) := match src.kind with
      | .register q => if size = 64 ∧ q.isFull64 then some (readReg s q) else none
      | _ => none
    have hstores : insn.stores s = [⟨a, byteCount size, value⟩] := by
      rcases hid' with hid | hid <;> simp [Instruction.stores, hid, hops, hk, value]
    have herased : ∀ k, insn.Drops s k ∧ (eraseSlots s a (writtenBytes size)).slot k = .top ∨
        ¬ insn.Drops s k ∧ (eraseSlots s a (writtenBytes size)).slot k = s.slot k := by
      intro k
      have hone : insn.Drops s k ↔
          (⟨a, byteCount size, value⟩ : Store).Fits ∧ (⟨a, byteCount size, value⟩ : Store).Overlaps k := by
        rw [hdrops, hstores]
        simp
      rw [hone]
      exact slot_eraseSlots_store s hsize value k
    have hnone (hvalue : value = none) : AfterStores [⟨a, byteCount size, value⟩] (insn.Drops s) s
        (eraseSlots s a (writtenBytes size)) := by
      refine fun k => Or.inr ⟨fun w hw _ => ?_, herased k⟩
      rw [List.mem_singleton.mp hw]
      exact hvalue
    have hread : ∀ q, readReg (eraseSlots s a (writtenBytes size)) q = readReg s q := by
      intro q
      simp [readReg]
    simp only [movToMem, hk, hstores, hread]
    cases hsrc : src.kind with
    | register q =>
      by_cases hfull : size = 64 ∧ q.isFull64 = true
      · have hvalue : value = some (readReg s q) := by simp [value, hsrc, hfull]
        rw [hvalue]
        simpa [hfull] using afterStores_setSlot a (readReg s q) herased (byteCount size)
      · simpa [hfull] using hnone (by simp [value, hsrc, hfull])
    | memory | immediate | pointer => exact hnone (by simp [value, hsrc])

/-- What one operand of an unmodelled instruction does to the slots. -/
theorem clobberOperand_slot (insn : Instruction) {op : Operand} (hsize : op.size < 2 ^ 16)
    (s : AbsState Int64) :
    (∀ w ∈ insn.operandStore s op, w.value = none) ∧
      ∀ k, (∃ w ∈ insn.operandStore s op, w.Fits ∧ w.Overlaps k) ∧
          (clobberOperand insn s op).slot k = .top ∨
        ¬ (∃ w ∈ insn.operandStore s op, w.Fits ∧ w.Overlaps k) ∧
          (clobberOperand insn s op).slot k = s.slot k := by
  unfold clobberOperand Instruction.operandStore
  cases hw : op.writes with
  | false => exact ⟨by simp, fun k => Or.inr ⟨by simp, rfl⟩⟩
  | true =>
    cases hkind : op.kind with
    | memory mem =>
      simp only [Bool.not_true, Bool.false_eq_true, if_false]
      cases hk : memSlot s insn mem with
      | none => exact ⟨by simp, fun k => Or.inr ⟨by simp, rfl⟩⟩
      | some a => exact ⟨by simp, fun k => by simpa using slot_eraseSlots_store s hsize none k⟩
    | register r =>
      refine ⟨by simp, fun k => Or.inr ⟨by simp, ?_⟩⟩
      cases hr : r.dwarfRegOf with
      | none => simp [hr]
      | some d =>
        simp only [Bool.not_true, Bool.false_eq_true, if_false, hr]
        exact AbsState.slot_setReg s d .top .none k
    | immediate _ => exact ⟨by simp, fun k => Or.inr ⟨by simp, rfl⟩⟩
    | pointer => exact ⟨by simp, fun k => Or.inr ⟨by simp, rfl⟩⟩

theorem clobberOperands_slot (insn : Instruction) {ops : List Operand}
    (hsize : ∀ op ∈ ops, op.size < 2 ^ 16) (s : AbsState Int64) :
    (∀ w ∈ insn.operandStores s ops, w.value = none) ∧
      ∀ k, (∃ w ∈ insn.operandStores s ops, w.Fits ∧ w.Overlaps k) ∧
          (ops.foldl (clobberOperand insn) s).slot k = .top ∨
        ¬ (∃ w ∈ insn.operandStores s ops, w.Fits ∧ w.Overlaps k) ∧
          (ops.foldl (clobberOperand insn) s).slot k = s.slot k := by
  induction ops generalizing s with
  | nil =>
    refine ⟨by simp [Instruction.operandStores], fun k => Or.inr ⟨?_, rfl⟩⟩
    simp [Instruction.operandStores]
  | cons op ops ih =>
    obtain ⟨hvalue, hop⟩ := clobberOperand_slot insn (hsize op List.mem_cons_self) s
    obtain ⟨hvalue', hrest⟩ := ih (fun op' hin => hsize op' (List.mem_cons_of_mem _ hin))
      (clobberOperand insn s op)
    rw [Instruction.operandStores, List.foldl_cons]
    refine ⟨fun w hw => ?_, fun k => ?_⟩
    · rcases List.mem_append.mp hw with hw | hw
      · exact hvalue w hw
      · exact hvalue' w hw
    · have hsplit : (∃ w ∈ insn.operandStore s op ++ insn.operandStores (clobberOperand insn s op) ops,
          w.Fits ∧ w.Overlaps k) ↔ (∃ w ∈ insn.operandStore s op, w.Fits ∧ w.Overlaps k) ∨
            ∃ w ∈ insn.operandStores (clobberOperand insn s op) ops, w.Fits ∧ w.Overlaps k := by
        simp [or_and_right, exists_or]
      rw [hsplit]
      rcases hrest k with ⟨hin, htop⟩ | ⟨hout, hsame⟩
      · exact Or.inl ⟨Or.inr hin, htop⟩
      · rcases hop k with ⟨hin, htop⟩ | ⟨hout', hsame'⟩
        · exact Or.inl ⟨Or.inl hin, hsame.trans htop⟩
        · exact Or.inr ⟨not_or.mpr ⟨hout', hout⟩, hsame.trans hsame'⟩

/-- What falls to the generic clobber has its writes among its operands. -/
theorem stores_of_unnamed {z : Zydis} (h : transferNamed z insn s = none) :
    insn.stores s = insn.operandStores s insn.insn.operands := by
  have hmov (hid : insn.id = .mov ∨ insn.id = .movq) : transferMov insn s = none := by
    rcases hid with hid | hid <;> simpa [transferNamed, hid] using h
  unfold Instruction.stores
  split
  case h_1 hid | h_2 hid | h_3 hid => simp [transferNamed, hid] at h
  case h_4 hid =>
    split
    · rename_i hops
      simp [transferMov, hops] at hmov
      exact absurd hid hmov.1
    · rfl
  case h_5 hid =>
    split
    · rename_i hops
      simp [transferMov, hops] at hmov
      exact absurd hid hmov.2
    · rfl
  case h_6 => rfl

theorem clobberWrites_afterStores (hstores : insn.stores s = insn.operandStores s insn.insn.operands)
    (hid : insn.id ∉ [.push, .pushfq, .pop]) (hsize : ∀ op ∈ insn.insn.operands, op.size < 2 ^ 16) :
    AfterStores (insn.stores s) (insn.Drops s) s (clobberWrites insn s) := by
  obtain ⟨hvalue, hslot⟩ := clobberOperands_slot insn hsize s
  intro k
  have hdrops : insn.Drops s k ↔
      ∃ w ∈ insn.operandStores s insn.insn.operands, w.Fits ∧ w.Overlaps k := by
    have hbelow : ¬ insn.DropsBelow s k := by
      rintro ⟨e, he, -⟩
      unfold Instruction.newRsp at he
      split at he
      · rename_i hpush _
        exact hid (by simp [hpush])
      · rename_i hpushfq _
        exact hid (by simp [hpushfq])
      · rename_i hpop _
        exact hid (by simp [hpop])
      · cases he
    rw [Instruction.Drops, hstores]
    exact ⟨fun hdrop => (hdrop.resolve_left hbelow).2, fun hw => Or.inr ⟨hid, hw⟩⟩
  rw [hstores, hdrops]
  exact Or.inr ⟨fun w hw _ => hvalue w hw, hslot k⟩

/-- Whichever way it goes, what is left of the slots. -/
theorem transfer_afterStores {z : Zydis} (h : insn.Stores z s) :
    AfterStores (insn.stores s) (insn.Drops s) s (transfer z insn s).2 := by
  have hdrops : insn.Drops (dropStaleCmp insn s) = insn.Drops s := by
    funext k
    simp only [Instruction.Drops, Instruction.DropsBelow, Instruction.newRsp, dropStaleCmp_gpr,
      stores_dropStaleCmp]
  have hslot := slot_dropStaleCmp s insn
  suffices hafter : AfterStores (insn.stores (dropStaleCmp insn s)) (insn.Drops (dropStaleCmp insn s))
      (dropStaleCmp insn s) (transfer z insn s).2 by
    rw [stores_dropStaleCmp, hdrops] at hafter
    simpa only [AfterStores, hslot] using hafter
  have hkind := h.kind
  rw [transfer_of_switch h.isReturn h.isBranch h.isTrap]
  generalize dropStaleCmp insn s = s₀ at hkind
  rcases hkind with ⟨hid, hone, hwide, hmem⟩ | hid | ⟨hid, dst, src, mem, hops, hdst⟩ | hnone
  · have hid' : insn.id = .push ∨ insn.id = .pop := by simpa using hid
    rcases hid' with hid | hid
    · simp only [transferNamed, hid, Option.getD_some, transferPush]
      rw [if_neg (by simp [hone, hwide])]
      exact pushValue_afterStores (Or.inl hid) _ (by simp only [Instruction.stores, hid])
    · obtain ⟨mem, hmem⟩ := hmem hid
      simp only [transferNamed, hid, Option.getD_some]
      exact transferPop_afterStores hid hone hwide hmem
  · simp only [transferNamed, hid, Option.getD_some]
    exact pushValue_afterStores (Or.inr hid) _ (by simp only [Instruction.stores, hid])
  · obtain ⟨rest, hoperands⟩ := Instruction.operands_of_ops2? hops
    have hsize : dst.size < 2 ^ 16 := h.sized dst (hoperands ▸ List.mem_cons_self)
    have hmov := movToMem_afterStores (s := s₀) hid hops hdst hsize
    have hnamed : (transferNamed z insn s₀).getD ({}, clobberWrites insn s₀) =
        ({}, movToMem insn s₀ mem dst.size src) := by
      obtain ⟨kind, size, write, condWrite⟩ := dst
      dsimp only at hdst
      subst hdst
      have hid' : insn.id = .mov ∨ insn.id = .movq := by simpa using hid
      rcases hid' with hid | hid <;> simp [transferNamed, hid, transferMov, hops]
    rw [hnamed]
    exact hmov
  · rw [hnone, Option.getD_none]
    have hstack : insn.id ∉ [.push, .pushfq, .pop] := by
      intro hin
      have hid : insn.id = .push ∨ insn.id = .pushfq ∨ insn.id = .pop := by simpa using hin
      rcases hid with hid | hid | hid <;> simp [transferNamed, hid] at hnone
    exact clobberWrites_afterStores (stores_of_unnamed hnone) hstack h.sized

theorem operandStores_spec {ops : List Operand} {w : Store} (hw : w ∈ insn.operandStores s ops) :
    w.value = none ∧ 0 < w.size := by
  induction ops generalizing s with
  | nil => cases hw
  | cons op ops ih =>
    rcases List.mem_append.mp hw with hw | hw
    · unfold Instruction.operandStore at hw
      split at hw
      · obtain ⟨k, -, rfl⟩ := Option.map_eq_some_iff.mp (Option.mem_toList.mp hw)
        exact ⟨rfl, byteCount_pos _⟩
      · cases hw
    · exact ih hw

/-- At most one placed write stores a known word, and then it is the only one. -/
theorem stores_spec (insn : Instruction) (s : AbsState Int64) :
    (∀ w ∈ insn.stores s, w.value = none ∧ 0 < w.size) ∨ ∃ w, insn.stores s = [w] ∧ 0 < w.size := by
  unfold Instruction.stores
  split
  case h_1 | h_2 =>
    split
    · exact Or.inr ⟨_, rfl, Nat.succ_pos 7⟩
    · exact Or.inl (by simp)
  case h_3 =>
    split
    · split
      · exact Or.inr ⟨_, rfl, Nat.succ_pos 7⟩
      · exact Or.inl (by simp)
    · exact Or.inl (by simp)
  case h_4 | h_5 =>
    split
    · split
      · exact Or.inr ⟨_, rfl, byteCount_pos _⟩
      · exact Or.inl (by simp)
    · exact Or.inl fun w hw => operandStores_spec hw
  case h_6 => exact Or.inl fun w hw => operandStores_spec hw

theorem stores_pos {w : Store} (hw : w ∈ insn.stores s) : 0 < w.size := by
  rcases stores_spec insn s with hall | ⟨a, ha, hpos⟩
  · exact (hall w hw).2
  · rw [ha] at hw
    rwa [List.mem_singleton.mp hw]

end Spec

/-- No stale slot survives the placed writes: a slot that one of them overlaps is absent, or the one
at its start with the stored word, and every other slot is as before, unless it lies below the red
zone of a newly set rsp. -/
structure Refreshes (z : Zydis) (insn : Instruction) (s : AbsState Int64) : Prop where
  overlapped : ∀ w ∈ insn.stores s, ∀ k, w.Overlaps k → (transfer z insn s).2.slot k = .top ∨
    k = w.start ∧ w.value = some ((transfer z insn s).2.slot k)
  untouched : ∀ k, (∀ w ∈ insn.stores s, ¬ w.Overlaps k) → ¬ insn.DropsBelow s k →
    (transfer z insn s).2.slot k = s.slot k

/-- A placed write refreshes the slots exactly where every tracked slot that it overlaps is the one
that it stores over, or is dropped: below the red zone of a new rsp, or, except in a push or a pop,
by a write whose window of keys does not wrap around. -/
theorem refreshes_iff {z : Zydis} {insn : Instruction} {s : AbsState Int64} (h : insn.Stores z s) :
    Refreshes z insn s ↔ ∀ w ∈ insn.stores s, ∀ k, w.Overlaps k → s.slot k ≠ .top →
      (k = w.start ∧ w.value.isSome = true) ∨ insn.Drops s k := by
  have hafter := transfer_afterStores h
  have hunique : ∀ w ∈ insn.stores s, ∀ w' ∈ insn.stores s, ∀ v, w'.value = some v → w' = w := by
    intro w hw w' hw' v hv
    rcases stores_spec insn s with hnone | ⟨a, ha, -⟩
    · rw [(hnone w' hw').1] at hv
      cases hv
    · rw [ha] at hw hw'
      rw [List.mem_singleton.mp hw, List.mem_singleton.mp hw']
  constructor
  · intro hall w hw k hk htracked
    rcases hafter k with ⟨w', hw', hstart, hvalue⟩ | ⟨-, ⟨hdrop, -⟩ | ⟨-, hsame⟩⟩
    · rw [← hunique w hw w' hw' _ hvalue]
      exact Or.inl ⟨hstart.symm, by simp [hvalue]⟩
    · exact Or.inr hdrop
    · rcases hall.overlapped w hw k hk with htop | ⟨hstart, hvalue⟩
      · exact absurd (hsame.symm.trans htop) htracked
      · exact Or.inl ⟨hstart, by simp [hvalue]⟩
  · intro hcond
    refine ⟨fun w hw k hk => ?_, fun k hout hbelow => ?_⟩
    · rcases hafter k with ⟨w', hw', hstart, hvalue⟩ | ⟨hnovalue, ⟨-, htop⟩ | ⟨hkeep, hsame⟩⟩
      · rw [← hunique w hw w' hw' _ hvalue]
        exact Or.inr ⟨hstart.symm, hvalue⟩
      · exact Or.inl htop
      · left
        by_contra htracked
        rw [hsame] at htracked
        rcases hcond w hw k hk htracked with ⟨hstart, hvalue⟩ | hdrop
        · simp [hnovalue w hw hstart.symm] at hvalue
        · exact hkeep hdrop
    · rcases hafter k with ⟨w', hw', hstart, -⟩ | ⟨-, ⟨hdrop, -⟩ | ⟨-, hsame⟩⟩
      · exact absurd (hstart ▸ w'.overlaps_start (stores_pos hw')) (hout w' hw')
      · rcases hdrop with hdrop | ⟨-, w', hw', -, hoverlap⟩
        · exact absurd hdrop hbelow
        · exact absurd hoverlap (hout w' hw')
      · exact hsame

namespace Sample

theorem stores_pushInsn (s : AbsState Int64) :
    Instruction.Stores ⟨0x1000, pushInsn⟩ (Zydis.ofTable []) s where
  isReturn := rfl
  isBranch := rfl
  isTrap := rfl
  kind := Or.inl ⟨by decide, rfl, rfl, fun hpop => absurd hpop (by decide)⟩
  sized := by decide

/-- `push %rbx; add $4,%rsp` from entry. -/
def misaligned : AbsState Int64 :=
  (AbsState.entry.setSlot (-16) (.origReg 3)).setVal kDWARFRsp (.cfaRel (-12))

theorem misaligned_slot : misaligned.slot (-16) = .origReg 3 := by
  rw [misaligned, AbsState.setVal, AbsState.slot_setReg, AbsState.slot_setSlot]
  decide

theorem misaligned_newRsp : Instruction.newRsp ⟨0x1000, pushInsn⟩ misaligned = some (-20) := rfl

theorem misaligned_stores : Instruction.stores ⟨0x1000, pushInsn⟩ misaligned =
    [⟨-20, 8, some (.origReg 0)⟩] := rfl

theorem entry_stores : Instruction.stores ⟨0x1000, pushInsn⟩ AbsState.entry =
    [⟨-16, 8, some (.origReg 0)⟩] := rfl

theorem eq_of_entry_slot {k : Int64} (h : (AbsState.entry : AbsState Int64).slot k ≠ .top) : k = -8 := by
  simp only [AbsState.slot, AbsState.entry, Std.ExtTreeMap.getElem?_insert,
    Std.ExtTreeMap.getElem?_empty] at h
  split_ifs at h with hk
  · exact (Std.LawfulEqCmp.eq_of_compare hk).symm
  · exact absurd rfl h

end Sample

/-- The push writes the four low bytes of the slot that holds rbx. -/
theorem misaligned_push_not_refreshes :
    Instruction.Stores ⟨0x1000, Sample.pushInsn⟩ (Zydis.ofTable []) Sample.misaligned ∧
      ¬ Refreshes (Zydis.ofTable []) ⟨0x1000, Sample.pushInsn⟩ Sample.misaligned := by
  refine ⟨Sample.stores_pushInsn _, fun h => ?_⟩
  have hstored : (⟨-20, 8, some (.origReg 0)⟩ : Store) ∈
      Instruction.stores ⟨0x1000, Sample.pushInsn⟩ Sample.misaligned := by
    rw [Sample.misaligned_stores]
    exact List.mem_singleton_self _
  have hkept : (transfer (Zydis.ofTable []) ⟨0x1000, Sample.pushInsn⟩ Sample.misaligned).2.slot (-16) =
      .origReg 3 := by
    have hin : ¬ Instruction.Drops ⟨0x1000, Sample.pushInsn⟩ Sample.misaligned (-16) := by
      rintro (⟨e, he, hlt⟩ | ⟨hout, -⟩)
      · rw [Sample.misaligned_newRsp] at he
        cases he
        revert hlt
        decide
      · exact hout (by decide)
    rcases transfer_afterStores (Sample.stores_pushInsn Sample.misaligned) (-16) with
      ⟨w, hw, hstart, -⟩ | ⟨-, ⟨hdrop, -⟩ | ⟨-, hsame⟩⟩
    · rw [Sample.misaligned_stores] at hw
      rw [List.mem_singleton.mp hw] at hstart
      revert hstart
      decide
    · exact absurd hdrop hin
    · rw [hsame, Sample.misaligned_slot]
  have hoverlap : (⟨-20, 8, some (.origReg 0)⟩ : Store).Overlaps (-16) :=
    ⟨0, by decide, 4, by decide, by decide⟩
  rcases h.overlapped _ hstored (-16) hoverlap with htop | ⟨hstart, -⟩
  · rw [hkept] at htop
    cases htop
  · revert hstart
    decide

theorem entry_push_refreshes :
    Refreshes (Zydis.ofTable []) ⟨0x1000, Sample.pushInsn⟩ (AbsState.entry : AbsState Int64) := by
  refine (refreshes_iff (Sample.stores_pushInsn _)).mpr fun w hw k hk htracked => ?_
  rw [Sample.entry_stores] at hw
  rw [List.mem_singleton.mp hw, Sample.eq_of_entry_slot htracked] at hk
  obtain ⟨i, hi, j, hj, heq⟩ := hk
  have hne : ∀ i < 8, ∀ j < 8,
      (-8 : Int64) + Offset.ofInt (i : ℕ) ≠ -16 + Offset.ofInt (j : ℕ) := by decide
  exact absurd heq (hne i hi j hj)

end UnwindCheck
