import UnwindCheck.EhFrame.Reader
import UnwindCheck.Lib.Leb128

/-! The LEB128 readers of `.eh_frame` read every number of 64 bits, however it is padded, and nothing
else. -/
namespace UnwindCheck
open Lib

namespace Slice
variable {mem : Word → Byte} (s : Slice)

/-- The bytes of the span. -/
def bytes (mem : Word → Byte) (s : Slice) : List Byte := readMem mem s.data s.size

theorem bytes_advance (n : ℕ) : (s.advance n).bytes mem = (s.bytes mem).drop n := by
  apply List.ext_getElem
  · simp [bytes, readMem, advance]
  · intro i h₁ h₂
    simp only [bytes, readMem, advance, List.getElem_map, List.getElem_range, List.getElem_drop]
    rw [BitVec.add_assoc, ← BitVec.ofNat_add]

theorem advance_advance (m n : ℕ) : (s.advance m).advance n = s.advance (m + n) := by
  simp only [advance, BitVec.ofNat_add, BitVec.add_assoc, Nat.sub_sub]

end Slice

section Loops
variable {mem : Word → Byte} {fuel shift : ℕ}

theorem readMem_succ (a : Word) (n : ℕ) : readMem mem a (n + 1) = mem a :: readMem mem (a + 1) n := by
  simp only [readMem, List.range_succ_eq_map, List.map_cons, List.map_map]
  congr 1
  · simp
  · refine List.map_congr_left fun i _ => ?_
    show mem (a + BitVec.ofNat 64 (i + 1)) = mem (a + 1 + BitVec.ofNat 64 i)
    rw [Nat.add_comm, BitVec.ofNat_add, BitVec.add_assoc]
    rfl

/-- `ReadObject<uint8_t>` takes the first byte, if there is one. -/
theorem readU8_run_nil {s : Slice} (h : s.bytes mem = []) :
    (readU8 mem).run s = .error "eh_frame read error: truncated data" := by
  obtain ⟨data, size⟩ := s
  cases size with
  | zero => rfl
  | succ n =>
    rw [Slice.bytes, readMem_succ] at h
    cases h

theorem readU8_run_cons {s : Slice} {b : Byte} {bs : List Byte} (h : s.bytes mem = b :: bs) :
    (readU8 mem).run s = .ok (b, s.advance 1) ∧ (s.advance 1).bytes mem = bs := by
  constructor
  · obtain ⟨data, size⟩ := s
    cases size with
    | zero => cases h
    | succ n =>
      rw [Slice.bytes, readMem_succ] at h
      obtain ⟨rfl, -⟩ := List.cons.inj h
      have hvalue : BitVec.ofNat 8 (littleEndian (readMem mem data 1)) = mem data := by
        simp [readMem, littleEndian]
      show Except.ok (BitVec.ofNat 8 (littleEndian (readMem mem data 1)), _) = _
      rw [hvalue]
  · rw [Slice.bytes_advance, h, List.drop_one, List.tail_cons]

/-- The slice holds the bytes. -/
def Slice.Sees (mem : Word → Byte) (s : Slice) (bytes : List Byte) : Prop := s.bytes mem = bytes

theorem Slice.iterate_advance (s : Slice) (n : ℕ) : (fun s : Slice => s.advance 1)^[n] s = s.advance n := by
  induction n generalizing s with
  | zero => simp [advance]
  | succ n ih => rw [Function.iterate_succ_apply, ih, advance_advance, Nat.add_comm]

/-- `ReadUleb128` refuses bits beyond the 64th. -/
theorem readUleb128From_loop (mem : Word → Byte) :
    Leb128.Loop 64 (Leb128.unsignedFits 64) (fun v _ _ => v) (Slice.Sees mem) (fun s => s.advance 1)
      fun fuel shift result s => (readUleb128From mem fuel shift result).run s where
  tooFar fuel shift result s h := by
    cases fuel with
    | zero => rfl
    | succ fuel =>
      rw [readUleb128From, if_pos h]
      rfl
  truncated fuel shift result s h := by
    cases fuel with
    | zero => rfl
    | succ fuel =>
      rw [readUleb128From]
      split_ifs
      · rfl
      · rw [StateT.run_bind, readU8_run_nil h]
        rfl
  byte fuel shift result s b bs h hs := by
    have hfits : (57 < shift ∧ b.toNat % 128 / 2 ^ (64 - shift) ≠ 0) ↔
        Leb128.unsignedFits 64 (Leb128.payload b) shift = false := by
      rw [Leb128.unsignedFits, decide_eq_false_iff_not, Classical.not_imp, Leb128.payload]
      omega
    rw [readUleb128From, if_neg (by omega), StateT.run_bind, (readU8_run_cons h).1]
    show Except.toOption (StateT.run (if _ then _ else _) _) = _
    simp only [hfits]
    split_ifs <;> rfl
  tail s b bs h := (readU8_run_cons h).2

/-- `ReadSleb128` refuses bits beyond the 64th that do not repeat the sign, and extends the sign
itself where the group ends before. -/
theorem readSleb128From_loop (mem : Word → Byte) :
    Leb128.Loop 64 (Leb128.signedFits 64) Leb128.signExtended (Slice.Sees mem) (fun s => s.advance 1)
      fun fuel shift result s => (readSleb128From mem fuel shift result).run s where
  tooFar fuel shift result s h := by
    cases fuel with
    | zero => rfl
    | succ fuel =>
      rw [readSleb128From, if_pos h]
      rfl
  truncated fuel shift result s h := by
    cases fuel with
    | zero => rfl
    | succ fuel =>
      rw [readSleb128From]
      split_ifs
      · rfl
      · rw [StateT.run_bind, readU8_run_nil h]
        rfl
  byte fuel shift result s b bs h hs := by
    have hfits : (57 < shift ∧ (!sleb128Fits (b.toNat % 128) shift) = true) ↔
        Leb128.signedFits 64 (b.toNat % 128) shift = false := by
      rw [Leb128.signedFits, sleb128Fits, decide_eq_false_iff_not, Classical.not_imp]
      simp only [Bool.not_eq_true', decide_eq_false_iff_not]
      omega
    rw [readSleb128From, if_neg (by omega), StateT.run_bind, (readU8_run_cons h).1]
    show Except.toOption (StateT.run (if _ then _ else _) _) = _
    unfold Leb128.signExtended Leb128.payload
    simp only [hfits]
    by_cases hlast : b.toNat < 128
    · have hnot : ¬ 128 ≤ b.toNat := by omega
      simp only [hlast, hnot, if_true, if_false]
      split_ifs <;> rfl
    · have hmore : 128 ≤ b.toNat := by omega
      simp only [hlast, hmore, if_true, if_false]
      split_ifs <;> rfl
  tail s b bs h := (readU8_run_cons h).2

end Loops

section Exact
variable {mem : Word → Byte}

/-- A reader of groups of at most ten bytes: it reads the number `value` sees in a group if a word
can `hold` it, and fails otherwise. -/
structure ReadsLeb128 (mem : Word → Byte) (read : SliceM Word) (value : List Byte → ℤ)
    (hold : Word → ℤ) : Prop where
  ok : ∀ s v s', read.run s = .ok (v, s') ↔ ∃ group rest, s.bytes mem = group ++ rest ∧
    Leb128.Group group ∧ group.length ≤ 10 ∧ value group = hold v ∧ s' = s.advance group.length
  fails : ∀ s, (∃ e, read.run s = .error e) ↔ ¬ ∃ group rest v, s.bytes mem = group ++ rest ∧
    Leb128.Group group ∧ group.length ≤ 10 ∧ value group = hold v

/-- A reader that finds what it should fails everywhere else. -/
theorem ReadsLeb128.of_ok {read : SliceM Word} {value : List Byte → ℤ} {hold : Word → ℤ}
    (h : ∀ s v s', read.run s = .ok (v, s') ↔ ∃ group rest, s.bytes mem = group ++ rest ∧
      Leb128.Group group ∧ group.length ≤ 10 ∧ value group = hold v ∧ s' = s.advance group.length) :
    ReadsLeb128 mem read value hold := by
  refine ⟨h, fun s => ?_⟩
  cases hrun : read.run s with
  | error e =>
    refine iff_of_true ⟨e, rfl⟩ ?_
    rintro ⟨group, rest, v, heq, hg, hlen, hv⟩
    have hok := (h s v _).mpr ⟨group, rest, heq, hg, hlen, hv, rfl⟩
    rw [hrun] at hok
    cases hok
  | ok p =>
    refine iff_of_false (by simp) (not_not.mpr ?_)
    obtain ⟨group, rest, heq, hg, hlen, hv, -⟩ := (h s p.1 p.2).mp hrun
    exact ⟨group, rest, p.1, heq, hg, hlen, hv⟩

theorem toOption_eq_some {ε α : Type} {x : Except ε α} {a : α} : x.toOption = some a ↔ x = .ok a := by
  cases x <;> simp [Except.toOption]

/-- From the groups a loop accepts, and what it makes of them, to what it reads. -/
theorem ReadsLeb128.of_loop {fits : ℕ → ℕ → Bool} {finish : Word → ℕ → ℕ → Word}
    {f : (fuel shift : ℕ) → (result : Word) → SliceM Word} {value : List Byte → ℤ} {hold : Word → ℤ}
    (hloop : Leb128.Loop 64 fits finish (Slice.Sees mem) (fun s => s.advance 1)
      fun fuel shift result s => (f fuel shift result).run s)
    (hgroup : ∀ (group : List Byte) (v : Word), Leb128.Group group →
      (Leb128.Accepted 64 fits 0 group ∧ v = finish (BitVec.ofNat 64 (Leb128.unsignedValue group))
        (7 * group.length) (Leb128.lastPayload group) ↔ group.length ≤ 10 ∧ value group = hold v)) :
    ReadsLeb128 mem (f 11 0 0) value hold := by
  refine .of_ok fun s v s' => ?_
  have hrun := hloop.run (show 64 ≤ 0 + 7 * 11 by decide) 0 (show s.Sees mem (s.bytes mem) from rfl)
  simp only [Slice.iterate_advance, Nat.zero_add] at hrun
  have hzero : ∀ n, (0 : Word).toNat + n * 2 ^ 0 = n := fun n => by simp
  rw [← toOption_eq_some, hrun, Option.map_eq_some_iff]
  constructor
  · rintro ⟨r, hr, hout⟩
    obtain ⟨group, rest, ⟨heq, hg⟩, hacc, rfl⟩ := (Leb128.scan_eq_some_iff (by decide)).mp hr
    obtain ⟨rfl, rfl⟩ := Prod.mk.inj hout
    have hval := (hgroup group _ hg).mp ⟨hacc, rfl⟩
    rw [hzero]
    exact ⟨group, rest, heq, hg, hval.1, hval.2, rfl⟩
  · rintro ⟨group, rest, heq, hg, hlen, hv, rfl⟩
    obtain ⟨hacc, rfl⟩ := (hgroup group v hg).mpr ⟨hlen, hv⟩
    exact ⟨_, (Leb128.scan_eq_some_iff (by decide)).mpr ⟨group, rest, ⟨heq, hg⟩, hacc, rfl⟩, by rw [hzero]⟩

theorem readUleb128_reads_leb (mem : Word → Byte) : ReadsLeb128 mem (readUleb128 mem)
    (fun group => Leb128.unsignedValue group) (fun v => v.toNat) := by
  refine .of_loop (readUleb128From_loop mem) fun group v hg => ?_
  rw [hg.accepted_unsigned (by decide), Nat.cast_inj, Nat.sub_zero]
  have hpos := hg.length_pos
  constructor
  · rintro ⟨⟨hlen, hlt⟩, rfl⟩
    exact ⟨by omega, by rw [BitVec.toNat_ofNat, Nat.mod_eq_of_lt hlt]⟩
  · rintro ⟨hlen, hv⟩
    have hlt := v.isLt
    refine ⟨⟨by omega, by omega⟩, ?_⟩
    rw [hv, BitVec.ofNat_toNat, BitVec.setWidth_eq]

theorem readSleb128_reads_leb (mem : Word → Byte) :
    ReadsLeb128 mem (readSleb128 mem) Leb128.signedValue BitVec.toInt := by
  refine .of_loop (readSleb128From_loop mem) fun group v hg => ?_
  rw [hg.accepted_signed (by decide), hg.signExtended_eq]
  have hpos := hg.length_pos
  constructor
  · rintro ⟨⟨hlen, hlo, hhi⟩, rfl⟩
    refine ⟨by omega, ?_⟩
    rw [BitVec.toInt_ofInt, Int.bmod_eq_of_le] <;> omega
  · rintro ⟨hlen, hv⟩
    have hlo := BitVec.le_toInt v
    have hhi := @BitVec.toInt_lt 64 v
    rw [hv]
    refine ⟨⟨by omega, hlo, hhi⟩, ?_⟩
    rw [BitVec.ofInt_toInt]

/-- Reading back what was written leaves what came behind it. -/
theorem ReadsLeb128.roundTrip {read : SliceM Word} {value : List Byte → ℤ} {hold : Word → ℤ}
    (h : ReadsLeb128 mem read value hold) {group rest : List Byte} {v : Word} {s : Slice}
    (hg : Leb128.Group group) (hlen : group.length ≤ 10) (hv : value group = hold v)
    (hs : s.bytes mem = group ++ rest) :
    ∃ s', read.run s = .ok (v, s') ∧ s'.bytes mem = rest := by
  refine ⟨s.advance group.length, (h.ok s v _).mpr ⟨group, rest, hs, hg, hlen, hv, rfl⟩, ?_⟩
  rw [Slice.bytes_advance, hs, List.drop_left]

/-- Both readers are exact on every byte sequence, and so read back any number of 64 bits with
whatever follows it left over. -/
theorem leb128_exact (mem : Word → Byte) :
    ReadsLeb128 mem (readUleb128 mem) (fun group => Leb128.unsignedValue group) (fun v => v.toNat) ∧
      ReadsLeb128 mem (readSleb128 mem) Leb128.signedValue BitVec.toInt ∧
      (∀ (v : Word) (s : Slice) (rest : List Byte),
        s.bytes mem = Leb128.encodeUnsigned v.toNat ++ rest →
          ∃ s', (readUleb128 mem).run s = .ok (v, s') ∧ s'.bytes mem = rest) ∧
      ∀ (v : Word) (s : Slice) (rest : List Byte),
        s.bytes mem = Leb128.encodeSigned v.toInt ++ rest →
          ∃ s', (readSleb128 mem).run s = .ok (v, s') ∧ s'.bytes mem = rest := by
  have hu := readUleb128_reads_leb mem
  have hs := readSleb128_reads_leb mem
  refine ⟨hu, hs, ?_, ?_⟩
  · intro v s rest hbytes
    obtain ⟨hgroup, hvalue, hlen⟩ := Leb128.encodeUnsigned_spec v.toNat
    have hlt := v.isLt
    exact hu.roundTrip hgroup (hlen 9 (by omega)) (by rw [hvalue]) hbytes
  · intro v s rest hbytes
    obtain ⟨hgroup, hvalue, hlen⟩ := Leb128.encodeSigned_spec v.toInt
    have hlo := BitVec.le_toInt v
    have hhi := @BitVec.toInt_lt 64 v
    exact hs.roundTrip hgroup (hlen 9 (by omega) (by omega)) hvalue hbytes

/-- -2 in the one byte it takes, and padded to ten. -/
theorem minus_two_read :
    (readSleb128 (fun a => [0x7e, 0x05].getD a.toNat 0)).run ⟨0, 2⟩ = .ok (-2, ⟨1, 1⟩) ∧
      (readSleb128 (fun a => ([0xfe] ++ List.replicate 8 0xff ++ [0x7f]).getD a.toNat 0)).run ⟨0, 10⟩ =
        .ok (-2, ⟨10, 0⟩) := by
  constructor
  · obtain ⟨-, hs, -⟩ := leb128_exact fun a => [0x7e, 0x05].getD a.toNat 0
    exact (hs.ok _ _ _).mpr ⟨[0x7e], [0x05], by decide, .last (by decide), by decide, by decide, rfl⟩
  · obtain ⟨-, hs, -⟩ := leb128_exact fun a => ([0xfe] ++ List.replicate 8 0xff ++ [0x7f]).getD a.toNat 0
    refine (hs.ok _ _ _).mpr ⟨[0xfe] ++ List.replicate 8 0xff ++ [0x7f], [], by decide, ?_, by decide,
      by decide, rfl⟩
    repeat refine .more (by decide) ?_
    exact .last (by decide)

end Exact

end UnwindCheck
