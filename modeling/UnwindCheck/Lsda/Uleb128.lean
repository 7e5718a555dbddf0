import UnwindCheck.EhFrame.Leb128
import UnwindCheck.Lsda.Reader

/-! The unsigned LEB128 readers of `.eh_frame` and of `.gcc_except_table` on the same bytes. -/
namespace UnwindCheck
open Lib

section Cursor
variable {image : ELFImage} {vaddr : Word}

/-- What can be read from `vaddr` on is `bytes`, and nothing behind them. -/
def ELFImage.Sees (image : ELFImage) (vaddr : Word) (bytes : List Byte) : Prop :=
  ∀ i ≤ bytes.length, image.bytesAt (vaddr + BitVec.ofNat 64 i) 1 = (bytes.drop i).take 1

theorem ELFImage.Sees.bytesAt {bytes : List Byte} (h : image.Sees vaddr bytes) :
    image.bytesAt vaddr 1 = bytes.take 1 := by
  have hfirst := h 0 (Nat.zero_le _)
  simpa using hfirst

theorem ELFImage.Sees.tail {b : Byte} {bs : List Byte} (h : image.Sees vaddr (b :: bs)) :
    image.Sees (vaddr + 1) bs := by
  intro i hi
  have hnext := h (i + 1) (by simpa using hi)
  rw [Nat.add_comm, BitVec.ofNat_add, ← BitVec.add_assoc, Nat.add_comm, List.drop_succ_cons] at hnext
  exact hnext

theorem iterate_succ_word (vaddr : Word) (n : ℕ) :
    (fun a : Word => a + 1)^[n] vaddr = vaddr + BitVec.ofNat 64 n := by
  induction n generalizing vaddr with
  | zero => simp
  | succ n ih =>
    rw [Function.iterate_succ_apply, ih, Nat.add_comm, BitVec.ofNat_add, BitVec.add_assoc]
    rfl

/-- This loop shifts bits beyond the 64th out. -/
theorem LSDACursor.readUleb128From_loop (image : ELFImage) :
    Leb128.Loop 64 (fun _ _ => true) (fun v _ _ => v) image.Sees (fun a => a + 1)
      fun fuel shift result a => (LSDACursor.readUleb128From image fuel shift result).run a where
  tooFar fuel shift result a h := by
    cases fuel with
    | zero => rfl
    | succ fuel =>
      rw [LSDACursor.readUleb128From, if_pos h]
      rfl
  truncated fuel shift result a h := by
    have hread : image.bytesAt a 1 = [] := h.bytesAt
    cases fuel with
    | zero => rfl
    | succ fuel =>
      rw [LSDACursor.readUleb128From]
      split_ifs
      · rfl
      · unfold LSDACursor.readU8
        simp only [bind_assoc, StateT.run_bind, StateT.run_get, pure_bind, hread]
        rfl
  byte fuel shift result a b bs h hs := by
    have hread : image.bytesAt a 1 = [b] := h.bytesAt
    rw [LSDACursor.readUleb128From, if_neg (by omega)]
    unfold LSDACursor.readU8
    simp only [bind_assoc, StateT.run_bind, StateT.run_get, pure_bind, hread]
    rw [if_neg (by simp)]
    show Except.toOption (StateT.run (if _ then _ else _) _) = _
    split_ifs <;> rfl
  tail a b bs h := h.tail

theorem LSDACursor.readUleb128_ok {bytes : List Byte} (h : image.Sees vaddr bytes) (v vaddr' : Word) :
    (LSDACursor.readUleb128 image).run vaddr = .ok (v, vaddr') ↔ ∃ group rest,
      (bytes = group ++ rest ∧ Leb128.Group group) ∧ group.length ≤ 10 ∧
        v = BitVec.ofNat 64 (Leb128.unsignedValue group) ∧
        vaddr' = vaddr + BitVec.ofNat 64 group.length := by
  have hrun := (LSDACursor.readUleb128From_loop image).run (show 64 ≤ 0 + 7 * 11 by decide) 0 h
  simp only [iterate_succ_word] at hrun
  have hzero : ∀ n, (0 : Word).toNat + n * 2 ^ 0 = n := fun n => by simp
  unfold LSDACursor.readUleb128
  rw [← toOption_eq_some, hrun, Option.map_eq_some_iff]
  constructor
  · rintro ⟨r, hr, hout⟩
    obtain ⟨group, rest, hg, hacc, rfl⟩ := (Leb128.scan_eq_some_iff (by decide)).mp hr
    obtain ⟨rfl, rfl⟩ := Prod.mk.inj hout
    have hlen := hg.2.accepted_true.mp hacc
    exact ⟨group, rest, hg, by omega, by rw [hzero], rfl⟩
  · rintro ⟨group, rest, hg, hlen, rfl, rfl⟩
    have hpos := hg.2.length_pos
    have hacc := hg.2.accepted_true.mpr (show 0 + 7 * (group.length - 1) < 64 by omega)
    exact ⟨_, (Leb128.scan_eq_some_iff (by decide)).mpr ⟨group, rest, hg, hacc, rfl⟩, by rw [hzero]⟩

end Cursor

/-- Nine bytes that announce another one and a last one with bits beyond the 64th. -/
def OverflowsAtTenth (bytes : List Byte) : Prop :=
  ∃ init last rest, bytes = init ++ last :: rest ∧ init.length = 9 ∧ (∀ b ∈ init, 128 ≤ b.toNat) ∧
    2 ≤ last.toNat ∧ last.toNat < 128

/-- Only the tenth byte can make a number too large for the word. -/
theorem overflowsAtTenth_iff {bytes : List Byte} : OverflowsAtTenth bytes ↔
    ∃ group rest, (bytes = group ++ rest ∧ Leb128.Group group) ∧ group.length ≤ 10 ∧
      2 ^ 64 ≤ Leb128.unsignedValue group := by
  have hlast : ∀ last : Byte, last.toNat < 128 → Leb128.unsignedValue [last] = last.toNat := by
    intro last hlt
    simp [Leb128.unsignedValue, Leb128.payload, Nat.mod_eq_of_lt hlt]
  constructor
  · rintro ⟨init, last, rest, rfl, hlen, hinit, htwo, hlt⟩
    refine ⟨init ++ [last], rest, ⟨by simp, Leb128.group_iff.mpr ⟨init, last, rfl, hinit, hlt⟩⟩, ?_, ?_⟩
    · rw [List.length_append, hlen, List.length_singleton]
    · rw [Leb128.unsignedValue_append, hlen, hlast last hlt]
      omega
  · rintro ⟨group, rest, ⟨rfl, hg⟩, hlen, hge⟩
    obtain ⟨init, last, rfl, hinit, hlt⟩ := Leb128.group_iff.mp hg
    have hbits := Leb128.unsignedValue_lt (init ++ [last])
    have hten : 64 < 7 * (init ++ [last]).length := by
      by_contra hle
      have hpow : 2 ^ (7 * (init ++ [last]).length) ≤ 2 ^ 64 :=
        Nat.pow_le_pow_right (by decide) (by omega)
      omega
    have hnine : init.length = 9 := by
      rw [List.length_append, List.length_singleton] at hten hlen
      omega
    refine ⟨init, last, rest, by simp, hnine, hinit, ?_, hlt⟩
    have hlow := Leb128.unsignedValue_lt init
    rw [Leb128.unsignedValue_append, hnine, hlast last hlt] at hge
    rw [hnine] at hlow
    omega

/-- The readers agree: they read the same number from the same bytes or fail both, and neither
truncates a number that is too large. -/
structure UlebReadersAgree (mem : Word → Byte) (s : Slice) (image : ELFImage) (vaddr : Word) : Prop where
  same : (∃ v k, k ≤ s.size ∧ (readUleb128 mem).run s = .ok (v, s.advance k) ∧
      (LSDACursor.readUleb128 image).run vaddr = .ok (v, vaddr + BitVec.ofNat 64 k)) ∨
    (∃ e, (readUleb128 mem).run s = .error e) ∧ ∃ e, (LSDACursor.readUleb128 image).run vaddr = .error e
  rejected : ∀ group rest, s.bytes mem = group ++ rest → Leb128.Group group →
    2 ^ 64 ≤ Leb128.unsignedValue group → (∃ e, (readUleb128 mem).run s = .error e) ∧
      ∃ e, (LSDACursor.readUleb128 image).run vaddr = .error e

theorem exists_error_iff {ε α : Type} {x : Except ε α} : (∃ e, x = .error e) ↔ ∀ a, x ≠ .ok a := by
  cases x <;> simp

/-- On the same bytes, both agree if and only if no bits are lost at the tenth byte. -/
theorem ulebReadersAgree_iff {mem : Word → Byte} {s : Slice} {image : ELFImage} {vaddr : Word}
    (h : image.Sees vaddr (s.bytes mem)) :
    UlebReadersAgree mem s image vaddr ↔ ¬ OverflowsAtTenth (s.bytes mem) := by
  have hdecoder := (readUleb128_reads_leb mem).ok s
  have hcursor := LSDACursor.readUleb128_ok h
  rw [overflowsAtTenth_iff]
  constructor
  · rintro ⟨-, hrejected⟩ ⟨group, rest, ⟨heq, hg⟩, hlen, hge⟩
    obtain ⟨-, e, he⟩ := hrejected group rest heq hg hge
    rw [(hcursor _ _).mpr ⟨group, rest, ⟨heq, hg⟩, hlen, rfl, rfl⟩] at he
    cases he
  · intro hfits
    -- whatever the cursor reads is too small to be truncated, so the decoder reads it as well
    have hboth : ∀ v a, (LSDACursor.readUleb128 image).run vaddr = .ok (v, a) →
        ∃ k ≤ s.size, (readUleb128 mem).run s = .ok (v, s.advance k) ∧ a = vaddr + BitVec.ofNat 64 k := by
      intro v a hok
      obtain ⟨group, rest, ⟨heq, hg⟩, hlen, rfl, rfl⟩ := (hcursor v a).mp hok
      have hlt : Leb128.unsignedValue group < 2 ^ 64 := by
        by_contra hge
        exact hfits ⟨group, rest, ⟨heq, hg⟩, hlen, Nat.le_of_not_lt hge⟩
      have hsize : group.length ≤ s.size := by
        have hbytes := congrArg List.length heq
        rw [List.length_append, Slice.bytes, readMem, List.length_map, List.length_range] at hbytes
        omega
      refine ⟨group.length, hsize, (hdecoder _ _).mpr ⟨group, rest, heq, hg, hlen, ?_, rfl⟩, rfl⟩
      rw [BitVec.toNat_ofNat, Nat.mod_eq_of_lt hlt]
    have hfails : (∃ e, (LSDACursor.readUleb128 image).run vaddr = .error e) →
        ∃ e, (readUleb128 mem).run s = .error e := by
      rw [exists_error_iff, exists_error_iff]
      rintro hnone ⟨v, s'⟩ hok
      obtain ⟨group, rest, heq, hg, hlen, hv, -⟩ := (hdecoder v s').mp hok
      exact hnone (_, _) ((hcursor _ _).mpr ⟨group, rest, ⟨heq, hg⟩, hlen, rfl, rfl⟩)
    constructor
    · cases hrun : (LSDACursor.readUleb128 image).run vaddr with
      | error e => exact Or.inr ⟨hfails ⟨e, hrun⟩, e, rfl⟩
      | ok p =>
        obtain ⟨k, hk, hok, ha⟩ := hboth p.1 p.2 hrun
        exact Or.inl ⟨p.1, k, hk, hok, by rw [← ha]⟩
    · intro group rest heq hg hge
      have hcursorFails : ∃ e, (LSDACursor.readUleb128 image).run vaddr = .error e := by
        rw [exists_error_iff]
        rintro ⟨v, a⟩ hok
        obtain ⟨group', rest', ⟨heq', hg'⟩, hlen, -⟩ := (hcursor v a).mp hok
        obtain rfl := hg.unique hg' (heq.symm.trans heq')
        exact hfits ⟨group, rest, ⟨heq, hg⟩, hlen, hge⟩
      exact ⟨hfails hcursorFails, hcursorFails⟩

namespace Sample

/-- A slice and a segment with the same bytes. -/
def bytesMem (bytes : List Byte) : Word → Byte := fun a => bytes.getD (a - 0x2000).toNat 0

def bytesSlice (bytes : List Byte) : Slice := ⟨0x2000, bytes.length⟩

def bytesImage (bytes : List Byte) : ELFImage := .ofCode 0x2000 bytes

/-- 2 ^ 64, in ten bytes. -/
def twoPow64 : List Byte := List.replicate 9 0x80 ++ [0x02]

/-- 2 ^ 63, in ten bytes. -/
def twoPow63 : List Byte := List.replicate 9 0x80 ++ [0x01]

end Sample

/-- The number is 2 ^ 64: one reader refuses it, the other makes it 0. -/
theorem twoPow64_truncated :
    (Sample.bytesImage Sample.twoPow64).Sees 0x2000
        ((Sample.bytesSlice Sample.twoPow64).bytes (Sample.bytesMem Sample.twoPow64)) ∧
      (readUleb128 (Sample.bytesMem Sample.twoPow64)).run (Sample.bytesSlice Sample.twoPow64) =
        .error "eh_frame read error: uleb128 overflow" ∧
      (LSDACursor.readUleb128 (Sample.bytesImage Sample.twoPow64)).run 0x2000 = .ok (0, 0x200a) ∧
      ¬ UlebReadersAgree (Sample.bytesMem Sample.twoPow64) (Sample.bytesSlice Sample.twoPow64)
        (Sample.bytesImage Sample.twoPow64) 0x2000 := by
  have hrefused : (readUleb128 (Sample.bytesMem Sample.twoPow64)).run
      (Sample.bytesSlice Sample.twoPow64) = .error "eh_frame read error: uleb128 overflow" := by rfl
  have hread : (LSDACursor.readUleb128 (Sample.bytesImage Sample.twoPow64)).run 0x2000 =
      .ok (0, 0x200a) := by rfl
  refine ⟨by unfold ELFImage.Sees; decide +kernel, hrefused, hread, fun h => ?_⟩
  rcases h.same with ⟨v, k, -, hok, -⟩ | ⟨-, e, herror⟩
  · rw [hrefused] at hok
    cases hok
  · rw [hread] at herror
    cases herror

theorem twoPow63_agree :
    UlebReadersAgree (Sample.bytesMem Sample.twoPow63) (Sample.bytesSlice Sample.twoPow63)
      (Sample.bytesImage Sample.twoPow63) 0x2000 := by
  have hsees : (Sample.bytesImage Sample.twoPow63).Sees 0x2000
      ((Sample.bytesSlice Sample.twoPow63).bytes (Sample.bytesMem Sample.twoPow63)) := by
    unfold ELFImage.Sees
    decide +kernel
  refine (ulebReadersAgree_iff hsees).mpr ?_
  rintro ⟨init, last, rest, heq, hlen, -, htwo, -⟩
  have hlast : (init ++ last :: rest)[9]? = some last := by
    rw [List.getElem?_append_right (by omega), hlen]
    rfl
  rw [← heq] at hlast
  have htenth : ((Sample.bytesSlice Sample.twoPow63).bytes (Sample.bytesMem Sample.twoPow63))[9]? =
      some 0x01 := by decide +kernel
  rw [htenth] at hlast
  obtain rfl := Option.some.inj hlast
  exact absurd htwo (by decide)

end UnwindCheck
