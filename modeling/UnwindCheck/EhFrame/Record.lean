import UnwindCheck.EhFrame.Grammar
import UnwindCheck.EhFrame.Program
import UnwindCheck.EhFrame.Enumerate

/-! The records of `.eh_frame` as a format: the CIEs and FDEs of the dialect the reader takes, which is
not all of DWARF (letters behind `R` are not looked at, no ULEB128 or data-relative pointers). What
is read of an FDE, before anything is run, is exactly a record of that format. -/
namespace UnwindCheck
open Lib

def byteText : Format Word Byte Byte := fun _ b text => text = [b]

def word32Text : Format Word Byte (BitVec 32) := fun _ w text =>
  text.length = 4 ∧ BitVec.ofNat 32 (littleEndian text) = w

/-- A text of `n` bytes that starts with one of the format. -/
def within {α : Type} (n : ℕ) (G : Format Word Byte α) : Format Word Byte α := fun p a text =>
  text.length = n ∧ ∃ used, used <+: text ∧ G p a used

/-- A terminated string of less than `maxSize` characters. -/
def asciizText (maxSize : ℕ) : Format Word Byte (List Byte) := fun _ str text =>
  text = str ++ [0] ∧ 0 ∉ str ∧ str.length < maxSize

/-- The augmentation data for the letters after `z`. `R` is the last letter that counts. -/
def lettersText : List Byte → CIEAug → Format Word Byte CIEAug
  | [], aug => fun _ aug' text => aug' = aug ∧ text = []
  | ch :: rest, aug =>
    if ch = 0x52 then byteText.map fun enc => { aug with fdePtrEnc := enc }
    else if ch = 0x4c then
      byteText.seq addressAfter fun enc => lettersText rest { aug with lsdaPtrEnc := enc }
    else if ch = 0x53 then lettersText rest { aug with signalFrame := true }
    else if ch = 0x42 then lettersText rest aug
    else if ch = 0x50 then
      byteText.seq addressAfter fun enc =>
        (pointerText (enc &&& 0x7f)).seq addressAfter fun _ => lettersText rest aug
    else fun _ _ _ => False

/-- What an augmentation string and its data say. -/
def augText : List Byte → Format Word Byte (Bool × CIEAug)
  | [] => .done (false, .initial)
  | ch :: letters => .when (ch = 0x7a) <|
    ulebText.seq addressAfter fun augLen =>
      (within augLen.toNat (lettersText letters .initial)).map fun aug => (true, aug)

/-- A CIE behind its length and before its instructions. -/
def cieText : Format Word Byte CIE :=
  word32Text.seq addressAfter fun cieId => .when (cieId = 0) <|
  byteText.seq addressAfter fun version => .when (version = 1) <|
  (asciizText 16).seq addressAfter fun augStr =>
  ulebText.seq addressAfter fun codeAlign =>
  slebText.seq addressAfter fun dataAlign => .when (codeAlign ≠ 0) <|
  byteText.seq addressAfter fun returnReg =>
  (augText augStr).map fun (augmented, aug) => ⟨codeAlign, dataAlign, returnReg.toNat, augmented, aug⟩

/-- The augmentation data of an FDE: the pointer to its LSDA, if the CIE announces one. -/
def fdeAugText (cie : CIE) : Format Word Byte (Option Word) :=
  if cie.augmented then
    ulebText.seq addressAfter fun augLen =>
      if cie.aug.lsdaPtrEnc ≠ kDwEhPeOmitted then
        (within augLen.toNat (pointerText cie.aug.lsdaPtrEnc)).map some
      else within augLen.toNat (.done none)
  else .done none

section Primitives
variable (mem : Word → Byte)

/-- The bytes of a span that is the front of another one. -/
theorem bytes_of_front {s : Slice} {text : List Byte} {n : ℕ} (h : text <+: s.bytes mem)
    (hn : text.length = n) : (⟨s.data, n⟩ : Slice).bytes mem = text := by
  subst hn
  have hle : text.length ≤ s.size := by
    rw [← s.length_bytes mem]
    exact h.length_le
  have htake := take_readMem mem s.data hle
  exact htake.symm.trans (List.prefix_iff_eq_take.mp h).symm

theorem readWithin_exact {α γ : Type} {read : SliceM α} {G : Format Word Byte α}
    (h : Exact (slices mem) read G) (n : Word) (f : α → γ) :
    Exact (slices mem) (do
      let data ← readSubslice n
      let (a, _) ← read.run data
      return f a) ((within n.toNat G).map f) := by
  intro s c s'
  constructor
  · intro hrun
    obtain ⟨d, s₁, hsub, hrun⟩ := run_bind_ok hrun
    obtain ⟨⟨a, r⟩, s₂, hinner, hrun⟩ := run_bind_ok hrun
    cases hrun
    obtain ⟨⟨a', r'⟩, hread, hlift⟩ := except_bind_ok hinner
    cases hlift
    obtain ⟨text, htext, ⟨rfl, hlen⟩, rfl⟩ := (readSubslice_exact mem n s d _).mp hsub
    obtain ⟨used, hused, hG, -⟩ := (h _ _ _).mp hread
    refine ⟨text, htext, ⟨_, ⟨hlen, used, ?_, hG⟩, rfl⟩, rfl⟩
    rw [← bytes_of_front mem htext hlen]
    exact hused
  · rintro ⟨text, htext, ⟨a, ⟨hlen, used, hused, hG⟩, rfl⟩, rfl⟩
    have hsub := (readSubslice_exact mem n s ⟨s.data, n.toNat⟩ _).mpr ⟨text, htext, ⟨rfl, hlen⟩, rfl⟩
    have hinner : used <+: (slices mem).rest ⟨s.data, n.toNat⟩ := by
      change used <+: Slice.bytes mem _
      rw [bytes_of_front mem htext hlen]
      exact hused
    have hread := (h ⟨s.data, n.toNat⟩ a _).mpr ⟨used, hinner, hG, rfl⟩
    rw [bind_run_eq hsub]
    have hlift : ((read.run ⟨s.data, n.toNat⟩ : Except String (α × Slice)) : SliceM (α × Slice)).run
        ((slices mem).advance s text.length) =
        .ok ((a, (slices mem).advance ⟨s.data, n.toNat⟩ used.length),
          (slices mem).advance s text.length) := by
      rw [hread]
      rfl
    rw [bind_run_eq hlift]
    rfl

theorem takeWhile_terminated {str : List Byte} (h : 0 ∉ str) (behind : List Byte) :
    (str ++ 0 :: behind).takeWhile (· ≠ 0) = str := by
  have hall : ∀ b ∈ str, decide (b ≠ 0) = true := by
    intro b hb
    rw [decide_eq_true_iff]
    rintro rfl
    exact h hb
  rw [List.takeWhile_append_of_pos hall]
  simp

theorem readASCIIZ_exact (maxSize : ℕ) :
    Exact (slices mem) (readASCIIZ mem maxSize) (asciizText maxSize) := by
  intro s str s'
  have hwindow : readMem mem s.data (min maxSize s.size) = (s.bytes mem).take maxSize := by
    rcases Nat.le_total maxSize s.size with hle | hle
    · rw [Nat.min_eq_left hle]
      exact (take_readMem mem s.data hle).symm
    · have hlen := s.length_bytes mem
      rw [Nat.min_eq_right hle, List.take_of_length_le (by omega)]
      rfl
  have hget : (get : SliceM Slice).run s = .ok (s, s) := rfl
  constructor
  · intro h
    unfold readASCIIZ at h
    rw [bind_run_eq hget, hwindow] at h
    obtain ⟨hzero, h⟩ := run_guard_ok h
    obtain ⟨front, behind, hsplit, hfront⟩ := List.eq_append_cons_of_mem (not_not.mp hzero)
    have hlen := congrArg List.length hsplit
    have hle := List.length_take_le maxSize (s.bytes mem)
    rw [List.length_append, List.length_cons] at hlen
    rw [hsplit, takeWhile_terminated hfront] at h
    cases h
    refine ⟨str ++ [0], ?_, ⟨rfl, hfront, by omega⟩, ?_⟩
    · have hprefix : str ++ [0] <+: (s.bytes mem).take maxSize := ⟨behind, by simp [hsplit]⟩
      exact hprefix.trans (List.take_prefix _ _)
    · rw [List.length_append]
      rfl
  · rintro ⟨text, ⟨behind, hs⟩, ⟨rfl, hfront, hlt⟩, rfl⟩
    have hs : s.bytes mem = str ++ 0 :: behind := by
      have hs : str ++ [0] ++ behind = s.bytes mem := hs
      rw [← hs, List.append_assoc, List.singleton_append]
    obtain ⟨k, hk⟩ : ∃ k, maxSize = str.length + (k + 1) := ⟨maxSize - str.length - 1, by omega⟩
    have htake : (s.bytes mem).take maxSize = str ++ 0 :: behind.take k := by
      rw [hs, hk, List.take_length_add_append, List.take_succ_cons]
    have hmem : ¬ 0 ∉ str ++ 0 :: behind.take k := by simp
    unfold readASCIIZ
    rw [bind_run_eq hget, hwindow, htake, if_neg hmem, takeWhile_terminated hfront, List.length_append]
    rfl

theorem readAugChars_exact (chars : List Byte) (aug : CIEAug) :
    Exact (slices mem) (readAugChars mem chars aug) (lettersText chars aug) := by
  induction chars generalizing aug with
  | nil => exact Exact.pure aug
  | cons ch rest ih =>
    unfold readAugChars lettersText
    split_ifs
    · exact (readU8_exact mem).bind_pure fun enc => { aug with fdePtrEnc := enc }
    · exact (readU8_exact mem).bind fun enc => ih { aug with lsdaPtrEnc := enc }
    · exact ih _
    · exact ih _
    · exact (readU8_exact mem).bind fun enc =>
        (readEncodedPtr_exact mem (enc &&& 0x7f)).bind fun _ => ih aug
    all_goals exact Exact.throw _

/-- `ReadCIE` behind the length field. -/
def readCIEBody : SliceM CIE := do
  let cieId ← readU32 mem
  if cieId ≠ 0 then
    throw ("Wrong cie_id field: " ++ String.ofList (Nat.toDigits 16 cieId.toNat))
  let version ← readU8 mem
  if version ≠ 1 then throw ("unsupported CIE version: " ++ toString version.toNat)
  let augStr ← readASCIIZ mem 16
  let codeAlign ← readUleb128 mem
  let dataAlign ← readSleb128 mem
  if codeAlign = 0 then throw "zero code alignment factor in CIE"
  let returnReg ← readU8 mem
  match augStr with
  | [] => return ⟨codeAlign, dataAlign, returnReg.toNat, false, .initial⟩
  | ch :: chars =>
    if ch ≠ 0x7a then
      throw ("Aug string without leading 'z'. Got: " ++ String.singleton (Char.ofNat ch.toNat))
    let augLen ← readUleb128 mem
    let augData ← readSubslice augLen
    let (aug, _) ← (readAugChars mem chars .initial).run augData
    return ⟨codeAlign, dataAlign, returnReg.toNat, true, aug⟩

theorem readCIE_eq : readCIE mem = (do
    let cieLen ← readU32 mem
    if cieLen = 0xffffffff then throw "64-bit DWARF length in CIE is not supported"
    truncateSlice cieLen.toNat
    readCIEBody mem) := rfl

theorem readCIEBody_exact : Exact (slices mem) (readCIEBody mem) cieText := by
  refine (readU32_exact mem).bind fun cieId => Exact.guard not_not ?_
  refine (readU8_exact mem).bind fun version => Exact.guard not_not ?_
  refine (readASCIIZ_exact mem 16).bind fun augStr => ?_
  refine (readUleb128_exact mem).bind fun codeAlign => ?_
  refine (readSleb128_exact mem).bind fun dataAlign => Exact.guard Iff.rfl ?_
  refine (readU8_exact mem).bind fun returnReg => ?_
  cases augStr with
  | nil =>
    simp only [augText, Format.map_done]
    exact Exact.pure _
  | cons ch chars =>
    simp only [augText, Format.map_when, Format.map_seq, Format.map_map]
    refine Exact.guard not_not ((readUleb128_exact mem).bind fun augLen => ?_)
    exact readWithin_exact mem (readAugChars_exact mem chars .initial) augLen _

theorem readFDEAug_exact (cie : CIE) : Exact (slices mem) (readFDEAug mem cie) (fdeAugText cie) := by
  unfold readFDEAug fdeAugText
  split_ifs with haug hlsda
  · refine (readUleb128_exact mem).bind fun augLen => ?_
    exact readWithin_exact mem (readEncodedPtr_exact mem cie.aug.lsdaPtrEnc) augLen some
  · refine (readUleb128_exact mem).bind fun augLen => ?_
    refine ((readSubslice_exact mem augLen).bind_pure fun _ => none).congr fun p v text => ?_
    constructor
    · rintro ⟨d, ⟨-, hlen⟩, rfl⟩
      exact ⟨hlen, [], List.nil_prefix, rfl, rfl⟩
    · rintro ⟨hlen, used, -, rfl, -⟩
      exact ⟨_, ⟨rfl, hlen⟩, rfl⟩
  · exact Exact.pure none

end Primitives

section Records
variable {mem : Word → Byte} {bounds : Word × Word}

/-- A CIE with its instructions, behind the length field. -/
def cieRecordText : Format Word Byte (CIE × List CfaOp) :=
  cieText.seq addressAfter fun cie => (opsText cie.aug.fdePtrEnc).map fun ops => (cie, ops)

/-- The range of an FDE and its augmentation data. -/
def fdeFieldsText (cie : CIE) : Format Word Byte (Word × Word × Option Word) :=
  (pointerText cie.aug.fdePtrEnc).seq addressAfter fun pcStart =>
  (pointerText (cie.aug.fdePtrEnc &&& 0x0f)).seq addressAfter fun pcRange =>
  (fdeAugText cie).map fun lsdaPtr => (pcStart, pcRange, lsdaPtr)

/-- An FDE with its instructions, behind the offset of its CIE. -/
def fdeRecordText (cie : CIE) (cieOps : List CfaOp) : Format Word Byte FDERecord :=
  (fdeFieldsText cie).seq addressAfter fun (pcStart, pcRange, lsdaPtr) =>
  (opsText cie.aug.fdePtrEnc).map fun fdeOps => ⟨cie, pcStart, pcRange, cieOps, lsdaPtr, fdeOps⟩

/-- A CIE at an address, with its length field. -/
structure CIEAt (mem : Word → Byte) (bounds : Word × Word) (addr : Word) (cie : CIE)
    (ops : List CfaOp) : Prop where
  start_le : bounds.1 ≤ addr
  room : addr.toNat + 4 + (wordAt mem addr).toNat ≤ bounds.2.toNat
  not_long : wordAt mem addr ≠ 0xffffffff
  text : cieRecordText (addr + 4) (cie, ops) (readMem mem (addr + 4) (wordAt mem addr).toNat)

/-- An FDE at an address, with its length field and the way back to its CIE. -/
structure FDEAt (mem : Word → Byte) (bounds : Word × Word) (addr : Word) (r : FDERecord) : Prop where
  start_le : bounds.1 ≤ addr
  room : addr.toNat + 4 + (wordAt mem addr).toNat ≤ bounds.2.toNat
  not_long : wordAt mem addr ≠ 0xffffffff
  four_le : 4 ≤ (wordAt mem addr).toNat
  cie : CIEAt mem bounds (addr + 4 - (wordAt mem (addr + 4)).setWidth 64) r.cie r.cieOps
  text : fdeRecordText r.cie r.cieOps (addr + 8) r
    (readMem mem (addr + 8) ((wordAt mem addr).toNat - 4))

theorem makeSlice_ok_iff {addr : Word} {s : Slice} : makeSlice bounds addr = .ok s ↔
    bounds.1 ≤ addr ∧ addr ≤ bounds.2 ∧ s = ⟨addr, bounds.2.toNat - addr.toNat⟩ := by
  unfold makeSlice
  split_ifs with h
  · obtain ⟨hlo, hhi⟩ := h
    have hsize : (bounds.2 - addr).toNat = bounds.2.toNat - addr.toNat := BitVec.toNat_sub_of_le hhi
    rw [hsize]
    constructor
    · intro heq
      cases heq
      exact ⟨hlo, hhi, rfl⟩
    · rintro ⟨-, -, rfl⟩
      rfl
  · constructor
    · intro heq
      cases heq
    · rintro ⟨hlo, hhi, -⟩
      exact absurd ⟨hlo, hhi⟩ h

theorem readU32_ok_iff {s s' : Slice} {w : BitVec 32} : (readU32 mem).run s = .ok (w, s') ↔
    4 ≤ s.size ∧ w = wordAt mem s.data ∧ s' = s.advance 4 := by
  rw [readU32_exact mem s w s']
  have hlen := s.length_bytes mem
  constructor
  · rintro ⟨text, htext, ⟨hfour, rfl⟩, rfl⟩
    have hle : text.length ≤ (s.bytes mem).length := htext.length_le
    have hbytes := bytes_of_front mem htext hfour
    refine ⟨by omega, ?_, ?_⟩
    · rw [← hbytes]
      rfl
    · rw [hfour]
      rfl
  · rintro ⟨hfour, rfl, rfl⟩
    refine ⟨readMem mem s.data 4, ?_, ⟨length_readMem mem s.data 4, rfl⟩, ?_⟩
    · rw [← take_readMem mem s.data hfour]
      exact List.take_prefix 4 (s.bytes mem)
    · rw [length_readMem]
      rfl

theorem truncateSlice_ok_iff {n : ℕ} {s s' : Slice} :
    (truncateSlice n).run s = .ok ((), s') ↔ n ≤ s.size ∧ s' = ⟨s.data, n⟩ := by
  have hget : (get : SliceM Slice).run s = .ok (s, s) := rfl
  unfold truncateSlice
  rw [bind_run_eq hget]
  split_ifs with h
  · constructor
    · intro heq
      cases heq
    · rintro ⟨hle, -⟩
      omega
  · constructor
    · intro heq
      cases heq
      exact ⟨by omega, rfl⟩
    · rintro ⟨-, rfl⟩
      rfl

theorem readCIE_ok_iff {s s' : Slice} {cie : CIE} : (readCIE mem).run s = .ok (cie, s') ↔
    4 + (wordAt mem s.data).toNat ≤ s.size ∧ wordAt mem s.data ≠ 0xffffffff ∧
      (readCIEBody mem).run ⟨s.data + 4, (wordAt mem s.data).toNat⟩ = .ok (cie, s') := by
  rw [readCIE_eq, run_bind_iff]
  constructor
  · rintro ⟨w, s₁, hw, h⟩
    obtain ⟨hfour, rfl, rfl⟩ := readU32_ok_iff.mp hw
    obtain ⟨hlong, h⟩ := run_guard_ok h
    obtain ⟨_, s₂, htrunc, h⟩ := run_bind_ok h
    obtain ⟨hle, rfl⟩ := truncateSlice_ok_iff.mp htrunc
    have hroom : (wordAt mem s.data).toNat ≤ s.size - 4 := hle
    exact ⟨by omega, hlong, h⟩
  · rintro ⟨hroom, hlong, h⟩
    refine ⟨_, _, readU32_ok_iff.mpr ⟨by omega, rfl, rfl⟩, ?_⟩
    have hle : (wordAt mem s.data).toNat ≤ (s.advance 4).size := by
      simp only [Slice.advance]
      omega
    rw [if_neg hlong, bind_run_eq (truncateSlice_ok_iff.mpr ⟨hle, rfl⟩)]
    exact h

theorem readFDEHeader_ok_iff {s s' : Slice} {cieAddr : Word} :
    (readFDEHeader mem).run s = .ok (cieAddr, s') ↔
      4 + (wordAt mem s.data).toNat ≤ s.size ∧ wordAt mem s.data ≠ 0xffffffff ∧
        4 ≤ (wordAt mem s.data).toNat ∧
        cieAddr = s.data + 4 - (wordAt mem (s.data + 4)).setWidth 64 ∧
        s' = ⟨s.data + 8, (wordAt mem s.data).toNat - 4⟩ := by
  have height : s.data + 4 + 4 = s.data + 8 := by
    rw [BitVec.add_assoc]
    rfl
  have hback : s.data + 8 - 4 = s.data + 4 := by
    rw [← height, BitVec.add_sub_cancel]
  unfold readFDEHeader
  rw [run_bind_iff]
  constructor
  · rintro ⟨w, s₁, hw, h⟩
    obtain ⟨hfour, rfl, rfl⟩ := readU32_ok_iff.mp hw
    obtain ⟨hlong, h⟩ := run_guard_ok h
    obtain ⟨hzero, h⟩ := run_guard_ok h
    obtain ⟨_, s₂, htrunc, h⟩ := run_bind_ok h
    obtain ⟨hle, rfl⟩ := truncateSlice_ok_iff.mp htrunc
    obtain ⟨off, s₃, hoff, h⟩ := run_bind_ok h
    obtain ⟨hid, rfl, rfl⟩ := readU32_ok_iff.mp hoff
    cases h
    have hroom : (wordAt mem s.data).toNat ≤ s.size - 4 := hle
    refine ⟨by omega, hlong, hid, ?_, ?_⟩
    · change s.data + 4 + 4 - 4 - _ = _
      rw [height, hback]
      rfl
    · change (⟨s.data + 4 + 4, _⟩ : Slice) = _
      rw [height]
  · rintro ⟨hroom, hlong, hfour, rfl, rfl⟩
    refine ⟨_, _, readU32_ok_iff.mpr ⟨by omega, rfl, rfl⟩, ?_⟩
    have hle : (wordAt mem s.data).toNat ≤ (s.advance 4).size := by
      simp only [Slice.advance]
      omega
    have hzero : wordAt mem s.data ≠ 0 := by
      intro hz
      rw [hz] at hfour
      exact absurd hfour (by decide)
    have hid := (@readU32_ok_iff mem ⟨(s.advance 4).data, (wordAt mem s.data).toNat⟩ _ _).mpr
      ⟨hfour, rfl, rfl⟩
    rw [if_neg hlong, if_neg hzero, bind_run_eq (truncateSlice_ok_iff.mpr ⟨hle, rfl⟩), bind_run_eq hid]
    change Except.ok (s.data + 4 + 4 - 4 - _, (⟨s.data + 4 + 4, _⟩ : Slice)) = _
    rw [height, hback]
    rfl

/-- A reader and the operations behind what it read. -/
theorem read_then_ops_iff {α : Type} {read : SliceM α} {G : Format Word Byte α}
    (h : Exact (slices mem) read G) (s : Slice) {a : α} {enc : Byte} {ops : List CfaOp} :
    (∃ s', read.run s = .ok (a, s') ∧ readOps mem enc s'.size s' = .ok ops) ↔
      ∃ first second, s.bytes mem = first ++ second ∧ G s.data a first ∧
        opsText enc (addressAfter s.data first.length) ops second := by
  constructor
  · rintro ⟨s', hread, hops⟩
    obtain ⟨first, ⟨second, hs⟩, hG, rfl⟩ := (h s a s').mp hread
    have hs : s.bytes mem = first ++ second := hs.symm
    have hops := (readOps_exact (le_refl _)).mp hops
    have hsecond : ((slices mem).advance s first.length).bytes mem = second := by
      change (s.advance first.length).bytes mem = second
      rw [s.bytes_advance, hs, List.drop_left]
    rw [hsecond] at hops
    exact ⟨first, second, hs, hG, hops⟩
  · rintro ⟨first, second, hs, hG, hops⟩
    refine ⟨s.advance first.length, (h s a _).mpr ⟨first, ⟨second, hs.symm⟩, hG, rfl⟩, ?_⟩
    apply (readOps_exact (le_refl _)).mpr
    rw [s.bytes_advance, hs, List.drop_left]
    exact hops

theorem cieAt_iff {addr : Word} {cie : CIE} {ops : List CfaOp} :
    (∃ s s', makeSlice bounds addr = .ok s ∧ (readCIE mem).run s = .ok (cie, s') ∧
      readOps mem cie.aug.fdePtrEnc s'.size s' = .ok ops) ↔ CIEAt mem bounds addr cie ops := by
  constructor
  · rintro ⟨s, s', hs, hcie, hops⟩
    obtain ⟨hlo, hhi, rfl⟩ := makeSlice_ok_iff.mp hs
    obtain ⟨hroom, hlong, hbody⟩ := readCIE_ok_iff.mp hcie
    obtain ⟨first, second, hbytes, hG, htext⟩ :=
      (read_then_ops_iff (readCIEBody_exact mem) _).mp ⟨s', hbody, hops⟩
    have hle := BitVec.le_def.mp hhi
    have hroom : 4 + (wordAt mem addr).toNat ≤ bounds.2.toNat - addr.toNat := hroom
    exact ⟨hlo, by omega, hlong, cie, first, second, hbytes, hG, ops, htext, rfl⟩
  · rintro ⟨hlo, hroom, hlong, cie', first, second, hbytes, hG, ops', htext, heq⟩
    obtain ⟨rfl, rfl⟩ := Prod.mk.inj heq
    obtain ⟨s', hbody, hops⟩ :=
      (read_then_ops_iff (readCIEBody_exact mem) ⟨addr + 4, (wordAt mem addr).toNat⟩).mpr
        ⟨first, second, hbytes, hG, htext⟩
    have hhi : addr ≤ bounds.2 := BitVec.le_def.mpr (by omega)
    have hsize : 4 + (wordAt mem addr).toNat ≤ bounds.2.toNat - addr.toNat := by omega
    exact ⟨_, s', makeSlice_ok_iff.mpr ⟨hlo, hhi, rfl⟩, readCIE_ok_iff.mpr ⟨hsize, hlong, hbody⟩, hops⟩

/-- The fields of an FDE in one reader. -/
def readFDEFields (mem : Word → Byte) (cie : CIE) : SliceM (Word × Word × Option Word) := do
  let pcStart ← readEncodedPtr mem cie.aug.fdePtrEnc
  let pcRange ← readEncodedPtr mem (cie.aug.fdePtrEnc &&& 0x0f)
  return (pcStart, pcRange, ← readFDEAug mem cie)

theorem readFDEFields_exact (cie : CIE) :
    Exact (slices mem) (readFDEFields mem cie) (fdeFieldsText cie) := by
  refine (readEncodedPtr_exact mem cie.aug.fdePtrEnc).bind fun pcStart => ?_
  refine (readEncodedPtr_exact mem (cie.aug.fdePtrEnc &&& 0x0f)).bind fun pcRange => ?_
  exact (readFDEAug_exact mem cie).bind_pure fun lsdaPtr => (pcStart, pcRange, lsdaPtr)

/-- A record is read exactly where there is one of the format. -/
theorem readRecord_ok_iff {addr : Word} {r : FDERecord} :
    readRecord mem bounds addr = .ok r ↔ FDEAt mem bounds addr r := by
  constructor
  · intro h
    obtain ⟨s, hs, h⟩ := except_bind_ok h
    obtain ⟨⟨cieAddr, s₁⟩, hheader, h⟩ := except_bind_ok h
    obtain ⟨c, hc, h⟩ := except_bind_ok h
    obtain ⟨⟨cie, c₁⟩, hcie, h⟩ := except_bind_ok h
    obtain ⟨⟨pcStart, s₂⟩, hstart, h⟩ := except_bind_ok h
    obtain ⟨⟨pcRange, s₃⟩, hrange, h⟩ := except_bind_ok h
    obtain ⟨cieOps, hcieOps, h⟩ := except_bind_ok h
    obtain ⟨⟨lsdaPtr, s₄⟩, haug, h⟩ := except_bind_ok h
    obtain ⟨fdeOps, hfdeOps, h⟩ := except_bind_ok h
    cases h
    obtain ⟨hlo, hhi, rfl⟩ := makeSlice_ok_iff.mp hs
    obtain ⟨hroom, hlong, hfour, rfl, rfl⟩ := readFDEHeader_ok_iff.mp hheader
    have hfields : (readFDEFields mem cie).run ⟨addr + 8, (wordAt mem addr).toNat - 4⟩ =
        .ok ((pcStart, pcRange, lsdaPtr), s₄) := by
      unfold readFDEFields
      rw [bind_run_eq hstart, bind_run_eq hrange, bind_run_eq haug]
      rfl
    obtain ⟨first, second, hbytes, hG, htext⟩ :=
      (read_then_ops_iff (readFDEFields_exact cie) _).mp ⟨s₄, hfields, hfdeOps⟩
    have hle := BitVec.le_def.mp hhi
    have hroom : 4 + (wordAt mem addr).toNat ≤ bounds.2.toNat - addr.toNat := hroom
    have hcieAt := cieAt_iff.mp ⟨c, c₁, hc, hcie, hcieOps⟩
    exact ⟨hlo, by omega, hlong, hfour, hcieAt, _, first, second, hbytes, hG, fdeOps, htext, rfl⟩
  · rintro ⟨hlo, hroom, hlong, hfour, hcieAt, ⟨pcStart, pcRange, lsdaPtr⟩, first, second, hbytes, hG,
      fdeOps, htext, heq⟩
    obtain ⟨cie, pcStart', pcRange', cieOps, lsdaPtr', fdeOps'⟩ := r
    obtain ⟨-, rfl, rfl, -, rfl, rfl⟩ := FDERecord.mk.inj heq
    obtain ⟨c, c₁, hc, hcie, hcieOps⟩ := cieAt_iff.mpr hcieAt
    obtain ⟨s₄, hfields, hfdeOps⟩ :=
      (read_then_ops_iff (readFDEFields_exact cie) ⟨addr + 8, (wordAt mem addr).toNat - 4⟩).mpr
        ⟨first, second, hbytes, hG, htext⟩
    obtain ⟨pcStart', s₂, hstart, hfields⟩ := run_bind_ok hfields
    obtain ⟨pcRange', s₃, hrange, hfields⟩ := run_bind_ok hfields
    obtain ⟨lsdaPtr', s₅, haug, hfields⟩ := run_bind_ok hfields
    cases hfields
    have hhi : addr ≤ bounds.2 := BitVec.le_def.mpr (by omega)
    have hsize : 4 + (wordAt mem addr).toNat ≤ bounds.2.toNat - addr.toNat := by omega
    have hs := makeSlice_ok_iff.mpr ⟨hlo, hhi, rfl⟩
    have hheader := (@readFDEHeader_ok_iff mem ⟨addr, bounds.2.toNat - addr.toNat⟩ _ _).mpr
      ⟨hsize, hlong, hfour, rfl, rfl⟩
    unfold readRecord
    rw [hs]
    simp only [hheader, hc, hcie, hstart, hrange, hcieOps, haug, hfdeOps, bind, Except.bind]
    rfl

end Records

end UnwindCheck
