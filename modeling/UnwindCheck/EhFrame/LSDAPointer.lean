import UnwindCheck.EhFrame.Augmentation

/-! Which LSDA is found for an FDE. -/
namespace UnwindCheck

section LSDA

variable (mem : Word → Byte)

/-- How many bytes a pointer takes in one of the encodings that can be read. -/
def encodedSize (encoding : Byte) : ℕ :=
  if encoding &&& 0x0f = 0x0B ∨ encoding &&& 0x0f = 0x03 then 4 else 8

/-- The bytes of such a pointer. -/
def encodedBytes (encoding : Byte) (addr : Word) : List Byte :=
  readMem mem addr (encodedSize encoding)

/-- The number the bytes of a pointer stand for, before any base is added. -/
def encodedNumber (encoding : Byte) (text : List Byte) : Word :=
  if encoding &&& 0x0f = 0x0B then (BitVec.ofNat 32 (littleEndian text)).signExtend 64
  else BitVec.ofNat 64 (littleEndian text)

def encodedValue (encoding : Byte) (addr : Word) : Word :=
  encodedNumber encoding (encodedBytes mem encoding addr)

theorem encodedValue_eq_zero_iff (encoding : Byte) (addr : Word) :
    encodedValue mem encoding addr = 0 ↔ ∀ b ∈ encodedBytes mem encoding addr, b = 0 := by
  have hlt := littleEndian_lt (encodedBytes mem encoding addr)
  have hlen : (encodedBytes mem encoding addr).length = encodedSize encoding := by
    simp [encodedBytes, readMem]
  rw [hlen] at hlt
  rw [← littleEndian_eq_zero_iff]
  unfold encodedValue encodedNumber
  unfold encodedSize at hlt
  generalize littleEndian (encodedBytes mem encoding addr) = n at hlt
  by_cases hs : encoding &&& 0x0f = 0x0B
  · rw [if_pos (Or.inl hs)] at hlt
    rw [if_pos hs, ← BitVec.toInt_inj, BitVec.toInt_signExtend_of_le (by decide),
      show (0 : Word).toInt = (0 : BitVec 32).toInt from rfl, BitVec.toInt_inj, ← BitVec.toNat_inj,
      BitVec.toNat_ofNat, Nat.mod_eq_of_lt (by omega)]
    rfl
  · rw [if_neg hs, ← BitVec.toNat_inj, BitVec.toNat_ofNat]
    have hle : n < 2 ^ 64 := by
      split_ifs at hlt <;> omega
    rw [Nat.mod_eq_of_lt hle]
    rfl

theorem readObject_eq {size n : ℕ} {s s' : Slice} (h : (readObject mem size).run s = .ok (n, s')) :
    n = littleEndian (readMem mem s.data size) := by
  unfold readObject at h
  obtain ⟨s₁, s₂, hget, h⟩ := run_bind_ok h
  cases hget
  obtain ⟨-, h⟩ := run_guard_ok h
  cases h
  rfl

/-- The second half of `ReadEncodedPtr`. -/
def readEncodedFrom (encoding : Byte) (bad : String) (base : Word) : SliceM Word := do
  if encoding &&& 0x0f = 0x0B then
    return base + (BitVec.ofNat 32 (← readObject mem 4)).signExtend 64
  else if encoding &&& 0x0f = 0x03 then return base + BitVec.ofNat 64 (← readObject mem 4)
  else if encoding &&& 0x0f = 0x04 ∨ encoding &&& 0x0f = 0x0C ∨ encoding &&& 0x0f = kDwEhPeAbsptr then
    return base + BitVec.ofNat 64 (← readObject mem 8)
  else throw bad

theorem readEncodedFrom_eq {encoding : Byte} {bad : String} {base p : Word} {s s' : Slice}
    (h : (readEncodedFrom mem encoding bad base).run s = .ok (p, s')) :
    p = base + encodedValue mem encoding s.data := by
  unfold readEncodedFrom at h
  unfold encodedValue encodedNumber encodedBytes encodedSize
  by_cases hs : encoding &&& 0x0f = 0x0B
  · rw [if_pos hs] at h
    obtain ⟨n, s₁, hn, h⟩ := run_bind_ok h
    cases h
    rw [readObject_eq mem hn, if_pos hs, if_pos (Or.inl hs)]
  · rw [if_neg hs] at h
    by_cases hu : encoding &&& 0x0f = 0x03
    · rw [if_pos hu] at h
      obtain ⟨n, s₁, hn, h⟩ := run_bind_ok h
      cases h
      rw [readObject_eq mem hn, if_neg hs, if_pos (Or.inr hu)]
    · rw [if_neg hu] at h
      split_ifs at h with h8
      · obtain ⟨n, s₁, hn, h⟩ := run_bind_ok h
        cases h
        rw [readObject_eq mem hn, if_neg hs, if_neg (not_or.mpr ⟨hs, hu⟩)]
      · cases h

theorem readEncodedPtr_split (encoding : Byte) : ∃ bad, readEncodedPtr mem encoding =
    if encoding &&& 0xf0 = 0x10 then
      ((fun s : Slice => s.data) <$> get) >>= readEncodedFrom mem encoding bad
    else if encoding &&& 0xf0 ≠ 0 then throw bad >>= readEncodedFrom mem encoding bad
    else pure 0 >>= readEncodedFrom mem encoding bad := ⟨_, rfl⟩

/-- A pointer that can be read is the number in the section, with the field's own address added
where the encoding says so. -/
theorem readEncodedPtr_eq {encoding : Byte} {s s' : Slice} {p : Word}
    (h : (readEncodedPtr mem encoding).run s = .ok (p, s')) :
    p = (if encoding &&& 0xf0 = 0x10 then s.data else 0) + encodedValue mem encoding s.data := by
  obtain ⟨bad, hsplit⟩ := readEncodedPtr_split mem encoding
  rw [hsplit] at h
  by_cases hpc : encoding &&& 0xf0 = 0x10
  · rw [if_pos hpc] at h
    obtain ⟨base, s₁, hbase, h⟩ := run_bind_ok h
    cases hbase
    rw [if_pos hpc]
    exact readEncodedFrom_eq mem h
  · rw [if_neg hpc] at h
    by_cases hhi : encoding &&& 0xf0 ≠ 0
    · rw [if_pos hhi] at h
      cases h
    · rw [if_neg hhi] at h
      obtain ⟨base, s₁, hbase, h⟩ := run_bind_ok h
      cases hbase
      rw [if_neg hpc]
      exact readEncodedFrom_eq mem h

/-- The augmentation data of an FDE; a pointer to its LSDA is all there can be in it. -/
def fdeAugDataOf (bounds : Word × Word) (fdeAddr : Word) : Except String Slice := do
  let fde ← makeSlice bounds fdeAddr
  let (cieAddr, fde) ← (readFDEHeader mem).run fde
  let cieSlice ← makeSlice bounds cieAddr
  let (cie, _) ← (readCIE mem).run cieSlice
  let (_, fde) ← (readEncodedPtr mem cie.aug.fdePtrEnc).run fde
  let (_, fde) ← (readEncodedPtr mem (cie.aug.fdePtrEnc &&& 0x0f)).run fde
  let (augLen, fde) ← (readUleb128 mem).run fde
  let (data, _) ← (readSubslice augLen).run fde
  return data

variable {mem}

/-- The LSDA pointer of a record is read from there with the encoding the loop has heard of, if it
has. -/
theorem readRecord_lsda {bounds : Word × Word} {fdeAddr : Word} {r : FDERecord} {data : Slice}
    (hr : readRecord mem bounds fdeAddr = .ok r)
    (hdata : fdeAugDataOf mem bounds fdeAddr = .ok data) :
    r.lsdaPtr = if r.cie.aug.lsdaPtrEnc = kDwEhPeOmitted then none
      else some ((if r.cie.aug.lsdaPtrEnc &&& 0xf0 = 0x10 then data.data else 0) +
        encodedValue mem r.cie.aug.lsdaPtrEnc data.data) := by
  unfold readRecord at hr
  unfold fdeAugDataOf at hdata
  obtain ⟨fde, hfde, hr⟩ := except_bind_ok hr
  obtain ⟨⟨cieAddr, fde₁⟩, hhdr, hr⟩ := except_bind_ok hr
  obtain ⟨cieSlice, hcs, hr⟩ := except_bind_ok hr
  obtain ⟨⟨cie, cieSlice₁⟩, hcie, hr⟩ := except_bind_ok hr
  obtain ⟨⟨pcStart, fde₂⟩, hstart, hr⟩ := except_bind_ok hr
  obtain ⟨⟨pcRange, fde₃⟩, hrange, hr⟩ := except_bind_ok hr
  obtain ⟨cieOps, -, hr⟩ := except_bind_ok hr
  obtain ⟨⟨lsdaPtr, fde₄⟩, haug, hr⟩ := except_bind_ok hr
  obtain ⟨fdeOps, -, hr⟩ := except_bind_ok hr
  cases hr
  simp only [hfde, hhdr, hcs, hcie, hstart, hrange, bind, Except.bind] at hdata
  cases hlen : (readUleb128 mem).run fde₃ with
  | error e =>
    rw [hlen] at hdata
    cases hdata
  | ok p =>
    obtain ⟨augLen, fde₅⟩ := p
    rw [hlen] at hdata
    cases hsub : (readSubslice augLen).run fde₅ with
    | error e =>
      simp only [hsub] at hdata
      cases hdata
    | ok p =>
      obtain ⟨data', fde₆⟩ := p
      simp only [hsub] at hdata
      cases hdata
      show lsdaPtr = _
      unfold readFDEAug at haug
      by_cases henc : cie.aug.lsdaPtrEnc = kDwEhPeOmitted
      · rw [if_pos henc]
        cases haugmented : cie.augmented with
        | true =>
          rw [if_pos haugmented, bind_run_eq hlen, bind_run_eq hsub,
            if_neg (not_not.mpr henc)] at haug
          cases haug
          rfl
        | false =>
          rw [if_neg (by simp [haugmented])] at haug
          cases haug
          rfl
      · have haugmented : cie.augmented = true := by
          rcases readCIE_aug hcie with ⟨-, hinit, -⟩ | ⟨htrue, -⟩
          · rw [hinit] at henc
            exact absurd rfl henc
          · exact htrue
        rw [if_pos haugmented, bind_run_eq hlen, bind_run_eq hsub, if_pos henc] at haug
        obtain ⟨⟨ptr, rest⟩, s₁, hptr, haug⟩ := run_bind_ok haug
        cases haug
        obtain ⟨p, hp, hlift⟩ := except_bind_ok hptr
        cases hlift
        rw [if_neg henc, readEncodedPtr_eq mem hp]

end LSDA

section LSDAFound
variable {δ : Type} [Offset δ]

/-- What is to be found of a field at the live address `addr`: no LSDA for zero bytes, the address
it names where it is relative to itself. -/
structure LSDAFound (mem : Word → Byte) (enc : Byte) (addr bias : Word) (cfi : CFI δ) : Prop where
  null : (∀ b ∈ encodedBytes mem enc addr, b = 0) → cfi.lsdaAddr = 0
  pcrel : enc &&& 0xf0 = 0x10 → encodedValue mem enc addr ≠ 0 →
    cfi.lsdaAddr = addr - bias + encodedValue mem enc addr

/-- With L before R the field is the pointer, as long as it is not a relative one that is zero, and
as long as the live pointer does not come out as zero under a bias that is not. With L after R there
is never an LSDA. -/
def FieldTells (enc : Byte) (lost : Prop) (addr bias f : Word) : Prop :=
  enc &&& 0xf0 = 0x10 →
    (f = 0 → lost ∨ addr = 0 ∨ addr - bias = 0) ∧
    (f ≠ 0 → lost → addr - bias + f = 0) ∧ (f ≠ 0 → ¬ lost → addr + f ≠ 0 ∨ bias = 0)

omit [Offset δ] in
/-- What the loop did not hear is never read. -/
theorem lsdaFound_of_lost {mem : Word → Byte} {enc : Byte} {addr bias : Word} {cfi : CFI δ} {lost : Prop}
    (hlost : lost) (hlsda : cfi.lsdaAddr = 0) :
    LSDAFound mem enc addr bias cfi ↔ FieldTells enc lost addr bias (encodedValue mem enc addr) := by
  constructor
  · intro hfound hpc
    refine ⟨fun _ => Or.inl hlost, fun hf _ => ?_, fun _ h => absurd hlost h⟩
    rw [← hfound.pcrel hpc hf, hlsda]
  · intro htells
    refine ⟨fun _ => hlsda, fun hpc hf => ?_⟩
    rw [hlsda, (htells hpc).2.1 hf hlost]

omit [Offset δ] in
/-- A relative field is added to its own address before anyone looks whether it is null. -/
theorem lsdaFound_of_relative {mem : Word → Byte} {enc : Byte} {addr bias : Word} {cfi : CFI δ}
    {lost : Prop} (hlost : ¬ lost) (hpc : enc &&& 0xf0 = 0x10)
    (hlsda : cfi.lsdaAddr = if addr + encodedValue mem enc addr ≠ 0 then
      addr + encodedValue mem enc addr - bias else 0) :
    LSDAFound mem enc addr bias cfi ↔ FieldTells enc lost addr bias (encodedValue mem enc addr) := by
  have hzero := encodedValue_eq_zero_iff mem enc addr
  constructor
  · intro hfound _
    refine ⟨fun hf => Or.inr ?_, fun _ h => absurd h hlost, fun hf _ => ?_⟩
    · have haddr := hfound.null (hzero.mp hf)
      rw [hlsda, hf, add_zero] at haddr
      split_ifs at haddr with hlive
      · exact Or.inr haddr
      · exact Or.inl (not_not.mp hlive)
    · by_cases hlive : addr + encodedValue mem enc addr = 0
      · right
        have haddr := hfound.pcrel hpc hf
        rw [hlsda, if_neg (not_not.mpr hlive)] at haddr
        bv_omega
      · exact Or.inl hlive
  · intro htells
    obtain ⟨hnull, -, hvalue⟩ := htells hpc
    refine ⟨fun hbytes => ?_, fun _ hf => ?_⟩
    · have hf := hzero.mpr hbytes
      rw [hlsda, hf, add_zero]
      rcases (hnull hf).resolve_left hlost with haddr | haddr
      · rw [if_neg (not_not.mpr haddr)]
      · rw [haddr, ite_self]
    · rw [hlsda]
      split_ifs with hlive
      · bv_omega
      · have hbias := (hvalue hf hlost).resolve_left hlive
        have hsum := not_not.mp hlive
        bv_omega

theorem lsdaFound_iff {mem : Word → Byte} {fdeVaddr ehFrameStart ehFrameEnd bias : Word}
    {cfi : CFI δ} {chars : List Byte} {cieData data rest : Slice} {aug : CIEAug}
    (h : readFDE mem fdeVaddr ehFrameStart ehFrameEnd bias = .ok cfi)
    (haug : augmentationOf mem (ehFrameStart + bias, ehFrameEnd + bias) (fdeVaddr + bias) =
      .ok (0x7a :: chars, cieData)) (hone : chars.count 0x4c ≤ 1)
    (hmeaning : (augMeaning mem chars).run cieData = .ok (aug, rest))
    (henc : aug.lsdaPtrEnc ≠ kDwEhPeOmitted)
    (hdata : fdeAugDataOf mem (ehFrameStart + bias, ehFrameEnd + bias) (fdeVaddr + bias) = .ok data) :
    LSDAFound mem aug.lsdaPtrEnc data.data bias cfi ↔
      FieldTells aug.lsdaPtrEnc (0x4c ∈ afterR chars) data.data bias
        (encodedValue mem aug.lsdaPtrEnc data.data) := by
  obtain ⟨b, hb, -⟩ := except_bind_ok h
  obtain ⟨r, hr, -⟩ := parseFDE_ok_iff.mp hb
  have hlsda := (readFDE_header h hr).2
  rw [readRecord_lsda hr hdata] at hlsda
  obtain ⟨rest', hbefore⟩ := readRecord_aug hr haug
  by_cases hlost : 0x4c ∈ afterR chars
  · -- the loop never got to the letter
    have hnone : r.cie.aug.lsdaPtrEnc = kDwEhPeOmitted :=
      (heard_foldlM hbefore).lsdaPtrEnc (not_mem_upToR hone hlost)
    rw [if_pos hnone, Option.map_none, Option.getD_none] at hlsda
    exact lsdaFound_of_lost hlost hlsda
  · have hsame : aug.lsdaPtrEnc = r.cie.aug.lsdaPtrEnc :=
      (heard_foldlM ((augMeaning_run hbefore).symm.trans hmeaning)).lsdaPtrEnc hlost
    rw [hsame] at henc ⊢
    rw [if_neg henc, Option.map_some, Option.getD_some] at hlsda
    by_cases hpc : r.cie.aug.lsdaPtrEnc &&& 0xf0 = 0x10
    · rw [if_pos hpc] at hlsda
      exact lsdaFound_of_relative hlost hpc hlsda
    · rw [if_neg hpc] at hlsda
      refine ⟨fun _ h => absurd h hpc, fun _ => ⟨fun hbytes => ?_, fun h => absurd h hpc⟩⟩
      rw [hlsda, (encodedValue_eq_zero_iff mem _ _).mpr hbytes]
      rfl

end LSDAFound

namespace Sample

/-- A CIE with `zLR` and an FDE over the 16 bytes at 0x1000 with the four bytes of `field` for its
LSDA, loaded at 0x2000. -/
def withLSDA (field : List Byte) : List Byte :=
  [0x14, 0, 0, 0, 0, 0, 0, 0, 1, 0x7a, 0x4c, 0x52, 0, 1, 0x78, 0x10, 2, 0x1b, 0x1b, 0x0c, 7, 8, 0x90, 1,
    0x11, 0, 0, 0, 0x1c, 0, 0, 0, 0xe0, 0xef, 0xff, 0xff, 16, 0, 0, 0, 4] ++ field

def withLSDAMem (field : List Byte) : Word → Byte :=
  fun a => (withLSDA field).getD (a - 0x2000).toNat 0

end Sample

/-- Zero bytes for the LSDA, and the table gets the address of those bytes. -/
theorem null_lsda_not_found : ∃ cfi : CFI Int64,
    readFDE (Sample.withLSDAMem [0, 0, 0, 0]) 0x2018 0x2000 0x202d 0 = .ok cfi ∧
      augmentationOf (Sample.withLSDAMem [0, 0, 0, 0]) (0x2000 + 0, 0x202d + 0) (0x2018 + 0) =
        .ok ([0x7a, 0x4c, 0x52], ⟨0x2011, 2⟩) ∧
      (augMeaning (Sample.withLSDAMem [0, 0, 0, 0]) [0x4c, 0x52]).run ⟨0x2011, 2⟩ =
        .ok (⟨0x1b, 0x1b, false⟩, ⟨0x2013, 0⟩) ∧
      fdeAugDataOf (Sample.withLSDAMem [0, 0, 0, 0]) (0x2000 + 0, 0x202d + 0) (0x2018 + 0) =
        .ok ⟨0x2029, 4⟩ ∧
      cfi.lsdaAddr = 0x2029 ∧
      ¬ LSDAFound (Sample.withLSDAMem [0, 0, 0, 0]) 0x1b 0x2029 0 cfi := by
  have h : (readFDE (δ := Int64) (Sample.withLSDAMem [0, 0, 0, 0]) 0x2018 0x2000 0x202d 0).map
      (·.lsdaAddr) = .ok 0x2029 := by decide +kernel
  obtain ⟨cfi, hcfi, hlsda⟩ := except_map_ok h
  refine ⟨cfi, hcfi, by decide +kernel, by decide +kernel, by decide +kernel, hlsda,
    fun hfound => ?_⟩
  have hzero := hfound.null (by decide)
  rw [hlsda] at hzero
  exact absurd hzero (by decide)

theorem lsda_found : ∃ cfi : CFI Int64,
    readFDE (Sample.withLSDAMem [0xd7, 0x0f, 0, 0]) 0x2018 0x2000 0x202d 0 = .ok cfi ∧
      cfi.lsdaAddr = 0x3000 ∧
      LSDAFound (Sample.withLSDAMem [0xd7, 0x0f, 0, 0]) 0x1b 0x2029 0 cfi := by
  have h : (readFDE (δ := Int64) (Sample.withLSDAMem [0xd7, 0x0f, 0, 0]) 0x2018 0x2000 0x202d 0).map
      (·.lsdaAddr) = .ok 0x3000 := by decide +kernel
  obtain ⟨cfi, hcfi, hlsda⟩ := except_map_ok h
  have haug : augmentationOf (Sample.withLSDAMem [0xd7, 0x0f, 0, 0]) (0x2000 + 0, 0x202d + 0)
      (0x2018 + 0) = .ok ([0x7a, 0x4c, 0x52], ⟨0x2011, 2⟩) := by decide +kernel
  have hmeaning : (augMeaning (Sample.withLSDAMem [0xd7, 0x0f, 0, 0]) [0x4c, 0x52]).run ⟨0x2011, 2⟩ =
      .ok (⟨0x1b, 0x1b, false⟩, ⟨0x2013, 0⟩) := by decide +kernel
  have hdata : fdeAugDataOf (Sample.withLSDAMem [0xd7, 0x0f, 0, 0]) (0x2000 + 0, 0x202d + 0)
      (0x2018 + 0) = .ok ⟨0x2029, 4⟩ := by decide +kernel
  refine ⟨cfi, hcfi, hlsda,
    (lsdaFound_iff hcfi haug (by decide) hmeaning (by decide) hdata).mpr fun _ => ?_⟩
  exact ⟨fun hf => absurd hf (by decide), fun _ hlost => absurd hlost (by decide),
    fun _ _ => Or.inr rfl⟩

end UnwindCheck
