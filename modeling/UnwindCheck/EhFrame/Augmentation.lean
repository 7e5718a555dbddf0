import UnwindCheck.EhFrame.Program

/-! The augmentation string of a CIE: which of its letters are heard. -/
namespace UnwindCheck

section Runs
variable {α β : Type} {s s' : Slice}

theorem run_bind_ok {x : SliceM α} {f : α → SliceM β} {r : β} (h : (x >>= f).run s = .ok (r, s')) :
    ∃ a s₁, x.run s = .ok (a, s₁) ∧ (f a).run s₁ = .ok (r, s') := by
  obtain ⟨⟨a, s₁⟩, hx, hf⟩ := except_bind_ok h
  exact ⟨a, s₁, hx, hf⟩

theorem run_guard_ok {c : Prop} [Decidable c] {e : String} {k : Unit → SliceM α} {r : α}
    (h : (if c then MonadExcept.throw e >>= k else k ()).run s = .ok (r, s')) :
    ¬ c ∧ (k ()).run s = .ok (r, s') := by
  split_ifs at h with hc
  · cases h
  · exact ⟨hc, h⟩

theorem bind_run_eq {x : SliceM α} {f : α → SliceM β} {a : α} (h : x.run s = .ok (a, s')) :
    (x >>= f).run s = (f a).run s' := by
  change (x.run s >>= fun p => (f p.1).run p.2) = _
  rw [h]
  rfl

end Runs

section Letters
variable (mem : Word → Byte)

/-- The letters with a meaning after `z`: R, L, S, B and P. -/
def kAugLetters : List Byte := [0x52, 0x4c, 0x53, 0x42, 0x50]

/-- What an augmentation says before any letter. -/
def CIEAug.initial : CIEAug := ⟨kDwEhPeAbsptr, kDwEhPeOmitted, false⟩

/-- One letter and its field of the augmentation data. -/
def readAugLetter (aug : CIEAug) (ch : Byte) : SliceM CIEAug := do
  if ch = 0x52 then return { aug with fdePtrEnc := ← readU8 mem }
  else if ch = 0x4c then return { aug with lsdaPtrEnc := ← readU8 mem }
  else if ch = 0x53 then return { aug with signalFrame := true }
  else if ch = 0x42 then return aug
  else if ch = 0x50 then
    let enc ← readU8 mem
    let _ ← readEncodedPtr mem (enc &&& 0x7f)
    return aug
  else throw ("Unknown aug string character: " ++ String.singleton (Char.ofNat ch.toNat) ++
    " (0x" ++ String.ofList (List.replicate (if ch.toNat < 16 then 1 else 0) '0' ++
      Nat.toDigits 16 ch.toNat) ++ ")")

/-- What a string means whose letters are all taken in order. -/
def augMeaning (chars : List Byte) : SliceM CIEAug := chars.foldlM (readAugLetter mem) .initial

/-- The letters up to and with the first R. -/
def upToR : List Byte → List Byte
  | [] => []
  | ch :: rest => if ch = 0x52 then [ch] else ch :: upToR rest

/-- The letters after the first R. -/
def afterR : List Byte → List Byte
  | [] => []
  | ch :: rest => if ch = 0x52 then rest else afterR rest

theorem upToR_append_afterR (chars : List Byte) : upToR chars ++ afterR chars = chars := by
  induction chars with
  | nil => rfl
  | cons ch rest ih =>
    unfold upToR afterR
    split_ifs with h
    · rfl
    · rw [List.cons_append, ih]

/-- The loop of `ParseFDE` hears the letters up to the first R. -/
theorem readAugChars_eq (chars : List Byte) (aug : CIEAug) :
    readAugChars mem chars aug = (upToR chars).foldlM (readAugLetter mem) aug := by
  induction chars generalizing aug with
  | nil => rfl
  | cons ch rest ih =>
    unfold readAugChars upToR
    by_cases hR : ch = 0x52
    · rw [if_pos hR, if_pos hR, List.foldlM_cons, readAugLetter, if_pos hR]
      simp [List.foldlM_nil]
    · rw [if_neg hR, if_neg hR, List.foldlM_cons, readAugLetter, if_neg hR]
      by_cases hL : ch = 0x4c
      · simp [hL, ih]
      · by_cases hS : ch = 0x53
        · simp [hS, ih]
        · by_cases hB : ch = 0x42
          · simp [hB, ih]
          · by_cases hP : ch = 0x50
            · simp [hP, ih]
            · rw [if_neg hL, if_neg hS, if_neg hB, if_neg hP, if_neg hL, if_neg hS, if_neg hB,
                if_neg hP]
              rfl

/-- What letters change, and that each of them is a known one. -/
structure Heard (chars : List Byte) (aug aug' : CIEAug) : Prop where
  known : ∀ ch ∈ chars, ch ∈ kAugLetters
  signalFrame : aug'.signalFrame = true ↔ aug.signalFrame = true ∨ 0x53 ∈ chars
  fdePtrEnc : 0x52 ∉ chars → aug'.fdePtrEnc = aug.fdePtrEnc
  lsdaPtrEnc : 0x4c ∉ chars → aug'.lsdaPtrEnc = aug.lsdaPtrEnc

variable {mem}

theorem heard_letter {aug aug' : CIEAug} {ch : Byte} {s s' : Slice}
    (h : (readAugLetter mem aug ch).run s = .ok (aug', s')) : Heard [ch] aug aug' := by
  unfold readAugLetter at h
  split_ifs at h with hR hL hS hB hP
  · obtain ⟨enc, s₁, -, h⟩ := run_bind_ok h
    cases h
    subst hR
    exact ⟨by decide, by simp, by simp, fun _ => rfl⟩
  · obtain ⟨enc, s₁, -, h⟩ := run_bind_ok h
    cases h
    subst hL
    exact ⟨by decide, by simp, fun _ => rfl, by simp⟩
  · cases h
    subst hS
    exact ⟨by decide, by simp, fun _ => rfl, fun _ => rfl⟩
  · cases h
    subst hB
    exact ⟨by decide, by simp, fun _ => rfl, fun _ => rfl⟩
  · obtain ⟨enc, s₁, -, h⟩ := run_bind_ok h
    obtain ⟨ptr, s₂, -, h⟩ := run_bind_ok h
    cases h
    subst hP
    exact ⟨by decide, by simp, fun _ => rfl, fun _ => rfl⟩
  · cases h
  · cases h

theorem heard_foldlM {chars : List Byte} {aug aug' : CIEAug} {s s' : Slice}
    (h : (chars.foldlM (readAugLetter mem) aug).run s = .ok (aug', s')) : Heard chars aug aug' := by
  induction chars generalizing aug s with
  | nil =>
    cases h
    exact ⟨by simp, by simp, fun _ => rfl, fun _ => rfl⟩
  | cons ch rest ih =>
    rw [List.foldlM_cons] at h
    obtain ⟨aug₁, s₁, hch, hrest⟩ := run_bind_ok h
    have hfirst := heard_letter hch
    have hrest := ih hrest
    refine ⟨?_, ?_, ?_, ?_⟩
    · intro c hc
      rcases List.mem_cons.mp hc with rfl | hc
      · exact hfirst.known c List.mem_cons_self
      · exact hrest.known c hc
    · rw [hrest.signalFrame, hfirst.signalFrame, List.mem_singleton, List.mem_cons, or_assoc]
    · intro hR
      rw [List.mem_cons, not_or] at hR
      rw [hrest.fdePtrEnc hR.2, hfirst.fdePtrEnc (by simpa using hR.1)]
    · intro hL
      rw [List.mem_cons, not_or] at hL
      rw [hrest.lsdaPtrEnc hL.2, hfirst.lsdaPtrEnc (by simpa using hL.1)]

end Letters

section Strings
variable (mem : Word → Byte)

/-- The augmentation string of a CIE, with its `z`, and its augmentation data. -/
def readAugmentation : SliceM (List Byte × Slice) := do
  let cieLen ← readU32 mem
  truncateSlice cieLen.toNat
  let _ ← readU32 mem
  let _ ← readU8 mem
  let augStr ← readASCIIZ mem 16
  let _ ← readUleb128 mem
  let _ ← readSleb128 mem
  let _ ← readU8 mem
  let augLen ← readUleb128 mem
  let augData ← readSubslice augLen
  return (augStr, augData)

/-- Those of the CIE an FDE belongs to. -/
def augmentationOf (bounds : Word × Word) (fdeAddr : Word) : Except String (List Byte × Slice) := do
  let fde ← makeSlice bounds fdeAddr
  let (cieAddr, _) ← (readFDEHeader mem).run fde
  let cieSlice ← makeSlice bounds cieAddr
  let (aug, _) ← (readAugmentation mem).run cieSlice
  return aug

variable {mem}

/-- What a CIE that can be read says is what its letters up to R say; without a string it says
nothing. -/
theorem readCIE_aug {cie : CIE} {s s' : Slice} (h : (readCIE mem).run s = .ok (cie, s')) :
    (cie.augmented = false ∧ cie.aug = .initial ∧ ∀ str data s₁,
      (readAugmentation mem).run s = .ok ((str, data), s₁) → str = []) ∨
    (cie.augmented = true ∧ ∃ chars data rest s₁,
      (readAugmentation mem).run s = .ok ((0x7a :: chars, data), s₁) ∧
        (readAugChars mem chars .initial).run data = .ok (cie.aug, rest)) := by
  unfold readCIE at h
  obtain ⟨cieLen, s₁, hlen, h⟩ := run_bind_ok h
  obtain ⟨-, h⟩ := run_guard_ok h
  obtain ⟨_, s₂, htrunc, h⟩ := run_bind_ok h
  obtain ⟨cieId, s₃, hid, h⟩ := run_bind_ok h
  obtain ⟨-, h⟩ := run_guard_ok h
  obtain ⟨version, s₄, hversion, h⟩ := run_bind_ok h
  obtain ⟨-, h⟩ := run_guard_ok h
  obtain ⟨augStr, s₅, hstr, h⟩ := run_bind_ok h
  obtain ⟨codeAlign, s₆, hcode, h⟩ := run_bind_ok h
  obtain ⟨dataAlign, s₇, hdata, h⟩ := run_bind_ok h
  obtain ⟨-, h⟩ := run_guard_ok h
  obtain ⟨returnReg, s₈, hreg, h⟩ := run_bind_ok h
  cases augStr with
  | nil =>
    cases h
    refine Or.inl ⟨rfl, rfl, ?_⟩
    intro str data s₉ hread
    unfold readAugmentation at hread
    rw [bind_run_eq hlen, bind_run_eq htrunc, bind_run_eq hid, bind_run_eq hversion,
      bind_run_eq hstr, bind_run_eq hcode, bind_run_eq hdata, bind_run_eq hreg] at hread
    obtain ⟨augLen, s₁₀, -, hread⟩ := run_bind_ok hread
    obtain ⟨augData, s₁₁, -, hread⟩ := run_bind_ok hread
    cases hread
    rfl
  | cons ch chars =>
    obtain ⟨hz, h⟩ := run_guard_ok h
    obtain ⟨augLen, s₉, haug, h⟩ := run_bind_ok h
    obtain ⟨augData, s₁₀, hsub, h⟩ := run_bind_ok h
    obtain ⟨⟨aug, rest⟩, s₁₁, hchars, h⟩ := run_bind_ok h
    cases h
    refine Or.inr ⟨rfl, chars, augData, rest, s₁₀, ?_, ?_⟩
    · unfold readAugmentation
      rw [bind_run_eq hlen, bind_run_eq htrunc, bind_run_eq hid, bind_run_eq hversion,
        bind_run_eq hstr, bind_run_eq hcode, bind_run_eq hdata, bind_run_eq hreg, bind_run_eq haug,
        bind_run_eq hsub, not_not.mp hz]
      rfl
    · obtain ⟨p, hp, hlift⟩ := except_bind_ok hchars
      cases hlift
      exact hp

end Strings

section Records
variable {δ : Type} [Offset δ] {mem : Word → Byte} {fdeVaddr ehFrameStart ehFrameEnd bias : Word}
  {cfi : CFI δ} {r : FDERecord}

/-- The header of a table comes from the record it was built from. -/
theorem readFDE_header (h : readFDE mem fdeVaddr ehFrameStart ehFrameEnd bias = .ok cfi)
    (hr : readRecord mem (ehFrameStart + bias, ehFrameEnd + bias) (fdeVaddr + bias) = .ok r) :
    cfi.signalFrame = r.cie.aug.signalFrame ∧
      cfi.lsdaAddr = (r.lsdaPtr.map fun p => if p ≠ 0 then p - bias else 0).getD 0 := by
  obtain ⟨b, hb, h⟩ := except_bind_ok h
  split at h
  · cases h
  cases h
  obtain ⟨r', hr', hbuild⟩ := parseFDE_ok_iff.mp hb
  obtain rfl : r' = r := Except.ok.inj (hr'.symm.trans hr)
  obtain ⟨⟨st₁, b₁⟩, hcie, hbuild⟩ := except_bind_ok hbuild
  obtain ⟨⟨st₂, b₂⟩, hfde, hbuild⟩ := except_bind_ok hbuild
  cases hbuild
  obtain ⟨hsignal₁, hlsda₁, hbias₁⟩ := runStream_header hcie
  obtain ⟨hsignal₂, hlsda₂, -⟩ := runStream_header hfde
  have hopened : (r'.opened (TableBuilder.new fdeVaddr bias : TableBuilder δ)).result.signalFrame =
        r'.cie.aug.signalFrame ∧
      (r'.opened (TableBuilder.new fdeVaddr bias : TableBuilder δ)).result.lsdaAddr = 0 ∧
      (r'.opened (TableBuilder.new fdeVaddr bias : TableBuilder δ)).bias = bias := by
    unfold FDERecord.opened
    cases r'.cie.aug.signalFrame <;> exact ⟨rfl, rfl, rfl⟩
  have hresumed : (r'.resumed b₁).result.signalFrame = b₁.result.signalFrame ∧
      (r'.resumed b₁).result.lsdaAddr =
        (r'.lsdaPtr.map fun p => if p ≠ 0 then p - b₁.bias else b₁.result.lsdaAddr).getD
          b₁.result.lsdaAddr := by
    unfold FDERecord.resumed
    cases r'.lsdaPtr with
    | none => exact ⟨rfl, rfl⟩
    | some p =>
      simp only [TableBuilder.afterCIE, TableBuilder.handleLSDA, Option.map_some, Option.getD_some]
      split_ifs <;> exact ⟨rfl, rfl⟩
  constructor
  · exact hsignal₂.trans (hresumed.1.trans (hsignal₁.trans hopened.1))
  · refine hlsda₂.trans (hresumed.2.trans ?_)
    rw [hlsda₁, hopened.2.1, hbias₁, hopened.2.2]

/-- The letters up to R of a record's string were heard. -/
theorem readRecord_aug {chars : List Byte} {data : Slice} {bounds : Word × Word} {fdeAddr : Word}
    (hr : readRecord mem bounds fdeAddr = .ok r)
    (haug : augmentationOf mem bounds fdeAddr = .ok (0x7a :: chars, data)) :
    ∃ rest, ((upToR chars).foldlM (readAugLetter mem) .initial).run data = .ok (r.cie.aug, rest) := by
  unfold readRecord at hr
  unfold augmentationOf at haug
  obtain ⟨fde, hfde, hr⟩ := except_bind_ok hr
  obtain ⟨⟨cieAddr, fde₁⟩, hhdr, hr⟩ := except_bind_ok hr
  obtain ⟨cieSlice, hcs, hr⟩ := except_bind_ok hr
  obtain ⟨⟨cie, cieSlice₁⟩, hcie, hr⟩ := except_bind_ok hr
  obtain ⟨⟨pcStart, fde₂⟩, -, hr⟩ := except_bind_ok hr
  obtain ⟨⟨pcRange, fde₃⟩, -, hr⟩ := except_bind_ok hr
  obtain ⟨cieOps, -, hr⟩ := except_bind_ok hr
  obtain ⟨⟨lsdaPtr, fde₄⟩, -, hr⟩ := except_bind_ok hr
  obtain ⟨fdeOps, -, hr⟩ := except_bind_ok hr
  cases hr
  simp only [hfde, hhdr, hcs, bind, Except.bind] at haug
  cases hread : (readAugmentation mem).run cieSlice with
  | error e =>
    rw [hread] at haug
    cases haug
  | ok p =>
    obtain ⟨aug, s₁⟩ := p
    rw [hread] at haug
    cases haug
    rcases readCIE_aug hcie with ⟨-, -, hnil⟩ | ⟨-, chars', data', rest, s₂, hread', hchars⟩
    · cases hnil _ _ _ hread
    · rw [hread] at hread'
      cases hread'
      exact ⟨rest, by rw [← readAugChars_eq]; exact hchars⟩

end Records

/-- The letters after R go on where the loop stopped. -/
theorem augMeaning_run {mem : Word → Byte} {chars : List Byte} {data rest : Slice} {aug : CIEAug}
    (h : ((upToR chars).foldlM (readAugLetter mem) .initial).run data = .ok (aug, rest)) :
    (augMeaning mem chars).run data =
      ((afterR chars).foldlM (readAugLetter mem) aug).run rest := by
  unfold augMeaning
  nth_rewrite 1 [← upToR_append_afterR chars]
  rw [List.foldlM_append, bind_run_eq h]

theorem mem_upToR_of_mem_afterR {chars : List Byte} (h : 0x52 ∈ afterR chars) :
    0x52 ∈ upToR chars := by
  induction chars with
  | nil => cases h
  | cons ch rest ih =>
    unfold afterR at h
    unfold upToR
    split_ifs at h ⊢ with hR
    · simp [hR]
    · exact List.mem_cons_of_mem ch (ih h)

/-- A letter that occurs once is on one side of R only. -/
theorem not_mem_upToR {chars : List Byte} {ch : Byte} (h : chars.count ch ≤ 1) (hch : ch ∈ afterR chars) :
    ch ∉ upToR chars := by
  intro hmem
  rw [← upToR_append_afterR chars, List.count_append] at h
  have hbefore := List.count_pos_iff.mpr hmem
  have hafter := List.count_pos_iff.mpr hch
  omega

section Honoured
variable {δ : Type} [Offset δ]

/-- The string of an FDE's CIE was honoured: there is no letter without a meaning in it, and with
each letter at most once and data for all of them the record says what they say. -/
structure AugHonoured (mem : Word → Byte) (chars : List Byte) (data : Slice) (r : FDERecord)
    (cfi : CFI δ) : Prop where
  known : ∀ ch ∈ chars, ch ∈ kAugLetters
  honoured : chars.Nodup → ∀ aug rest, (augMeaning mem chars).run data = .ok (aug, rest) →
    (cfi.signalFrame = true ↔ 0x53 ∈ chars) ∧ r.cie.aug = aug

/-- Nothing that matters comes after R. -/
structure QuietAfterR (mem : Word → Byte) (chars : List Byte) (data : Slice) : Prop where
  known : ∀ ch ∈ afterR chars, ch ∈ kAugLetters
  quiet : chars.Nodup → ∀ aug rest, (augMeaning mem chars).run data = .ok (aug, rest) →
    0x53 ∉ afterR chars ∧ (0x4c ∈ afterR chars → aug.lsdaPtrEnc = kDwEhPeOmitted)

theorem augHonoured_iff {mem : Word → Byte} {fdeVaddr ehFrameStart ehFrameEnd bias : Word}
    {cfi : CFI δ} {r : FDERecord} {chars : List Byte} {data : Slice}
    (h : readFDE mem fdeVaddr ehFrameStart ehFrameEnd bias = .ok cfi)
    (hr : readRecord mem (ehFrameStart + bias, ehFrameEnd + bias) (fdeVaddr + bias) = .ok r)
    (haug : augmentationOf mem (ehFrameStart + bias, ehFrameEnd + bias) (fdeVaddr + bias) =
      .ok (0x7a :: chars, data)) :
    AugHonoured mem chars data r cfi ↔ QuietAfterR mem chars data := by
  obtain ⟨rest, hbefore⟩ := readRecord_aug hr haug
  have hsignal := (readFDE_header h hr).1
  have heard := heard_foldlM hbefore
  have hmeaning := augMeaning_run hbefore
  have hmem : ∀ ch, ch ∈ chars ↔ ch ∈ upToR chars ∨ ch ∈ afterR chars := by
    intro ch
    rw [← List.mem_append, upToR_append_afterR]
  have hframe : r.cie.aug.signalFrame = true ↔ 0x53 ∈ upToR chars := by
    rw [heard.signalFrame]
    exact or_iff_right Bool.false_ne_true
  constructor
  · intro hon
    refine ⟨fun ch hch => hon.known ch ((hmem ch).mpr (Or.inr hch)), ?_⟩
    intro hnodup aug rest' hrun
    have hone := List.nodup_iff_count_le_one.mp hnodup
    obtain ⟨-, rfl⟩ := hon.honoured hnodup aug rest' hrun
    have hafter := heard_foldlM (hmeaning.symm.trans hrun)
    constructor
    · intro hS
      exact not_mem_upToR (hone _) hS (hframe.mp (hafter.signalFrame.mpr (Or.inr hS)))
    · intro hL
      exact heard.lsdaPtrEnc (not_mem_upToR (hone _) hL)
  · intro hquiet
    refine ⟨?_, ?_⟩
    · intro ch hch
      rcases (hmem ch).mp hch with hch | hch
      · exact heard.known ch hch
      · exact hquiet.known ch hch
    · intro hnodup aug rest' hrun
      have hone := List.nodup_iff_count_le_one.mp hnodup
      obtain ⟨hS, hL⟩ := hquiet.quiet hnodup aug rest' hrun
      have hafter := heard_foldlM (hmeaning.symm.trans hrun)
      have hR : 0x52 ∉ afterR chars :=
        fun hR => not_mem_upToR (hone _) hR (mem_upToR_of_mem_afterR hR)
      constructor
      · rw [hsignal, hframe, hmem]
        exact (or_iff_left hS).symm
      · have hfde := hafter.fdePtrEnc hR
        have hsig : aug.signalFrame = r.cie.aug.signalFrame := by
          rw [Bool.eq_iff_iff, hafter.signalFrame]
          exact or_iff_left hS
        have hlsda : aug.lsdaPtrEnc = r.cie.aug.lsdaPtrEnc := by
          by_cases hmemL : 0x4c ∈ afterR chars
          · rw [hL hmemL]
            exact (heard.lsdaPtrEnc (not_mem_upToR (hone _) hmemL)).symm
          · exact hafter.lsdaPtrEnc hmemL
        cases hcode : r.cie.aug
        cases aug
        simp_all

end Honoured

namespace Sample

/-- A CIE with `z`, two letters and the field of R, and an FDE over the 16 bytes at 0x1000, loaded
at 0x2000. -/
def augmented (first second : Byte) : List Byte :=
  [0x13, 0, 0, 0, 0, 0, 0, 0, 1, 0x7a, first, second, 0, 1, 0x78, 0x10, 1, 0x1b, 0x0c, 7, 8, 0x90, 1,
    0x0d, 0, 0, 0, 0x1b, 0, 0, 0, 0xe1, 0xef, 0xff, 0xff, 16, 0, 0, 0, 0]

def augmentedMem (first second : Byte) : Word → Byte :=
  fun a => (augmented first second).getD (a - 0x2000).toNat 0

end Sample

/-- `zRS`, as assemblers write it: the table of a signal frame that is not marked as one. -/
theorem zRS_not_honoured : ∃ (cfi : CFI Int64) (r : FDERecord) (data : Slice),
    readFDE (Sample.augmentedMem 0x52 0x53) 0x2017 0x2000 0x2028 0 = .ok cfi ∧
      readRecord (Sample.augmentedMem 0x52 0x53) (0x2000 + 0, 0x2028 + 0) (0x2017 + 0) = .ok r ∧
      augmentationOf (Sample.augmentedMem 0x52 0x53) (0x2000 + 0, 0x2028 + 0) (0x2017 + 0) =
        .ok ([0x7a, 0x52, 0x53], data) ∧
      cfi.signalFrame = false ∧
      ¬ AugHonoured (Sample.augmentedMem 0x52 0x53) [0x52, 0x53] data r cfi := by
  have h : (readFDE (δ := Int64) (Sample.augmentedMem 0x52 0x53) 0x2017 0x2000 0x2028 0).map
      (·.signalFrame) = .ok false := by decide +kernel
  obtain ⟨cfi, hcfi, hsignal⟩ := except_map_ok h
  obtain ⟨b, hb, -⟩ := except_bind_ok hcfi
  obtain ⟨r, hr, -⟩ := parseFDE_ok_iff.mp hb
  refine ⟨cfi, r, ⟨0x2011, 1⟩, hcfi, hr, by decide +kernel, hsignal, fun hon => ?_⟩
  have hmeaning : (augMeaning (Sample.augmentedMem 0x52 0x53) [0x52, 0x53]).run ⟨0x2011, 1⟩ =
      .ok (⟨0x1b, kDwEhPeOmitted, true⟩, ⟨0x2012, 0⟩) := by decide +kernel
  obtain ⟨hframe, -⟩ := hon.honoured (by decide) _ _ hmeaning
  rw [hframe.mpr (by decide)] at hsignal
  cases hsignal

theorem zSR_honoured : ∃ (cfi : CFI Int64) (r : FDERecord) (data : Slice),
    readFDE (Sample.augmentedMem 0x53 0x52) 0x2017 0x2000 0x2028 0 = .ok cfi ∧
      readRecord (Sample.augmentedMem 0x53 0x52) (0x2000 + 0, 0x2028 + 0) (0x2017 + 0) = .ok r ∧
      augmentationOf (Sample.augmentedMem 0x53 0x52) (0x2000 + 0, 0x2028 + 0) (0x2017 + 0) =
        .ok ([0x7a, 0x53, 0x52], data) ∧
      AugHonoured (Sample.augmentedMem 0x53 0x52) [0x53, 0x52] data r cfi := by
  have h : (readFDE (δ := Int64) (Sample.augmentedMem 0x53 0x52) 0x2017 0x2000 0x2028 0).map
      (·.signalFrame) = .ok true := by decide +kernel
  obtain ⟨cfi, hcfi, hsignal⟩ := except_map_ok h
  obtain ⟨b, hb, -⟩ := except_bind_ok hcfi
  obtain ⟨r, hr, -⟩ := parseFDE_ok_iff.mp hb
  have haug : augmentationOf (Sample.augmentedMem 0x53 0x52) (0x2000 + 0, 0x2028 + 0) (0x2017 + 0) =
      .ok ([0x7a, 0x53, 0x52], ⟨0x2011, 1⟩) := by decide +kernel
  refine ⟨cfi, r, ⟨0x2011, 1⟩, hcfi, hr, haug, (augHonoured_iff hcfi hr haug).mpr ⟨?_, ?_⟩⟩
  · simp [afterR]
  · intro _ aug rest _
    exact ⟨by simp [afterR], by simp [afterR]⟩

end UnwindCheck
