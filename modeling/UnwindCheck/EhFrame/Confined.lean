import UnwindCheck.EhFrame.Decoder
import UnwindCheck.EhFrame.Enumerate

/-! The readers of `.eh_frame` look at nothing outside the bounds they are given. -/
namespace UnwindCheck

/-- Two memories with the same bytes from `lo` up to `hi`. -/
def SameBytes (lo hi : Word) (mem mem' : Word → Byte) : Prop := ∀ a, lo ≤ a → a < hi → mem a = mem' a

/-- All of the slice lies between the bounds. -/
def Slice.Within (lo hi : Word) (s : Slice) : Prop :=
  lo.toNat ≤ s.data.toNat ∧ s.data.toNat + s.size ≤ hi.toNat

/-- On a slice within the bounds `y` does what `x` does. What it returns has property `P`, and the
rest of the slice is still within the bounds. -/
def Confined {α : Type} (lo hi : Word) (P : α → Prop) (x y : SliceM α) : Prop :=
  ∀ s : Slice, s.Within lo hi →
    y.run s = x.run s ∧ ∀ a s', x.run s = .ok (a, s') → P a ∧ s'.Within lo hi

/-- Any result will do. -/
abbrev Reads {α : Type} (lo hi : Word) (x y : SliceM α) : Prop := Confined lo hi (fun _ => True) x y

namespace Confined
variable {α β : Type} {lo hi : Word} {P : α → Prop} {Q : β → Prop}

theorem pure {a : α} (h : P a) : Confined lo hi P (Pure.pure a : SliceM α) (Pure.pure a) := by
  refine fun s hs => ⟨rfl, fun a' s' hrun => ?_⟩
  cases hrun
  exact ⟨h, hs⟩

theorem throw (e : String) :
    Confined lo hi P (MonadExcept.throw e : SliceM α) (MonadExcept.throw e) :=
  fun _ _ => ⟨rfl, fun _ _ hrun => nomatch hrun⟩

theorem bind {x y : SliceM α} {k l : α → SliceM β} (hx : Confined lo hi P x y)
    (hk : ∀ a, P a → Confined lo hi Q (k a) (l a)) : Confined lo hi Q (x >>= k) (y >>= l) := by
  intro s hs
  obtain ⟨heq, hout⟩ := hx s hs
  rw [StateT.run_bind, StateT.run_bind, heq]
  cases hrun : x.run s with
  | error e => exact ⟨rfl, fun _ _ h => nomatch h⟩
  | ok p =>
    obtain ⟨hp, hwithin⟩ := hout p.1 p.2 hrun
    exact hk p.1 hp p.2 hwithin

theorem ite {c : Prop} [Decidable c] {x x' y y' : SliceM α} (h : Confined lo hi P x y)
    (h' : Confined lo hi P x' y') :
    Confined lo hi P (if c then x else x') (if c then y else y') := by
  split_ifs
  · exact h
  · exact h'

/-- What comes after a check may use that it did not fail. -/
theorem guard {c : Prop} [Decidable c] {e : String} {k l : Unit → SliceM α}
    (h : ¬ c → Confined lo hi P (k ()) (l ())) :
    Confined lo hi P (if c then MonadExcept.throw e >>= k else k ())
      (if c then MonadExcept.throw e >>= l else l ()) := by
  split_ifs with hc
  · exact fun _ _ => ⟨rfl, fun _ _ hrun => nomatch hrun⟩
  · exact h hc

theorem get : Confined lo hi (Slice.Within lo hi) (MonadState.get : SliceM Slice) MonadState.get := by
  refine fun s hs => ⟨rfl, fun a s' hrun => ?_⟩
  cases hrun
  exact ⟨hs, hs⟩

theorem set {s : Slice} (h : s.Within lo hi) :
    Reads lo hi (MonadStateOf.set s : SliceM PUnit) (MonadStateOf.set s) := by
  refine fun s₀ _ => ⟨rfl, fun a s' hrun => ?_⟩
  cases hrun
  exact ⟨trivial, h⟩

/-- A computation on a slice of its own. -/
theorem lift {x y : SliceM α} {s : Slice} (h : Confined lo hi P x y) (hs : s.Within lo hi) :
    Reads lo hi (liftM (x.run s) : SliceM (α × Slice)) (liftM (y.run s)) := by
  intro s₀ hs₀
  rw [(h s hs).1]
  refine ⟨rfl, fun a s' hrun => ?_⟩
  cases hx : x.run s with
  | error e =>
    rw [hx] at hrun
    cases hrun
  | ok p =>
    rw [hx] at hrun
    cases hrun
    exact ⟨trivial, hs₀⟩

end Confined

theorem Slice.Within.advance {lo hi : Word} {s : Slice} (h : s.Within lo hi) {n : ℕ} (hn : n ≤ s.size) :
    (s.advance n).Within lo hi := by
  obtain ⟨hlo, hhi⟩ := h
  have hlt := hi.isLt
  have hdata : (s.data + BitVec.ofNat 64 n).toNat = s.data.toNat + n := by
    rw [BitVec.toNat_add, BitVec.toNat_ofNat]
    omega
  refine ⟨?_, ?_⟩
  · show lo.toNat ≤ (s.data + BitVec.ofNat 64 n).toNat
    omega
  · show (s.data + BitVec.ofNat 64 n).toNat + (s.size - n) ≤ hi.toNat
    omega

/-- Reading between the bounds gives the same bytes. -/
theorem SameBytes.readMem {lo hi : Word} {mem mem' : Word → Byte} (h : SameBytes lo hi mem mem')
    {a : Word} {n : ℕ} (hlo : lo.toNat ≤ a.toNat) (hhi : a.toNat + n ≤ hi.toNat) :
    UnwindCheck.readMem mem' a n = UnwindCheck.readMem mem a n := by
  have hlt := hi.isLt
  refine List.map_congr_left fun i hi' => ?_
  have hin := List.mem_range.mp hi'
  have hdata : (a + BitVec.ofNat 64 i).toNat = a.toNat + i := by
    rw [BitVec.toNat_add, BitVec.toNat_ofNat]
    omega
  refine (h _ ?_ ?_).symm
  · rw [BitVec.le_def]
    omega
  · rw [BitVec.lt_def]
    omega

section Readers
variable {lo hi : Word} {mem mem' : Word → Byte} (h : SameBytes lo hi mem mem')
include h

theorem readObject_reads (n : ℕ) : Reads lo hi (readObject mem n) (readObject mem' n) := by
  unfold readObject
  refine Confined.get.bind fun s hs => .guard fun hn => ?_
  rw [h.readMem hs.1 (by have := hs.2; omega)]
  exact (Confined.set (hs.advance (by omega))).bind fun _ _ => .pure trivial

theorem readU8_reads : Reads lo hi (readU8 mem) (readU8 mem') :=
  (readObject_reads h 1).bind fun _ _ => .pure trivial

theorem readU32_reads : Reads lo hi (readU32 mem) (readU32 mem') :=
  (readObject_reads h 4).bind fun _ _ => .pure trivial

omit h in
theorem readSubslice_confined (n : Word) :
    Confined lo hi (Slice.Within lo hi) (readSubslice n) (readSubslice n) := by
  unfold readSubslice
  refine Confined.get.bind fun s hs => .guard fun hn => ?_
  refine (Confined.set (hs.advance (by omega))).bind fun _ _ => .pure ⟨hs.1, ?_⟩
  show s.data.toNat + n.toNat ≤ hi.toNat
  have hend := hs.2
  omega

omit h in
theorem truncateSlice_reads (n : ℕ) : Reads lo hi (truncateSlice n) (truncateSlice n) := by
  unfold truncateSlice
  refine Confined.get.bind fun s hs => .guard fun hn => Confined.set ⟨hs.1, ?_⟩
  show s.data.toNat + n ≤ hi.toNat
  have hend := hs.2
  omega

theorem readUleb128From_reads (fuel shift : ℕ) (result : Word) :
    Reads lo hi (readUleb128From mem fuel shift result) (readUleb128From mem' fuel shift result) := by
  induction fuel generalizing shift result with
  | zero => exact .throw _
  | succ fuel ih =>
    unfold readUleb128From
    refine .guard fun _ => ?_
    refine (readU8_reads h).bind fun byte _ => .guard fun _ => ?_
    exact .ite (.pure trivial) (ih _ _)

theorem readUleb128_reads : Reads lo hi (readUleb128 mem) (readUleb128 mem') :=
  readUleb128From_reads h 11 0 0

theorem readSleb128From_reads (fuel shift : ℕ) (result : Word) :
    Reads lo hi (readSleb128From mem fuel shift result) (readSleb128From mem' fuel shift result) := by
  induction fuel generalizing shift result with
  | zero => exact .throw _
  | succ fuel ih =>
    unfold readSleb128From
    refine .guard fun _ => ?_
    refine (readU8_reads h).bind fun byte _ => .guard fun _ => ?_
    exact .ite (ih _ _) (.ite (.pure trivial) (.pure trivial))

theorem readSleb128_reads : Reads lo hi (readSleb128 mem) (readSleb128 mem') :=
  readSleb128From_reads h 11 0 0

theorem readEncodedPtr_reads (encoding : Byte) :
    Reads lo hi (readEncodedPtr mem encoding) (readEncodedPtr mem' encoding) := by
  have hdata : Reads lo hi ((fun s : Slice => s.data) <$> (MonadState.get : SliceM Slice))
      ((fun s : Slice => s.data) <$> MonadState.get) :=
    Confined.get.bind fun _ _ => .pure trivial
  unfold readEncodedPtr
  dsimp only
  refine .ite (hdata.bind ?relative) (.ite ?_ (Confined.bind (P := fun _ => True) (.pure trivial) ?absolute))
  case relative | absolute =>
    intro base _
    refine .ite ?_ (.ite ?_ (.ite ?_ (.throw _)))
    all_goals exact (readObject_reads h _).bind fun _ _ => .pure trivial
  · exact Confined.bind (P := fun _ => False) (.throw _) fun _ hnone => hnone.elim

theorem readASCIIZ_reads (maxSize : ℕ) : Reads lo hi (readASCIIZ mem maxSize) (readASCIIZ mem' maxSize) := by
  unfold readASCIIZ
  refine Confined.get.bind fun s hs => ?_
  rw [h.readMem hs.1 (by have := hs.2; omega)]
  refine .guard fun hzero => ?_
  dsimp only
  refine (Confined.set (hs.advance ?_)).bind fun _ _ => .pure trivial
  -- the terminator is in the window too
  have hlength : (readMem mem s.data (min maxSize s.size)).length = min maxSize s.size := by
    simp [readMem]
  have hinit := List.takeWhile_prefix (fun b : Byte => decide (b ≠ 0))
    (l := readMem mem s.data (min maxSize s.size))
  have hne : ((readMem mem s.data (min maxSize s.size)).takeWhile fun b => decide (b ≠ 0)).length ≠
      (readMem mem s.data (min maxSize s.size)).length := by
    intro heq
    have hall := List.takeWhile_eq_self_iff.mp (hinit.eq_of_length heq)
    simpa using hall 0 (not_not.mp hzero)
  have hle := hinit.length_le
  omega

theorem readAugChars_reads (chars : List Byte) (aug : CIEAug) :
    Reads lo hi (readAugChars mem chars aug) (readAugChars mem' chars aug) := by
  induction chars generalizing aug with
  | nil => exact .pure trivial
  | cons ch chars ih =>
    unfold readAugChars
    refine .ite ?_ (.ite ?_ (.ite (ih _) (.ite (ih _) (.ite ?_ (.throw _)))))
    · exact (readU8_reads h).bind fun _ _ => .pure trivial
    · exact (readU8_reads h).bind fun _ _ => ih _
    · refine (readU8_reads h).bind fun enc _ => ?_
      exact (readEncodedPtr_reads h (enc &&& 0x7f)).bind fun _ _ => ih _

theorem readCIE_reads : Reads lo hi (readCIE mem) (readCIE mem') := by
  unfold readCIE
  refine (readU32_reads h).bind fun cieLen _ => .guard fun _ => ?_
  refine (truncateSlice_reads _).bind fun _ _ => ?_
  refine (readU32_reads h).bind fun cieId _ => .guard fun _ => ?_
  refine (readU8_reads h).bind fun version _ => .guard fun _ => ?_
  refine (readASCIIZ_reads h 16).bind fun augStr _ => ?_
  refine (readUleb128_reads h).bind fun codeAlign _ => ?_
  refine (readSleb128_reads h).bind fun dataAlign _ => .guard fun _ => ?_
  refine (readU8_reads h).bind fun returnReg _ => ?_
  dsimp only
  cases augStr with
  | nil => exact .pure trivial
  | cons ch chars =>
    refine .guard fun _ => ?_
    refine (readUleb128_reads h).bind fun augLen _ => ?_
    refine (readSubslice_confined augLen).bind fun augData hdata => ?_
    exact (Confined.lift (readAugChars_reads h chars _) hdata).bind fun _ _ => .pure trivial

theorem readFDEHeader_reads : Reads lo hi (readFDEHeader mem) (readFDEHeader mem') := by
  unfold readFDEHeader
  refine (readU32_reads h).bind fun len _ => .guard fun _ => .guard fun _ => ?_
  refine (truncateSlice_reads _).bind fun _ _ => ?_
  refine (readU32_reads h).bind fun cieOffset _ => ?_
  exact Confined.get.bind fun _ _ => .pure trivial

theorem readFDEAug_reads (cie : CIE) : Reads lo hi (readFDEAug mem cie) (readFDEAug mem' cie) := by
  unfold readFDEAug
  refine .ite ?_ (.pure trivial)
  refine (readUleb128_reads h).bind fun augLen _ => ?_
  refine (readSubslice_confined augLen).bind fun augData hdata => ?_
  refine .ite ?_ (.pure trivial)
  exact (Confined.lift (readEncodedPtr_reads h _) hdata).bind fun _ _ => .pure trivial

theorem skipExpression_reads : Reads lo hi (skipExpression mem) (skipExpression mem') := by
  unfold skipExpression
  refine (readUleb128_reads h).bind fun len _ => ?_
  exact (readSubslice_confined len).bind fun _ _ => .pure trivial

theorem readExtendedOp_reads (encoding opcode : Byte) :
    Reads lo hi (readExtendedOp mem encoding opcode) (readExtendedOp mem' encoding opcode) := by
  have hu := readUleb128_reads h
  have hs := readSleb128_reads h
  have he := skipExpression_reads h
  unfold readExtendedOp
  split
  case h_1 | h_11 | h_12 | h_24 => exact .pure trivial
  case h_2 => exact (readEncodedPtr_reads h encoding).bind fun _ _ => .pure trivial
  case h_3 | h_4 | h_5 => exact (readObject_reads h _).bind fun _ _ => .pure trivial
  -- one ULEB128 operand, then two of them
  case h_7 | h_8 | h_9 | h_14 | h_15 | h_25 => exact hu.bind fun _ _ => .pure trivial
  case h_6 | h_10 | h_13 | h_21 => exact hu.bind fun _ _ => hu.bind fun _ _ => .pure trivial
  -- the signed variants
  case h_20 => exact hs.bind fun _ _ => .pure trivial
  case h_18 | h_19 | h_22 => exact hu.bind fun _ _ => hs.bind fun _ _ => .pure trivial
  -- the ones with an expression
  case h_16 => exact he.bind fun _ _ => .pure trivial
  case h_17 | h_23 => exact hu.bind fun _ _ => he.bind fun _ _ => .pure trivial
  case h_26 => exact .throw _

theorem readOp_reads (encoding : Byte) : Reads lo hi (readOp mem encoding) (readOp mem' encoding) := by
  unfold readOp
  refine (readU8_reads h).bind fun opcode _ => ?_
  refine .ite (.pure trivial) (.ite ?_ (.ite (.pure trivial) (readExtendedOp_reads h encoding opcode)))
  exact (readUleb128_reads h).bind fun _ _ => .pure trivial

end Readers

section Runs
variable {δ : Type} [Offset δ] {lo hi : Word} {mem mem' : Word → Byte}

/-- One step of two computations that do the same. -/
theorem except_bind_congr {α β : Type} {x x' : Except String α} {k k' : α → Except String β} (hx : x' = x)
    (hk : ∀ a, x = .ok a → k' a = k a) : (x' >>= k') = (x >>= k) := by
  rw [hx]
  cases x with
  | error e => rfl
  | ok a => exact hk a rfl

theorem makeSlice_within {bounds : Word × Word} {start : Word} {s : Slice}
    (hs : makeSlice bounds start = .ok s) : s.Within bounds.1 bounds.2 := by
  unfold makeSlice at hs
  split_ifs at hs with hin
  cases hs
  refine ⟨hin.1, ?_⟩
  show start.toNat + (bounds.2 - start).toNat ≤ bounds.2.toNat
  have hle := hin.2
  bv_omega

variable (h : SameBytes lo hi mem mem')
include h

theorem runOps_congr (isCie : Bool) (fuel : ℕ) {slice : Slice} (hs : slice.Within lo hi)
    (st : EHReaderState) (b : TableBuilder δ) :
    runOps mem' isCie fuel slice st b = runOps mem isCie fuel slice st b := by
  induction fuel generalizing slice st b with
  | zero => rfl
  | succ fuel ih =>
    unfold runOps
    split_ifs
    · rfl
    · obtain ⟨hsame, hrest⟩ := readOp_reads h st.fdePtrEnc slice hs
      refine except_bind_congr hsame fun p hop => ?_
      exact except_bind_congr rfl fun q _ => ih (hrest p.1 p.2 hop).2 q.1 q.2

theorem runInstructions_congr (isCie : Bool) {slice : Slice} (hs : slice.Within lo hi)
    (st : EHReaderState) (b : TableBuilder δ) :
    runInstructions mem' isCie slice st b = runInstructions mem isCie slice st b := by
  unfold runInstructions
  exact except_bind_congr (runOps_congr h isCie slice.size hs st b) fun _ _ => rfl

/-- Decoding an FDE, errors and all, depends on the bytes between the bounds. -/
theorem parseFDE_congr (fdeAddr : Word) (b : TableBuilder δ) :
    parseFDE mem' (lo, hi) fdeAddr b = parseFDE mem (lo, hi) fdeAddr b := by
  rw [parseFDE_eq, parseFDE_eq]
  refine except_bind_congr rfl fun fde hfde => ?_
  obtain ⟨hheader, hfde⟩ := readFDEHeader_reads h fde (makeSlice_within hfde)
  refine except_bind_congr hheader fun ⟨cieAddr, fde₁⟩ hrun => ?_
  have hfde₁ := (hfde _ _ hrun).2
  refine except_bind_congr rfl fun cieSlice hcie => ?_
  obtain ⟨hsame, hrest⟩ := readCIE_reads h cieSlice (makeSlice_within hcie)
  refine except_bind_congr hsame fun ⟨cie, cieSlice₁⟩ hrun => ?_
  have hcie₁ := (hrest _ _ hrun).2
  obtain ⟨hsame, hrest⟩ := readEncodedPtr_reads h cie.aug.fdePtrEnc fde₁ hfde₁
  refine except_bind_congr hsame fun ⟨pcStart, fde₂⟩ hrun => ?_
  have hfde₂ := (hrest _ _ hrun).2
  obtain ⟨hsame, hrest⟩ := readEncodedPtr_reads h (cie.aug.fdePtrEnc &&& 0x0f) fde₂ hfde₂
  refine except_bind_congr hsame fun ⟨pcRange, fde₃⟩ hrun => ?_
  have hfde₃ := (hrest _ _ hrun).2
  refine except_bind_congr (runInstructions_congr h true hcie₁ _ _) fun ⟨st, b₁⟩ _ => ?_
  obtain ⟨hsame, hrest⟩ := readFDEAug_reads h cie fde₃ hfde₃
  refine except_bind_congr hsame fun ⟨lsdaPtr, fde₄⟩ hrun => ?_
  exact except_bind_congr (runInstructions_congr h false (hrest _ _ hrun).2 _ _) fun _ _ => rfl

omit h in
theorem readFDE_congr {start stop bias : Word}
    (h : SameBytes (start + bias) (stop + bias) mem mem') (fdeVaddr : Word) :
    (readFDE mem' fdeVaddr start stop bias : Except String (CFI δ)) =
      readFDE mem fdeVaddr start stop bias := by
  unfold readFDE
  exact except_bind_congr (parseFDE_congr h _ _) fun _ _ => rfl

theorem readU32At_congr {addr : Word} (hlo : lo ≤ addr) (what : String) :
    readU32At mem' addr hi what = readU32At mem addr hi what := by
  unfold readU32At
  split_ifs with hout
  · rfl
  · rw [h.readMem hlo (by bv_omega)]

/-- The walk over the records depends on the bytes between the bounds. -/
theorem enumerateFrom_congr (fuel : ℕ) {pos : Word} (hlo : lo ≤ pos) :
    enumerateFrom mem' hi fuel pos = enumerateFrom mem hi fuel pos := by
  induction fuel generalizing pos with
  | zero => rfl
  | succ fuel ih =>
    unfold enumerateFrom
    rw [readU32At_congr h hlo]
    split_ifs
    · cases hlen : readU32At mem pos hi "record length" with
      | error e => rfl
      | ok len =>
        have hpayload : lo ≤ pos + 4 := by
          unfold readU32At at hlen
          split_ifs at hlen with hout
          bv_omega
        dsimp only
        rw [readU32At_congr h hpayload]
        split_ifs with hzero hlong hbad
        · rfl
        · rfl
        · rfl
        · rw [ih (by bv_omega)]
    · rfl

theorem enumerateFDEs_congr : enumerateFDEs mem' lo hi = enumerateFDEs mem lo hi :=
  enumerateFrom_congr h _ (BitVec.le_refl lo)

end Runs

end UnwindCheck
