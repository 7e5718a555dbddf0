import UnwindCheck.EhFrame.Program

/-! Reading the same section at another place: every reader does the same there, and what it
returns moves along if it is an address and stays if it is not. -/
namespace UnwindCheck

/-- Live memory once the section's contents are mapped `bias` above their link-time addresses. -/
def loadedAt (sec : Word → Byte) (bias : Word) : Word → Byte := fun a => sec (a - bias)

def Slice.shift (bias : Word) (s : Slice) : Slice := { s with data := s.data + bias }

/-- `y` does to a slice `bias` above what `x` does to the slice itself, and returns `g` of what
`x` returns. -/
def Relocates {α β : Type} (bias : Word) (g : α → β) (x : SliceM α) (y : SliceM β) : Prop :=
  ∀ s : Slice, y.run (s.shift bias) = (x.run s).map fun p => (g p.1, p.2.shift bias)

namespace Relocates
variable {α β γ ε : Type} {bias : Word}

theorem pure (g : α → β) (a : α) : Relocates bias g (Pure.pure a : SliceM α) (Pure.pure (g a)) :=
  fun _ => rfl

theorem throw (g : α → β) (e : String) :
    Relocates bias g (MonadExcept.throw e : SliceM α) (MonadExcept.throw e : SliceM β) := fun _ => rfl

theorem bind {g : α → β} {h : γ → ε} {x : SliceM α} {y : SliceM β} {k : α → SliceM γ}
    {l : β → SliceM ε} (hx : Relocates bias g x y) (hk : ∀ a, Relocates bias h (k a) (l (g a))) :
    Relocates bias h (x >>= k) (y >>= l) := by
  intro s
  rw [StateT.run_bind, StateT.run_bind, hx s]
  cases x.run s with
  | error e => rfl
  | ok p => exact hk p.1 p.2

theorem cases {g : α → β} {c : Prop} [Decidable c] {x x' : SliceM α} {y y' : SliceM β}
    (h : c → Relocates bias g x y) (h' : ¬ c → Relocates bias g x' y') :
    Relocates bias g (if c then x else x') (if c then y else y') := by
  split_ifs with hc
  · exact h hc
  · exact h' hc

theorem ite {g : α → β} {c : Prop} [Decidable c] {x x' : SliceM α} {y y' : SliceM β}
    (h : Relocates bias g x y) (h' : Relocates bias g x' y') :
    Relocates bias g (if c then x else x') (if c then y else y') :=
  cases (fun _ => h) fun _ => h'

/-- A check that does not look at addresses. -/
theorem guard {g : α → β} {c : Prop} [Decidable c] {e : String} {k : Unit → SliceM α}
    {l : Unit → SliceM β} (h : Relocates bias g (k ()) (l ())) :
    Relocates bias g (if c then MonadExcept.throw e >>= k else k ())
      (if c then MonadExcept.throw e >>= l else l ()) := by
  split_ifs
  · exact fun _ => rfl
  · exact h

theorem get : Relocates bias (Slice.shift bias) (MonadState.get : SliceM Slice) MonadState.get :=
  fun _ => rfl

theorem set (s : Slice) :
    Relocates bias id (MonadStateOf.set s : SliceM PUnit) (MonadStateOf.set (s.shift bias)) :=
  fun _ => rfl

/-- A computation on a slice of its own. -/
theorem lift {g : α → β} {x : Except String α} {y : Except String β} (h : y = x.map g) :
    Relocates bias g (liftM x : SliceM α) (liftM y) := by
  intro s
  rw [h]
  cases x <;> rfl

end Relocates

section Readers
variable (sec : Word → Byte) (bias : Word)

theorem readMem_loadedAt (a : Word) (n : ℕ) : readMem (loadedAt sec bias) (a + bias) n = readMem sec a n := by
  unfold readMem loadedAt
  refine List.map_congr_left fun i _ => ?_
  rw [add_right_comm, add_sub_cancel_right]

theorem Slice.advance_shift (s : Slice) (n : ℕ) :
    (s.shift bias).advance n = (s.advance n).shift bias := by
  unfold Slice.advance Slice.shift
  rw [add_right_comm]

theorem readObject_relocates (n : ℕ) :
    Relocates bias id (readObject sec n) (readObject (loadedAt sec bias) n) := by
  unfold readObject
  refine Relocates.get.bind fun s => .guard ?_
  rw [Slice.advance_shift]
  refine (Relocates.set _).bind fun _ => ?_
  have hmem : readMem (loadedAt sec bias) (s.shift bias).data n = readMem sec s.data n :=
    readMem_loadedAt sec bias s.data n
  rw [hmem]
  exact .pure id _

theorem readU8_relocates : Relocates bias id (readU8 sec) (readU8 (loadedAt sec bias)) :=
  (readObject_relocates sec bias 1).bind fun _ => .pure id _

theorem readU32_relocates : Relocates bias id (readU32 sec) (readU32 (loadedAt sec bias)) :=
  (readObject_relocates sec bias 4).bind fun _ => .pure id _

theorem readSubslice_relocates (n : Word) :
    Relocates bias (Slice.shift bias) (readSubslice n) (readSubslice n) := by
  unfold readSubslice
  refine Relocates.get.bind fun s => .guard ?_
  rw [Slice.advance_shift]
  exact (Relocates.set _).bind fun _ => .pure (Slice.shift bias) ⟨s.data, n.toNat⟩

theorem truncateSlice_relocates (n : ℕ) :
    Relocates bias id (truncateSlice n) (truncateSlice n) := by
  unfold truncateSlice
  refine Relocates.get.bind fun s => .guard ?_
  exact Relocates.set { s with size := n }

theorem readUleb128From_relocates (fuel shift : ℕ) (result : Word) :
    Relocates bias id (readUleb128From sec fuel shift result)
      (readUleb128From (loadedAt sec bias) fuel shift result) := by
  induction fuel generalizing shift result with
  | zero => exact .throw id _
  | succ fuel ih =>
    unfold readUleb128From
    refine .guard ?_
    refine (readU8_relocates sec bias).bind fun byte => .guard ?_
    exact .ite (.pure id _) (ih _ _)

theorem readUleb128_relocates :
    Relocates bias id (readUleb128 sec) (readUleb128 (loadedAt sec bias)) :=
  readUleb128From_relocates sec bias 11 0 0

theorem readSleb128From_relocates (fuel shift : ℕ) (result : Word) :
    Relocates bias id (readSleb128From sec fuel shift result)
      (readSleb128From (loadedAt sec bias) fuel shift result) := by
  induction fuel generalizing shift result with
  | zero => exact .throw id _
  | succ fuel ih =>
    unfold readSleb128From
    refine .guard ?_
    refine (readU8_relocates sec bias).bind fun byte => .guard ?_
    exact .ite (ih _ _) (.ite (.pure id _) (.pure id _))

theorem readSleb128_relocates :
    Relocates bias id (readSleb128 sec) (readSleb128 (loadedAt sec bias)) :=
  readSleb128From_relocates sec bias 11 0 0

/-- Encodings relative to where the pointer itself lies. -/
def isPcRel (encoding : Byte) : Bool := encoding &&& 0xf0 = 0x10

/-- What moving the section does to a pointer read with an encoding. -/
def shiftPtr (encoding : Byte) (bias ptr : Word) : Word := if isPcRel encoding then ptr + bias else ptr

theorem shiftPtr_add (encoding : Byte) (base v : Word) :
    shiftPtr encoding bias base + v = shiftPtr encoding bias (base + v) := by
  unfold shiftPtr
  split
  · exact add_right_comm base bias v
  · rfl

theorem readEncodedPtr_relocates (encoding : Byte) :
    Relocates bias (shiftPtr encoding bias) (readEncodedPtr sec encoding)
      (readEncodedPtr (loadedAt sec bias) encoding) := by
  unfold readEncodedPtr
  dsimp only
  refine .cases (fun hp => Relocates.bind (g := shiftPtr encoding bias) ?_ ?pcrel)
    fun hp => .cases (fun _ _ => rfl)
      fun _ => Relocates.bind (g := shiftPtr encoding bias) ?_ ?absolute
  case pcrel | absolute =>
    intro base
    refine .ite ?_ (.ite ?_ (.ite ?_ (.throw _ _)))
    all_goals
      refine (readObject_relocates sec bias _).bind fun v => ?_
      rw [shiftPtr_add]
      exact .pure (shiftPtr encoding bias) _
  · intro s
    have hpc : isPcRel encoding = true := by simpa [isPcRel] using hp
    simp only [shiftPtr, hpc, if_true]
    rfl
  · intro s
    have hpc : isPcRel encoding = false := by simpa [isPcRel] using hp
    simp only [shiftPtr, hpc]
    rfl

theorem readASCIIZ_relocates (maxSize : ℕ) :
    Relocates bias id (readASCIIZ sec maxSize) (readASCIIZ (loadedAt sec bias) maxSize) := by
  unfold readASCIIZ
  refine Relocates.get.bind fun s => ?_
  have hmem : readMem (loadedAt sec bias) (s.shift bias).data (min maxSize (s.shift bias).size) =
      readMem sec s.data (min maxSize s.size) := readMem_loadedAt sec bias s.data _
  rw [hmem]
  refine .guard ?_
  dsimp only
  rw [Slice.advance_shift]
  exact (Relocates.set _).bind fun _ => .pure id _

theorem readAugChars_relocates (chars : List Byte) (aug : CIEAug) :
    Relocates bias id (readAugChars sec chars aug) (readAugChars (loadedAt sec bias) chars aug) := by
  induction chars generalizing aug with
  | nil => exact .pure id aug
  | cons ch chars ih =>
    unfold readAugChars
    refine .ite ?_ (.ite ?_ (.ite (ih _) (.ite (ih _) (.ite ?_ (.throw _ _)))))
    · exact (readU8_relocates sec bias).bind fun enc => .pure id _
    · exact (readU8_relocates sec bias).bind fun enc => ih _
    · refine (readU8_relocates sec bias).bind fun enc => ?_
      -- the personality pointer is read to get past it
      exact (readEncodedPtr_relocates sec bias (enc &&& 0x7f)).bind fun _ => ih _

theorem readCIE_relocates : Relocates bias id (readCIE sec) (readCIE (loadedAt sec bias)) := by
  unfold readCIE
  refine (readU32_relocates sec bias).bind fun cieLen => .guard ?_
  refine (truncateSlice_relocates bias _).bind fun _ => ?_
  refine (readU32_relocates sec bias).bind fun cieId => .guard ?_
  refine (readU8_relocates sec bias).bind fun version => .guard ?_
  refine (readASCIIZ_relocates sec bias 16).bind fun augStr => ?_
  refine (readUleb128_relocates sec bias).bind fun codeAlign => ?_
  refine (readSleb128_relocates sec bias).bind fun dataAlign => .guard ?_
  refine (readU8_relocates sec bias).bind fun returnReg => ?_
  dsimp only [id]
  cases augStr with
  | nil => exact .pure id _
  | cons ch chars =>
    refine .guard ?_
    refine (readUleb128_relocates sec bias).bind fun augLen => ?_
    refine (readSubslice_relocates bias augLen).bind fun augData => ?_
    refine Relocates.bind (.lift (readAugChars_relocates sec bias chars _ augData)) fun p => ?_
    exact .pure id _

/-- The CIE of an FDE lies in the same section and moves along. -/
theorem readFDEHeader_relocates :
    Relocates bias (· + bias) (readFDEHeader sec) (readFDEHeader (loadedAt sec bias)) := by
  unfold readFDEHeader
  refine (readU32_relocates sec bias).bind fun len => .guard (.guard ?_)
  refine (truncateSlice_relocates bias _).bind fun _ => ?_
  refine (readU32_relocates sec bias).bind fun cieOffset => ?_
  refine Relocates.get.bind fun fde => ?_
  have hcie : (fde.shift bias).data - 4 - BitVec.setWidth 64 cieOffset =
      fde.data - 4 - BitVec.setWidth 64 cieOffset + bias := by
    change fde.data + bias - 4 - BitVec.setWidth 64 cieOffset = _
    ring
  dsimp only [id]
  rw [hcie]
  exact .pure (· + bias) _

theorem readFDEAug_relocates (cie : CIE) :
    Relocates bias (Option.map (shiftPtr cie.aug.lsdaPtrEnc bias)) (readFDEAug sec cie)
      (readFDEAug (loadedAt sec bias) cie) := by
  unfold readFDEAug
  refine .ite ?_ (.pure _ none)
  refine (readUleb128_relocates sec bias).bind fun augLen => ?_
  refine (readSubslice_relocates bias augLen).bind fun augData => ?_
  refine .ite ?_ (.pure _ none)
  refine Relocates.bind (.lift (readEncodedPtr_relocates sec bias _ augData)) fun p => ?_
  exact .pure _ (some p.1)

/-- Only `DW_CFA_set_loc` has an address for an operand. -/
def CfaOp.shift (encoding : Byte) (bias : Word) : CfaOp → CfaOp
  | .setLoc loc => .setLoc (shiftPtr encoding bias loc)
  | op => op

theorem skipExpression_relocates :
    Relocates bias id (skipExpression sec) (skipExpression (loadedAt sec bias)) := by
  unfold skipExpression
  refine (readUleb128_relocates sec bias).bind fun len => ?_
  exact (readSubslice_relocates bias len).bind fun _ => .pure id _

theorem readExtendedOp_relocates (encoding opcode : Byte) :
    Relocates bias (CfaOp.shift encoding bias) (readExtendedOp sec encoding opcode)
      (readExtendedOp (loadedAt sec bias) encoding opcode) := by
  have hu := readUleb128_relocates sec bias
  have hs := readSleb128_relocates sec bias
  have he := skipExpression_relocates sec bias
  unfold readExtendedOp
  split
  case h_1 | h_11 | h_12 | h_24 => exact .pure (CfaOp.shift encoding bias) _
  case h_2 =>
    exact (readEncodedPtr_relocates sec bias encoding).bind fun loc =>
      .pure (CfaOp.shift encoding bias) (.setLoc loc)
  case h_3 | h_4 | h_5 =>
    exact (readObject_relocates sec bias _).bind fun _ => .pure (CfaOp.shift encoding bias) _
  -- one ULEB128 operand, then two of them
  case h_7 | h_8 | h_9 | h_14 | h_15 | h_25 =>
    exact hu.bind fun _ => .pure (CfaOp.shift encoding bias) _
  case h_6 | h_10 | h_13 | h_21 =>
    exact hu.bind fun _ => hu.bind fun _ => .pure (CfaOp.shift encoding bias) _
  -- the signed variants
  case h_20 => exact hs.bind fun _ => .pure (CfaOp.shift encoding bias) _
  case h_18 | h_19 | h_22 =>
    exact hu.bind fun _ => hs.bind fun _ => .pure (CfaOp.shift encoding bias) _
  -- the ones with an expression
  case h_16 => exact he.bind fun _ => .pure (CfaOp.shift encoding bias) _
  case h_17 | h_23 =>
    exact hu.bind fun _ => he.bind fun _ => .pure (CfaOp.shift encoding bias) _
  case h_26 => exact .throw _ _

theorem readOp_relocates (encoding : Byte) :
    Relocates bias (CfaOp.shift encoding bias) (readOp sec encoding)
      (readOp (loadedAt sec bias) encoding) := by
  unfold readOp
  refine (readU8_relocates sec bias).bind fun opcode => ?_
  refine .ite (.pure (CfaOp.shift encoding bias) _) (.ite ?_ (.ite ?_ ?_))
  · exact (readUleb128_relocates sec bias).bind fun _ => .pure (CfaOp.shift encoding bias) _
  · exact .pure (CfaOp.shift encoding bias) _
  · exact readExtendedOp_relocates sec bias encoding opcode

theorem readOps_loadedAt (encoding : Byte) (fuel : ℕ) (s : Slice) :
    readOps (loadedAt sec bias) encoding fuel (s.shift bias) =
      (readOps sec encoding fuel s).map (List.map (CfaOp.shift encoding bias)) := by
  induction fuel generalizing s with
  | zero => rfl
  | succ fuel ih =>
    unfold readOps
    have hsize : (s.shift bias).size = s.size := rfl
    rw [hsize, readOp_relocates sec bias encoding s]
    split_ifs
    · rfl
    · cases (readOp sec encoding).run s with
      | error e => rfl
      | ok p =>
        change (readOps (loadedAt sec bias) encoding fuel (p.2.shift bias) >>= fun ops =>
          pure (CfaOp.shift encoding bias p.1 :: ops)) = _
        rw [ih]
        change _ = Except.map _ (readOps sec encoding fuel p.2 >>= fun ops => pure (p.1 :: ops))
        cases readOps sec encoding fuel p.2 <;> rfl

end Readers

end UnwindCheck
