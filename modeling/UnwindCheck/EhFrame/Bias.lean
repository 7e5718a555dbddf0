import UnwindCheck.EhFrame.Relocation

/-! The bias of the fake load does not show in the table of an FDE. -/
namespace UnwindCheck

/-- The address of the CIE, as soon as the FDE's header is read. -/
def cieAddress (mem : Word → Byte) (bounds : Word × Word) (fdeAddr : Word) : Except String Word := do
  let fde ← makeSlice bounds fdeAddr
  let (cieAddr, _) ← (readFDEHeader mem).run fde
  return cieAddr

variable {δ : Type} [Offset δ]

/-- Loading an address `bias` higher does not wrap around. -/
def Fits (bias a : Word) : Prop := a.toNat + bias.toNat < 2 ^ 64

section Fits
variable {bias a c : Word}

theorem Fits.toNat_add (h : Fits bias a) : (a + bias).toNat = a.toNat + bias.toNat := by
  rw [BitVec.toNat_add]
  exact Nat.mod_eq_of_lt h

theorem Fits.add_lt_add_iff (ha : Fits bias a) (hc : Fits bias c) : a + bias < c + bias ↔ a < c := by
  rw [BitVec.lt_def, BitVec.lt_def, ha.toNat_add, hc.toNat_add]
  omega

theorem Fits.add_le_add_iff (ha : Fits bias a) (hc : Fits bias c) : a + bias ≤ c + bias ↔ a ≤ c := by
  rw [BitVec.le_def, BitVec.le_def, ha.toNat_add, hc.toNat_add]
  omega

theorem Fits.of_lt (ha : a < 0x8000000000000000) (hb : bias < 0x8000000000000000) : Fits bias a := by
  unfold Fits
  bv_omega

/-- Only address 0 of an image loaded where it is linked is null. -/
theorem Fits.eq_zero (h : Fits bias a) (h0 : a + bias = 0) : a = 0 ∧ bias = 0 := by
  have hsum := h.toNat_add
  rw [h0] at hsum
  have hzero : (0 : Word).toNat = 0 := rfl
  constructor
  · apply BitVec.eq_of_toNat_eq
    omega
  · apply BitVec.eq_of_toNat_eq
    omega

end Fits

section Shift
variable (bias : Word)

def EHReaderState.shift (st : EHReaderState) : EHReaderState :=
  { st with currentLoc := st.currentLoc + bias, functionEnd := st.functionEnd + bias }

/-- The same table, built from a load at `bias`. -/
def TableBuilder.rebase (b : TableBuilder δ) : TableBuilder δ := { b with bias := bias }

def FDERecord.shift (r : FDERecord) : FDERecord :=
  { r with
    pcStart := shiftPtr r.cie.aug.fdePtrEnc bias r.pcStart
    cieOps := r.cieOps.map (CfaOp.shift r.cie.aug.fdePtrEnc bias)
    lsdaPtr := r.lsdaPtr.map (shiftPtr r.cie.aug.lsdaPtrEnc bias)
    fdeOps := r.fdeOps.map (CfaOp.shift r.cie.aug.fdePtrEnc bias) }

end Shift

/-- The locations a stream moves to, as far as it runs. -/
def visitedLocs (isCie : Bool) : List CfaOp → EHReaderState → TableBuilder δ → List Word
  | [], _, _ => []
  | op :: ops, st, b => op.newLoc st ::
    match runOp isCie op st b with
    | .ok (st, b) => visitedLocs isCie ops st b
    | .error _ => []

/-- The addresses that running a record computes. -/
def FDERecord.addresses (r : FDERecord) (b : TableBuilder δ) : List Word :=
  r.pcStart :: (r.pcStart + r.pcRange) :: visitedLocs true r.cieOps r.state (r.opened b) ++
    match runStream true r.cieOps r.state (r.opened b) with
    | .ok (st, b) => r.lsdaPtr.toList ++ visitedLocs false r.fdeOps st (r.resumed b)
    | .error _ => []

section Load
variable (δ) (sec : Word → Byte) (fdeVaddr ehFrameStart ehFrameEnd : Word)

/-- The FDE's pointers, the operands of `DW_CFA_set_loc` and the LSDA pointer are encoded relative
to where they lie. -/
def UsesPcRel : Prop :=
  ∀ r, readRecord sec (ehFrameStart, ehFrameEnd) fdeVaddr = .ok r →
    isPcRel r.cie.aug.fdePtrEnc ∧ (r.lsdaPtr.isSome → isPcRel r.cie.aug.lsdaPtrEnc)

/-- No address computed while the FDE is decoded wraps around when the section, linked at its
vaddr, is loaded `bias` above it. -/
structure NoWrap (bias : Word) : Prop where
  start : Fits bias ehFrameStart
  stop : Fits bias ehFrameEnd
  fde : Fits bias fdeVaddr
  cie : ∀ a, cieAddress sec (ehFrameStart, ehFrameEnd) fdeVaddr = .ok a → Fits bias a
  record : ∀ r, readRecord sec (ehFrameStart, ehFrameEnd) fdeVaddr = .ok r →
    ∀ a ∈ r.addresses (TableBuilder.new fdeVaddr 0 : TableBuilder δ), Fits bias a

end Load

section Reading

/-- Two computations that do the same up to the text of their errors, one step at a time. -/
theorem toOption_bind {α β γ ζ : Type} {g : α → β} {h : γ → ζ} {x : Except String α}
    {y : Except String β} {k : α → Except String γ} {l : β → Except String ζ}
    (hx : y.toOption = x.toOption.map g)
    (hk : ∀ a, x = .ok a → (l (g a)).toOption = (k a).toOption.map h) :
    (y >>= l).toOption = (x >>= k).toOption.map h := by
  cases x with
  | error e =>
    cases y with
    | error e' => rfl
    | ok b => cases hx
  | ok a =>
    cases y with
    | error e' => cases hx
    | ok b =>
      obtain rfl : b = g a := Option.some.inj hx
      exact hk a rfl

theorem toOption_map {α β : Type} (g : α → β) (x : Except String α) :
    (x.map g).toOption = x.toOption.map g := by
  cases x <;> rfl

variable {sec : Word → Byte} {bias start stop a : Word}

theorem makeSlice_shift (hstart : Fits bias start) (hstop : Fits bias stop) (ha : Fits bias a) :
    (makeSlice (start + bias, stop + bias) (a + bias)).toOption =
      (makeSlice (start, stop) a).toOption.map (Slice.shift bias) := by
  unfold makeSlice
  simp only [hstart.add_le_add_iff ha, ha.add_le_add_iff hstop]
  split_ifs
  · have hsize : stop + bias - (a + bias) = stop - a := by ring
    rw [hsize]
    rfl
  · rfl

/-- A size is never an address. -/
theorem shiftPtr_format (encoding : Byte) (ptr : Word) :
    shiftPtr (encoding &&& 0x0f) bias ptr = ptr := by
  have h : isPcRel (encoding &&& 0x0f) = false := by
    have hz : encoding &&& 0x0f &&& 0xf0 = 0 := by
      rw [BitVec.and_assoc]
      exact BitVec.and_zero
    unfold isPcRel
    rw [hz]
    rfl
  unfold shiftPtr
  rw [h]
  rfl

/-- Up to the text of an error, the record read from the loaded section is the record as linked
with its addresses moved. -/
theorem readRecord_loadedAt (hstart : Fits bias start) (hstop : Fits bias stop) (ha : Fits bias a)
    (hcie : ∀ c, cieAddress sec (start, stop) a = .ok c → Fits bias c) :
    (readRecord (loadedAt sec bias) (start + bias, stop + bias) (a + bias)).toOption =
      (readRecord sec (start, stop) a).toOption.map (FDERecord.shift bias) := by
  unfold readRecord
  refine toOption_bind (makeSlice_shift hstart hstop ha) fun fde hfde => ?_
  rw [readFDEHeader_relocates sec bias fde]
  refine toOption_bind (toOption_map _ _) fun ⟨cieAddr, fde₁⟩ hhdr => ?_
  have hc : Fits bias cieAddr := by
    apply hcie
    unfold cieAddress
    simp only [hfde, hhdr, bind, Except.bind]
    rfl
  refine toOption_bind (makeSlice_shift hstart hstop hc) fun cieSlice _ => ?_
  rw [readCIE_relocates sec bias cieSlice]
  refine toOption_bind (toOption_map _ _) fun ⟨cie, cieSlice₁⟩ _ => ?_
  dsimp only [id]
  rw [readEncodedPtr_relocates sec bias _ fde₁]
  refine toOption_bind (toOption_map _ _) fun ⟨pcStart, fde₂⟩ _ => ?_
  dsimp only
  rw [readEncodedPtr_relocates sec bias _ fde₂]
  refine toOption_bind (toOption_map _ _) fun ⟨pcRange, fde₃⟩ _ => ?_
  dsimp only
  rw [shiftPtr_format]
  have hops (s : Slice) : (readOps (loadedAt sec bias) cie.aug.fdePtrEnc (s.shift bias).size
      (s.shift bias)).toOption = (readOps sec cie.aug.fdePtrEnc s.size s).toOption.map
        (List.map (CfaOp.shift cie.aug.fdePtrEnc bias)) := by
    rw [← toOption_map, ← readOps_loadedAt]
    rfl
  refine toOption_bind (hops _) fun cieOps _ => ?_
  rw [readFDEAug_relocates sec bias cie fde₃]
  refine toOption_bind (toOption_map _ _) fun ⟨lsdaPtr, fde₄⟩ _ => ?_
  dsimp only
  refine toOption_bind (hops _) fun fdeOps _ => ?_
  rfl

end Reading

section Running
variable {bias : Word}

section
omit [Offset δ]

theorem TableBuilder.rebase_setRule (b : TableBuilder δ) (reg : Word) (rule : RegRule δ) :
    (b.rebase bias).setRule reg rule = (b.setRule reg rule).rebase bias := by
  unfold setRule
  split <;> rfl

theorem TableBuilder.rebase_handleRestore (b : TableBuilder δ) (reg : Word) :
    (b.rebase bias).handleRestore reg = (b.handleRestore reg).rebase bias := by
  unfold handleRestore
  split <;> rfl

theorem TableBuilder.rebase_handleRememberState (b : TableBuilder δ) :
    (b.rebase bias).handleRememberState = b.handleRememberState.map (rebase bias) := by
  have hstack : (b.rebase bias).stack = b.stack := rfl
  unfold handleRememberState
  rw [hstack]
  split_ifs <;> rfl

theorem TableBuilder.rebase_handleRestoreState (b : TableBuilder δ) :
    (b.rebase bias).handleRestoreState = b.handleRestoreState.map (rebase bias) := by
  have hstack : (b.rebase bias).stack = b.stack := rfl
  unfold handleRestoreState
  rw [hstack]
  split <;> rfl

theorem TableBuilder.rebase_handleSetLoc {b : TableBuilder δ} (hb : b.bias = 0) (loc : Word) :
    (b.rebase bias).handleSetLoc (loc + bias) = (b.handleSetLoc loc).rebase bias := by
  have hloaded : loc + bias - (b.rebase bias).bias = loc := add_sub_cancel_right loc bias
  have hlinked : loc - b.bias = loc := by
    rw [hb]
    exact sub_zero loc
  unfold handleSetLoc
  rw [hloaded, hlinked]
  rfl

theorem TableBuilder.rebase_startFDE {b : TableBuilder δ} (hb : b.bias = 0) (returnReg : ℕ)
    (pcStart pcEnd : Word) : (b.rebase bias).startFDE returnReg (pcStart + bias) (pcEnd + bias) =
      (b.startFDE returnReg pcStart pcEnd).rebase bias := by
  have hloaded (a : Word) : a + bias - (b.rebase bias).bias = a := add_sub_cancel_right a bias
  have hlinked (a : Word) : a - b.bias = a := by
    rw [hb]
    exact sub_zero a
  unfold startFDE
  rw [hloaded, hloaded, hlinked, hlinked]
  rfl

theorem TableBuilder.handleLSDA_eq {b : TableBuilder δ} (hlsda : b.result.lsdaAddr = 0) {p : Word}
    (hp : p = 0 → b.bias = 0) :
    b.handleLSDA p = { b with result := { b.result with lsdaAddr := p - b.bias } } := by
  unfold handleLSDA
  split_ifs with h0
  · rfl
  · have hnull : p = 0 := not_not.mp h0
    have hvalue : p - b.bias = b.result.lsdaAddr := by
      rw [hnull, hp hnull, hlsda]
      rfl
    rw [hvalue]

/-- A null LSDA pointer is one at address 0 of an image loaded where it is linked, and the table
has 0 for it either way. -/
theorem TableBuilder.rebase_handleLSDA {b : TableBuilder δ} (hb : b.bias = 0)
    (hlsda : b.result.lsdaAddr = 0) {p : Word} (hp : Fits bias p) :
    (b.rebase bias).handleLSDA (p + bias) = (b.handleLSDA p).rebase bias := by
  have hloaded : p + bias - (b.rebase bias).bias = p := add_sub_cancel_right p bias
  have hlinked : p - b.bias = p := by
    rw [hb]
    exact sub_zero p
  have hnull : p + bias = 0 → (b.rebase bias).bias = 0 := fun h => (hp.eq_zero h).2
  rw [handleLSDA_eq (b := b.rebase bias) hlsda hnull, handleLSDA_eq hlsda fun _ => hb, hloaded,
    hlinked]
  rfl

theorem doSetLoc_shift {b : TableBuilder δ} (hb : b.bias = 0) (isCie : Bool) (loc : Word)
    (st : EHReaderState) : doSetLoc isCie (loc + bias) (st.shift bias) (b.rebase bias) =
      (doSetLoc isCie loc st b).map fun p => (p.1.shift bias, p.2.rebase bias) := by
  unfold doSetLoc
  split_ifs
  · rfl
  · rw [TableBuilder.rebase_handleSetLoc hb]
    rfl

end

/-- One operation does the same at both places: the decoder compares locations where they are
loaded, the builder where they are linked. -/
theorem runOp_shift {encoding : Byte} (henc : isPcRel encoding) {b : TableBuilder δ}
    (hb : b.bias = 0) (isCie : Bool) {op : CfaOp} {st : EHReaderState}
    (hcur : Fits bias st.currentLoc) (hnew : Fits bias (op.newLoc st)) :
    runOp isCie (op.shift encoding bias) (st.shift bias) (b.rebase bias) =
      (runOp isCie op st b).map fun p => (p.1.shift bias, p.2.rebase bias) := by
  cases op with
  | setLoc loc =>
    have hloc : shiftPtr encoding bias loc = loc + bias := by simp [shiftPtr, henc]
    have hlt : loc + bias < (st.shift bias).currentLoc ↔ loc < st.currentLoc :=
      hnew.add_lt_add_iff hcur
    unfold CfaOp.shift runOp
    simp only [hloc, hlt]
    split_ifs
    · rfl
    · exact doSetLoc_shift hb isCie loc st
  | advanceLoc delta =>
    have hloc : (st.shift bias).currentLoc + delta * (st.shift bias).codeAlign =
      st.currentLoc + delta * st.codeAlign + bias := add_right_comm _ _ _
    change doSetLoc isCie ((st.shift bias).currentLoc + delta * (st.shift bias).codeAlign)
      (st.shift bias) (b.rebase bias) = _
    rw [hloc]
    exact doSetLoc_shift hb isCie _ st
  | restore reg =>
    exact congrArg (fun b => Except.ok (st.shift bias, b)) (b.rebase_handleRestore reg)
  | offset reg offset | undefined reg | sameValue reg | expression reg | valExpression reg
  | register reg storedIn | valOffset reg offset =>
    exact congrArg (fun b => Except.ok (st.shift bias, b)) (b.rebase_setRule _ _)
  | rememberState =>
    change ((b.rebase bias).handleRememberState >>= fun b => pure (st.shift bias, b)) = _
    rw [b.rebase_handleRememberState]
    simp only [runOp]
    cases b.handleRememberState <;> rfl
  | restoreState =>
    change ((b.rebase bias).handleRestoreState >>= fun b => pure (st.shift bias, b)) = _
    rw [b.rebase_handleRestoreState]
    simp only [runOp]
    cases b.handleRestoreState <;> rfl
  | nop | defCfa | defCfaSf | defCfaRegister | defCfaOffset | defCfaOffsetSf | defCfaExpression =>
    rfl

theorem runOp_currentLoc {isCie : Bool} {op : CfaOp} {st st' : EHReaderState}
    {b b' : TableBuilder δ} (h : runOp isCie op st b = .ok (st', b')) :
    st'.currentLoc = op.newLoc st ∧ b'.bias = b.bias := by
  cases hop : op.isMove with
  | true =>
    obtain ⟨-, rfl, rfl⟩ := runOp_move hop h
    exact ⟨rfl, rfl⟩
  | false =>
    obtain ⟨rfl, hb⟩ := runOp_samePlace hop h
    refine ⟨?_, hb.bias⟩
    cases op <;> first | rfl | cases hop

theorem runStream_shift {encoding : Byte} (henc : isPcRel encoding) {isCie : Bool} {ops : List CfaOp}
    {st : EHReaderState} {b : TableBuilder δ} (hb : b.bias = 0) (hcur : Fits bias st.currentLoc)
    (hlocs : ∀ a ∈ visitedLocs isCie ops st b, Fits bias a) :
    runStream isCie (ops.map (CfaOp.shift encoding bias)) (st.shift bias) (b.rebase bias) =
      (runStream isCie ops st b).map fun p => (p.1.shift bias, p.2.rebase bias) := by
  induction ops generalizing st b with
  | nil => rfl
  | cons op ops ih =>
    unfold visitedLocs at hlocs
    have hnew : Fits bias (op.newLoc st) := hlocs _ List.mem_cons_self
    rw [List.map_cons, runStream, runStream, runOp_shift henc hb isCie hcur hnew]
    cases hop : runOp isCie op st b with
    | error e => rfl
    | ok p =>
      obtain ⟨st', b'⟩ := p
      obtain ⟨hloc', hb'⟩ := runOp_currentLoc hop
      simp only [hop] at hlocs
      exact ih (hb'.trans hb) (hloc' ▸ hnew) fun a ha => hlocs a (List.mem_cons_of_mem _ ha)

namespace FDERecord
variable {r : FDERecord} {b : TableBuilder δ}

theorem state_shift (henc : isPcRel r.cie.aug.fdePtrEnc) :
    (r.shift bias).state = r.state.shift bias := by
  have hstart : (r.shift bias).pcStart = r.pcStart + bias := by simp [shift, shiftPtr, henc]
  have hend : r.pcStart + bias + r.pcRange = r.pcStart + r.pcRange + bias := add_right_comm _ _ _
  unfold state
  rw [hstart]
  exact congrArg (fun stop => EHReaderState.mk _ stop _ _ _) hend

omit [Offset δ] in
theorem opened_shift (henc : isPcRel r.cie.aug.fdePtrEnc) (hb : b.bias = 0) :
    (r.shift bias).opened (b.rebase bias) = (r.opened b).rebase bias := by
  have hstart : (r.shift bias).pcStart = r.pcStart + bias := by simp [shift, shiftPtr, henc]
  have hend : r.pcStart + bias + r.pcRange = r.pcStart + r.pcRange + bias := add_right_comm _ _ _
  have haug : (if (r.shift bias).cie.aug.signalFrame then (b.rebase bias).handleAugS
      else b.rebase bias) = (if r.cie.aug.signalFrame then b.handleAugS else b).rebase bias := by
    change (if r.cie.aug.signalFrame then (b.rebase bias).handleAugS else b.rebase bias) = _
    split_ifs <;> rfl
  have hbias : (if r.cie.aug.signalFrame then b.handleAugS else b).bias = 0 := by
    split_ifs
    · exact hb
    · exact hb
  unfold opened
  rw [haug, hstart]
  change TableBuilder.startFDE _ r.cie.returnReg _ (r.pcStart + bias + r.pcRange) = _
  rw [hend, TableBuilder.rebase_startFDE hbias]

omit [Offset δ] in
theorem resumed_shift (henc : r.lsdaPtr.isSome → isPcRel r.cie.aug.lsdaPtrEnc) (hb : b.bias = 0)
    (hlsda : b.result.lsdaAddr = 0) (hp : ∀ p, r.lsdaPtr = some p → Fits bias p) :
    (r.shift bias).resumed (b.rebase bias) = (r.resumed b).rebase bias := by
  have hshift : (r.shift bias).lsdaPtr = r.lsdaPtr.map (shiftPtr r.cie.aug.lsdaPtrEnc bias) := rfl
  unfold resumed
  rw [hshift]
  cases hptr : r.lsdaPtr with
  | none => rfl
  | some p =>
    rw [hptr] at henc
    have hmove : shiftPtr r.cie.aug.lsdaPtrEnc bias p = p + bias := by
      simp [shiftPtr, henc rfl]
    simp only [Option.map_some, hmove]
    rw [TableBuilder.rebase_handleLSDA hb hlsda (hp p hptr)]
    rfl

/-- Running the loaded record builds the table of the linked one. -/
theorem build_shift (henc : isPcRel r.cie.aug.fdePtrEnc)
    (hlsdaEnc : r.lsdaPtr.isSome → isPcRel r.cie.aug.lsdaPtrEnc) (hb : b.bias = 0)
    (hlsda : b.result.lsdaAddr = 0) (hfits : ∀ a ∈ r.addresses b, Fits bias a) :
    (r.shift bias).build (b.rebase bias) = (r.build b).map (TableBuilder.rebase bias) := by
  unfold addresses at hfits
  have hpc : Fits bias r.pcStart := hfits _ (by simp)
  have hlocs : ∀ a ∈ visitedLocs true r.cieOps r.state (r.opened b), Fits bias a :=
    fun a ha => hfits a (by simp [ha])
  have hopened : (r.opened b).bias = 0 := by
    unfold opened
    split_ifs
    · exact hb
    · exact hb
  have hcieLsda : (r.opened b).result.lsdaAddr = 0 := by
    unfold opened
    split_ifs
    · exact hlsda
    · exact hlsda
  unfold build
  rw [state_shift henc, opened_shift henc hb]
  change (runStream true (r.cieOps.map _) _ _ >>= _) = _
  rw [runStream_shift henc hopened hpc hlocs]
  cases hrun : runStream true r.cieOps r.state (r.opened b) with
  | error e => rfl
  | ok p =>
    obtain ⟨st₁, b₁⟩ := p
    obtain ⟨rfl, hplace⟩ := runStream_cie hrun
    have hb₁ : b₁.bias = 0 := hplace.bias.trans hopened
    have hlsda₁ : b₁.result.lsdaAddr = 0 := (runStream_header hrun).2.1.trans hcieLsda
    simp only [hrun] at hfits
    have hptr : ∀ p, r.lsdaPtr = some p → Fits bias p := fun p hp => hfits p (by simp [hp])
    have hlocs' : ∀ a ∈ visitedLocs false r.fdeOps r.state (r.resumed b₁), Fits bias a :=
      fun a ha => hfits a (by simp [ha])
    have hresumed : (r.resumed b₁).bias = 0 := (r.resumed_resumed b₁).bias.trans hb₁
    change (runStream false (r.fdeOps.map _) (r.state.shift bias)
      ((r.shift bias).resumed (b₁.rebase bias)) >>= _) =
        Except.map _ (runStream false r.fdeOps r.state (r.resumed b₁) >>= _)
    rw [resumed_shift hlsdaEnc hb₁ hlsda₁ hptr, runStream_shift henc hresumed hpc hlocs']
    cases hrun' : runStream false r.fdeOps r.state (r.resumed b₁) with
    | error e => rfl
    | ok p =>
      obtain ⟨st₂, b₂⟩ := p
      obtain ⟨-, hb₂, -⟩ := runStream_samePlace hrun'
      exact congrArg Except.ok (TableBuilder.rebase_handleSetLoc (hb₂.trans hresumed) st₂.functionEnd)

end FDERecord

end Running

section Load
variable {sec : Word → Byte} {fdeVaddr ehFrameStart ehFrameEnd bias bias₁ bias₂ : Word}

theorem parseFDE_loadedAt (henc : UsesPcRel sec fdeVaddr ehFrameStart ehFrameEnd)
    (hwrap : NoWrap δ sec fdeVaddr ehFrameStart ehFrameEnd bias) {b' : TableBuilder δ} :
    parseFDE (loadedAt sec bias) (ehFrameStart + bias, ehFrameEnd + bias) (fdeVaddr + bias)
        (TableBuilder.new fdeVaddr bias) = .ok b' ↔
      ∃ b, parseFDE sec (ehFrameStart, ehFrameEnd) fdeVaddr (TableBuilder.new fdeVaddr 0) = .ok b ∧
        b' = b.rebase bias := by
  have hread := readRecord_loadedAt hwrap.start hwrap.stop hwrap.fde hwrap.cie
  have hbuild {r : FDERecord} (hr : readRecord sec (ehFrameStart, ehFrameEnd) fdeVaddr = .ok r) :
      (r.shift bias).build (TableBuilder.new fdeVaddr bias : TableBuilder δ) =
        (r.build (TableBuilder.new fdeVaddr 0)).map (TableBuilder.rebase bias) :=
    FDERecord.build_shift (henc r hr).1 (henc r hr).2 rfl rfl (hwrap.record r hr)
  rw [parseFDE_ok_iff]
  constructor
  · rintro ⟨r', hr', hb'⟩
    rw [hr'] at hread
    cases hr : readRecord sec (ehFrameStart, ehFrameEnd) fdeVaddr with
    | error e =>
      rw [hr] at hread
      cases hread
    | ok r =>
      rw [hr] at hread
      obtain rfl : r' = r.shift bias := Option.some.inj hread
      rw [hbuild hr] at hb'
      cases hb : r.build (TableBuilder.new fdeVaddr 0 : TableBuilder δ) with
      | error e =>
        rw [hb] at hb'
        cases hb'
      | ok b =>
        rw [hb] at hb'
        exact ⟨b, parseFDE_ok_iff.mpr ⟨r, hr, hb⟩, (Except.ok.inj hb').symm⟩
  · rintro ⟨b, hb, rfl⟩
    obtain ⟨r, hr, hb⟩ := parseFDE_ok_iff.mp hb
    rw [hr] at hread
    refine ⟨r.shift bias, ?_, ?_⟩
    · cases hr' : readRecord (loadedAt sec bias) (ehFrameStart + bias, ehFrameEnd + bias)
        (fdeVaddr + bias) with
      | error e =>
        rw [hr'] at hread
        cases hread
      | ok r' =>
        rw [hr'] at hread
        exact congrArg Except.ok (Option.some.inj hread)
    · rw [hbuild hr, hb]
      rfl

theorem readFDE_ok_iff {mem : Word → Byte} {cfi : CFI δ} :
    readFDE mem fdeVaddr ehFrameStart ehFrameEnd bias = .ok cfi ↔
      ∃ b, parseFDE mem (ehFrameStart + bias, ehFrameEnd + bias) (fdeVaddr + bias)
          (TableBuilder.new fdeVaddr bias) = .ok b ∧
        ¬ (b.result.rows.isEmpty ∧ b.result.pcBegin < b.result.pcEnd) ∧ b.result = cfi := by
  unfold readFDE
  constructor
  · intro h
    obtain ⟨b, hb, h⟩ := except_bind_ok h
    split_ifs at h with hempty
    · cases h
    · cases h
      exact ⟨b, hb, hempty, rfl⟩
  · rintro ⟨b, hb, hempty, rfl⟩
    rw [hb]
    change (if b.result.rows.isEmpty ∧ b.result.pcBegin < b.result.pcEnd then _ else _) = _
    rw [if_neg hempty]
    rfl

/-- An FDE is read from the loaded section as it is where it is linked. -/
theorem readFDE_loadedAt (henc : UsesPcRel sec fdeVaddr ehFrameStart ehFrameEnd)
    (hwrap : NoWrap δ sec fdeVaddr ehFrameStart ehFrameEnd bias) (cfi : CFI δ) :
    readFDE (loadedAt sec bias) fdeVaddr ehFrameStart ehFrameEnd bias = .ok cfi ↔
      readFDE sec fdeVaddr ehFrameStart ehFrameEnd 0 = .ok cfi := by
  rw [readFDE_ok_iff, readFDE_ok_iff]
  simp only [add_zero, parseFDE_loadedAt henc hwrap]
  constructor
  · rintro ⟨-, ⟨b, hb, rfl⟩, hrest⟩
    exact ⟨b, hb, hrest⟩
  · rintro ⟨b, hb, hrest⟩
    exact ⟨b.rebase bias, ⟨b, hb, rfl⟩, hrest⟩

/-- The place of the load does not show: an FDE whose pointers are relative is refused at both of
two places, or has the same table at both, which is its table as linked. -/
theorem readFDE_bias_invisible (henc : UsesPcRel sec fdeVaddr ehFrameStart ehFrameEnd)
    (h₁ : NoWrap δ sec fdeVaddr ehFrameStart ehFrameEnd bias₁)
    (h₂ : NoWrap δ sec fdeVaddr ehFrameStart ehFrameEnd bias₂) :
    ((∃ e, readFDE (δ := δ) (loadedAt sec bias₁) fdeVaddr ehFrameStart ehFrameEnd bias₁ = .error e) ∧
      ∃ e, readFDE (δ := δ) (loadedAt sec bias₂) fdeVaddr ehFrameStart ehFrameEnd bias₂ = .error e) ∨
    ∃ cfi : CFI δ, readFDE (loadedAt sec bias₁) fdeVaddr ehFrameStart ehFrameEnd bias₁ = .ok cfi ∧
      readFDE (loadedAt sec bias₂) fdeVaddr ehFrameStart ehFrameEnd bias₂ = .ok cfi ∧
        readFDE sec fdeVaddr ehFrameStart ehFrameEnd 0 = .ok cfi := by
  cases hlinked : readFDE (δ := δ) sec fdeVaddr ehFrameStart ehFrameEnd 0 with
  | ok cfi =>
    exact Or.inr ⟨cfi, (readFDE_loadedAt henc h₁ cfi).mpr hlinked,
      (readFDE_loadedAt henc h₂ cfi).mpr hlinked, rfl⟩
  | error e =>
    have hfails {bias : Word} (h : NoWrap δ sec fdeVaddr ehFrameStart ehFrameEnd bias) :
        ∃ e, readFDE (δ := δ) (loadedAt sec bias) fdeVaddr ehFrameStart ehFrameEnd bias = .error e := by
      cases hloaded : readFDE (δ := δ) (loadedAt sec bias) fdeVaddr ehFrameStart ehFrameEnd bias with
      | error e => exact ⟨e, rfl⟩
      | ok cfi =>
        have hok := (readFDE_loadedAt henc h cfi).mp hloaded
        rw [hlinked] at hok
        cases hok
    exact Or.inl ⟨hfails h₁, hfails h₂⟩

end Load

namespace Sample

/-- DW_CFA_set_loc 0x1004, relative to its operand; DW_CFA_def_cfa_offset 16. -/
def setLocInsns : List Byte := [0x01, 0xda, 0xef, 0xff, 0xff, 0x0e, 0x10]

def setLocRecord : FDERecord where
  cie := ⟨1, -8, 16, true, ⟨0x1b, 0xff, false⟩⟩
  pcStart := 0x1000
  pcRange := 16
  cieOps := [.defCfa 7 8, .offset 16 1, .nop, .nop]
  lsdaPtr := none
  fdeOps := [.setLoc 0x1004, .defCfaOffset 16]

theorem readRecord_setLocInsns :
    readRecord (ehFrameMem setLocInsns) (0x2000, 0x2033) 0x2018 = .ok setLocRecord := by
  rfl

theorem noWrap_setLocInsns {bias : Word} (h : bias < 0x8000000000000000) :
    NoWrap Int64 (ehFrameMem setLocInsns) 0x2018 0x2000 0x2033 bias where
  start := .of_lt (by decide) h
  stop := .of_lt (by decide) h
  fde := .of_lt (by decide) h
  cie a ha := by
    have hcie : cieAddress (ehFrameMem setLocInsns) (0x2000, 0x2033) 0x2018 = .ok 0x2000 := rfl
    obtain rfl : 0x2000 = a := Except.ok.inj (hcie.symm.trans ha)
    exact .of_lt (by decide) h
  record r hr a ha := by
    obtain rfl : setLocRecord = r := Except.ok.inj (readRecord_setLocInsns.symm.trans hr)
    have hall : (setLocRecord.addresses (TableBuilder.new 0x2018 0 : TableBuilder Int64)).all
      (· < 0x8000000000000000) = true := by decide +kernel
    exact .of_lt (by simpa using List.all_eq_true.mp hall a ha) h

end Sample

/-- At address 0x10000 and at 0x7f0000000000 the sample has the table it was linked with. -/
theorem setLocInsns_bias_invisible :
    ∃ cfi : CFI Int64,
      readFDE (loadedAt (Sample.ehFrameMem Sample.setLocInsns) 0x10000) 0x2018 0x2000 0x2033 0x10000 =
          .ok cfi ∧
        readFDE (loadedAt (Sample.ehFrameMem Sample.setLocInsns) 0x7f0000000000) 0x2018 0x2000 0x2033
            0x7f0000000000 = .ok cfi ∧
          cfi.pcBegin = 0x1000 ∧ cfi.pcEnd = 0x1010 ∧
            cfi.rows.map (·.pcStart) = [0x1000, 0x1004] := by
  have henc : UsesPcRel (Sample.ehFrameMem Sample.setLocInsns) 0x2018 0x2000 0x2033 := by
    intro r hr
    obtain rfl : Sample.setLocRecord = r :=
      Except.ok.inj (Sample.readRecord_setLocInsns.symm.trans hr)
    exact ⟨by decide, by decide⟩
  obtain ⟨linked, hlinked, hrows⟩ : ∃ cfi : CFI Int64,
      readFDE (Sample.ehFrameMem Sample.setLocInsns) 0x2018 0x2000 0x2033 0 = .ok cfi ∧
        cfi.pcBegin = 0x1000 ∧ cfi.pcEnd = 0x1010 ∧
          cfi.rows.map (·.pcStart) = [0x1000, 0x1004] :=
    ⟨_, rfl, rfl, rfl, rfl⟩
  have hlow : NoWrap Int64 (Sample.ehFrameMem Sample.setLocInsns) 0x2018 0x2000 0x2033 0x10000 :=
    Sample.noWrap_setLocInsns (by decide)
  have hhigh : NoWrap Int64 (Sample.ehFrameMem Sample.setLocInsns) 0x2018 0x2000 0x2033
    0x7f0000000000 := Sample.noWrap_setLocInsns (by decide)
  rcases readFDE_bias_invisible henc hlow hhigh with ⟨⟨e, he⟩, -⟩ | h
  · have hok := (readFDE_loadedAt henc hlow linked).mpr hlinked
    rw [he] at hok
    cases hok
  · obtain ⟨cfi, hcfi₁, hcfi₂, hcfi⟩ := h
    obtain rfl : cfi = linked := Except.ok.inj (hcfi.symm.trans hlinked)
    exact ⟨cfi, hcfi₁, hcfi₂, hrows⟩

end UnwindCheck
