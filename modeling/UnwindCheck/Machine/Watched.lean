import UnwindCheck.Checker.Paths
import UnwindCheck.Checker.Seed
import UnwindCheck.Machine.Memory
import UnwindCheck.Machine.Unwinder

/-! A machine, and states that are right about the part of it that is watched: what a silent
comparison with a row then says about unwinding, and what the state seeded from a row says. -/
namespace UnwindCheck

/-- What the machine has in one of the places a state tracks. -/
def Machine.word (m : Machine) (cfa : Word) : Component Int64 → Word
  | .reg r => m.regs r
  | .slot k => m.load (cfa + k.toBitVec) 8

section Restrict
variable {K : Set (Component Int64)} {s t : AbsState Int64} {m : Machine} {ρ : Reading}

/-- What a state says about the places in `K` is so. -/
def Reading.DescribesOn (ρ : Reading) (K : Set (Component Int64)) (s : AbsState Int64) (m : Machine) :
    Prop := ∀ c ∈ K, ρ.Holds (s.get c) (m.word ρ.cfa c)

/-- Only what is named matters. -/
theorem Reading.holds_congr {v w : AbsVal Int64} (h : v.named = w.named) {x : Word}
    (hv : ρ.Holds v x) : ρ.Holds w x := by
  by_cases hn : w.named = none
  · exact holds_of_unnamed hn x
  · rwa [AbsVal.eq_of_named h.symm hn]

theorem Reading.DescribesOn.congr (hm : ρ.DescribesOn K s m) (h : s.AgreeOn K t) :
    ρ.DescribesOn K t m := fun c hc => holds_congr (h c hc) (hm c hc)

open Classical in
/-- The state that says nothing outside `K`. -/
noncomputable def AbsState.restrict (s : AbsState Int64) (K : Set (Component Int64)) : AbsState Int64 :=
  { s with
    gpr := fun r => if .reg r ∈ K then s.gpr r else .top
    slots := s.slots.filter fun k _ => decide (.slot k ∈ K) }

open Classical in
theorem AbsState.restrict_get (s : AbsState Int64) (K : Set (Component Int64)) (c : Component Int64) :
    (s.restrict K).get c = if c ∈ K then s.get c else .top := by
  cases c with
  | reg r => rfl
  | slot k =>
    simp only [get, slot, restrict]
    rw [Std.ExtTreeMap.getElem?_filter']
    by_cases hk : Component.slot k ∈ K <;> cases s.slots[k]? <;> simp [hk, Option.filter]

theorem AbsState.restrict_agreeOn (s : AbsState Int64) (K : Set (Component Int64)) :
    (s.restrict K).AgreeOn K s := by
  intro c hc
  rw [restrict_get, if_pos hc]

theorem AbsState.restrict_univ (s : AbsState Int64) : s.restrict Set.univ = s := by
  have hslots : s.slots.filter (fun _ _ => true) = s.slots := by
    apply Std.ExtTreeMap.ext_getElem?
    intro k
    rw [Std.ExtTreeMap.getElem?_filter']
    cases s.slots[k]? <;> rfl
  unfold restrict
  simp [hslots]

theorem Reading.DescribesOn.restrict (h : ρ.DescribesOn K s m) : ρ.Describes (s.restrict K) m := by
  have hall : ∀ c, ρ.Holds ((s.restrict K).get c) (m.word ρ.cfa c) := by
    intro c
    rw [AbsState.restrict_get]
    split_ifs with hc
    · exact h c hc
    · trivial
  exact ⟨fun r => hall (.reg r), fun k => hall (.slot k)⟩

theorem Reading.Describes.describesOn (h : ρ.Describes s m) (K : Set (Component Int64)) :
    ρ.DescribesOn K s m := by
  intro c _
  cases c with
  | reg r => exact h.gpr r
  | slot k => exact h.slot k

end Restrict

/-- How entry values are read in an activation. -/
def Frame.reading (f : Frame) : Reading := .ofEntry f.cfa f.entry

/-- A rule an unwinder can go by without evaluating an expression. -/
def RegRule.isPlain : RegRule Int64 → Bool
  | .atCFAOffset _ | .sameValue | .inRegister _ => true
  | .unset | .undefined | .valOffset _ | .expression | .valExpression => false

/-- An unwinder that goes by `row` finds the CFA of the frame, and by each plain rule the caller's
value. -/
structure CFIRow.Unwinds (row : CFIRow Int64) (f : Frame) (m : Machine) : Prop where
  cfa : evalCFA row.cfa m.regs = some f.cfa
  regs : ∀ r, (row.regs r).isPlain = true →
    recover (row.regs r) r f.cfa m.regs (fun a => m.load a 8) = some (f.entry r)

section Unwinds
variable {row : CFIRow Int64} {f : Frame} {m : Machine} {K : Set (Component Int64)}
  {st : AbsState Int64}

/-- The places a row is compared by. -/
def CFIRow.consulted (row : CFIRow Int64) : Set (Component Int64) := {c | rowDependsOn row c = true}

/-- A register silently compared with an entry value, where what is said about it is so. -/
theorem regValue_of_origReg (h : f.reading.DescribesOn K st m) {q r : ℕ} (hq : st.reg q = .origReg r)
    (hK : ∀ hlt : q < 16, .reg ⟨q, hlt⟩ ∈ K) : regValue m.regs q = some (f.entry r) := by
  by_cases hlt : q < 16
  · have hw : f.reading.Holds (st.gpr ⟨q, hlt⟩) (m.regs ⟨q, hlt⟩) := h _ (hK hlt)
    rw [← st.reg_of_lt hlt, hq] at hw
    rw [regValue, dif_pos hlt]
    exact congrArg some hw
  · rw [st.reg_of_ge (by omega)] at hq
    cases hq

/-- A row that was silently compared with a state unwinds every machine the state is right about. -/
theorem RowChecker.unwinds_of_check {rc : RowChecker} (hsilent : rc.check row st = [])
    (hK : row.consulted ⊆ K) (h : f.reading.DescribesOn K st m) : row.Unwinds f m := by
  obtain ⟨hcfa, hregs⟩ := rc.check_eq_nil.mp hsilent
  obtain ⟨hkind, delta, hd, hzero⟩ := rc.checkCFA_eq_nil.mp hcfa
  constructor
  · have hlt : row.cfa.reg < 16 := by
      by_contra hge
      rw [st.reg_of_ge (by omega)] at hd
      cases hd
    have hin : Component.reg ⟨row.cfa.reg, hlt⟩ ∈ K := hK (by simp [CFIRow.consulted, rowDependsOn, hkind])
    have hw : f.reading.Holds (st.gpr ⟨row.cfa.reg, hlt⟩) (m.regs ⟨row.cfa.reg, hlt⟩) := h _ hin
    rw [← st.reg_of_lt hlt, hd] at hw
    have hreg : m.regs ⟨row.cfa.reg, hlt⟩ = f.cfa + delta.toBitVec := hw
    have hsum : delta.toBitVec + row.cfa.offset.toBitVec = 0 := by
      rw [← Int64.toBitVec_add]
      exact (ofInt_zero_iff _).mp hzero
    simp only [evalCFA, hkind, regValue, dif_pos hlt, Option.map_some, hreg]
    rw [BitVec.add_assoc, hsum, add_zero]
  · intro r hplain
    have hr := hregs r
    have hmem : ∀ c, rowDependsOn row c = true → c ∈ K := fun c hc => hK hc
    cases hrule : row.regs r with
    | atCFAOffset offset =>
      rw [hrule] at hr
      have hslot : st.slot offset = .origReg r := (rc.compareValue_eq_nil.mp hr).2
      have hw := h (.slot offset) (hmem _ (by simpa [rowDependsOn] using ⟨r, hrule⟩))
      rw [AbsState.get, hslot] at hw
      exact congrArg some hw
    | sameValue =>
      rw [hrule] at hr
      refine regValue_of_origReg h (rc.compareValue_eq_nil.mp hr).2 fun hlt => hmem _ ?_
      simp only [rowDependsOn, Bool.or_eq_true, List.any_eq_true]
      exact .inr ⟨r, List.mem_finRange r, by simp [hrule]⟩
    | inRegister q =>
      rw [hrule] at hr
      refine regValue_of_origReg h (rc.compareValue_eq_nil.mp hr).2 fun hlt => hmem _ ?_
      simp only [rowDependsOn, Bool.or_eq_true, List.any_eq_true]
      exact .inr ⟨r, List.mem_finRange r, by simp [hrule]⟩
    | unset | undefined | valOffset | expression | valExpression => simp [hrule, RegRule.isPlain] at hplain

end Unwinds

/-- rsp points at the return address, and the registers a callee must preserve hold what they held on
entry. -/
structure Frame.Held (f : Frame) (m : Machine) : Prop where
  rsp : m.regs kDWARFRsp = f.cfa - 8
  saved : ∀ r ∈ kCalleeSaved, m.regs r = f.entry r

/-- The machine is back in the state of the call: the return address is that of the call as well. -/
structure Frame.Restored (f : Frame) (m : Machine) : Prop extends f.Held m where
  ra : m.load (f.cfa - 8) 8 = f.entry kDWARFRip

/-- The exit check is silent only in an FDE with a canonical entry. -/
theorem restored_of_checkExitState {canonical isTailCall : Bool} {pc : Word} {st : AbsState Int64}
    (h : checkExitState canonical pc st isTailCall = []) : st.Restored := by
  cases canonical with
  | true => exact checkExitState_eq_nil.mp h
  | false => cases h

/-- The word below the CFA. -/
theorem Frame.cfa_minus (f : Frame) :
    f.cfa + (Offset.ofInt (-8) : Int64).toBitVec = f.cfa - 8 := by
  rw [show (Offset.ofInt (-8) : Int64).toBitVec = -8 from rfl]
  bv_omega

section Exits
variable {f : Frame} {m : Machine} {st : AbsState Int64} {K : Set (Component Int64)}
  (hK : exitComponents ⊆ K) (h : f.reading.DescribesOn K st m)
include hK h

theorem Frame.held_of_describesOn (hrsp : st.gpr kDWARFRsp = .cfaRel (Offset.ofInt (-8)))
    (hsaved : ∀ r ∈ kCalleeSaved, st.gpr r = .origReg r) : f.Held m := by
  constructor
  · have hw := h (.reg kDWARFRsp) (hK (.inl rfl))
    rw [AbsState.get, hrsp] at hw
    rw [← f.cfa_minus]
    exact hw
  · intro r hin
    have hw := h (.reg r) (hK (.inr (.inl ⟨r, hin, rfl⟩)))
    rw [AbsState.get, hsaved r hin] at hw
    exact hw

theorem Frame.restored_of_describesOn (hr : st.Restored) : f.Restored m := by
  refine ⟨Frame.held_of_describesOn hK h hr.rsp hr.saved, ?_⟩
  have hw := h (.slot (Offset.ofInt (-8))) (hK (.inr (.inr rfl)))
  rw [AbsState.get, hr.ra] at hw
  rw [← f.cfa_minus]
  exact hw

end Exits

/-- The register is said to be kept elsewhere; the state seeded from the row still has its entry value
in it as well. -/
def RegRule.isMoved : RegRule Int64 → Bool
  | .atCFAOffset _ | .inRegister _ => true
  | .unset | .undefined | .sameValue | .valOffset _ | .expression | .valExpression => false

section Seed
variable {row : CFIRow Int64} {f : Frame} {m : Machine} {K : Set (Component Int64)}

/-- What a row says about the machine, `val_offset` rules taken for the current value as the checker
takes them. -/
structure CFIRow.HoldsOf (row : CFIRow Int64) (f : Frame) (m : Machine) : Prop extends
    row.Unwinds f m where
  val : ∀ (r : Fin 16) offset, row.regs r.castSucc = .valOffset offset →
    m.regs r = f.cfa + offset.toBitVec

/-- A rule that does not write its own register. -/
def CFIRow.LeavesOwn (row : CFIRow Int64) (atFunctionEntry : Bool) (r : Fin 17) : Prop :=
  (row.regs r).isMoved = true ∨ row.regs r = .sameValue ∨ row.regs r = .unset ∧ atFunctionEntry = true

/-- Half way through the rules: what is watched is so, unless it is a register whose own rule is still
to come and writes over it. -/
def SeedSound (row : CFIRow Int64) (f : Frame) (m : Machine) (K : Set (Component Int64))
    (atFunctionEntry : Bool) (rest : List (Fin 17)) (s : AbsState Int64) : Prop :=
  ∀ c ∈ K, f.reading.Holds (s.get c) (m.word f.cfa c) ∨
    ∃ r : Fin 16, c = .reg r ∧ r.castSucc ∈ rest ∧ ¬ row.LeavesOwn atFunctionEntry r.castSucc

variable {atFunctionEntry : Bool} {r : Fin 17} {rest : List (Fin 17)} {s : AbsState Int64}

theorem SeedSound.skip (h : SeedSound row f m K atFunctionEntry (r :: rest) s)
    (hr : row.LeavesOwn atFunctionEntry r) : SeedSound row f m K atFunctionEntry rest s := by
  intro c hc
  rcases h c hc with hholds | ⟨p, hp, hin, hwrites⟩
  · exact .inl hholds
  · refine .inr ⟨p, hp, (List.mem_cons.mp hin).resolve_left fun he => hwrites ?_, hwrites⟩
    rw [he]
    exact hr

/-- A true value put into a register. -/
theorem SeedSound.putGpr (h : SeedSound row f m K atFunctionEntry (r :: rest) s) {q : ℕ}
    {v : AbsVal Int64} (hv : ∀ p : Fin 16, p.val = q → f.reading.Holds v (m.regs p))
    (hr : q = r.val ∨ row.LeavesOwn atFunctionEntry r) :
    SeedSound row f m K atFunctionEntry rest (s.putGpr q v) := by
  intro c hc
  cases c with
  | slot k =>
    left
    have hslot : (s.putGpr q v).slot k = s.slot k := by
      unfold AbsState.slot
      rw [AbsState.putGpr_slots]
    rw [AbsState.get, hslot]
    rcases h _ hc with hholds | ⟨p, hp, -⟩
    · exact hholds
    · cases hp
  | reg p =>
    by_cases hq : q = p.val
    · left
      subst hq
      rw [AbsState.get, AbsState.putGpr_gpr_self]
      exact hv p rfl
    · rw [AbsState.get, AbsState.putGpr_gpr_of_ne _ _ hq]
      rcases h _ hc with hholds | ⟨p', hp, hin, hwrites⟩
      · exact .inl hholds
      · cases hp
        refine .inr ⟨p, rfl, (List.mem_cons.mp hin).resolve_left fun he => ?_, hwrites⟩
        rcases hr with hr | hr
        · exact hq (by rw [hr, ← he]; rfl)
        · exact hwrites (he ▸ hr)

/-- The rule of one register. -/
theorem SeedSound.seedReg (hrow : row.HoldsOf f m)
    (h : SeedSound row f m K atFunctionEntry (r :: rest) s) :
    SeedSound row f m K atFunctionEntry rest (AbsState.seedReg row atFunctionEntry s r) := by
  have htop : ∀ p : Fin 16, p.val = r.val → f.reading.Holds .top (m.regs p) := fun _ _ => trivial
  have hplain := hrow.regs r
  unfold AbsState.seedReg
  cases hr : row.regs r with
  | unset =>
    dsimp only
    split_ifs with hentry
    · exact h.skip (.inr (.inr ⟨hr, hentry⟩))
    · exact h.putGpr htop (.inl rfl)
  | sameValue => exact h.skip (.inr (.inl hr))
  | atCFAOffset k =>
    have hleaves : row.LeavesOwn atFunctionEntry r := .inl (by rw [hr]; rfl)
    have hword : m.load (f.cfa + k.toBitVec) 8 = f.entry r := by
      rw [hr] at hplain
      exact Option.some.inj (hplain rfl)
    intro c hc
    rcases h.skip hleaves c hc with hholds | hpending
    · left
      cases c with
      | reg p => exact hholds
      | slot j =>
        simp only [AbsState.get, AbsState.slot, Std.ExtTreeMap.getElem?_insert]
        by_cases hj : k = j
        · subst hj
          rw [if_pos Std.ReflCmp.compare_self]
          exact hword
        · have hne : ¬ compare k j = .eq := by simpa using hj
          rw [if_neg hne]
          exact hholds
    · exact .inr hpending
  | inRegister q =>
    rw [hr] at hplain
    refine h.putGpr (fun p hp => ?_) (.inr (.inl (by rw [hr]; rfl)))
    have hq : regValue m.regs q = some (f.entry r) := hplain rfl
    subst hp
    rw [regValue, dif_pos p.isLt] at hq
    exact Option.some.inj hq
  | valOffset k =>
    refine h.putGpr (fun p hp => ?_) (.inl rfl)
    obtain rfl : p.castSucc = r := Fin.ext hp
    exact hrow.val p k hr
  | undefined | expression | valExpression => exact h.putGpr htop (.inl rfl)

theorem SeedSound.foldl (hrow : row.HoldsOf f m) (h : SeedSound row f m K atFunctionEntry rest s) :
    SeedSound row f m K atFunctionEntry [] (rest.foldl (AbsState.seedReg row atFunctionEntry) s) := by
  induction rest generalizing s with
  | nil => exact h
  | cons r rest ih => exact ih (h.seedReg hrow)

/-- The state seeded from a row that is right about the machine is right about it too, except in the
registers the row has moved elsewhere. -/
theorem seedFromRow_describesOn (hrow : row.HoldsOf f m)
    (hentry : atFunctionEntry = true → ∀ p : Fin 16, row.regs p.castSucc = .unset → p ≠ kDWARFRsp →
      m.regs p = f.entry p)
    (hK : ∀ p : Fin 16, .reg p ∈ K → (row.regs p.castSucc).isMoved = false) :
    f.reading.DescribesOn K (AbsState.seedFromRow row atFunctionEntry) m := by
  -- rsp is set last, whatever its rule has said
  have hstart : SeedSound row f m {c | c ∈ K ∧ c ≠ .reg kDWARFRsp} atFunctionEntry (List.finRange 17)
      { (AbsState.init : AbsState Int64) with gpr := fun r => .origReg r } := by
    rintro (p | k) ⟨hc, hne⟩
    · by_cases hleaves : row.LeavesOwn atFunctionEntry p.castSucc
      · left
        show m.regs p = f.entry p
        rcases hleaves with hmoved | hsame | ⟨hunset, htrue⟩
        · rw [hK p hc] at hmoved
          cases hmoved
        · have hplain := hrow.regs p.castSucc (by rw [hsame]; rfl)
          rw [hsame] at hplain
          simpa [recover, regValue] using hplain
        · exact hentry htrue p hunset fun he => hne (by rw [he])
      · exact .inr ⟨p, rfl, List.mem_finRange _, hleaves⟩
    · left
      simp [AbsState.get, AbsState.slot, AbsState.init, Reading.Holds]
  have hrules := hstart.foldl hrow
  obtain ⟨hkind, hlt, hreg⟩ : row.cfa.kind = .regOffset ∧ ∃ hlt : row.cfa.reg < 16,
      m.regs ⟨row.cfa.reg, hlt⟩ + row.cfa.offset.toBitVec = f.cfa := by
    have hcfa := hrow.cfa
    unfold evalCFA at hcfa
    cases hk : row.cfa.kind with
    | regOffset =>
      rw [hk] at hcfa
      obtain ⟨w, hw, hsum⟩ := Option.map_eq_some_iff.mp hcfa
      unfold regValue at hw
      split_ifs at hw with hlt
      cases hw
      exact ⟨rfl, hlt, hsum⟩
    | undefined | expression => simp [hk] at hcfa
  intro c hc
  unfold AbsState.seedFromRow
  rw [hkind]
  dsimp only
  cases c with
  | slot k =>
    have hslot := (hrules (.slot k) ⟨hc, by simp⟩).resolve_right (by simp)
    simp only [AbsState.get, AbsState.slot, AbsState.putGpr_slots] at hslot ⊢
    exact hslot
  | reg p =>
    rw [AbsState.get]
    by_cases hp : row.cfa.reg = p.val
    · rw [hp, AbsState.putGpr_gpr_self]
      have hp' : (⟨row.cfa.reg, hlt⟩ : Fin 16) = p := Fin.ext hp
      rw [hp'] at hreg
      show m.regs p = f.cfa + (-row.cfa.offset).toBitVec
      rw [← hreg, Int64.toBitVec_neg]
      bv_omega
    · rw [AbsState.putGpr_gpr_of_ne _ _ hp]
      by_cases hsp : p = kDWARFRsp
      · subst hsp
        rw [AbsState.putGpr_gpr_self]
        trivial
      · rw [AbsState.putGpr_gpr_of_ne _ _ fun he => hsp (Fin.ext he.symm)]
        exact (hrules (.reg p) ⟨hc, by simpa using hsp⟩).resolve_right (by simp)

end Seed

/-- The frame of a function that has just been called: rsp points at the return address. -/
def Frame.called (m : Machine) : Frame where
  cfa := m.regs kDWARFRsp + 8
  entry q := if h : q < 16 then m.regs ⟨q, h⟩ else m.load (m.regs kDWARFRsp) 8

/-- A call arrives in a state that a canonical first row with no further rules is right about. -/
theorem Frame.called_describesOn {row : CFIRow Int64} (hcanon : row.isCanonicalEntry = true)
    (hfresh : rowLooksLikeFreshBlockStart row = true) (K : Set (Component Int64)) (m : Machine) :
    (Frame.called m).reading.DescribesOn K (AbsState.seedFromRow row row.isCanonicalEntry) m := by
  have hunset : ∀ r : Fin 17, r.val ≠ kDWARFRip → row.regs r = .unset := by
    intro r hr
    simpa [hr] using List.all_eq_true.mp hfresh r (List.mem_finRange r)
  simp only [CFIRow.isCanonicalEntry, Bool.decide_and, Bool.and_eq_true, decide_eq_true_eq] at hcanon
  obtain ⟨hcfa, hra⟩ := hcanon
  have hout : ∀ p : Fin 16, row.regs p.castSucc = .unset :=
    fun p => hunset p.castSucc (by simpa [kDWARFRip] using p.isLt.ne)
  apply seedFromRow_describesOn
  · refine ⟨⟨?_, fun r hplain => ?_⟩, fun r offset hr => ?_⟩
    · rw [hcfa]
      rfl
    · by_cases hr : r.val = kDWARFRip
      · obtain rfl : r = 16 := Fin.ext hr
        have haddr : m.regs kDWARFRsp + 8 + (Offset.ofInt (-8) : Int64).toBitVec = m.regs kDWARFRsp := by
          rw [show (Offset.ofInt (-8) : Int64).toBitVec = -8 from rfl]
          bv_omega
        rw [hra]
        show some (m.load (m.regs kDWARFRsp + 8 + (Offset.ofInt (-8) : Int64).toBitVec) 8) =
          some (m.load (m.regs kDWARFRsp) 8)
        rw [haddr]
      · rw [hunset r hr] at hplain
        cases hplain
    · rw [hout r] at hr
      cases hr
  · intro _ p _ _
    simp [Frame.called]
  · intro p _
    rw [hout p]
    rfl

end UnwindCheck
