import UnwindCheck.Lib.Flat
import UnwindCheck.State.AbsState

/-! Meeting the states of two paths. `top` is the identity of the CFI lattice and `bottom` is
absorbing, so in the order below a join only ever moves a component up. -/
namespace UnwindCheck
variable {δ : Type}

/-- What `Join` does to one pair of CFI values. -/
structure JoinValueResult (δ : Type) where
  value : AbsVal δ
  changed : Bool
  realConflict : Bool
  deriving DecidableEq

def joinValue [DecidableEq δ] (current incoming : AbsVal δ) : JoinValueResult δ :=
  if current = incoming then ⟨current, false, false⟩
  else if current.isBottom then ⟨current, false, false⟩
  else if incoming.isBottom then ⟨.bottom, true, false⟩
  else if current.isTop then ⟨incoming, true, false⟩
  else if incoming.isTop then ⟨current, false, false⟩
  else ⟨.bottom, true, true⟩

namespace AbsVal
variable [DecidableEq δ]

/-- How much a value claims: `top` the least, `bottom` the most. -/
instance instSemilatticeSupAbsVal : SemilatticeSup (AbsVal δ) where
  le a b := a = top ∨ b = bottom ∨ a = b
  sup a b := (joinValue a b).value
  le_refl := Lib.FlatLE.refl
  le_trans a b c hab hbc := Lib.FlatLE.trans (by simp) hab hbc
  le_antisymm a b hab hba := Lib.FlatLE.antisymm (by simp) hab hba
  le_sup_left a b := by
    unfold joinValue
    split_ifs <;> simp_all
  le_sup_right a b := by
    unfold joinValue
    split_ifs <;> simp_all
  sup_le a b c hac hbc := by
    unfold joinValue
    split_ifs <;> simp_all
    rcases hac with h | h <;> rcases hbc with h' | h' <;> simp_all

theorem le_def {a b : AbsVal δ} : a ≤ b ↔ a = top ∨ b = bottom ∨ a = b := Iff.rfl

theorem sup_def (a b : AbsVal δ) : a ⊔ b = (joinValue a b).value := rfl

@[simp] theorem top_le (a : AbsVal δ) : top ≤ a := Or.inl rfl

@[simp] theorem le_bottom (a : AbsVal δ) : a ≤ bottom := Or.inr (Or.inl rfl)

@[simp] theorem top_sup (a : AbsVal δ) : top ⊔ a = a := sup_eq_right.mpr (top_le a)

@[simp] theorem sup_top (a : AbsVal δ) : a ⊔ top = a := sup_eq_left.mpr (top_le a)

@[simp] theorem bottom_sup (a : AbsVal δ) : bottom ⊔ a = bottom := sup_eq_left.mpr (le_bottom a)

/-- Two different known values are only below `bottom`. -/
theorem eq_bottom_of_le {a b c : AbsVal δ} (ha : a ≠ top) (hb : b ≠ top) (hab : a ≠ b)
    (hac : a ≤ c) (hbc : b ≤ c) : c = bottom :=
  Lib.FlatLE.eq_hi ha hb hab hac hbc

end AbsVal

theorem joinValue_changed [DecidableEq δ] (a b : AbsVal δ) :
    (joinValue a b).changed = true ↔ (joinValue a b).value ≠ a := by
  unfold joinValue
  split_ifs with he hb hi ht hit
  · simp
  · simp
  · simpa using fun h : AbsVal.bottom = a => hb (by simp [← h])
  · simpa using fun h : b = a => he h.symm
  · simp
  · simpa using fun h : AbsVal.bottom = a => hb (by simp [← h])

/-- The table lattice's join: identity and bounds are settled separately. -/
def joinTableValue (current incoming : TableVal) : TableVal :=
  let merged : TableVal :=
    if current.kind = .conflict ∨ incoming.kind = .conflict then .conflict
    else if current.sameIdentity incoming then current
    else if current.kind = .none then incoming
    else if incoming.kind = .none then current
    else .conflict
  { merged with
    valueBound := max current.valueBound incoming.valueBound
    tableBound := max current.tableBound incoming.tableBound }

/-- One place whose CFI value a state tracks. -/
inductive Component (δ : Type) where
  | reg (r : Fin 16)
  | slot (offset : δ)
  deriving DecidableEq

/-- What disagreed when two paths met. -/
structure JoinConflict (δ : Type) where
  component : Component δ
  lhs : AbsVal δ
  rhs : AbsVal δ
  deriving DecidableEq

def JoinConflict.describe [Offset δ] (c : JoinConflict δ) : String :=
  match c.component with
  | .slot offset => "stack slot " ++ showCFAOffset offset ++ " is " ++ c.lhs.toString ++
      " on one path and " ++ c.rhs.toString ++ " on another"
  | .reg r => dwarfRegName r ++ " is " ++ c.lhs.toString ++ " on one path and " ++
      c.rhs.toString ++ " on another"

structure JoinResult (δ : Type) [Offset δ] where
  state : AbsState δ
  changed : Bool
  conflicts : List (JoinConflict δ)

variable [Offset δ]

def AbsState.get (s : AbsState δ) : Component δ → AbsVal δ
  | .reg r => s.gpr r
  | .slot k => s.slot k

/-- One step of the loop over the slots the current state names. -/
def joinSlot (incoming : SlotMap δ) (k : δ) (v : AbsVal δ) : JoinValueResult δ :=
  if v.isBottom then ⟨v, false, false⟩
  else match incoming[k]? with
    | none => ⟨v, false, false⟩
    | some w => joinValue v w

/-- `Join`: meets `incoming` into `state`. -/
def join (incoming state : AbsState δ) : JoinResult δ :=
  let gpr := fun r => joinValue (state.gpr r) (incoming.gpr r)
  let tbl := fun r => joinTableValue (state.tbl r) (incoming.tbl r)
  let cmpLost := state.lastCmp.isSome ∧ state.lastCmp ≠ incoming.lastCmp
  { state :=
      { gpr := fun r => (gpr r).value
        tbl := tbl
        slots := incoming.slots ∪
          state.slots.map fun k v => (joinSlot incoming.slots k v).value
        lastCmp := if cmpLost then none else state.lastCmp }
    changed :=
      (List.finRange 16).any (fun r => (gpr r).changed || tbl r ≠ state.tbl r) ||
      state.slots.toList.any (fun e => (joinSlot incoming.slots e.1 e.2).changed) ||
      incoming.slots.toList.any (fun e => !state.slots.contains e.1) || cmpLost
    conflicts :=
      (List.finRange 16).filterMap (fun r =>
        if (gpr r).realConflict then
          some ⟨.reg r, state.gpr r, incoming.gpr r⟩
        else none) ++
      state.slots.toList.filterMap fun e =>
        if (joinSlot incoming.slots e.1 e.2).realConflict then
          some ⟨.slot e.1, e.2, (incoming.slots[e.1]?).getD .top⟩
        else none }

theorem joinSlot_value (incoming : SlotMap δ) (k : δ) (v : AbsVal δ) :
    (joinSlot incoming k v).value = v ⊔ (incoming[k]?).getD .top := by
  unfold joinSlot
  split_ifs with hb
  · simp [AbsVal.isBottom_iff.mp hb]
  · cases incoming[k]? <;> simp [AbsVal.sup_def]

/-- Every component is joined on its own; an absent slot takes part as `top`. -/
theorem join_get (incoming state : AbsState δ) (c : Component δ) :
    (join incoming state).state.get c = state.get c ⊔ incoming.get c := by
  cases c with
  | reg r => rfl
  | slot k =>
    simp only [AbsState.get, AbsState.slot, join, Std.ExtTreeMap.getElem?_union,
      Std.ExtTreeMap.getElem?_map]
    cases state.slots[k]? with
    | none => simp
    | some v => simp [joinSlot_value]

/-- A join that reports no change has none to report. -/
theorem join_state_eq_of_not_changed {incoming state : AbsState δ}
    (h : (join incoming state).changed = false) : (join incoming state).state = state := by
  simp only [join, Bool.or_eq_false_iff, List.any_eq_false, List.mem_finRange, forall_const,
    Bool.or_eq_true, not_or, decide_eq_true_eq, decide_eq_false_iff_not, Bool.not_eq_true] at h
  obtain ⟨⟨⟨hregs, hslots⟩, hnew⟩, hcmp⟩ := h
  have hgpr : ∀ r, (joinValue (state.gpr r) (incoming.gpr r)).value = state.gpr r := by
    intro r
    by_contra hne
    have := (joinValue_changed _ _).mpr hne
    simp [(hregs r).1] at this
  have htbl : ∀ r, joinTableValue (state.tbl r) (incoming.tbl r) = state.tbl r := by
    intro r
    simpa using (hregs r).2
  have hmap : incoming.slots ∪
      state.slots.map (fun k v => (joinSlot incoming.slots k v).value) = state.slots := by
    apply Std.ExtTreeMap.ext_getElem?
    intro k
    rw [Std.ExtTreeMap.getElem?_union, Std.ExtTreeMap.getElem?_map]
    cases hs : state.slots[k]? with
    | none =>
      cases hi : incoming.slots[k]? with
      | none => simp
      | some w =>
        have hmem := Std.ExtTreeMap.mem_toList_iff_getElem?_eq_some.mpr hi
        have hk : k ∈ state.slots := by simpa using hnew _ hmem
        rw [Std.ExtTreeMap.getElem?_eq_some_getElem hk] at hs
        cases hs
    | some v =>
      have hmem := Std.ExtTreeMap.mem_toList_iff_getElem?_eq_some.mpr hs
      have hc : (joinSlot incoming.slots k v).changed = false := by simpa using hslots _ hmem
      have hv : (joinSlot incoming.slots k v).value = v := by
        unfold joinSlot at hc ⊢
        split_ifs at hc ⊢ with hb
        · rfl
        · cases hi : incoming.slots[k]? with
          | none => rfl
          | some w =>
            simp only [hi] at hc ⊢
            by_contra hne
            simp [(joinValue_changed _ _).mpr hne] at hc
      simp [hv]
  have hfields : (join incoming state).state = ⟨state.gpr, state.slots, state.tbl, state.lastCmp⟩ := by
    simp only [join, hgpr, htbl, hmap]
    rw [if_neg hcmp]
  exact hfields

end UnwindCheck
