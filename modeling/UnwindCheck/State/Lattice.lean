import UnwindCheck.Lib.Agreement
import UnwindCheck.State.Join

/-! `Join` as the supremum of an order on whole states. -/
namespace UnwindCheck

namespace TableVal

/-- `none` says the least about what a table value is, `conflict` the most. -/
instance instSemilatticeSupKind : SemilatticeSup Kind where
  le a b := a = .none ∨ b = .conflict ∨ a = b
  sup a b :=
    if a = .conflict ∨ b = .conflict then .conflict
    else if a = b then a
    else if a = .none then b
    else if b = .none then a
    else .conflict
  le_refl := Lib.FlatLE.refl
  le_trans a b c hab hbc := Lib.FlatLE.trans (by simp) hab hbc
  le_antisymm a b hab hba := Lib.FlatLE.antisymm (by simp) hab hba
  le_sup_left a b := by
    split_ifs <;> simp_all
  le_sup_right a b := by
    split_ifs <;> simp_all
  sup_le a b c hac hbc := by
    split_ifs with hconf heq ha hb
    · rcases hconf with rfl | rfl
      · simpa using hac
      · simpa using hbc
    · exact hac
    · exact hbc
    · exact hac
    · -- two different identities are only below a conflict
      exact Or.inr (Or.inl (Lib.FlatLE.eq_hi ha hb heq hac hbc))

@[simp] theorem Kind.none_sup (a : Kind) : Kind.none ⊔ a = a := sup_eq_right.mpr (Or.inl rfl)

@[simp] theorem Kind.sup_none (a : Kind) : a ⊔ Kind.none = a := sup_eq_left.mpr (Or.inl rfl)

@[simp] theorem Kind.conflict_sup (a : Kind) : Kind.conflict ⊔ a = .conflict :=
  sup_eq_left.mpr (Or.inr (Or.inl rfl))

@[simp] theorem Kind.sup_conflict (a : Kind) : a ⊔ Kind.conflict = .conflict :=
  sup_eq_right.mpr (Or.inr (Or.inl rfl))

theorem Kind.le_def {a b : Kind} : a ≤ b ↔ a = .none ∨ b = .conflict ∨ a = b := Iff.rfl

/-- Identity and both bounds, each in its own order. -/
def view (t : TableVal) : Kind × ℕ × ℕ := (t.kind, t.valueBound, t.tableBound)

theorem view_injective : Function.Injective view := by
  rintro ⟨k, v, t⟩ ⟨k', v', t'⟩ h
  cases h
  rfl

theorem view_joinTableValue (a b : TableVal) : (joinTableValue a b).view = a.view ⊔ b.view := by
  refine Prod.ext ?_ rfl
  change (joinTableValue a b).kind = if a.kind = .conflict ∨ b.kind = .conflict then .conflict
    else if a.kind = b.kind then a.kind else if a.kind = .none then b.kind
    else if b.kind = .none then a.kind else .conflict
  simp only [joinTableValue, sameIdentity, decide_eq_true_eq]
  split_ifs <;> rfl

theorem kind_joinTableValue (a b : TableVal) : (joinTableValue a b).kind = a.kind ⊔ b.kind :=
  congrArg Prod.fst (view_joinTableValue a b)

instance instSemilatticeSupTableVal : SemilatticeSup TableVal where
  le a b := a.view ≤ b.view
  sup a b := joinTableValue a b
  le_refl a := le_refl a.view
  le_trans a b c := le_trans (a := a.view)
  le_antisymm a b hab hba := view_injective (le_antisymm hab hba)
  le_sup_left a b := by
    rw [view_joinTableValue]
    exact le_sup_left
  le_sup_right a b := by
    rw [view_joinTableValue]
    exact le_sup_right
  sup_le a b c hac hbc := by
    rw [view_joinTableValue]
    exact sup_le hac hbc

end TableVal

namespace AbsState
variable {δ : Type} [Offset δ]

/-- A slot that is absent is below all others, `top` included. -/
def slotView (slots : SlotMap δ) (k : δ) : WithBot (AbsVal δ) := slots[k]?

/-- A state as one point of a product of lattices. -/
def view (s : AbsState δ) : (Fin 16 → AbsVal δ) × (δ → WithBot (AbsVal δ)) × (Fin 16 → TableVal) ×
    Lib.Agreement FlagsGuard :=
  (s.gpr, slotView s.slots, s.tbl, s.lastCmp)

theorem view_injective : Function.Injective (view : AbsState δ → _) := by
  rintro ⟨gpr, slots, tbl, cmp⟩ ⟨gpr', slots', tbl', cmp'⟩ h
  obtain ⟨hgpr, h⟩ := Prod.ext_iff.mp h
  obtain ⟨hslots, h⟩ := Prod.ext_iff.mp h
  obtain ⟨htbl, hcmp⟩ := Prod.ext_iff.mp h
  have hmap : slots = slots' := Std.ExtTreeMap.ext_getElem? fun {k} => congrFun hslots k
  cases hgpr
  cases hmap
  cases htbl
  cases hcmp
  rfl

theorem slotView_join (incoming state : AbsState δ) (k : δ) :
    slotView (join incoming state).state.slots k =
      slotView state.slots k ⊔ slotView incoming.slots k := by
  have hget : (join incoming state).state.slots[k]? =
      (state.slots[k]?.map fun v => (joinSlot incoming.slots k v).value).or incoming.slots[k]? := by
    simp only [join, Std.ExtTreeMap.getElem?_union, Std.ExtTreeMap.getElem?_map]
  unfold slotView
  rw [hget]
  cases state.slots[k]? with
  | none => exact (bot_sup_eq (α := WithBot (AbsVal δ)) _).symm
  | some v =>
    simp only [Option.map_some, joinSlot_value]
    cases incoming.slots[k]? with
    | none =>
      simp only [Option.getD_none, AbsVal.sup_top]
      exact (sup_bot_eq (α := WithBot (AbsVal δ)) _).symm
    | some w => rfl

theorem view_join (incoming state : AbsState δ) :
    (join incoming state).state.view = state.view ⊔ incoming.view := by
  refine Prod.ext rfl (Prod.ext (funext (slotView_join incoming state)) (Prod.ext rfl ?_))
  change (if state.lastCmp.isSome ∧ state.lastCmp ≠ incoming.lastCmp then none else state.lastCmp) =
    Lib.Agreement.meetUp state.lastCmp incoming.lastCmp
  unfold Lib.Agreement.meetUp
  cases state.lastCmp with
  | none => simp
  | some g => simp [ite_not]

/-- How much a state claims, component by component. -/
instance instSemilatticeSupAbsState : SemilatticeSup (AbsState δ) where
  le s t := s.view ≤ t.view
  sup s t := (join t s).state
  le_refl s := le_refl s.view
  le_trans s t u := le_trans (a := s.view)
  le_antisymm s t hst hts := view_injective (le_antisymm hst hts)
  le_sup_left s t := by
    rw [view_join]
    exact le_sup_left
  le_sup_right s t := by
    rw [view_join]
    exact le_sup_right
  sup_le s t u hsu htu := by
    rw [view_join]
    exact sup_le hsu htu

theorem sup_def (s t : AbsState δ) : s ⊔ t = (join t s).state := rfl

theorem le_iff {s t : AbsState δ} : s ≤ t ↔ (∀ r, s.gpr r ≤ t.gpr r) ∧
    (∀ k, slotView s.slots k ≤ slotView t.slots k) ∧ (∀ r, s.tbl r ≤ t.tbl r) ∧
    (t.lastCmp = none ∨ s.lastCmp = t.lastCmp) := Iff.rfl

/-- The order of states is one of their components. -/
theorem get_mono {s t : AbsState δ} (h : s ≤ t) (c : Component δ) : s.get c ≤ t.get c := by
  rw [← sup_eq_right.mpr h, sup_def, join_get]
  exact le_sup_left

end AbsState

section
variable {δ : Type} [Offset δ]

theorem joinSlot_changed {incoming : SlotMap δ} {k : δ} {v : AbsVal δ}
    (h : (joinSlot incoming k v).changed = true) : (joinSlot incoming k v).value ≠ v := by
  unfold joinSlot at h ⊢
  by_cases hb : v.isBottom = true
  · simp [hb] at h
  · rw [if_neg hb] at h ⊢
    cases hi : incoming[k]? with
    | none => simp [hi] at h
    | some w =>
      simp only [hi] at h ⊢
      exact (joinValue_changed v w).mp h

/-- `Join` returns true exactly when it moved the state. -/
theorem join_changed_iff (incoming state : AbsState δ) :
    (join incoming state).changed = true ↔ (join incoming state).state ≠ state := by
  constructor
  · intro h heq
    have hgpr : ∀ r, (joinValue (state.gpr r) (incoming.gpr r)).value = state.gpr r :=
      fun r => congrFun (congrArg AbsState.gpr heq) r
    have htbl : ∀ r, joinTableValue (state.tbl r) (incoming.tbl r) = state.tbl r :=
      fun r => congrFun (congrArg AbsState.tbl heq) r
    have hslots : (join incoming state).state.slots = state.slots := congrArg AbsState.slots heq
    have hcmp : (join incoming state).state.lastCmp = state.lastCmp :=
      congrArg AbsState.lastCmp heq
    simp only [join, Bool.or_eq_true, List.any_eq_true, List.mem_finRange, true_and,
      decide_eq_true_eq] at h
    rcases h with ((⟨r, hr | hr⟩ | ⟨e, he, hc⟩) | ⟨e, he, hc⟩) | hc
    · exact (joinValue_changed _ _).mp hr (hgpr r)
    · exact hr (htbl r)
    · have hget := Std.ExtTreeMap.mem_toList_iff_getElem?_eq_some.mp he
      have hsame := congrArg (fun m : SlotMap δ => m[e.1]?) hslots
      simp only [join, Std.ExtTreeMap.getElem?_union, Std.ExtTreeMap.getElem?_map, hget,
        Option.map_some, Option.some_or, Option.some.injEq] at hsame
      exact joinSlot_changed hc hsame
    · have hget := Std.ExtTreeMap.mem_toList_iff_getElem?_eq_some.mp he
      have hnone : state.slots[e.1]? = none :=
        Std.ExtTreeMap.getElem?_eq_none_of_contains_eq_false (by simpa using hc)
      have hsame := congrArg (fun m : SlotMap δ => m[e.1]?) hslots
      simp only [join, Std.ExtTreeMap.getElem?_union, Std.ExtTreeMap.getElem?_map, hget, hnone,
        Option.map_none, Option.none_or, reduceCtorEq] at hsame
    · simp only [join] at hcmp
      rw [if_pos hc] at hcmp
      rw [← hcmp] at hc
      exact absurd hc.1 (by simp)
  · intro h
    by_contra hc
    exact h (join_state_eq_of_not_changed (by simpa using hc))

/-- A join changes nothing exactly when the incoming state claims no more. -/
theorem join_unchanged_iff (incoming state : AbsState δ) :
    (join incoming state).changed = false ↔ incoming ≤ state := by
  rw [← sup_eq_left, AbsState.sup_def, ← not_iff_not, Bool.not_eq_false, join_changed_iff]

/-- Two values that each name something, and not the same thing. -/
def AbsVal.Clash (v w : AbsVal δ) : Prop :=
  v ≠ w ∧ (v ≠ .top ∧ v ≠ .bottom) ∧ w ≠ .top ∧ w ≠ .bottom

omit [Offset δ] in
theorem AbsVal.Clash.symm {v w : AbsVal δ} (h : v.Clash w) : w.Clash v := ⟨h.1.symm, h.2.2, h.2.1⟩

theorem joinValue_realConflict (v w : AbsVal δ) :
    (joinValue v w).realConflict = true ↔ v.Clash w := by
  unfold joinValue AbsVal.Clash
  split_ifs with he hb hi ht hit <;> simp_all

theorem joinSlot_realConflict (incoming : SlotMap δ) (k : δ) (v : AbsVal δ) :
    (joinSlot incoming k v).realConflict = true ↔ v.Clash ((incoming[k]?).getD .top) := by
  unfold joinSlot
  by_cases hb : v.isBottom = true
  · simp [AbsVal.Clash, AbsVal.isBottom_iff.mp hb]
  · rw [if_neg hb]
    cases incoming[k]? with
    | none => simp [AbsVal.Clash]
    | some w => exact joinValue_realConflict v w

/-- The components a join reports are those on which both sides name something different. -/
theorem mem_conflicts_iff (incoming state : AbsState δ) (c : Component δ) :
    c ∈ (join incoming state).conflicts.map JoinConflict.component ↔
      (state.get c).Clash (incoming.get c) := by
  simp only [join, List.map_append, List.mem_append, List.mem_map, List.mem_filterMap,
    Option.ite_none_right_eq_some, Option.some.injEq]
  constructor
  · rintro (⟨conf, ⟨r, -, hr, rfl⟩, rfl⟩ | ⟨conf, ⟨e, he, hr, rfl⟩, rfl⟩)
    · exact (joinValue_realConflict _ _).mp hr
    · have hget := Std.ExtTreeMap.mem_toList_iff_getElem?_eq_some.mp he
      have hclash := (joinSlot_realConflict _ _ _).mp hr
      simpa [AbsState.get, AbsState.slot, hget] using hclash
  · intro h
    cases c with
    | reg r => exact Or.inl ⟨_, ⟨r, List.mem_finRange r, (joinValue_realConflict _ _).mpr h, rfl⟩, rfl⟩
    | slot k =>
      cases hget : state.slots[k]? with
      | none =>
        have htop : state.get (.slot k) = .top := by simp [AbsState.get, AbsState.slot, hget]
        exact absurd htop h.2.1.1
      | some v =>
        have hv : state.get (.slot k) = v := by simp [AbsState.get, AbsState.slot, hget]
        rw [hv] at h
        exact Or.inr ⟨_, ⟨(k, v), Std.ExtTreeMap.mem_toList_iff_getElem?_eq_some.mpr hget,
          (joinSlot_realConflict _ _ _).mpr h, rfl⟩, rfl⟩

/-- What `Propagate` keeps at an address: the first state as it is, each later one joined in. -/
def joinInto (acc : Option (AbsState δ)) (incoming : AbsState δ) : Option (AbsState δ) :=
  match acc with
  | none => some incoming
  | some state => some (join incoming state).state

theorem joinInto_right_comm (acc : Option (AbsState δ)) (s t : AbsState δ) :
    joinInto (joinInto acc s) t = joinInto (joinInto acc t) s := by
  cases acc with
  | none => exact congrArg some (sup_comm s t)
  | some u => exact congrArg some (sup_right_comm u s t)

/-- The predecessors' order does not matter. -/
theorem foldl_joinInto_perm {l l' : List (AbsState δ)} (h : l.Perm l') (acc : Option (AbsState δ)) :
    l.foldl joinInto acc = l'.foldl joinInto acc :=
  h.foldl_eq' (fun s _ t _ acc => joinInto_right_comm acc s t) acc

theorem AbsVal.sup_eq_bottom {v w : AbsVal δ} (h : v ⊔ w = .bottom) :
    v = .bottom ∨ w = .bottom ∨ v.Clash w := by
  by_contra hne
  obtain ⟨hv, hne⟩ := not_or.mp hne
  obtain ⟨hw, hclash⟩ := not_or.mp hne
  by_cases hvt : v = .top
  · rw [hvt, AbsVal.top_sup] at h
    exact hw h
  · by_cases hwt : w = .top
    · rw [hwt, AbsVal.sup_top] at h
      exact hv h
    · refine hclash ⟨?_, ⟨hvt, hv⟩, hwt, hw⟩
      rintro rfl
      rw [sup_idem] at h
      exact hv h

/-- `Join` is a semilattice operation, in every component and as a whole, and its changed flag
and its reports say what it did. -/
theorem join_semilattice (a b c : AbsState δ) :
    -- commutative, associative, idempotent, and so indifferent to the order of a fold
    (join a b).state = (join b a).state ∧
    (join a (join b c).state).state = (join (join a b).state c).state ∧
    (join a a).state = a ∧
    (∀ l l' : List (AbsState δ), l.Perm l' → l.foldl joinInto none = l'.foldl joinInto none) ∧
    -- the changed flag
    ((join a b).changed = true ↔ (join a b).state ≠ b) ∧
    -- identities and absorbing elements
    (∀ x, (a.get x = .top → (join a b).state.get x = b.get x) ∧
      (b.get x = .top → (join a b).state.get x = a.get x) ∧
      (a.get x = .bottom ∨ b.get x = .bottom → (join a b).state.get x = .bottom)) ∧
    (∀ k : δ, (a.slots[k]? = none → (join a b).state.slots[k]? = b.slots[k]?) ∧
      (b.slots[k]? = none → (join a b).state.slots[k]? = a.slots[k]?)) ∧
    (∀ r, ((a.tbl r).kind = .none → ((join a b).state.tbl r).kind = (b.tbl r).kind) ∧
      ((b.tbl r).kind = .none → ((join a b).state.tbl r).kind = (a.tbl r).kind) ∧
      ((a.tbl r).kind = .conflict ∨ (b.tbl r).kind = .conflict →
        ((join a b).state.tbl r).kind = .conflict)) ∧
    -- bounds and the pending comparison
    (∀ r, ((join a b).state.tbl r).valueBound = max (a.tbl r).valueBound (b.tbl r).valueBound ∧
      ((join a b).state.tbl r).tableBound = max (a.tbl r).tableBound (b.tbl r).tableBound) ∧
    (∀ g, (join a b).state.lastCmp = some g ↔ a.lastCmp = some g ∧ b.lastCmp = some g) ∧
    -- reports
    (∀ x, x ∈ (join a b).conflicts.map JoinConflict.component ↔
      x ∈ (join b a).conflicts.map JoinConflict.component) ∧
    (∀ x, (join a b).state.get x = .bottom → a.get x = .bottom ∨ b.get x = .bottom ∨
      x ∈ (join a b).conflicts.map JoinConflict.component) := by
  refine ⟨sup_comm b a, (sup_assoc c b a).trans ?_, sup_idem a,
    fun l l' h => foldl_joinInto_perm h none, join_changed_iff a b, ?_, ?_, ?_, ?_, ?_, ?_, ?_⟩
  · rfl
  · intro x
    rw [join_get]
    refine ⟨fun h => by simp [h], fun h => by simp [h], ?_⟩
    rintro (h | h)
    · rw [h]
      exact sup_eq_right.mpr (AbsVal.le_bottom _)
    · rw [h, AbsVal.bottom_sup]
  · intro k
    have hview := AbsState.slotView_join a b k
    unfold AbsState.slotView at hview
    refine ⟨fun h => ?_, fun h => ?_⟩
    · rw [hview, h]
      exact sup_bot_eq (α := WithBot (AbsVal δ)) _
    · rw [hview, h]
      exact bot_sup_eq (α := WithBot (AbsVal δ)) _
  · intro r
    have hkind : ((join a b).state.tbl r).kind = (b.tbl r).kind ⊔ (a.tbl r).kind :=
      TableVal.kind_joinTableValue _ _
    rw [hkind]
    refine ⟨fun h => by simp [h], fun h => by simp [h], ?_⟩
    rintro (h | h) <;> simp [h]
  · intro r
    exact ⟨max_comm _ _, max_comm _ _⟩
  · intro g
    have hcmp : (join a b).state.lastCmp = Lib.Agreement.meetUp b.lastCmp a.lastCmp :=
      congrArg (fun v => v.2.2.2) (AbsState.view_join a b)
    rw [hcmp, Lib.Agreement.meetUp_eq_some, and_comm]
  · intro x
    rw [mem_conflicts_iff, mem_conflicts_iff]
    exact ⟨AbsVal.Clash.symm, AbsVal.Clash.symm⟩
  · intro x hx
    rw [join_get] at hx
    rw [mem_conflicts_iff]
    rcases AbsVal.sup_eq_bottom hx with h | h | h
    · exact Or.inr (Or.inl h)
    · exact Or.inl h
    · exact Or.inr (Or.inr h)

end

end UnwindCheck
