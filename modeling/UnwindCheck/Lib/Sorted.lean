import Mathlib

/-! Sorting by a key, intervals in the order of their starts, and what looking at neighbours only
can tell about all that comes before. -/
namespace UnwindCheck.Lib

/-- A sort that promises no more than `std::sort`: the elements in key order, those with equal
keys in any order. -/
structure KeySort {α κ : Type} [LE κ] (key : α → κ) where
  sort : List α → List α
  perm : ∀ l, (sort l).Perm l
  sorted : ∀ l, (sort l).Pairwise fun a b => key a ≤ key b

/-- The stable sort is one. -/
def KeySort.stable {α κ : Type} [LinearOrder κ] (key : α → κ) : KeySort key where
  sort := List.insertionSort fun a b => key a ≤ key b
  perm := List.perm_insertionSort _
  sorted l := by
    have htotal : Std.Total fun a b => key a ≤ key b := ⟨fun a b => le_total (key a) (key b)⟩
    have htrans : IsTrans α fun a b => key a ≤ key b := ⟨fun _ _ _ => le_trans⟩
    exact List.pairwise_insertionSort _ l

section Intervals
variable {α : Type} (lo hi : α → ℕ)

/-- Half-open intervals with nothing in common. -/
def Apart (a b : α) : Prop := hi a ≤ lo b ∨ hi b ≤ lo a

theorem Apart.symm {a b : α} (h : Apart lo hi a b) : Apart lo hi b a := Or.symm h

/-- Among nonempty intervals in the order of their starts, two overlap exactly when two
neighbours do. -/
theorem isChain_iff_pairwise_apart {l : List α} (hne : ∀ a ∈ l, lo a < hi a)
    (hs : l.Pairwise fun a b => lo a ≤ lo b) :
    l.IsChain (fun a b => hi a ≤ lo b) ↔ l.Pairwise (Apart lo hi) := by
  induction l with
  | nil => simp
  | cons a l ih =>
    have ih := ih (fun b hb => hne b (List.mem_cons_of_mem a hb)) (List.pairwise_cons.mp hs).2
    have hfirst := (List.pairwise_cons.mp hs).1
    constructor
    · intro h
      refine List.pairwise_cons.mpr ⟨?_, ih.mp h.tail⟩
      intro b hb
      left
      -- the neighbour of `a` starts behind it, and everything else behind the neighbour
      cases l with
      | nil => cases hb
      | cons c l =>
        have hac : hi a ≤ lo c := by
          cases h with
          | cons_cons hr _ => exact hr
        rcases List.mem_cons.mp hb with rfl | hb
        · exact hac
        · exact hac.trans ((List.pairwise_cons.mp (List.pairwise_cons.mp hs).2).1 b hb)
    · intro h
      obtain ⟨hapart, hrest⟩ := List.pairwise_cons.mp h
      refine List.isChain_cons.mpr ⟨?_, ih.mpr hrest⟩
      intro b hb
      have hmem : b ∈ l := List.mem_of_mem_head? hb
      rcases hapart b hmem with hab | hba
      · exact hab
      · have hlt := hne b (List.mem_cons_of_mem a hmem)
        have hle := hfirst b hmem
        omega

end Intervals

section Neighbours
variable {α : Type} (R : α → α → Prop) [DecidableRel R]

/-- The elements related to one before them, where `before` comes first. -/
def relatedBefore : (before : List α) → List α → List α
  | _, [] => []
  | before, a :: l =>
    (if ∃ b ∈ before, R b a then [a] else []) ++ relatedBefore (a :: before) l

/-- The elements related to their left neighbour. -/
def relatedNeighbours : List α → List α
  | a :: b :: l => (if R a b then [b] else []) ++ relatedNeighbours (b :: l)
  | _ => []

/-- An element that is not related to its left neighbour is related to nothing further left. -/
def NoneHidden : (before : List α) → List α → Prop
  | before, a :: b :: l => (¬ R a b → ∀ c ∈ before, ¬ R c b) ∧ NoneHidden (a :: before) (b :: l)
  | _, _ => True

instance decidableNoneHidden : (before l : List α) → Decidable (NoneHidden R before l)
  | before, a :: b :: l =>
    have := decidableNoneHidden (a :: before) (b :: l)
    inferInstanceAs (Decidable ((¬ R a b → ∀ c ∈ before, ¬ R c b) ∧ NoneHidden R (a :: before) (b :: l)))
  | _, [] => isTrue trivial
  | _, [_] => isTrue trivial

theorem relatedNeighbours_sublist (before : List α) (a : α) (l : List α) :
    (relatedNeighbours R (a :: l)).Sublist (relatedBefore R (a :: before) l) := by
  induction l generalizing before a with
  | nil => simp [relatedNeighbours, relatedBefore]
  | cons b l ih =>
    rw [relatedNeighbours, relatedBefore]
    refine List.Sublist.append ?_ (ih (a :: before) b)
    by_cases h : R a b
    · rw [if_pos h, if_pos ⟨a, List.mem_cons_self, h⟩]
    · rw [if_neg h]
      exact List.nil_sublist _

/-- Neighbours tell everything exactly when nothing is hidden behind one. -/
theorem relatedNeighbours_eq_iff (before : List α) (a : α) (l : List α) :
    relatedNeighbours R (a :: l) = relatedBefore R (a :: before) l ↔ NoneHidden R before (a :: l) := by
  induction l generalizing before a with
  | nil => simp [relatedNeighbours, relatedBefore, NoneHidden]
  | cons b l ih =>
    rw [relatedNeighbours, relatedBefore, NoneHidden, ← ih (a :: before) b]
    by_cases h : R a b
    · rw [if_pos h, if_pos ⟨a, List.mem_cons_self, h⟩]
      simp [h]
    · rw [if_neg h]
      by_cases hhidden : ∃ c ∈ a :: before, R c b
      · -- one more element on the right than on the left, and the rest cannot make up for it
        rw [if_pos hhidden]
        constructor
        · intro heq
          have hle := (relatedNeighbours_sublist R (a :: before) b l).length_le
          have hlen := congrArg List.length heq
          simp only [List.nil_append, List.length_append, List.length_singleton] at hlen
          omega
        · rintro ⟨hnone, -⟩
          obtain ⟨c, hc, hcb⟩ := hhidden
          rcases List.mem_cons.mp hc with rfl | hc
          · exact absurd hcb h
          · exact absurd hcb (hnone h c hc)
      · rw [if_neg hhidden]
        have hnone : ∀ c ∈ before, ¬ R c b :=
          fun c hc hcb => hhidden ⟨c, List.mem_cons_of_mem a hc, hcb⟩
        simp only [List.nil_append]
        exact ⟨fun heq => ⟨fun _ => hnone, heq⟩, fun hrest => hrest.2⟩

end Neighbours

section Groups
variable {α κ : Type} [LinearOrder κ] (key : α → κ)

theorem orderedInsert_append {a : α} {l m : List α} (h : ∀ b ∈ l, key a < key b) :
    (l ++ m).orderedInsert (fun x y => key y ≤ key x) a =
      l ++ m.orderedInsert (fun x y => key y ≤ key x) a := by
  induction l with
  | nil => rfl
  | cons b l ih =>
    have hnot : ¬ key b ≤ key a := not_le.mpr (h b List.mem_cons_self)
    have hrest := ih fun c hc => h c (List.mem_cons_of_mem b hc)
    rw [List.cons_append, List.orderedInsert_cons, if_neg hnot, hrest, List.cons_append]

theorem orderedInsert_of_le {a : α} {l : List α} (h : ∀ b ∈ l, key b ≤ key a) :
    l.orderedInsert (fun x y => key y ≤ key x) a = a :: l := by
  cases l with
  | nil => rfl
  | cons b l => rw [List.orderedInsert_cons, if_pos (h b List.mem_cons_self)]

theorem orderedInsert_groups {a : α} {l : List α} {ks : List κ} (hks : ks.Pairwise (· > ·))
    (ha : key a ∈ ks) :
    (ks.flatMap fun k => l.filter fun b => decide (key b = k)).orderedInsert
        (fun x y => key y ≤ key x) a =
      ks.flatMap fun k => (a :: l).filter fun b => decide (key b = k) := by
  induction ks with
  | nil => cases ha
  | cons k ks ih =>
    obtain ⟨hbelow, hrest⟩ := List.pairwise_cons.mp hks
    have hgroup : ∀ k' ∈ ks, ∀ b ∈ l.filter (fun b => decide (key b = k')), key b < k := by
      intro k' hk' b hb
      have hkey : key b = k' := of_decide_eq_true (List.mem_filter.mp hb).2
      rw [hkey]
      exact hbelow k' hk'
    rw [List.flatMap_cons, List.flatMap_cons]
    by_cases hk : key a = k
    · have hle : ∀ b ∈ l.filter (fun b => decide (key b = k)) ++
          ks.flatMap (fun k => l.filter fun b => decide (key b = k)), key b ≤ key a := by
        intro b hb
        rcases List.mem_append.mp hb with hb | hb
        · have hkey : key b = k := of_decide_eq_true (List.mem_filter.mp hb).2
          rw [hkey, hk]
        · obtain ⟨k', hk', hb⟩ := List.mem_flatMap.mp hb
          rw [hk]
          exact le_of_lt (hgroup k' hk' b hb)
      have hothers : (ks.flatMap fun k => (a :: l).filter fun b => decide (key b = k)) =
          ks.flatMap fun k => l.filter fun b => decide (key b = k) := by
        apply List.flatMap_congr
        intro k' hk'
        have hne : key a ≠ k' := by
          rw [hk]
          exact ne_of_gt (hbelow k' hk')
        simp [hne]
      rw [orderedInsert_of_le key hle, hothers]
      simp [hk]
    · have hin : key a ∈ ks := (List.mem_cons.mp ha).resolve_left hk
      have hpass : ∀ b ∈ l.filter (fun b => decide (key b = k)), key a < key b := by
        intro b hb
        have hkey : key b = k := of_decide_eq_true (List.mem_filter.mp hb).2
        rw [hkey]
        exact hbelow _ hin
      rw [orderedInsert_append key hpass, ih hrest hin]
      simp [hk]

/-- Sorting from the greatest key down without touching the order of equals: one group for each
key, as the list had it. -/
theorem insertionSort_eq_groups {l : List α} {ks : List κ} (hks : ks.Pairwise (· > ·))
    (h : ∀ a ∈ l, key a ∈ ks) :
    l.insertionSort (fun x y => key y ≤ key x) =
      ks.flatMap fun k => l.filter fun a => decide (key a = k) := by
  induction l with
  | nil => simp
  | cons a l ih =>
    have hrest := ih fun b hb => h b (List.mem_cons_of_mem a hb)
    rw [List.insertionSort_cons, hrest, orderedInsert_groups key hks (h a List.mem_cons_self)]

end Groups

/-- Taking a list apart by keys loses nothing, if every key comes once. -/
theorem groups_perm {α κ : Type} [DecidableEq κ] (key : α → κ) {l : List α} {ks : List κ}
    (hks : ks.Nodup) (h : ∀ a ∈ l, key a ∈ ks) :
    (ks.flatMap fun k => l.filter fun a => decide (key a = k)).Perm l := by
  induction ks generalizing l with
  | nil =>
    have hnil : l = [] := List.eq_nil_iff_forall_not_mem.mpr fun a ha => List.not_mem_nil (h a ha)
    rw [hnil]
    rfl
  | cons k ks ih =>
    obtain ⟨hnot, hrest⟩ := List.nodup_cons.mp hks
    have hothers : (ks.flatMap fun k' => l.filter fun a => decide (key a = k')) =
        ks.flatMap fun k' => (l.filter fun a => !decide (key a = k)).filter
          fun a => decide (key a = k') := by
      apply List.flatMap_congr
      intro k' hk'
      rw [List.filter_filter]
      apply List.filter_congr
      intro a _
      by_cases ha : key a = k'
      · have hne : ¬ k' = k := fun heq => hnot (by rw [← heq]; exact hk')
        simp [ha, hne]
      · simp [ha]
    have hmem : ∀ a ∈ l.filter (fun a => !decide (key a = k)), key a ∈ ks := by
      intro a ha
      obtain ⟨hin, hne⟩ := List.mem_filter.mp ha
      exact (List.mem_cons.mp (h a hin)).resolve_left (by simpa using hne)
    rw [List.flatMap_cons, hothers]
    exact ((ih hrest hmem).append_left _).trans (List.filter_append_perm _ l)

end UnwindCheck.Lib
