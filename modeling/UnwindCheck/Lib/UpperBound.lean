import Mathlib.Data.List.Basic

/-! Binary search as the standard library's `upper_bound` performs it, over a predicate on
positions. The specification needs no monotonicity: the search always stops at a boundary of
the predicate, whatever the predicate is. -/
namespace UnwindCheck.Lib

/-- One call on the range of `len` positions from `first`. `right i` says that the element at
position `i` is greater than the searched value. The fuel only bounds the recursion. -/
def upperBoundFrom (right : ℕ → Bool) : (fuel first len : ℕ) → ℕ
  | 0, first, _ => first
  | fuel + 1, first, len =>
    if len = 0 then first
    else if right (first + len / 2) then upperBoundFrom right fuel first (len / 2)
    else upperBoundFrom right fuel (first + len / 2 + 1) (len - len / 2 - 1)

/-- The position `upper_bound` returns on a range of `n` elements. -/
def upperBound (right : ℕ → Bool) (n : ℕ) : ℕ := upperBoundFrom right n 0 n

theorem upperBoundFrom_spec (right : ℕ → Bool) (fuel first len : ℕ) (hf : len ≤ fuel) :
    first ≤ upperBoundFrom right fuel first len ∧
      upperBoundFrom right fuel first len ≤ first + len ∧
      (upperBoundFrom right fuel first len = first ∨
        right (upperBoundFrom right fuel first len - 1) = false) ∧
      (upperBoundFrom right fuel first len = first + len ∨
        right (upperBoundFrom right fuel first len) = true) := by
  induction fuel generalizing first len with
  | zero =>
    have hl : len = 0 := by omega
    subst hl
    simp [upperBoundFrom]
  | succ fuel ih =>
    unfold upperBoundFrom
    split_ifs with hz hr
    · subst hz
      simp
    · obtain ⟨hlo, hhi, hleft, hright⟩ := ih first (len / 2) (by omega)
      refine ⟨hlo, by omega, hleft, ?_⟩
      rcases hright with h | h
      · exact Or.inr (h ▸ hr)
      · exact Or.inr h
    · obtain ⟨hlo, hhi, hleft, hright⟩ :=
        ih (first + len / 2 + 1) (len - len / 2 - 1) (by omega)
      refine ⟨by omega, by omega, ?_, ?_⟩
      · rcases hleft with h | h
        · right
          rw [h, Nat.add_sub_cancel]
          exact Bool.eq_false_iff.mpr hr
        · exact Or.inr h
      · rcases hright with h | h
        · left
          omega
        · exact Or.inr h

theorem upperBound_le (right : ℕ → Bool) (n : ℕ) : upperBound right n ≤ n := by
  simpa [upperBound] using (upperBoundFrom_spec right n 0 n (Nat.le_refl n)).2.1

/-- The element before the returned position is not greater than the searched value. -/
theorem upperBound_left (right : ℕ → Bool) (n : ℕ) :
    upperBound right n = 0 ∨ right (upperBound right n - 1) = false :=
  (upperBoundFrom_spec right n 0 n (Nat.le_refl n)).2.2.1

/-- The element at the returned position is greater. -/
theorem upperBound_right (right : ℕ → Bool) (n : ℕ) :
    upperBound right n = n ∨ right (upperBound right n) = true := by
  simpa [upperBound] using (upperBoundFrom_spec right n 0 n (Nat.le_refl n)).2.2.2

/-- Only the first element decides whether the search can run off the left end. -/
theorem upperBound_pos {right : ℕ → Bool} {n : ℕ} (hn : 0 < n) (h0 : right 0 = false) :
    0 < upperBound right n := by
  by_contra h
  have hz : upperBound right n = 0 := by omega
  rcases upperBound_right right n with h | h
  · omega
  · rw [hz, h0] at h
    exact Bool.false_ne_true h

/-- On a partitioned range the search returns the boundary. -/
theorem upperBound_eq {right : ℕ → Bool} {n k : ℕ} (hk : k ≤ n) (hleft : ∀ i < k, right i = false)
    (hright : ∀ i, k ≤ i → i < n → right i = true) : upperBound right n = k := by
  have hle := upperBound_le right n
  rcases Nat.lt_trichotomy (upperBound right n) k with hlt | heq | hgt
  · rcases upperBound_right right n with h | h
    · omega
    · exact absurd (hleft _ hlt) (by simp [h])
  · exact heq
  · rcases upperBound_left right n with h | h
    · omega
    · have htrue := hright (upperBound right n - 1) (by omega) (by omega)
      rw [h] at htrue
      exact absurd htrue Bool.false_ne_true

section Partition
variable {α : Type} {greater : α → Bool}

/-- With the greater elements behind the others, the search returns how many others there are. -/
theorem upperBound_append {left right : List α} (hleft : ∀ a ∈ left, greater a = false)
    (hright : ∀ a ∈ right, greater a = true) :
    upperBound (fun i => ((left ++ right)[i]?).any greater) (left ++ right).length =
      left.length := by
  apply upperBound_eq
  · simp
  · intro i hi
    rw [List.getElem?_append_left hi, List.getElem?_eq_getElem hi]
    exact hleft _ (List.getElem_mem hi)
  · intro i hle hlt
    have hi : i - left.length < right.length := by
      rw [List.length_append] at hlt
      omega
    rw [List.getElem?_append_right hle, List.getElem?_eq_getElem hi]
    exact hright _ (List.getElem_mem hi)

/-- A list in which nothing follows a greater element but greater ones splits at one place. -/
theorem exists_partition {l : List α}
    (hs : l.Pairwise fun a b => greater a = true → greater b = true) :
    ∃ left right, l = left ++ right ∧ (∀ a ∈ left, greater a = false) ∧
      ∀ a ∈ right, greater a = true := by
  induction l with
  | nil => exact ⟨[], [], rfl, by simp, by simp⟩
  | cons a l ih =>
    obtain ⟨hfirst, hrest⟩ := List.pairwise_cons.mp hs
    cases ha : greater a with
    | true =>
      refine ⟨[], a :: l, rfl, by simp, ?_⟩
      intro b hb
      rcases List.mem_cons.mp hb with rfl | hb
      · exact ha
      · exact hfirst b hb ha
    | false =>
      obtain ⟨left, right, rfl, hleft, hright⟩ := ih hrest
      refine ⟨a :: left, right, rfl, ?_, hright⟩
      intro b hb
      rcases List.mem_cons.mp hb with rfl | hb
      · exact ha
      · exact hleft b hb

/-- Where a search among elements in the order `R` can end: before all of them, or behind the last
one that is not greater, which the others not greater come before. -/
theorem upperBound_cases {R : α → α → Prop} {l : List α} (hs : l.Pairwise R)
    (hR : ∀ a b, R a b → greater a = true → greater b = true) :
    (upperBound (fun i => (l[i]?).any greater) l.length = 0 ∧ ∀ a ∈ l, greater a = true) ∨
      ∃ last ∈ l, greater last = false ∧ upperBound (fun i => (l[i]?).any greater) l.length ≠ 0 ∧
        l[upperBound (fun i => (l[i]?).any greater) l.length - 1]? = some last ∧
        ∀ a ∈ l, greater a = false → R a last ∨ a = last := by
  obtain ⟨left, right, rfl, hleft, hright⟩ := exists_partition (hs.imp (hR _ _))
  have hbound := upperBound_append hleft hright
  rcases List.eq_nil_or_concat left with rfl | ⟨init, last, hconcat⟩
  · exact Or.inl ⟨hbound, hright⟩
  · right
    rw [List.concat_eq_append] at hconcat
    subst hconcat
    refine ⟨last, by simp, hleft last (by simp), ?_, ?_, ?_⟩
    · rw [hbound, List.length_append, List.length_singleton]
      omega
    · rw [hbound]
      simp
    · intro a ha hnot
      obtain ⟨hinit, -, -⟩ := List.pairwise_append.mp hs
      rcases List.mem_append.mp ha with hin | hin
      · rcases List.mem_append.mp hin with hin | hin
        · exact Or.inl ((List.pairwise_append.mp hinit).2.2 a hin last (by simp))
        · exact Or.inr (List.mem_singleton.mp hin)
      · exact absurd (hright a hin) (by simp [hnot])

/-- The search ends behind the last element that is not greater, or at the start without one. -/
theorem upperBound_getLast? {l : List α}
    (hs : l.Pairwise fun a b => greater a = true → greater b = true) :
    (upperBound (fun i => (l[i]?).any greater) l.length = 0 ↔ l.filter (fun a => !greater a) = []) ∧
      (upperBound (fun i => (l[i]?).any greater) l.length ≠ 0 →
        l[upperBound (fun i => (l[i]?).any greater) l.length - 1]? =
          (l.filter fun a => !greater a).getLast?) := by
  obtain ⟨left, right, rfl, hleft, hright⟩ := exists_partition hs
  have hfilter : (left ++ right).filter (fun a => !greater a) = left := by
    rw [List.filter_append, List.filter_eq_self.mpr (by simpa using hleft),
      List.filter_eq_nil_iff.mpr (by simpa using hright), List.append_nil]
  rw [upperBound_append hleft hright, hfilter]
  constructor
  · exact List.length_eq_zero_iff
  · intro hpos
    have hlt : left.length - 1 < left.length := by omega
    rw [List.getElem?_append_left hlt, List.getLast?_eq_getElem?]

end Partition

end UnwindCheck.Lib
