import Mathlib.Order.Interval.Finset.Nat

/-! Counting what a predicate leaves out of a half-open range of numbers. -/
namespace UnwindCheck.Lib
variable {p q : ℕ → Prop} [DecidablePred p] [DecidablePred q] {lo mid hi : ℕ}

/-- How many numbers from `lo` up to `hi` do not have the property. -/
def missing (p : ℕ → Prop) [DecidablePred p] (lo hi : ℕ) : ℕ := {a ∈ Finset.Ico lo hi | ¬ p a}.card

theorem missing_split (p : ℕ → Prop) [DecidablePred p] (hlo : lo ≤ mid) (hhi : mid ≤ hi) :
    missing p lo hi = missing p lo mid + missing p mid hi := by
  unfold missing
  rw [← Finset.Ico_union_Ico_eq_Ico hlo hhi, Finset.filter_union, Finset.card_union_of_disjoint]
  exact Finset.disjoint_filter_filter (Finset.Ico_disjoint_Ico_consecutive lo mid hi)

theorem missing_congr (h : ∀ a, lo ≤ a → a < hi → (p a ↔ q a)) : missing p lo hi = missing q lo hi := by
  unfold missing
  congr 1
  refine Finset.filter_congr fun a ha => ?_
  obtain ⟨hlo, hhi⟩ := Finset.mem_Ico.mp ha
  rw [h a hlo hhi]

theorem missing_eq_sub (h : ∀ a, lo ≤ a → a < hi → ¬ p a) : missing p lo hi = hi - lo := by
  have hall : ∀ a ∈ Finset.Ico lo hi, ¬ p a := fun a ha =>
    h a (Finset.mem_Ico.mp ha).1 (Finset.mem_Ico.mp ha).2
  rw [missing, Finset.filter_true_of_mem hall, Nat.card_Ico]

theorem missing_eq_zero_iff : missing p lo hi = 0 ↔ ∀ a, lo ≤ a → a < hi → p a := by
  simp [missing, Finset.filter_eq_empty_iff]

end UnwindCheck.Lib
