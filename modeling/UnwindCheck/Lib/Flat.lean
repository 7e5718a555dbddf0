import Mathlib.Logic.Basic

/-! The flat order: everything lies between a least and a greatest element, and nothing else
compares. -/
namespace UnwindCheck.Lib

/-- `lo` is below everything and `hi` above everything. -/
def FlatLE {α : Type} (lo hi a b : α) : Prop := a = lo ∨ b = hi ∨ a = b

namespace FlatLE
variable {α : Type} {lo hi a b c : α}

theorem refl (a : α) : FlatLE lo hi a a := Or.inr (Or.inr rfl)

theorem trans (hne : lo ≠ hi) (hab : FlatLE lo hi a b) (hbc : FlatLE lo hi b c) :
    FlatLE lo hi a c := by
  rcases hab with rfl | rfl | rfl
  · exact Or.inl rfl
  · rcases hbc with h | h | h
    · exact absurd h.symm hne
    · exact Or.inr (Or.inl h)
    · exact Or.inr (Or.inl h.symm)
  · exact hbc

theorem antisymm (hne : lo ≠ hi) (hab : FlatLE lo hi a b) (hba : FlatLE lo hi b a) : a = b := by
  rcases hab with rfl | rfl | rfl
  · rcases hba with h | h | h
    · exact h.symm
    · exact absurd h hne
    · exact h.symm
  · rcases hba with h | h | h
    · exact absurd h.symm hne
    · exact h
    · exact h.symm
  · rfl

/-- Two different elements from the middle are only below `hi`. -/
theorem eq_hi (ha : a ≠ lo) (hb : b ≠ lo) (hab : a ≠ b) (hac : FlatLE lo hi a c)
    (hbc : FlatLE lo hi b c) : c = hi := by
  rcases hac with h | h | rfl
  · exact absurd h ha
  · exact h
  · rcases hbc with h | h | h
    · exact absurd h hb
    · exact h
    · exact absurd h.symm hab

end FlatLE

end UnwindCheck.Lib
