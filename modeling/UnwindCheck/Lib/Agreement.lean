import Mathlib.Data.Fintype.Order

/-! A fact that is kept only as long as everyone states the same one. -/
namespace UnwindCheck.Lib

/-- `none` is the fact that was given up: nothing is above it. -/
def Agreement (α : Type) : Type := Option α

namespace Agreement
variable {α : Type} [DecidableEq α]

/-- What two sides agree on. -/
def meetUp (x y : Option α) : Option α := if x = y then x else none

theorem meetUp_self (x : Option α) : meetUp x x = x := if_pos rfl

theorem meetUp_of_ne {x y : Option α} (h : x ≠ y) : meetUp x y = none := if_neg h

instance instSemilatticeSupAgreement : SemilatticeSup (Agreement α) where
  le x y := y = (none : Option α) ∨ x = y
  sup x y := meetUp x y
  le_refl x := Or.inr rfl
  le_trans x y z hxy hyz := by
    rcases hyz with rfl | rfl
    · exact Or.inl rfl
    · exact hxy
  le_antisymm x y hxy hyx := by
    rcases hxy with rfl | rfl
    · rcases hyx with h | h
      · exact h
      · exact h.symm
    · rfl
  le_sup_left x y := by
    by_cases h : x = y
    · subst h
      exact Or.inr (meetUp_self x).symm
    · exact Or.inl (meetUp_of_ne h)
  le_sup_right x y := by
    by_cases h : x = y
    · subst h
      exact Or.inr (meetUp_self x).symm
    · exact Or.inl (meetUp_of_ne h)
  sup_le x y z hx hy := by
    by_cases h : x = y
    · subst h
      rcases hx with hz | hz
      · exact Or.inl hz
      · exact Or.inr ((meetUp_self x).trans hz)
    · left
      rcases hx with hz | rfl
      · exact hz
      · rcases hy with hz | rfl
        · exact hz
        · exact absurd rfl h

theorem le_def {x y : Agreement α} : x ≤ y ↔ y = (none : Option α) ∨ x = y := Iff.rfl

/-- A fact survives exactly when both sides state it. -/
theorem meetUp_eq_some {x y : Option α} {a : α} : meetUp x y = some a ↔ x = some a ∧ y = some a := by
  unfold meetUp
  split_ifs with h
  · constructor
    · intro hx
      exact ⟨hx, h ▸ hx⟩
    · exact fun hxy => hxy.1
  · constructor
    · intro hx
      cases hx
    · rintro ⟨rfl, rfl⟩
      exact absurd rfl h

/-- A fact is given up at most once. -/
instance instWellFoundedGTAgreement : WellFoundedGT (Agreement α) := by
  have hmono : StrictMono fun x : Agreement α => Option.isNone (α := α) x := by
    intro x y h
    obtain ⟨hle, hne⟩ := lt_iff_le_and_ne.mp h
    rcases le_def.mp hle with rfl | rfl
    · obtain ⟨a, rfl⟩ := Option.ne_none_iff_exists'.mp hne
      exact (by decide : false < true)
    · exact absurd rfl hne
  exact hmono.wellFoundedGT

end Agreement

end UnwindCheck.Lib
