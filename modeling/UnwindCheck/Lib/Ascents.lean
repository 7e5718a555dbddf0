import Mathlib.Order.Lattice
import Mathlib.Data.List.Basic

/-! Where a sequence goes up. The points from which it does are in order themselves unless it first
comes back to where it has been. -/
namespace UnwindCheck.Lib
variable {α : Type} [LinearOrder α]

/-- The points of the sequence from `x` on that are followed by a greater one. -/
def ascents : α → List α → List α
  | _, [] => []
  | x, y :: l => (if x < y then [x] else []) ++ ascents y l

/-- A step down that gets behind `first`, or back to the start of an ascent or behind it, is followed
by no ascent. The ascents before `x` start at `starts`. -/
def NoReturn (first : α) : (starts : List α) → α → List α → Prop
  | _, _, [] => True
  | starts, x, y :: l =>
    (y < x → (y < first ∨ ∃ s ∈ starts, y ≤ s) → ascents y l = []) ∧
      NoReturn first (if x < y then x :: starts else starts) y l

theorem ascents_cons (x y : α) (l : List α) :
    ascents x (y :: l) = (if x < y then [x] else []) ++ ascents y l := rfl

theorem noReturn_cons (first x y : α) (starts l : List α) : NoReturn first starts x (y :: l) ↔
    (y < x → (y < first ∨ ∃ s ∈ starts, y ≤ s) → ascents y l = []) ∧
      NoReturn first (if x < y then x :: starts else starts) y l := Iff.rfl

theorem head_ascents_le {x a : α} {l rest : List α} (h : ascents x l = a :: rest) : a ≤ x := by
  induction l generalizing x with
  | nil => cases h
  | cons y l ih =>
    rw [ascents_cons] at h
    split_ifs at h with hxy
    · cases h
      exact le_refl _
    · exact (ih h).trans (not_lt.mp hxy)

/-- A sequence that never goes up cannot go wrong. -/
theorem noReturn_of_ascents_eq_nil {first x : α} {starts l : List α} (h : ascents x l = []) :
    NoReturn first starts x l := by
  induction l generalizing x starts with
  | nil => trivial
  | cons y l ih =>
    rw [ascents_cons] at h
    obtain ⟨-, hrest⟩ := List.append_eq_nil_iff.mp h
    exact ⟨fun _ _ => hrest, ih hrest⟩

/-- The starts of the ascents to come are in order, behind those of the ascents so far, and none is
before `first`. -/
structure Rises (first : α) (starts : List α) (l : List α) : Prop where
  sorted : l.Pairwise (· < ·)
  after : ∀ s ∈ starts, ∀ a ∈ l, s < a
  first_le : ∀ a ∈ l, first ≤ a

theorem rises_nil (first : α) (starts : List α) : Rises first starts [] :=
  ⟨.nil, by simp, by simp⟩

theorem rises_cons_iff {first x : α} {starts l : List α} (hstarts : ∀ s ∈ starts, s < x)
    (hfirst : first ≤ x) : Rises first starts (x :: l) ↔ Rises first (x :: starts) l := by
  constructor
  · rintro ⟨hsorted, hafter, hle⟩
    obtain ⟨hx, hsorted⟩ := List.pairwise_cons.mp hsorted
    refine ⟨hsorted, ?_, fun a ha => hle a (List.mem_cons_of_mem x ha)⟩
    intro s hs a ha
    rcases List.mem_cons.mp hs with rfl | hs
    · exact hx a ha
    · exact hafter s hs a (List.mem_cons_of_mem x ha)
  · rintro ⟨hsorted, hafter, hle⟩
    refine ⟨List.pairwise_cons.mpr ⟨fun a ha => hafter x List.mem_cons_self a ha, hsorted⟩, ?_, ?_⟩
    · intro s hs a ha
      rcases List.mem_cons.mp ha with rfl | ha
      · exact hstarts s hs
      · exact hafter s (List.mem_cons_of_mem x hs) a ha
    · intro a ha
      rcases List.mem_cons.mp ha with rfl | ha
      · exact hfirst
      · exact hle a ha

/-- As long as the sequence is ahead of everything it went up from, the rest of its ascents are in
order exactly when it never returns. -/
theorem noReturn_iff_rises {first x : α} {starts l : List α} (hstarts : ∀ s ∈ starts, s < x)
    (hfirst : first ≤ x) : NoReturn first starts x l ↔ Rises first starts (ascents x l) := by
  induction l generalizing x starts with
  | nil => exact ⟨fun _ => rises_nil first starts, fun _ => trivial⟩
  | cons y l ih =>
    rw [noReturn_cons, ascents_cons]
    by_cases hxy : x < y
    · have hstarts' : ∀ s ∈ x :: starts, s < y := by
        intro s hs
        rcases List.mem_cons.mp hs with rfl | hs
        · exact hxy
        · exact (hstarts s hs).trans hxy
      rw [if_pos hxy, if_pos hxy, ih hstarts' (hfirst.trans hxy.le), List.singleton_append,
        rises_cons_iff hstarts hfirst]
      exact ⟨And.right, fun h => ⟨fun hyx => absurd hxy hyx.asymm, h⟩⟩
    · rw [if_neg hxy, if_neg hxy, List.nil_append]
      by_cases hback : y < first ∨ ∃ s ∈ starts, y ≤ s
      · have hyx : y < x := by
          rcases hback with hy | ⟨s, hs, hy⟩
          · exact hy.trans_le hfirst
          · exact hy.trans_lt (hstarts s hs)
        constructor
        · rintro ⟨hnone, -⟩
          rw [hnone hyx hback]
          exact rises_nil first starts
        · intro h
          -- the next ascent would start too low
          have hnone : ascents y l = [] := by
            cases ha : ascents y l with
            | nil => rfl
            | cons a rest =>
              exfalso
              have hay := head_ascents_le ha
              rw [ha] at h
              rcases hback with hy | ⟨s, hs, hy⟩
              · exact absurd (h.first_le a List.mem_cons_self) (not_le.mpr (hay.trans_lt hy))
              · exact absurd (h.after s hs a List.mem_cons_self) (not_lt.mpr (hay.trans hy))
          exact ⟨fun _ _ => hnone, noReturn_of_ascents_eq_nil hnone⟩
      · have hstarts' : ∀ s ∈ starts, s < y := by
          intro s hs
          exact not_le.mp fun hy => hback (Or.inr ⟨s, hs, hy⟩)
        have hfirst' : first ≤ y := not_lt.mp fun hy => hback (Or.inl hy)
        rw [ih hstarts' hfirst']
        exact ⟨And.right, fun h => ⟨fun _ hb => absurd hb hback, h⟩⟩

/-- A sequence that goes up at all does so from its first point on and in order exactly when it never
returns. -/
theorem noReturn_iff_sorted {x : α} {l : List α} (hne : ascents x l ≠ []) :
    NoReturn x [] x l ↔ (ascents x l).Pairwise (· < ·) ∧ (ascents x l).head? = some x := by
  rw [noReturn_iff_rises (by simp) (le_refl x)]
  cases ha : ascents x l with
  | nil => exact absurd ha hne
  | cons a rest =>
    have hax := head_ascents_le ha
    constructor
    · intro h
      refine ⟨h.sorted, ?_⟩
      rw [List.head?_cons, le_antisymm hax (h.first_le a List.mem_cons_self)]
    · rintro ⟨hsorted, hhead⟩
      obtain rfl : a = x := Option.some.inj hhead
      refine ⟨hsorted, by simp, ?_⟩
      intro b hb
      rcases List.mem_cons.mp hb with rfl | hb
      · exact le_refl _
      · exact ((List.pairwise_cons.mp hsorted).1 b hb).le

end UnwindCheck.Lib
