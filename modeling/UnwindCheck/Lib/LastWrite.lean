import Mathlib

/-! What is read after a run of steps, each of which writes it or leaves it alone. -/
namespace UnwindCheck.Lib

section
variable {σ ρ α : Type} {step : σ → ρ → σ} (read : σ → α)

theorem foldl_read_of_untouched {l : List ρ} (h : ∀ q ∈ l, ∀ s, read (step s q) = read s) (s : σ) :
    read (l.foldl step s) = read s := by
  induction l generalizing s with
  | nil => rfl
  | cons q l ih =>
    have hrest := ih (fun p hp => h p (List.mem_cons_of_mem q hp)) (step s q)
    rw [List.foldl_cons, hrest, h q List.mem_cons_self]

/-- The last write is what is read. -/
theorem foldl_read_of_last {before after : List ρ} {r : ρ} {a : α} (hr : ∀ s, read (step s r) = a)
    (h : ∀ q ∈ after, ∀ s, read (step s q) = read s) (s : σ) :
    read ((before ++ r :: after).foldl step s) = a := by
  rw [List.foldl_append, List.foldl_cons, foldl_read_of_untouched read h, hr]

end

section
variable {σ α : Type} {n : ℕ} {step : σ → Fin n → σ} (read : σ → α)

theorem finRange_eq_append (r : Fin n) :
    ∃ before after, List.finRange n = before ++ r :: after ∧ ∀ q ∈ after, r < q := by
  obtain ⟨before, after, heq⟩ := List.append_of_mem (List.mem_finRange r)
  have hlt := List.pairwise_lt_finRange n
  rw [heq] at hlt
  exact ⟨before, after, heq, (List.pairwise_cons.mp (List.pairwise_append.mp hlt).2.1).1⟩

/-- In numeric order the last write is the highest-numbered one. -/
theorem foldl_finRange_of_last (r : Fin n) {a : α} (hr : ∀ s, read (step s r) = a)
    (h : ∀ q, r < q → ∀ s, read (step s q) = read s) (s : σ) :
    read ((List.finRange n).foldl step s) = a := by
  obtain ⟨before, after, heq, hafter⟩ := finRange_eq_append r
  rw [heq]
  exact foldl_read_of_last read hr (fun q hq => h q (hafter q hq)) s

end

end UnwindCheck.Lib
