import Mathlib

/-! How texts open: what tells two of them apart, and texts that start with a number. -/
namespace UnwindCheck.Lib

/-- The text starts with these characters. -/
def Opens (cs : List Char) (s : String) : Prop := cs <+: s.toList

theorem Opens.append {cs : List Char} {s : String} (h : Opens cs s) (t : String) : Opens cs (s ++ t) := by
  unfold Opens at h ⊢
  rw [String.toList_append]
  exact h.trans (List.prefix_append _ _)

theorem Opens.ne {cs ds : List Char} {s t : String} (hs : Opens cs s) (ht : Opens ds t)
    (hlen : cs.length = ds.length) (hne : cs ≠ ds) : s ≠ t := by
  rintro rfl
  have hpre := List.prefix_of_prefix_length_le hs ht hlen.le
  exact hne (hpre.eq_of_length hlen)

/-- The first character is there, and no digit. -/
def Worded (s : String) : Prop := ∃ c : Char, c.isDigit = false ∧ Opens [c] s

theorem Worded.append {s : String} (h : Worded s) (t : String) : Worded (s ++ t) := by
  obtain ⟨c, hc, hopens⟩ := h
  exact ⟨c, hc, hopens.append t⟩

theorem Worded.dropWhile {s : String} (h : Worded s) : s.toList.dropWhile Char.isDigit = s.toList := by
  obtain ⟨c, hc, cs, hs⟩ := h
  rw [← hs, List.singleton_append, List.dropWhile_cons, hc]
  rfl

end UnwindCheck.Lib
