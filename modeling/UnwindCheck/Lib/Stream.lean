import Mathlib

/-! A stream of characters read line by line through a buffer, and a list handed over in
batches. -/
namespace UnwindCheck.Lib

/-- Up to `room` characters, the last of them the first newline if there is one among them; and
what is left. -/
def takeLine : (room : ℕ) → List Char → List Char × List Char
  | 0, stream => ([], stream)
  | _ + 1, [] => ([], [])
  | room + 1, c :: stream =>
    if c = '\n' then ([c], stream)
    else (c :: (takeLine room stream).1, (takeLine room stream).2)

/-- `fgets` into a buffer of `size` bytes, which keeps the last one for the terminator. -/
def fgets (size : ℕ) (stream : List Char) : Option (List Char × List Char) :=
  if stream = [] then none else some (takeLine (size - 1) stream)

theorem takeLine_line {room : ℕ} {line : List Char} (hnl : '\n' ∉ line) (hlen : line.length < room)
    (rest : List Char) : takeLine room (line ++ '\n' :: rest) = (line ++ ['\n'], rest) := by
  induction line generalizing room with
  | nil =>
    obtain ⟨room, rfl⟩ : ∃ n, room = n + 1 := ⟨room - 1, by simp at hlen; omega⟩
    simp [takeLine]
  | cons c line ih =>
    obtain ⟨room, rfl⟩ : ∃ n, room = n + 1 := ⟨room - 1, by simp at hlen; omega⟩
    have hc : c ≠ '\n' := fun h => hnl (h ▸ List.mem_cons_self)
    have hrest : '\n' ∉ line := fun h => hnl (List.mem_cons_of_mem c h)
    have hroom : line.length < room := by
      simp only [List.length_cons] at hlen
      omega
    simp [takeLine, hc, ih hrest hroom]

/-- A line that fits into the buffer with its newline is read whole. -/
theorem fgets_line {size : ℕ} {line : List Char} (hnl : '\n' ∉ line) (hlen : line.length + 1 < size)
    (rest : List Char) : fgets size (line ++ '\n' :: rest) = some (line ++ ['\n'], rest) := by
  have hroom : line.length < size - 1 := by omega
  have hne : line ++ '\n' :: rest ≠ [] := by simp
  rw [fgets, if_neg hne, takeLine_line hnl hroom]

section Batches
variable {α : Type}

/-- The list in runs of `size`, the last of them shorter. -/
def batches (size : ℕ) : List α → List (List α)
  | [] => []
  | a :: l => (a :: l.take (size - 1)) :: batches size (l.drop (size - 1))
termination_by l => l.length
decreasing_by simp only [List.length_drop, List.length_cons]; omega

theorem batches_flatten (size : ℕ) (l : List α) : (batches size l).flatten = l := by
  fun_induction batches size l with
  | case1 => rfl
  | case2 a l ih => simp [ih]

theorem of_mem_batches {size : ℕ} (hsize : 1 ≤ size) {l batch : List α} (h : batch ∈ batches size l) :
    batch ≠ [] ∧ batch.length ≤ size := by
  fun_induction batches size l with
  | case1 => cases h
  | case2 a l ih =>
    rcases List.mem_cons.mp h with rfl | h
    · constructor
      · simp
      · simp only [List.length_cons, List.length_take]
        omega
    · exact ih h

end Batches

end UnwindCheck.Lib
