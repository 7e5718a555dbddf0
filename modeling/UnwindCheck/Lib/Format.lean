import Mathlib.Data.List.Infix

/-! Formats as relations between values and texts, and readers that are exact for one: they accept
its texts, wherever they stand, and nothing else. -/
namespace UnwindCheck.Lib

/-- A stream of symbols that is read from the front and knows its position. -/
structure Source (σ π β : Type) where
  rest : σ → List β
  pos : σ → π
  advance : σ → ℕ → σ
  move : π → ℕ → π
  rest_advance : ∀ s n, rest (advance s n) = (rest s).drop n
  pos_advance : ∀ s n, pos (advance s n) = move (pos s) n
  advance_zero : ∀ s, advance s 0 = s
  advance_advance : ∀ s m n, advance (advance s m) n = advance s (m + n)

/-- Which texts at a position stand for which value. -/
abbrev Format (π β α : Type) : Type := π → α → List β → Prop

namespace Format
variable {π β α γ : Type}

/-- Nothing is written. -/
def done (a : α) : Format π β α := fun _ b text => b = a ∧ text = []

/-- One text behind the other, the second depending on the value of the first. -/
def seq (move : π → ℕ → π) (G : Format π β α) (H : α → Format π β γ) : Format π β γ :=
  fun p c text => ∃ a first second, text = first ++ second ∧ G p a first ∧
    H a (move p first.length) c second

/-- The text of a value it is a function of. -/
def map (f : α → γ) (G : Format π β α) : Format π β γ := fun p c text => ∃ a, G p a text ∧ f a = c

/-- The texts of a format under a condition. -/
def when (c : Prop) (G : Format π β α) : Format π β α := fun p a text => c ∧ G p a text

/-- Texts one behind the other. -/
inductive Many (move : π → ℕ → π) (G : Format π β α) : Format π β (List α)
  | nil (p : π) : Many move G p [] []
  | cons {p : π} {a : α} {as : List α} {first second : List β} (hfirst : G p a first)
    (hsecond : Many move G (move p first.length) as second) : Many move G p (a :: as) (first ++ second)

section Map
variable {δ : Type} {f : γ → δ}

theorem map_map (g : α → γ) (G : Format π β α) : (G.map g).map f = G.map fun a => f (g a) := by
  funext p c text
  apply propext
  constructor
  · rintro ⟨_, ⟨a, ha, rfl⟩, rfl⟩
    exact ⟨a, ha, rfl⟩
  · rintro ⟨a, ha, rfl⟩
    exact ⟨_, ⟨a, ha, rfl⟩, rfl⟩

theorem map_when (c : Prop) (G : Format π β γ) : (G.when c).map f = (G.map f).when c := by
  funext p d text
  apply propext
  constructor
  · rintro ⟨a, ⟨hc, ha⟩, rfl⟩
    exact ⟨hc, a, ha, rfl⟩
  · rintro ⟨hc, a, ha, rfl⟩
    exact ⟨a, ⟨hc, ha⟩, rfl⟩

theorem map_seq (move : π → ℕ → π) (G : Format π β α) (H : α → Format π β γ) :
    (G.seq move H).map f = G.seq move fun a => (H a).map f := by
  funext p d text
  apply propext
  constructor
  · rintro ⟨c, ⟨a, first, second, htext, hG, hH⟩, rfl⟩
    exact ⟨a, first, second, htext, hG, c, hH, rfl⟩
  · rintro ⟨a, first, second, htext, hG, c, hH, rfl⟩
    exact ⟨c, ⟨a, first, second, htext, hG, hH⟩, rfl⟩

theorem map_done (c : γ) : (done c : Format π β γ).map f = done (f c) := by
  funext p d text
  apply propext
  constructor
  · rintro ⟨a, ⟨rfl, rfl⟩, rfl⟩
    exact ⟨rfl, rfl⟩
  · rintro ⟨rfl, rfl⟩
    exact ⟨c, ⟨rfl, rfl⟩, rfl⟩

end Map

variable {move : π → ℕ → π} {G : Format π β α} {p : π} {as : List α} {text : List β}

/-- Where every text has a symbol, no text is of no value. -/
theorem Many.eq_nil (hG : ∀ p a text, G p a text → text ≠ []) (h : Many move G p as text)
    (htext : text = []) : as = [] := by
  cases h with
  | nil => rfl
  | cons hfirst _ => exact absurd (List.append_eq_nil_iff.mp htext).1 (hG _ _ _ hfirst)

end Format

section Readers
variable {σ π β ε α γ : Type} {src : Source σ π β} {read : StateT σ (Except ε) α} {G H : Format π β α}

/-- The reader takes the texts of the format. -/
def Exact (src : Source σ π β) (read : StateT σ (Except ε) α) (G : Format π β α) : Prop :=
  ∀ s a s', read.run s = .ok (a, s') ↔
    ∃ text, text <+: src.rest s ∧ G (src.pos s) a text ∧ s' = src.advance s text.length

theorem Exact.congr (h : Exact src read G) (hG : ∀ p a text, G p a text ↔ H p a text) :
    Exact src read H := by
  intro s a s'
  rw [h s a s']
  simp only [hG]

theorem Exact.pure (a : α) :
    Exact src (Pure.pure a : StateT σ (Except ε) α) (.done a) := by
  intro s b s'
  constructor
  · intro h
    cases h
    exact ⟨[], List.nil_prefix, ⟨rfl, rfl⟩, (src.advance_zero s).symm⟩
  · rintro ⟨text, -, ⟨rfl, rfl⟩, rfl⟩
    rw [List.length_nil, src.advance_zero]
    rfl

theorem Exact.throw (e : ε) :
    Exact src (MonadExcept.throw e : StateT σ (Except ε) α) fun _ _ _ => False := by
  intro s a s'
  constructor
  · intro h
    cases h
  · rintro ⟨text, -, hfalse, -⟩
    exact hfalse.elim

theorem run_bind_iff {f : α → StateT σ (Except ε) γ} {s s'' : σ} {c : γ} :
    (read >>= f).run s = .ok (c, s'') ↔
      ∃ a s', read.run s = .ok (a, s') ∧ (f a).run s' = .ok (c, s'') := by
  rw [StateT.run_bind]
  cases hread : read.run s with
  | error e =>
    constructor
    · intro h
      cases h
    · rintro ⟨a, s', h, -⟩
      cases h
  | ok r =>
    constructor
    · intro h
      exact ⟨r.1, r.2, rfl, h⟩
    · rintro ⟨a, s', h, hf⟩
      cases h
      exact hf

theorem Exact.bind {f : α → StateT σ (Except ε) γ} {K : α → Format π β γ} (h : Exact src read G)
    (hf : ∀ a, Exact src (f a) (K a)) : Exact src (read >>= f) (G.seq src.move K) := by
  intro s c s''
  rw [run_bind_iff]
  constructor
  · rintro ⟨a, s', hread, hrest⟩
    obtain ⟨first, ⟨behind, hfirst⟩, hG, rfl⟩ := (h s a s').mp hread
    obtain ⟨second, hsecond, hK, rfl⟩ := (hf a _ c s'').mp hrest
    rw [src.rest_advance, ← hfirst, List.drop_left] at hsecond
    rw [src.pos_advance] at hK
    refine ⟨first ++ second, ?_, ⟨a, first, second, rfl, hG, hK⟩, ?_⟩
    · rw [← hfirst]
      exact (List.prefix_append_right_inj first).mpr hsecond
    · rw [src.advance_advance, List.length_append]
  · rintro ⟨text, htext, ⟨a, first, second, rfl, hG, hK⟩, rfl⟩
    have hfirst : first <+: src.rest s := (List.prefix_append first second).trans htext
    obtain ⟨behind, hbehind⟩ := hfirst
    have hsecond : second <+: src.rest (src.advance s first.length) := by
      rw [src.rest_advance, ← hbehind, List.drop_left]
      rw [← hbehind] at htext
      exact (List.prefix_append_right_inj first).mp htext
    refine ⟨a, src.advance s first.length, (h s a _).mpr ⟨first, ⟨behind, hbehind⟩, hG, rfl⟩, ?_⟩
    apply (hf a _ c _).mpr
    refine ⟨second, hsecond, ?_, ?_⟩
    · rw [src.pos_advance]
      exact hK
    · rw [src.advance_advance, List.length_append]

/-- A reader that goes on with a function of what it read. -/
theorem Exact.bind_pure (f : α → γ) (h : Exact src read G) :
    Exact src (read >>= fun a => Pure.pure (f a)) (G.map f) := by
  refine (h.bind fun a => Exact.pure (f a)).congr fun p c text => ?_
  constructor
  · rintro ⟨a, first, second, rfl, hG, rfl, rfl⟩
    rw [List.append_nil]
    exact ⟨a, hG, rfl⟩
  · rintro ⟨a, hG, rfl⟩
    exact ⟨a, text, [], (List.append_nil text).symm, hG, rfl, rfl⟩

/-- A check in front of a reader. -/
theorem Exact.guard {c d : Prop} [Decidable c] {e : ε} {k : Unit → StateT σ (Except ε) α}
    (hcd : ¬ c ↔ d) (h : Exact src (k ()) G) :
    Exact src (if c then MonadExcept.throw e >>= k else k ()) (G.when d) := by
  intro s a s'
  split_ifs with hc
  · constructor
    · intro h
      cases h
    · rintro ⟨text, -, ⟨hd, -⟩, -⟩
      exact absurd hc (hcd.mpr hd)
  · rw [h s a s']
    simp only [Format.when, hcd.mp hc, true_and]

end Readers

end UnwindCheck.Lib
