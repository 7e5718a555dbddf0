import UnwindCheck.Checker.Coverage

/-! Paths that disagree about something the row needs. -/
namespace UnwindCheck
variable {δ : Type} [Offset δ]

/-- A value that names something: neither unknown nor a recorded conflict. -/
def AbsVal.Concrete (v : AbsVal δ) : Prop := v ≠ .top ∧ v ≠ .bottom

instance (v : AbsVal δ) : Decidable v.Concrete := inferInstanceAs (Decidable (_ ∧ _))

/-- The components a row names. -/
inductive CFIRow.Consults (row : CFIRow δ) : Component δ → Prop
  | cfa (q : Fin 16) : row.cfa.kind = .regOffset → row.cfa.reg = q → row.Consults (.reg q)
  | saved (r : Fin 17) (offset : δ) : row.regs r = .atCFAOffset offset → row.Consults (.slot offset)
  | same (r : Fin 17) (q : Fin 16) : row.regs r = .sameValue → r.val = q → row.Consults (.reg q)
  | valOffset (r : Fin 17) (q : Fin 16) (offset : δ) :
      row.regs r = .valOffset offset → r.val = q → row.Consults (.reg q)
  | moved (r : Fin 17) (q : Fin 16) : row.regs r = .inRegister q → row.Consults (.reg q)

/-- `RowDependsOn` lists them. -/
theorem rowDependsOn_iff {row : CFIRow δ} {c : Component δ} :
    rowDependsOn row c = true ↔ row.Consults c := by
  constructor
  · intro h
    cases c with
    | slot k =>
      simp only [rowDependsOn, List.any_eq_true, decide_eq_true_eq] at h
      obtain ⟨r, -, hr⟩ := h
      exact .saved r k hr
    | reg q =>
      simp only [rowDependsOn, Bool.or_eq_true, decide_eq_true_eq, List.any_eq_true] at h
      rcases h with ⟨hk, hq⟩ | ⟨r, -, hr⟩
      · exact .cfa q hk hq
      · split at hr
        · rename_i p hp
          exact .moved r q (by rw [hp, decide_eq_true_eq.mp hr])
        · rename_i hs
          exact .same r q hs (decide_eq_true_eq.mp hr)
        · rename_i offset hv
          exact .valOffset r q offset hv (decide_eq_true_eq.mp hr)
        · cases hr
  · intro h
    cases h with
    | cfa q hk hq => simp [rowDependsOn, hk, hq]
    | saved r offset hr =>
      simp only [rowDependsOn, List.any_eq_true, decide_eq_true_eq]
      exact ⟨r, List.mem_finRange r, hr⟩
    | same r q hr hq =>
      simp only [rowDependsOn, Bool.or_eq_true, List.any_eq_true]
      exact Or.inr ⟨r, List.mem_finRange r, by simp [hr, hq]⟩
    | valOffset r q offset hr hq =>
      simp only [rowDependsOn, Bool.or_eq_true, List.any_eq_true]
      exact Or.inr ⟨r, List.mem_finRange r, by simp [hr, hq]⟩
    | moved r q hr =>
      simp only [rowDependsOn, Bool.or_eq_true, List.any_eq_true]
      exact Or.inr ⟨r, List.mem_finRange r, by simp [hr]⟩

namespace RowChecker
variable {rc : RowChecker} {row : CFIRow δ} {state : AbsState δ}

theorem compareValue_ne_bottom {v expected : AbsVal δ} {unknown wrong : String}
    (h : rc.compareValue v expected unknown wrong = []) : v ≠ .bottom := by
  have hu := (rc.compareValue_eq_nil.mp h).1
  rintro rfl
  cases hu

/-- A silent check has seen no conflict where it looked. -/
theorem consulted_ne_bottom (h : rc.check row state = []) {c : Component δ}
    (hc : row.Consults c) : state.get c ≠ .bottom := by
  obtain ⟨hcfa, hregs⟩ := rc.check_eq_nil.mp h
  cases hc with
  | cfa q hk hq =>
    obtain ⟨-, delta, hv, -⟩ := rc.checkCFA_eq_nil.mp hcfa
    rw [hq, AbsState.reg_fin] at hv
    simp [AbsState.get, hv]
  | saved r offset hr =>
    have hr' := hregs r
    rw [hr] at hr'
    exact compareValue_ne_bottom hr'
  | same r q hr hq =>
    have hr' := hregs r
    rw [hr] at hr'
    have hne := compareValue_ne_bottom hr'
    rwa [hq, AbsState.reg_fin] at hne
  | valOffset r q offset hr hq =>
    have hr' := hregs r
    rw [hr] at hr'
    have hne := compareValue_ne_bottom hr'
    rwa [hq, AbsState.reg_fin] at hne
  | moved r q hr =>
    have hr' := hregs r
    rw [hr] at hr'
    have hne := compareValue_ne_bottom hr'
    rwa [AbsState.reg_fin] at hne

end RowChecker

/-- Two propagated states that disagree about a consulted component leave a conflict there, and
the FDE is not blessed. -/
theorem disagreement_not_blessed {options : FDECheckerOptions δ} {cfi : CFI δ}
    {atFunctionEntry guessing : Bool} {pc : Word} {s₁ s₂ : AbsState δ} {row : CFIRow δ}
    {c : Component δ} (h₁ : (pc, s₁) ∈ propagated options cfi guessing)
    (h₂ : (pc, s₂) ∈ propagated options cfi guessing) (hrow : cfi.rowAt pc = some row)
    (hc : row.Consults c) (hv₁ : (s₁.get c).Concrete) (hv₂ : (s₂.get c).Concrete)
    (hne : s₁.get c ≠ s₂.get c) :
    (∃ st, (settledWalk options cfi guessing).inStates[pc]? = some st ∧ st.get c = .bottom) ∧
      (check options cfi atFunctionEntry guessing).verdict ≠ .blessed := by
  unfold propagated at h₁ h₂
  cases hfirst : cfi.rowAt cfi.pcBegin with
  | none => simp [hfirst] at h₁
  | some first =>
    simp only [hfirst] at h₁ h₂
    split_ifs at h₁ h₂ with hra
    · cases h₁
    · obtain ⟨st, hst, hb₁⟩ := Env.absorbs_settle h₁
      obtain ⟨st', hst', hb₂⟩ := Env.absorbs_settle h₂
      obtain rfl : st = st' := by
        simp only [hst, Option.some.injEq] at hst'
        exact hst'
      have hbot : st.get c = .bottom :=
        AbsVal.eq_bottom_of_le hv₁.1 hv₂.1 hne (hb₁ c) (hb₂ c)
      rw [settledWalk_eq hfirst hra]
      refine ⟨⟨st, hst, hbot⟩, fun hblessed => ?_⟩
      have hra' : cfi.raUndefined = false := by simpa [CFI.raUndefined, hfirst] using hra
      obtain ⟨first', hfirst', hs, -⟩ := silent_of_blessed hra' hblessed
      obtain rfl : first = first' := by simpa [hfirst] using hfirst'
      obtain ⟨insn, r, hcomp, -⟩ := hs.compared hst
      have hr : r = row := Option.some.inj (hcomp.declared.symm.trans hrow)
      exact RowChecker.consulted_ne_bottom hcomp.agrees (hr ▸ hc) hbot

namespace Sample

/-- `je` over a `push` to a `ret`: the two ways to the `ret` disagree about rsp. -/
def skewed : CFI Int64 := cfi 4 [row 0x1000 8]

def skewedOptions : FDECheckerOptions Int64 := options [0x74, 0x01, 0x50, 0xc3] skewed

/-- The state the `i`-th call of `Propagate` carries. -/
def skewedState (i : ℕ) : AbsState Int64 :=
  (((propagated skewedOptions skewed false)[i]?).getD (0, .init)).2

theorem skewed_propagated {i : ℕ}
    (h : ((propagated skewedOptions skewed false)[i]?).map Prod.fst = some 0x1003) :
    (0x1003, skewedState i) ∈ propagated skewedOptions skewed false := by
  obtain ⟨call, hcall, hpc⟩ := Option.map_eq_some_iff.mp h
  have hs : skewedState i = call.2 := by simp [skewedState, hcall]
  rw [hs, ← hpc]
  exact List.mem_of_getElem? hcall

end Sample

theorem skewed_not_blessed :
    (∃ st, (settledWalk Sample.skewedOptions Sample.skewed false).inStates[(0x1003 : Word)]? = some st ∧
        st.get (.reg 7) = .bottom) ∧
      (check Sample.skewedOptions Sample.skewed true false).verdict ≠ .blessed :=
  disagreement_not_blessed (Sample.skewed_propagated (i := 2) (by decide +kernel))
    (Sample.skewed_propagated (i := 3) (by decide +kernel))
    (show Sample.skewed.rowAt 0x1003 = some (Sample.row 0x1000 8) by decide +kernel)
    (.cfa 7 rfl rfl) (by decide +kernel) (by decide +kernel) (by decide +kernel)

end UnwindCheck
