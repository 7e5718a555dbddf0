import Mathlib.Data.DFinsupp.WellFounded

/-! Termination of systems that only ever rise, in a lattice that gets its shape as they go. -/
namespace UnwindCheck.Lib

/-- Finitely many coordinates without infinite ascents have none together. -/
instance instWellFoundedGTPi {ι α : Type} [Finite ι] [Preorder α] [WellFoundedGT α] :
    WellFoundedGT (ι → α) := by
  have hdual : WellFoundedLT (ι → αᵒᵈ) := inferInstance
  exact ⟨hdual.wf⟩

/-- A step never lowers `level`. While that stands still the system stays in the regions it is
in and never lowers how far it filled them, and while that stands still too it uses up `work`. -/
structure Rising {σ κ α : Type} {β : κ → Type} [PartialOrder α] [∀ k, PartialOrder (β k)]
    (step : σ → σ → Prop) (level : σ → α) (Inside : κ → σ → Prop) (fill : ∀ k, σ → β k)
    (work : σ → ℕ) : Prop where
  level_le : ∀ {s t}, step s t → level s ≤ level t
  inside : ∀ {s t}, step s t → ∃ k, Inside k s
  stays : ∀ {s t k}, step s t → level s = level t → Inside k s → Inside k t
  fill_le : ∀ {s t k}, step s t → level s = level t → Inside k s → fill k s ≤ fill k t
  work_lt : ∀ {s t k}, step s t → level s = level t → Inside k s → fill k s = fill k t →
    work t < work s

/-- Where neither the level nor any region can be filled for ever, there is no infinite run. -/
theorem Rising.acc {σ κ α : Type} {β : κ → Type} [PartialOrder α] [∀ k, PartialOrder (β k)]
    [WellFoundedGT α] [∀ k, WellFoundedGT (β k)] {step : σ → σ → Prop} {level : σ → α}
    {Inside : κ → σ → Prop} {fill : ∀ k, σ → β k} {work : σ → ℕ}
    (h : Rising step level Inside fill work) (s : σ) : Acc (flip step) s := by
  generalize ha : level s = a
  induction a using WellFoundedGT.induction generalizing s with
  | ind a iha =>
    -- a region is chosen only now, and holds as long as the level does not move
    have hregion : ∀ k t, Inside k t → level t = a → Acc (flip step) t := by
      intro k t hk ht
      generalize hb : fill k t = b
      induction b using WellFoundedGT.induction generalizing t with
      | ind b ihb =>
        generalize hn : work t = n
        induction n using Nat.strong_induction_on generalizing t with
        | _ n ihn =>
          refine Acc.intro t fun u htu => ?_
          rcases (h.level_le htu).lt_or_eq with hlt | heq
          · exact iha _ (ht ▸ hlt) u rfl
          · have hku := h.stays htu heq hk
            have hu : level u = a := heq.symm.trans ht
            rcases (h.fill_le htu heq hk).lt_or_eq with hlt | hfill
            · exact ihb _ (hb ▸ hlt) u hku hu rfl
            · exact ihn _ (hn ▸ h.work_lt htu heq hk hfill) u hku hu (hfill.symm.trans hb) rfl
    refine Acc.intro s fun t hst => ?_
    obtain ⟨k, hk⟩ := h.inside hst
    exact (hregion k s hk ha).inv hst

end UnwindCheck.Lib
