import UnwindCheck.Report.Lookups

/-! Which symbol `Name` puts on an address. -/
namespace UnwindCheck

/-- The symbol reaches as far as the address; one without a size reaches its own start. -/
def FuncSymbol.Reaches (s : FuncSymbol) (vaddr : Word) : Prop :=
  vaddr = s.vaddr ∨ vaddr - s.vaddr < s.size

instance (s : FuncSymbol) (vaddr : Word) : Decidable (s.Reaches vaddr) :=
  inferInstanceAs (Decidable (_ ∨ _))

section Name
variable {host : Host} {syms : List FuncSymbol} {vaddr : Word}

theorem reaches_iff (s : FuncSymbol) (vaddr : Word) : s.Reaches vaddr ↔
    ¬ if s.size = 0 then s.vaddr ≠ vaddr else s.size ≤ vaddr - s.vaddr := by
  unfold FuncSymbol.Reaches
  split_ifs with hzero
  · have hnone : ¬ vaddr - s.vaddr < s.size := by
      rw [hzero]
      exact BitVec.not_lt_zero
    rw [not_not, or_iff_left hnone]
    exact eq_comm
  · rw [BitVec.not_le]
    constructor
    · intro h
      rcases h with rfl | h
      · rw [BitVec.sub_self, BitVec.lt_def, BitVec.toNat_zero]
        exact Nat.pos_of_ne_zero fun h => hzero (BitVec.eq_of_toNat_eq h)
      · exact h
    · exact Or.inr

/-- The last symbol of the table that starts at or below the address. -/
def lastAtOrBelow (syms : List FuncSymbol) (vaddr : Word) : Option FuncSymbol :=
  (syms.filter fun s => decide (s.vaddr ≤ vaddr)).getLast?

/-- No symbol but the last at or below the address is looked at. -/
theorem nameIn_last (hs : syms.Pairwise fun a b => a.vaddr.toNat ≤ b.vaddr.toNat)
    (otherwise : String) (vaddr : Word) :
    nameIn host syms otherwise vaddr = match lastAtOrBelow syms vaddr with
      | none => otherwise
      | some s => if s.Reaches vaddr then s.label host vaddr else otherwise := by
  have hmono : syms.Pairwise fun a b =>
      decide (vaddr < a.vaddr) = true → decide (vaddr < b.vaddr) = true := by
    apply hs.imp
    intro a b hab ha
    have hlt : vaddr.toNat < a.vaddr.toNat := by simpa [BitVec.lt_def] using ha
    have hgoal : vaddr.toNat < b.vaddr.toNat := by omega
    simpa [BitVec.lt_def] using hgoal
  obtain ⟨hzero, hlast⟩ := Lib.upperBound_getLast? hmono
  have hfilter : (syms.filter fun s => !decide (vaddr < s.vaddr)) =
      syms.filter fun s => decide (s.vaddr ≤ vaddr) := by
    apply List.filter_congr
    intro s _
    rw [← decide_not]
    exact decide_eq_decide.mpr BitVec.not_lt
  rw [hfilter] at hzero hlast
  unfold nameIn lastAtOrBelow
  dsimp only
  split_ifs with hnone
  · rw [hzero.mp hnone]
    rfl
  · rw [hlast hnone]
    cases (syms.filter fun s => decide (s.vaddr ≤ vaddr)).getLast? with
    | none => rfl
    | some s =>
      dsimp only
      by_cases hreach : s.Reaches vaddr
      · rw [if_pos hreach, if_neg ((reaches_iff s vaddr).mp hreach)]
      · rw [if_neg hreach, if_pos (not_not.mp fun h => hreach ((reaches_iff s vaddr).mpr h))]

theorem lastAtOrBelow_eq_none : lastAtOrBelow syms vaddr = none ↔ ∀ s ∈ syms, ¬ s.vaddr ≤ vaddr := by
  simp [lastAtOrBelow]

/-- In a table in the order of addresses nothing at or below the address starts behind it. -/
theorem of_lastAtOrBelow (hs : syms.Pairwise fun a b => a.vaddr.toNat ≤ b.vaddr.toNat)
    {s : FuncSymbol} (h : lastAtOrBelow syms vaddr = some s) :
    s ∈ syms ∧ s.vaddr ≤ vaddr ∧ ∀ t ∈ syms, t.vaddr ≤ vaddr → t.vaddr ≤ s.vaddr := by
  obtain ⟨init, hinit⟩ := List.getLast?_eq_some_iff.mp h
  have hmem : s ∈ syms.filter fun s => decide (s.vaddr ≤ vaddr) := by
    rw [hinit]
    simp
  obtain ⟨hin, hle⟩ := List.mem_filter.mp hmem
  have hsorted := hs.filter fun s => decide (s.vaddr ≤ vaddr)
  rw [hinit, List.pairwise_append] at hsorted
  refine ⟨hin, of_decide_eq_true hle, ?_⟩
  intro t ht htle
  have htmem : t ∈ init ++ [s] := by
    rw [← hinit]
    exact List.mem_filter.mpr ⟨ht, decide_eq_true htle⟩
  rcases List.mem_append.mp htmem with htin | hts
  · exact hsorted.2.2 t htin s (List.mem_singleton_self s)
  · rw [List.mem_singleton.mp hts]
    exact BitVec.le_refl _

/-- One symbol ends before the other starts, or they are two names of the same bytes. -/
def FuncSymbol.Before (a b : FuncSymbol) : Prop :=
  a.vaddr.toNat + max 1 a.size.toNat ≤ b.vaddr.toNat ∨ a.vaddr = b.vaddr ∧ a.size = b.size

instance : DecidableRel FuncSymbol.Before := fun _ _ => inferInstanceAs (Decidable (_ ∨ _))

theorem FuncSymbol.Before.le {a b : FuncSymbol} (h : a.Before b) : a.vaddr.toNat ≤ b.vaddr.toNat := by
  rcases h with h | ⟨h, -⟩
  · omega
  · rw [h]

/-- A symbol over the address has the extent of any other that starts between them. -/
theorem same_extent (h : syms.Pairwise FuncSymbol.Before) {s t : FuncSymbol} (hs : s ∈ syms)
    (ht : t ∈ syms) (hle : s.vaddr ≤ vaddr) (hreach : s.Reaches vaddr) (htle : t.vaddr ≤ vaddr)
    (hst : s.vaddr ≤ t.vaddr) : t.vaddr = s.vaddr ∧ t.size = s.size := by
  have hvt : t.vaddr.toNat ≤ vaddr.toNat := htle
  have hsn : s.vaddr.toNat ≤ t.vaddr.toNat := hst
  have hend : vaddr.toNat < s.vaddr.toNat + max 1 s.size.toNat := by
    rcases hreach with rfl | hlt
    · omega
    · have hsub := BitVec.toNat_sub_of_le hle
      have hsize : (vaddr - s.vaddr).toNat < s.size.toNat := hlt
      have hvs : s.vaddr.toNat ≤ vaddr.toNat := hle
      omega
  by_cases heq : s = t
  · rw [heq]
    exact ⟨rfl, rfl⟩
  · have hsymm : Std.Symm fun a b : FuncSymbol => a.Before b ∨ b.Before a := ⟨fun _ _ => Or.symm⟩
    have hboth : syms.Pairwise fun a b => a.Before b ∨ b.Before a := h.imp Or.inl
    rcases hboth.forall hs ht heq with (hab | hab) | (hab | hab)
    · omega
    · exact ⟨hab.1.symm, hab.2.symm⟩
    · omega
    · exact hab

/-- The offset behind a name is exact up to four gigabytes into the symbol. -/
theorem label_of_near {s : FuncSymbol} (hne : vaddr ≠ s.vaddr)
    (hnear : (vaddr - s.vaddr).toNat < 2 ^ 32) :
    s.label host vaddr = host.demangle s.name ++ "+0x" ++ showHex (vaddr - s.vaddr) := by
  have hwidth : ((vaddr - s.vaddr).setWidth 32).setWidth 64 = vaddr - s.vaddr := by
    apply BitVec.eq_of_toNat_eq
    rw [BitVec.toNat_setWidth, BitVec.toNat_setWidth, Nat.mod_eq_of_lt hnear]
    omega
  rw [FuncSymbol.label, if_neg hne, hwidth]

/-- Where no two symbols overlap but as names of the same bytes, an address has a name from the
table exactly when a symbol is over it: the name of a symbol with just this extent, and with the
offset into it unless that passes four gigabytes. -/
theorem nameIn_of_before (host : Host) {syms : List FuncSymbol} (h : syms.Pairwise FuncSymbol.Before)
    (otherwise : String) (vaddr : Word) :
    (∀ s ∈ syms, s.vaddr ≤ vaddr → s.Reaches vaddr →
      ∃ t ∈ syms, t.vaddr = s.vaddr ∧ t.size = s.size ∧
        nameIn host syms otherwise vaddr = t.label host vaddr ∧
        (vaddr ≠ s.vaddr → s.size.toNat ≤ 2 ^ 32 → nameIn host syms otherwise vaddr =
          host.demangle t.name ++ "+0x" ++ showHex (vaddr - s.vaddr))) ∧
      ((∀ s ∈ syms, s.vaddr ≤ vaddr → ¬ s.Reaches vaddr) →
        nameIn host syms otherwise vaddr = otherwise) := by
  have hs : syms.Pairwise fun a b => a.vaddr.toNat ≤ b.vaddr.toNat :=
    h.imp fun hab => FuncSymbol.Before.le hab
  rw [nameIn_last hs]
  cases hcase : lastAtOrBelow syms vaddr with
  | none =>
    constructor
    · intro s hmem hle
      exact absurd hle (lastAtOrBelow_eq_none.mp hcase s hmem)
    · exact fun _ => rfl
  | some t =>
    obtain ⟨ht, htle, hlast⟩ := of_lastAtOrBelow hs hcase
    dsimp only
    constructor
    · intro s hmem hle hreach
      obtain ⟨hvaddr, hsize⟩ := same_extent h hmem ht hle hreach htle (hlast s hmem hle)
      have htreach : t.Reaches vaddr := by
        rw [FuncSymbol.Reaches, hvaddr, hsize]
        exact hreach
      rw [if_pos htreach]
      refine ⟨t, ht, hvaddr, hsize, rfl, ?_⟩
      intro hne hfour
      have hnear : (vaddr - t.vaddr).toNat < 2 ^ 32 := by
        rw [hvaddr]
        have hlt : (vaddr - s.vaddr).toNat < s.size.toNat := hreach.resolve_left hne
        omega
      rw [label_of_near (by rw [hvaddr]; exact hne) hnear, hvaddr]
    · intro hnone
      rw [if_neg (hnone t ht htle)]

/-- Over a table in the order of addresses, overlapping symbols or not, the last symbol at or below
the address decides: its name with the offset into it if it reaches the address, and what is known
without the table otherwise. Where no two symbols overlap but as names of the same bytes, this is
the name of a symbol over the address whenever there is one. -/
theorem nameIn_exact (host : Host) {syms : List FuncSymbol}
    (hs : syms.Pairwise fun a b => a.vaddr.toNat ≤ b.vaddr.toNat) (otherwise : String) (vaddr : Word) :
    (nameIn host syms otherwise vaddr = match lastAtOrBelow syms vaddr with
      | none => otherwise
      | some s => if s.Reaches vaddr then s.label host vaddr else otherwise) ∧
      (syms.Pairwise FuncSymbol.Before →
        (∀ s ∈ syms, s.vaddr ≤ vaddr → s.Reaches vaddr →
          ∃ t ∈ syms, t.vaddr = s.vaddr ∧ t.size = s.size ∧
            nameIn host syms otherwise vaddr = t.label host vaddr ∧
            (vaddr ≠ s.vaddr → s.size.toNat ≤ 2 ^ 32 → nameIn host syms otherwise vaddr =
              host.demangle t.name ++ "+0x" ++ showHex (vaddr - s.vaddr))) ∧
        ((∀ s ∈ syms, s.vaddr ≤ vaddr → ¬ s.Reaches vaddr) →
          nameIn host syms otherwise vaddr = otherwise)) := by
  constructor
  · exact nameIn_last hs otherwise vaddr
  · exact fun h => nameIn_of_before host h otherwise vaddr

end Name

/-- An address between the symbols, and one in the second of two overlapping symbols, the first of
which reaches further. -/
theorem symbols_named :
    nameIn Sample.host Sample.symbols "" 0x1010 = "" ∧
      (∃ t ∈ Sample.symbols, t.vaddr = 0x1000 ∧ nameIn Sample.host Sample.symbols "" 0x1004 =
        Sample.host.demangle t.name ++ "+0x" ++ showHex 4) ∧
      nameIn Sample.host [⟨0x1000, 64, "f"⟩, ⟨0x1010, 16, "g"⟩] "" 0x1010 = "g" ∧
      nameIn Sample.host [⟨0x1000, 64, "f"⟩, ⟨0x1010, 16, "g"⟩] "" 0x1030 = "" := by
  have hs : Sample.symbols.Pairwise fun a b => a.vaddr.toNat ≤ b.vaddr.toNat := by decide
  have hpair : Sample.symbols.Pairwise FuncSymbol.Before := by decide
  refine ⟨(nameIn_exact Sample.host hs "" 0x1010).1.trans (by decide), ?_, ?_, ?_⟩
  · obtain ⟨t, ht, hvaddr, -, -, hname⟩ := ((nameIn_exact Sample.host hs "" 0x1004).2 hpair).1
      ⟨0x1000, 16, "f"⟩ (by decide) (by decide) (by decide)
    exact ⟨t, ht, hvaddr, hname (by decide) (by decide)⟩
  · exact (nameIn_exact Sample.host (by decide) "" 0x1010).1.trans (by decide)
  · exact (nameIn_exact Sample.host (by decide) "" 0x1030).1.trans (by decide)

end UnwindCheck
