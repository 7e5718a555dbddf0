import UnwindCheck.Light.Sound

/-! The straight listing of an FDE, the search in it, and the instructions shown around a finding. -/
namespace UnwindCheck
variable {δ : Type}

/-- What the listing needs besides the FDE. `text` is the formatter. -/
structure Lister where
  image : ELFImage
  disasm : Zydis
  text : Instruction → Option String

/-- One instruction of the listing, with the row that covers it. -/
structure ListedInsn (δ : Type) where
  pc : Word
  size : ℕ
  text : String
  row : Option (CFIRow δ)
  rowStartsHere : Bool

namespace Lister
variable (lister : Lister) (cfi : CFI δ)

/-- The instruction at `pc`, as the loop decodes it. -/
def decodeAt (pc : Word) : Option Instruction :=
  let bytes := lister.image.bytesAt pc (min 16 (cfi.pcEnd - pc).toNat)
  if bytes = [] then none
  else match lister.disasm.decode bytes pc with
    | none => none
    | some insn => if cfi.pcEnd < insn.next then none else some insn

def entry (insn : Instruction) : ListedInsn δ where
  pc := insn.address
  size := insn.size
  text := (lister.text insn).getD
    ("<cannot format instruction at 0x" ++ showHex insn.address ++ ">")
  row := cfi.rowAt insn.address
  rowStartsHere := (cfi.rowAt insn.address).any fun row => decide (row.pcStart = insn.address)

/-- The loop of `ListInstructions`. -/
def listFrom : (fuel : ℕ) → (pc : Word) → List (ListedInsn δ)
  | 0, _ => []
  | fuel + 1, pc =>
    if pc < cfi.pcEnd then
      match lister.decodeAt cfi pc with
      | none => []
      | some insn => lister.entry cfi insn :: listFrom fuel insn.next
    else []

def listInstructions : List (ListedInsn δ) :=
  lister.listFrom cfi (cfi.pcEnd - cfi.pcBegin).toNat cfi.pcBegin

end Lister

/-- `FindListedInsn`. The search is the one of `upper_bound`, for the first entry not before `pc`. -/
def findListedInsn (listing : List (ListedInsn δ)) (pc : Word) : Option ℕ :=
  let it := Lib.upperBound (fun i => (listing[i]?).any fun li => !decide (li.pc < pc)) listing.length
  if (listing[it]?).any fun li => decide (li.pc = pc) then some it else none

section Text
variable [Offset δ]

/-- `%-ns` -/
def padRight (n : ℕ) (s : String) : String := s ++ String.ofList (List.replicate (n - s.length) ' ')

def formatRowCompact (row : Option (CFIRow δ)) : String :=
  match row with
  | none => "<no CFI row>"
  | some row => row.toString

structure DiagnosticsOptions where
  contextBefore : ℕ := 6
  contextAfter : ℕ := 4

/-- One line of the context of a finding. -/
def contextLine (arrow : Bool) (li : ListedInsn δ) : String :=
  "      " ++ (if arrow then "->" else "  ") ++ " 0x" ++ padRight 10 (showHex li.pc) ++ "  " ++
    padRight 28 li.text ++ "  " ++ formatRowCompact li.row ++ "\n"

/-- `AppendFindingContext` -/
def appendFindingContext (listing : List (ListedInsn δ)) (pc : Word) (opts : DiagnosticsOptions) :
    Option (List String) :=
  (findListedInsn listing pc).map fun idx =>
    let lo := idx - opts.contextBefore
    let hi := min (listing.length - 1) (idx + opts.contextAfter)
    (List.range' lo (hi + 1 - lo)).filterMap fun i =>
      (listing[i]?).map fun li => contextLine (decide (i = idx)) li

end Text

namespace Light

theorem Tiles.le {start stop : Word} {insns : List Instruction} (h : Tiles start insns stop) :
    start.toNat ≤ stop.toNat := by
  induction insns generalizing start with
  | nil => exact le_of_eq (congrArg BitVec.toNat h)
  | cons insn insns ih =>
    obtain ⟨-, -, hnext, hrest⟩ := h
    have hle := ih hrest
    omega

theorem Tiles.start_le {start stop : Word} {insns : List Instruction} (h : Tiles start insns stop) :
    ∀ insn ∈ insns, start.toNat ≤ insn.address.toNat := by
  induction insns generalizing start with
  | nil => simp
  | cons first insns ih =>
    obtain ⟨haddr, -, hnext, hrest⟩ := h
    intro insn hmem
    rcases List.mem_cons.mp hmem with rfl | hmem
    · rw [haddr]
    · have hle := ih hrest insn hmem
      omega

theorem Tiles.lt_stop {start stop : Word} {insns : List Instruction} (h : Tiles start insns stop) :
    ∀ insn ∈ insns, insn.address.toNat < stop.toNat := by
  induction insns generalizing start with
  | nil => simp
  | cons first insns ih =>
    obtain ⟨haddr, hsize, hnext, hrest⟩ := h
    intro insn hmem
    rcases List.mem_cons.mp hmem with rfl | hmem
    · have hle := hrest.le
      rw [haddr]
      omega
    · exact ih hrest insn hmem

theorem Tiles.sorted {start stop : Word} {insns : List Instruction} (h : Tiles start insns stop) :
    insns.Pairwise fun a b => a.address.toNat < b.address.toNat := by
  induction insns generalizing start with
  | nil => simp
  | cons first insns ih =>
    obtain ⟨haddr, hsize, hnext, hrest⟩ := h
    rw [List.pairwise_cons]
    constructor
    · intro insn hmem
      have hle := hrest.start_le insn hmem
      rw [haddr]
      omega
    · exact ih hrest

end Light

namespace Lister
variable (lister : Lister) {cfi : CFI δ} {pc : Word} {insn : Instruction}

theorem decodeAt_spec {lister : Lister} (h : lister.decodeAt cfi pc = some insn) (hlt : pc < cfi.pcEnd) :
    insn.address = pc ∧ 1 ≤ insn.size ∧ insn.next.toNat = pc.toNat + insn.size ∧
      insn.next.toNat ≤ cfi.pcEnd.toNat := by
  unfold decodeAt at h
  dsimp only at h
  split_ifs at h with hbytes
  split at h
  · cases h
  · rename_i decoded hd
    split_ifs at h with hend
    cases h
    have haddr := Zydis.decode_address hd
    have hsize := Zydis.size_le hd
    have hlen := lister.image.length_bytesAt_le pc (min 16 (cfi.pcEnd - pc).toNat)
    have hsub := BitVec.toNat_sub_of_le (BitVec.le_of_lt hlt)
    have hlt' : pc.toNat < cfi.pcEnd.toNat := hlt
    have hbound := cfi.pcEnd.isLt
    have hnext : insn.next.toNat = pc.toNat + insn.size := by
      rw [Instruction.next, haddr, BitVec.toNat_add, BitVec.toNat_ofNat]
      omega
    exact ⟨haddr, Zydis.one_le_size hd, hnext, by omega⟩

/-- The listing is a run of instructions from the start of the FDE, each decoded where the one
before it ends, up to the end or the first address that does not decode. -/
theorem listFrom_spec {fuel : ℕ} (hhi : pc ≤ cfi.pcEnd) (hfuel : cfi.pcEnd.toNat - pc.toNat ≤ fuel) :
    ∃ insns stop, lister.listFrom cfi fuel pc = insns.map (lister.entry cfi) ∧
      Light.Tiles pc insns stop ∧ stop ≤ cfi.pcEnd ∧
      (∀ insn ∈ insns, lister.decodeAt cfi insn.address = some insn) ∧
      (stop = cfi.pcEnd ∨ lister.decodeAt cfi stop = none) := by
  induction fuel generalizing pc with
  | zero =>
    have hend : pc = cfi.pcEnd := by
      apply BitVec.eq_of_toNat_eq
      rw [BitVec.le_def] at hhi
      omega
    exact ⟨[], pc, rfl, rfl, hhi, by simp, Or.inl hend⟩
  | succ fuel ih =>
    unfold listFrom
    split_ifs with hlt
    · cases hd : lister.decodeAt cfi pc with
      | none => exact ⟨[], pc, rfl, rfl, hhi, by simp, Or.inr hd⟩
      | some insn =>
        obtain ⟨haddr, hsize, hnext, hend⟩ := decodeAt_spec hd hlt
        have hhi' : insn.next ≤ cfi.pcEnd := hend
        obtain ⟨insns, stop, hlist, htiles, hstop, hall, hlast⟩ := ih hhi' (by omega)
        refine ⟨insn :: insns, stop, by simp [hlist], ⟨haddr, hsize, hnext, htiles⟩, hstop, ?_, hlast⟩
        intro other hmem
        rcases List.mem_cons.mp hmem with rfl | hmem
        · rw [haddr]
          exact hd
        · exact hall other hmem
    · have hend : pc = cfi.pcEnd := by
        apply BitVec.eq_of_toNat_eq
        rw [BitVec.not_lt, BitVec.le_def] at hlt
        rw [BitVec.le_def] at hhi
        omega
      exact ⟨[], pc, rfl, rfl, hhi, by simp, Or.inl hend⟩

theorem sorted_listFrom {fuel : ℕ} (hhi : pc ≤ cfi.pcEnd)
    (hfuel : cfi.pcEnd.toNat - pc.toNat ≤ fuel) :
    (lister.listFrom cfi fuel pc).Pairwise fun a b => a.pc.toNat < b.pc.toNat := by
  obtain ⟨insns, stop, hlist, htiles, -⟩ := lister.listFrom_spec hhi hfuel
  rw [hlist, List.pairwise_map]
  exact htiles.sorted

/-- The search in a listing finds an address exactly where it is listed. -/
theorem findListedInsn_append {pre post : List (ListedInsn δ)} {li : ListedInsn δ}
    (hs : (pre ++ li :: post).Pairwise fun a b => a.pc.toNat < b.pc.toNat) :
    findListedInsn (pre ++ li :: post) li.pc = some pre.length := by
  obtain ⟨-, hrest, hpre⟩ := List.pairwise_append.mp hs
  have hleft : ∀ a ∈ pre, (!decide (a.pc < li.pc)) = false := by
    intro a ha
    have hlt : a.pc < li.pc := hpre a ha li List.mem_cons_self
    simp [hlt]
  have hright : ∀ a ∈ li :: post, (!decide (a.pc < li.pc)) = true := by
    intro a ha
    rcases List.mem_cons.mp ha with rfl | ha
    · simp
    · have hlt := (List.pairwise_cons.mp hrest).1 a ha
      have hnot : ¬ a.pc < li.pc := by
        rw [BitVec.lt_def]
        omega
      simp [hnot]
  unfold findListedInsn
  dsimp only
  rw [Lib.upperBound_append hleft hright]
  simp

omit lister in
/-- What the search finds is listed. -/
theorem listed_of_findListedInsn {listing : List (ListedInsn δ)} {i : ℕ}
    (h : findListedInsn listing pc = some i) : ∃ li ∈ listing, li.pc = pc := by
  unfold findListedInsn at h
  dsimp only at h
  split_ifs at h with hany
  cases hli : listing[Lib.upperBound
      (fun i => (listing[i]?).any fun li => !decide (li.pc < pc)) listing.length]? with
  | none => simp [hli] at hany
  | some li =>
    rw [hli] at hany
    exact ⟨li, List.mem_of_getElem? hli, of_decide_eq_true hany⟩

end Lister

section Window

theorem filterMap_range' {α : Type} (l : List α) (s n : ℕ) :
    (List.range' s n).filterMap (fun i => l[i]?) = (l.drop s).take n := by
  induction n generalizing s with
  | zero => simp
  | succ n ih =>
    rw [List.range'_succ, List.filterMap_cons]
    by_cases hlt : s < l.length
    · rw [List.getElem?_eq_getElem hlt, List.drop_eq_getElem_cons hlt, List.take_succ_cons, ih]
    · have hnil : l.drop s = [] := List.drop_eq_nil_of_le (by omega)
      have hnil' : l.drop (s + 1) = [] := List.drop_eq_nil_of_le (by omega)
      rw [List.getElem?_eq_none (by omega), hnil, ih, hnil']
      simp

theorem filterMap_range'_map {α β : Type} (l : List α) (f : ℕ → α → β) (g : α → β) (s n : ℕ)
    (h : ∀ i, s ≤ i → i < s + n → f i = g) :
    (List.range' s n).filterMap (fun i => (l[i]?).map (f i)) = ((l.drop s).take n).map g := by
  have hcongr : ∀ i ∈ List.range' s n, (l[i]?).map (f i) = (l[i]?).map g := by
    intro i hi
    obtain ⟨hlo, hhi⟩ := List.mem_range'_1.mp hi
    rw [h i hlo hhi]
  rw [List.filterMap_congr hcongr, ← filterMap_range' l s n, List.map_filterMap]

variable [Offset δ]

/-- The context of a listed address: the last lines before it, its own with the arrow, and the
first lines behind it. -/
theorem appendFindingContext_append {pre post : List (ListedInsn δ)} {li : ListedInsn δ}
    (hs : (pre ++ li :: post).Pairwise fun a b => a.pc.toNat < b.pc.toNat)
    (opts : DiagnosticsOptions) :
    appendFindingContext (pre ++ li :: post) li.pc opts =
      some ((pre.drop (pre.length - opts.contextBefore)).map (contextLine false) ++
        contextLine true li :: (post.take opts.contextAfter).map (contextLine false)) := by
  unfold appendFindingContext
  rw [Lister.findListedInsn_append hs, Option.map_some]
  dsimp only
  have hlen : (pre ++ li :: post).length - 1 = pre.length + post.length := by simp
  have hhi : min ((pre ++ li :: post).length - 1) (pre.length + opts.contextAfter) =
      pre.length + min post.length opts.contextAfter := by omega
  rw [hhi]
  obtain ⟨first, count, hfirst, hcount⟩ : ∃ first count, pre.length - opts.contextBefore = first ∧
      first + count = pre.length := ⟨_, _, rfl, Nat.add_sub_cancel' (Nat.sub_le _ _)⟩
  have hnum : pre.length + min post.length opts.contextAfter + 1 - first =
      count + (min post.length opts.contextAfter + 1) := by omega
  rw [hfirst, hnum, ← List.range'_append_1, hcount, List.range'_succ, List.filterMap_append,
    List.filterMap_cons]
  rw [filterMap_range'_map _ _ (contextLine false) first count, filterMap_range'_map _ _
    (contextLine false) (pre.length + 1)]
  · have hbefore : ((pre ++ li :: post).drop first).take count = pre.drop first := by
      rw [List.drop_append_of_le_length (by omega)]
      apply List.take_left'
      rw [List.length_drop]
      omega
    have hbehind : ((pre ++ li :: post).drop (pre.length + 1)).take (min post.length opts.contextAfter) =
        post.take opts.contextAfter := by
      simpa using Nat.min_comm post.length opts.contextAfter
    have hself : (pre ++ li :: post)[pre.length]? = some li := by simp
    rw [hbefore, hbehind, hself]
    simp
  · intro i hlo _
    have hne : i ≠ pre.length := by omega
    simp [hne]
  · intro i _ hlt
    have hne : i ≠ pre.length := by omega
    simp [hne]

end Window

namespace Light
variable [Offset δ] {options : FDECheckerOptions δ} {cfi : CFI δ} {pc : Word} {insn : Instruction}

theorem pc_of_mem_checkCFA {target : CFARule δ} {state : AbsState δ} {desc : String} {r : Report}
    (h : r ∈ (checkCFA pc target state desc).1) : r.pc = pc := by
  unfold checkCFA at h
  split at h
  · rw [List.mem_singleton.mp h]
  · dsimp only at h
    split at h
    · split at h
      · cases h
      · rw [List.mem_singleton.mp h]
    · rw [List.mem_singleton.mp h]

theorem pc_of_mem_stepFallThrough {row : CFIRow δ} {outcome : TransferOutcome} {state : AbsState δ}
    {step : Step} {r : Report} (hs : stepFallThrough cfi row insn outcome state = step)
    (h : r ∈ step.reports) : r.pc = insn.address := by
  subst hs
  unfold stepFallThrough at h
  split at h
  · cases h
  · cases h
  · cases h
  · rw [List.mem_singleton.mp h]
  · unfold Step.ofCheck at h
    split at h
    · exact pc_of_mem_checkCFA h
    · exact pc_of_mem_checkCFA h

theorem pc_of_mem_stepDirect {outcome : TransferOutcome} {state : AbsState δ} {step : Step}
    {r : Report} (hs : stepDirect options cfi insn outcome state = step) (h : r ∈ step.reports) :
    r.pc = insn.address := by
  subst hs
  unfold stepDirect at h
  split at h
  · cases h
  · unfold Step.ofCheck at h
    split at h
    · exact pc_of_mem_checkCFA h
    · exact pc_of_mem_checkCFA h

/-- Every report of a visit is filed under the visited instruction. -/
theorem pc_of_mem_visit {row : CFIRow δ} {step : Step} {r : Report}
    (hs : visit options cfi row insn = step) (h : r ∈ step.reports) : r.pc = insn.address := by
  subst hs
  unfold visit at h
  dsimp only at h
  split at h
  · cases h
  · rename_i rs hs
    exact pc_of_mem_stepFallThrough hs h
  · rename_i rs hs
    split at h
    · cases h
    · rename_i rs' hd
      rcases List.mem_append.mp h with h | h
      · exact pc_of_mem_stepFallThrough hs h
      · exact pc_of_mem_stepDirect hd h
    · rename_i rs' hd
      rcases List.mem_append.mp h with h | h
      · exact pc_of_mem_stepFallThrough hs h
      · exact pc_of_mem_stepDirect hd h

omit [Offset δ] in
theorem decodeAt_of_lister {lister : Lister} (himage : lister.image = options.image)
    (hdisasm : lister.disasm = options.disasm) (h : lister.decodeAt cfi pc = some insn) :
    decodeAt options cfi pc = some insn := by
  unfold Lister.decodeAt at h
  dsimp only at h
  rw [himage, hdisasm] at h
  unfold decodeAt
  split_ifs at h
  split at h
  · cases h
  · rename_i hd
    split_ifs at h
    cases h
    exact hd

omit [Offset δ] in
/-- The listing decodes where the sweep does. -/
theorem lister_decodeAt (lister : Lister) (himage : lister.image = options.image)
    (hdisasm : lister.disasm = options.disasm) (hlo : cfi.pcBegin ≤ pc) (hlt : pc < cfi.pcEnd) :
    lister.decodeAt cfi pc = decodeAt options cfi pc := by
  cases hd : decodeAt options cfi pc with
  | none =>
    cases hl : lister.decodeAt cfi pc with
    | none => rfl
    | some insn =>
      have hsome := decodeAt_of_lister himage hdisasm hl
      rw [hd] at hsome
      cases hsome
  | some insn =>
    obtain ⟨-, -, hnext, hend⟩ := next_toNat hd ⟨hlo, hlt⟩
    have hbytes : options.image.bytesAt pc (min 16 (cfi.pcEnd - pc).toNat) ≠ [] := by
      intro hnil
      have hpos := Zydis.one_le_size hd
      have hle := Zydis.size_le hd
      rw [hnil, List.length_nil] at hle
      omega
    have hover : ¬ cfi.pcEnd < insn.next := by
      rw [BitVec.lt_def]
      omega
    unfold Lister.decodeAt
    dsimp only
    rw [himage, hdisasm, if_neg hbytes]
    unfold decodeAt at hd
    rw [hd]
    dsimp only
    rw [if_neg hover]

theorem le_of_mem_reports {r : Report} (h : r ∈ (sweep options cfi).reports) :
    cfi.pcBegin ≤ cfi.pcEnd := by
  by_contra hlt
  have hnot : ¬ cfi.pcBegin < cfi.pcEnd := fun h => hlt (BitVec.le_of_lt h)
  unfold sweep at h
  cases hfuel : (cfi.pcEnd - cfi.pcBegin).toNat with
  | zero =>
    rw [hfuel] at h
    cases h
  | succ n =>
    rw [hfuel, sweepFrom, if_neg hnot] at h
    cases h

/-- Where a report of the sweep stands: at an instruction the listing has, or where nothing
decodes and the listing ends. -/
theorem listed_of_mem_reports (lister : Lister) (himage : lister.image = options.image)
    (hdisasm : lister.disasm = options.disasm) {fuel : ℕ} (hlo : cfi.pcBegin ≤ pc) {r : Report}
    (h : r ∈ (sweepFrom options cfi fuel pc).reports) :
    ((decodeAt options cfi r.pc).isSome ∧ ∃ li ∈ lister.listFrom cfi fuel pc, li.pc = r.pc) ∨
      decodeAt options cfi r.pc = none ∧ r = undecodable options cfi r.pc ∧
        ∃ before, lister.listFrom cfi fuel pc = before.map (lister.entry cfi) ∧
          Tiles pc before r.pc := by
  induction fuel generalizing pc with
  | zero => cases h
  | succ fuel ih =>
    unfold sweepFrom at h
    split_ifs at h with hlt
    · have hlisted := lister_decodeAt lister himage hdisasm hlo hlt
      cases hrow : cfi.rowAt pc with
      | none =>
        simp only [hrow] at h
        cases h
      | some row =>
        simp only [hrow] at h
        cases hd : decodeAt options cfi pc with
        | none =>
          simp only [hd, List.mem_singleton] at h
          have hpc : r.pc = pc := by rw [h, undecodable]
          right
          rw [hpc]
          refine ⟨hd, h, [], ?_, rfl⟩
          rw [Lister.listFrom, if_pos hlt, hlisted, hd]
          rfl
        | some insn =>
          simp only [hd] at h
          obtain ⟨haddr, hsize, hnext, hend⟩ := next_toNat hd ⟨hlo, hlt⟩
          have hlist : lister.listFrom cfi (fuel + 1) pc =
              lister.entry cfi insn :: lister.listFrom cfi fuel insn.next := by
            rw [Lister.listFrom, if_pos hlt, hlisted, hd]
          have hhere : r.pc = insn.address → (decodeAt options cfi r.pc).isSome ∧
              ∃ li ∈ lister.entry cfi insn :: lister.listFrom cfi fuel insn.next, li.pc = r.pc := by
            intro heq
            constructor
            · rw [heq, haddr, hd]
              rfl
            · exact ⟨_, List.mem_cons_self, heq.symm⟩
          rw [hlist]
          cases hv : visit options cfi row insn with
          | checkFailed =>
            simp only [hv] at h
            cases h
          | stop rs =>
            simp only [hv] at h
            exact Or.inl (hhere (pc_of_mem_visit hv h))
          | proceed rs =>
            simp only [hv] at h
            rcases List.mem_append.mp h with h | h
            · exact Or.inl (hhere (pc_of_mem_visit hv h))
            · have hlo' : cfi.pcBegin ≤ insn.next := by
                rw [BitVec.le_def] at hlo ⊢
                omega
              rcases ih hlo' h with ⟨hsome, li, hli, hpc⟩ | ⟨hnone, hr, before, hbefore, htiles⟩
              · exact Or.inl ⟨hsome, li, List.mem_cons_of_mem _ hli, hpc⟩
              · refine Or.inr ⟨hnone, hr, insn :: before, ?_, haddr, hsize, hnext, htiles⟩
                rw [hbefore, List.map_cons]
    · cases h

end Light

theorem FindingSink.of_mem_take {cap : ℕ} {rs : List Report} {f : Finding}
    (h : f ∈ ((FindingSink.new cap).addAll rs).take) (hpc : f.pc ≠ 0) : ∃ r ∈ rs, f.Of r := by
  unfold FindingSink.take at h
  split_ifs at h
  · rcases List.mem_append.mp h with h | h
    · exact FindingSink.exists_of_mem_addAll h
    · rw [List.mem_singleton.mp h] at hpc
      exact absurd rfl hpc
  · exact FindingSink.exists_of_mem_addAll h

section Shown
variable [Offset δ] {options : FDECheckerOptions δ} {cfi : CFI δ} {result : FDEResult} {f : Finding}

theorem report_of_mem_findings (h : lightCheck options cfi = some result) (hf : f ∈ result.findings)
    (hpc : f.pc ≠ 0) : ∃ r ∈ (Light.sweep options cfi).reports, f.Of r := by
  unfold lightCheck at h
  dsimp only at h
  split_ifs at h
  · cases h
    cases hf
  · cases h
    exact FindingSink.of_mem_take hf hpc

/-- A finding of the light checker that is about an instruction is shown with it: the listing of the
FDE runs through that instruction, and the context is the lines around it, its own marked. The one
about bytes that do not decode stands right behind the listing, and there is no context to it. -/
theorem lightCheck_shown_in_context (lister : Lister) (himage : lister.image = options.image)
    (hdisasm : lister.disasm = options.disasm) (h : lightCheck options cfi = some result)
    (hf : f ∈ result.findings) (hpc : f.pc ≠ 0) (opts : DiagnosticsOptions) :
    match Light.decodeAt options cfi f.pc with
    | some insn => ∃ before behind stop,
        lister.listInstructions cfi = (before ++ insn :: behind).map (lister.entry cfi) ∧
        Light.Tiles cfi.pcBegin (before ++ insn :: behind) stop ∧ insn.address = f.pc ∧
        appendFindingContext (lister.listInstructions cfi) f.pc opts =
          some ((before.drop (before.length - opts.contextBefore)).map
              (fun i => contextLine false (lister.entry cfi i)) ++
            contextLine true (lister.entry cfi insn) ::
              (behind.take opts.contextAfter).map fun i => contextLine false (lister.entry cfi i))
    | none => f.severity = .mismatch ∧ f.message = (Light.undecodable options cfi f.pc).message ∧
        (∃ before, lister.listInstructions cfi = before.map (lister.entry cfi) ∧
          Light.Tiles cfi.pcBegin before f.pc) ∧
        appendFindingContext (lister.listInstructions cfi) f.pc opts = none := by
  obtain ⟨r, hr, hseverity, hrpc, hmessage⟩ := report_of_mem_findings h hf hpc
  rw [hseverity, hrpc, hmessage]
  have hle : cfi.pcBegin ≤ cfi.pcEnd := Light.le_of_mem_reports hr
  have hfuel : cfi.pcEnd.toNat - cfi.pcBegin.toNat ≤ (cfi.pcEnd - cfi.pcBegin).toNat := by
    rw [BitVec.toNat_sub_of_le hle]
  rcases Light.listed_of_mem_reports lister himage hdisasm (BitVec.le_refl _) hr with
    ⟨hsome, li, hli, hlipc⟩ | ⟨hnone, hundecodable, before, hlist, htiles⟩
  · obtain ⟨insns, stop, hlist, htiles, -, hdecoded, -⟩ := lister.listFrom_spec hle hfuel
    have hsorted := lister.sorted_listFrom hle hfuel
    rw [hlist] at hli
    obtain ⟨insn, hinsn, rfl⟩ := List.mem_map.mp hli
    have haddr : insn.address = r.pc := hlipc
    have hbelow := Light.decodeAt_of_lister himage hdisasm (hdecoded insn hinsn)
    rw [haddr] at hbelow
    obtain ⟨before, behind, rfl⟩ := List.append_of_mem hinsn
    rw [hbelow]
    refine ⟨before, behind, stop, hlist, htiles, haddr, ?_⟩
    rw [hlist, List.map_append, List.map_cons] at hsorted
    have hwindow := appendFindingContext_append hsorted opts
    unfold Lister.listInstructions
    rw [hlist, List.map_append, List.map_cons, ← hlipc, hwindow]
    simp [List.map_drop, List.map_take, Function.comp_def]
  · rw [hnone]
    refine ⟨by rw [hundecodable]; rfl, by rw [← hundecodable], ⟨before, hlist, htiles⟩, ?_⟩
    -- every listed address lies below the one that does not decode
    rw [appendFindingContext, Option.map_eq_none_iff, Option.eq_none_iff_forall_ne_some]
    intro i hi
    obtain ⟨li, hli, hlipc⟩ := Lister.listed_of_findListedInsn hi
    have hlist' : lister.listInstructions cfi = before.map (lister.entry cfi) := hlist
    rw [hlist'] at hli
    obtain ⟨insn, hinsn, rfl⟩ := List.mem_map.mp hli
    have hlt := htiles.lt_stop insn hinsn
    have heq : insn.address = r.pc := hlipc
    rw [heq] at hlt
    exact Nat.lt_irrefl _ hlt

end Shown

namespace Sample

/-- A `nop`, a `push` that the one row does not know of, a `ret`, and what does not decode. -/
def unaware : CFI Int64 := cfi 4 [row 0x1000 8]

def unawareOptions : FDECheckerOptions Int64 := options [0x90, 0x50, 0xc3, 0x06] unaware

def unawareLister : Lister := ⟨unawareOptions.image, unawareOptions.disasm, fun _ => none⟩

theorem unaware_findings :
    ((lightCheck unawareOptions unaware).map fun r => r.findings.map Finding.pc) =
      some [0x1001, 0x1003] := by
  decide +kernel

end Sample

theorem unaware_shown :
    (∃ li : ListedInsn Int64, li.pc = 0x1001 ∧ ∃ lines,
        appendFindingContext (Sample.unawareLister.listInstructions Sample.unaware) 0x1001 {} =
          some lines ∧ contextLine true li ∈ lines) ∧
      appendFindingContext (Sample.unawareLister.listInstructions Sample.unaware) 0x1003 {} = none := by
  obtain ⟨result, hresult, hpcs⟩ := Option.map_eq_some_iff.mp Sample.unaware_findings
  constructor
  · have hmem : (0x1001 : Word) ∈ result.findings.map Finding.pc := by rw [hpcs]; simp
    obtain ⟨f, hf, hpc⟩ := List.mem_map.mp hmem
    have hshown := lightCheck_shown_in_context Sample.unawareLister rfl rfl hresult hf
      (by rw [hpc]; decide) {}
    cases hd : Light.decodeAt Sample.unawareOptions Sample.unaware f.pc with
    | none =>
      have hsome : (Light.decodeAt Sample.unawareOptions Sample.unaware 0x1001).isSome = true := by
        decide +kernel
      rw [← hpc, hd] at hsome
      cases hsome
    | some insn =>
      rw [hd] at hshown
      obtain ⟨before, behind, stop, -, -, haddr, hlines⟩ := hshown
      rw [hpc] at haddr hlines
      exact ⟨Sample.unawareLister.entry Sample.unaware insn, haddr, _, hlines, by simp⟩
  · have hmem : (0x1003 : Word) ∈ result.findings.map Finding.pc := by rw [hpcs]; simp
    obtain ⟨f, hf, hpc⟩ := List.mem_map.mp hmem
    have hshown := lightCheck_shown_in_context Sample.unawareLister rfl rfl hresult hf
      (by rw [hpc]; decide) {}
    have hnone : Light.decodeAt Sample.unawareOptions Sample.unaware 0x1003 = none := by
      decide +kernel
    rw [hpc, hnone] at hshown
    exact hshown.2.2.2

end UnwindCheck
