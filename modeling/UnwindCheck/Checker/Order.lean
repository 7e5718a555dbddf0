import UnwindCheck.Checker.Conflict
import UnwindCheck.Checker.Steady
import UnwindCheck.Checker.Termination

/-! The walk under every order of serving pending addresses: when the settled states and the verdict
do not depend on it. -/
namespace UnwindCheck
variable {δ : Type} [Offset δ]

namespace Walk
variable {env : Env δ} {w : Walk δ}

/-- The walk after serving these addresses, in this order. -/
def serveAll (env : Env δ) (w : Walk δ) : List Word → Walk δ
  | [] => w
  | pc :: order => (w.serve env pc).serveAll env order

/-- The addresses of an order with the states they are served in. -/
def servedWith (env : Env δ) (w : Walk δ) : List Word → List (Word × AbsState δ)
  | [] => []
  | pc :: order => (pc, (w.inStates[pc]?).getD .init) :: (w.serve env pc).servedWith env order

/-- Every address of the order is pending when its turn comes. -/
def Admits (env : Env δ) (w : Walk δ) : List Word → Prop
  | [] => True
  | pc :: order => pc ∈ w.worklist ∧ (w.serve env pc).Admits env order

/-- What a policy may do from `w` on until nothing is pending. -/
structure Drains (env : Env δ) (w : Walk δ) (order : List Word) : Prop where
  admits : w.Admits env order
  done : (w.serveAll env order).worklist = []

theorem rises_serveAll (env : Env δ) (w : Walk δ) (order : List Word) :
    w.Rises (w.serveAll env order) := by
  induction order generalizing w with
  | nil => exact .refl w
  | cons pc order ih => exact (rises_serve env w pc).trans (ih _)

@[simp] theorem serve_hitCap (env : Env δ) (w : Walk δ) (pc : Word) :
    (w.serve env pc).hitCap = w.hitCap := by
  simp [serve_eq, promote]

theorem serveAll_hitCap (env : Env δ) (w : Walk δ) (order : List Word) :
    (w.serveAll env order).hitCap = w.hitCap := by
  induction order generalizing w with
  | nil => rfl
  | cons pc order ih => exact (ih _).trans (serve_hitCap env w pc)

section Promote
variable {pc : Word}

theorem Inv.promote (h : Inv env none w) (hpc : pc ∈ w.worklist) : Inv env none (w.promote pc) where
  nodup := (List.perm_cons_erase hpc).nodup_iff.mp h.nodup
  pending_iff q := (h.pending_iff q).trans (mem_promote hpc q).symm
  reached q hq := h.reached q ((mem_promote hpc q).mp hq)
  covered := h.covered
  sized := h.sized
  done q st hst hq := h.done q st hst fun hmem => hq ((mem_promote hpc q).mpr hmem)

theorem Passed.promote (h : Passed env none w) (hpc : pc ∈ w.worklist) :
    Passed env none (w.promote pc) :=
  fun q st hst hq => h q st hst fun hmem => hq ((mem_promote hpc q).mpr hmem)

theorem popped_promote (w : Walk δ) (pc : Word) :
    (w.promote pc).popped = some (pc, (w.inStates[pc]?).getD .init) := rfl

theorem Inv.serve (h : Inv env none w) (hpc : pc ∈ w.worklist) : Inv env none (w.serve env pc) :=
  (h.promote hpc).visit (popped_promote w pc)

theorem Passed.serve (h : Passed env none w) (hi : Inv env none w) (hpc : pc ∈ w.worklist) :
    Passed env none (w.serve env pc) :=
  (h.promote hpc).visit (hi.promote hpc) (popped_promote w pc)

end Promote

/-- An address that a list of calls leaves off the worklist has kept its state. -/
theorem Inv.keptAll {busy : Option Word} (h : Inv env busy w) {calls : List (Word × AbsState δ)}
    (hc : ∀ call ∈ calls, env.cfi.Covers call.1) {pc : Word} {st : AbsState δ}
    (hst : (w.propagateAll calls).inStates[pc]? = some st)
    (hpc : pc ∉ (w.propagateAll calls).worklist) : w.inStates[pc]? = some st ∧ pc ∉ w.worklist := by
  induction calls generalizing w with
  | nil => exact ⟨hst, hpc⟩
  | cons call calls ih =>
    have hcall := hc call List.mem_cons_self
    obtain ⟨hst', hpc'⟩ := ih (h.propagate hcall) (fun c hm => hc c (List.mem_cons_of_mem _ hm)) hst hpc
    exact h.kept hst' hpc'

/-- A recorded conflict has left its component conflicting. -/
def Clashed (w : Walk δ) : Prop :=
  ∀ (pc : Word) (cs : List (JoinConflict δ)), w.joinConflicts[pc]? = some cs → ∀ c ∈ cs,
    ∃ st : AbsState δ, w.inStates[pc]? = some st ∧ st.get c.component = .bottom

theorem propagate_joinConflicts (w : Walk δ) (pc : Word) (state : AbsState δ) {q : Word}
    {cs : List (JoinConflict δ)} (h : (w.propagate (pc, state)).joinConflicts[q]? = some cs)
    {c : JoinConflict δ} (hc : c ∈ cs) : (∃ cs', w.joinConflicts[q]? = some cs' ∧ c ∈ cs') ∨
      q = pc ∧ ∃ old, w.inStates[pc]? = some old ∧ c ∈ (join state old).conflicts := by
  cases hold : w.inStates[pc]? with
  | none =>
    simp only [propagate, hold] at h
    exact Or.inl ⟨cs, h, hc⟩
  | some old =>
    have hadded : (w.propagate (pc, state)).joinConflicts =
        if (join state old).conflicts.isEmpty then w.joinConflicts
        else w.joinConflicts.insert pc
          ((w.joinConflicts[pc]?).getD [] ++ (join state old).conflicts) := by
      simp only [propagate, hold]
      split_ifs <;> rfl
    rw [hadded] at h
    split_ifs at h
    · exact Or.inl ⟨cs, h, hc⟩
    · rw [Std.ExtTreeMap.getElem?_insert] at h
      by_cases hq : pc = q
      · subst hq
        simp only [Std.compare_self, if_true, Option.some.injEq] at h
        subst h
        rcases List.mem_append.mp hc with hc | hc
        · cases hcs : w.joinConflicts[pc]? with
          | none => simp [hcs] at hc
          | some cs' => exact Or.inl ⟨cs', rfl, by simpa [hcs] using hc⟩
        · exact Or.inr ⟨rfl, old, rfl, hc⟩
      · exact Or.inl ⟨cs, by simpa [hq] using h, hc⟩

theorem Clashed.propagate (h : w.Clashed) (call : Word × AbsState δ) :
    (w.propagate call).Clashed := by
  obtain ⟨pc, state⟩ := call
  intro q cs hcs c hc
  rcases propagate_joinConflicts w pc state hcs hc with ⟨cs', hcs', hc'⟩ | ⟨rfl, old, hold, hc'⟩
  · obtain ⟨st, hst, hbot⟩ := h q cs' hcs' c hc'
    obtain ⟨st', hst', hle⟩ := rises_propagate w (pc, state) q st hst
    refine ⟨st', hst', ?_⟩
    have hget := AbsState.get_mono hle c.component
    rw [hbot] at hget
    exact le_antisymm (AbsVal.le_bottom _) hget
  · have hclash : (old.get c.component).Clash (state.get c.component) :=
      (mem_conflicts_iff state old c.component).mp (List.mem_map_of_mem hc')
    have hin : (w.propagate (q, state)).inStates[q]? = some (join state old).state := by
      rcases propagate_cases w q state with ⟨hnone, -⟩ | ⟨old', hold', hin, -⟩
      · simp [hold] at hnone
      · rw [hold, Option.some.injEq] at hold'
        simp [hin, hold']
    refine ⟨_, hin, ?_⟩
    rw [join_get]
    exact AbsVal.eq_bottom_of_le hclash.2.1.1 hclash.2.2.1 hclash.1 le_sup_left le_sup_right

theorem Clashed.propagateAll (h : w.Clashed) (calls : List (Word × AbsState δ)) :
    (w.propagateAll calls).Clashed := by
  induction calls generalizing w with
  | nil => exact h
  | cons call calls ih => exact ih (h.propagate call)

theorem Clashed.serve (h : w.Clashed) (env : Env δ) (pc : Word) : (w.serve env pc).Clashed := by
  rw [serve_eq]
  refine Clashed.propagateAll ?_ _
  have hconf : ((w.promote pc).begin env pc).joinConflicts = w.joinConflicts := by
    unfold begin
    split <;> rfl
  intro q cs hcs c hc
  rw [hconf] at hcs
  simpa [promote] using h q cs hcs c hc

/-- The books of a walk between two iterations. The instruction at an address off the worklist was
measured. -/
structure Books (env : Env δ) (w : Walk δ) : Prop where
  inv : Inv env none w
  passed : Passed env none w
  clashed : w.Clashed
  measured : ∀ (pc : Word) (st : AbsState δ) (insn : Instruction), w.inStates[pc]? = some st →
    pc ∉ w.worklist → env.decodeAt pc = some insn → w.insnSizes[pc]? = some insn.size

theorem books_init (env : Env δ) : Books env (Walk.init : Walk δ) where
  inv := inv_init env
  passed := passed_init env
  clashed := by
    intro pc cs h
    simp [init] at h
  measured := by simp [init]

theorem Books.propagateAll (h : Books env w) {calls : List (Word × AbsState δ)}
    (hc : ∀ call ∈ calls, env.cfi.Covers call.1) : Books env (w.propagateAll calls) where
  inv := h.inv.propagateAll hc
  passed := h.passed.propagateAll h.inv hc
  clashed := h.clashed.propagateAll calls
  measured pc st insn hst hpc hd := by
    obtain ⟨hst', hpc'⟩ := h.inv.keptAll hc hst hpc
    rw [propagateAll_insnSizes]
    exact h.measured pc st insn hst' hpc' hd

theorem begin_measures (w : Walk δ) {pc q : Word} {insn : Instruction}
    (hd : env.decodeAt q = some insn) (h : q = pc ∨ w.insnSizes[q]? = some insn.size) :
    (w.begin env pc).insnSizes[q]? = some insn.size := by
  unfold begin
  by_cases hq : q = pc
  · subst hq
    simp [hd]
  · have hsize := h.resolve_left hq
    split
    · exact hsize
    · rw [Std.ExtTreeMap.getElem?_insert]
      simpa [Ne.symm hq, pop] using hsize

theorem Books.serve (h : Books env w) {pc : Word} (hpc : pc ∈ w.worklist) :
    Books env (w.serve env pc) := by
  have hi := h.inv.promote hpc
  have hb := hi.begin (popped_promote w pc)
  obtain ⟨s, hs⟩ := h.inv.reached pc hpc
  have hcalls : ∀ call ∈ env.callsFrom pc s, env.cfi.Covers call.1 :=
    fun call hm => Env.covers_of_mem_callsFrom (h.inv.covered pc s hs) hm
  have hserve : w.serve env pc =
      ((w.promote pc).begin env pc).propagateAll (env.callsFrom pc s) := by
    rw [serve_eq, hs, Option.getD_some]
  -- an address off the new worklist was off the old one or is the one that was served
  have hkept : ∀ q st, (w.serve env pc).inStates[q]? = some st → q ∉ (w.serve env pc).worklist →
      w.inStates[q]? = some st ∧ (q = pc ∨ q ∉ w.worklist) := by
    intro q st hst hq
    rw [hserve] at hst hq
    obtain ⟨hst', hq'⟩ := hb.keptAll hcalls hst hq
    rw [begin_inStates] at hst'
    rw [begin_worklist] at hq'
    refine ⟨hst', ?_⟩
    by_cases hqp : q = pc
    · exact Or.inl hqp
    · exact Or.inr fun hmem => hq' ((List.mem_erase_of_ne hqp).mpr hmem)
  refine ⟨h.inv.serve hpc, h.passed.serve h.inv hpc, h.clashed.serve env pc, ?_⟩
  intro q st insn hst hq hd
  obtain ⟨hst', hq'⟩ := hkept q st hst hq
  rw [hserve, propagateAll_insnSizes]
  refine begin_measures (w.promote pc) hd (hq'.imp_right fun hq' => ?_)
  exact h.measured q st insn hst' hq' hd

theorem Books.serveAll (h : Books env w) {order : List Word} (ha : w.Admits env order) :
    Books env (w.serveAll env order) := by
  induction order generalizing w with
  | nil => exact h
  | cons pc order ih => exact ih (h.serve ha.1) ha.2

section Into
variable {v : Walk δ}

theorem Rises.propagate_into (h : w.Rises v) {call : Word × AbsState δ}
    (hc : v.Settled call) : (w.propagate call).Rises v := by
  obtain ⟨pc, state⟩ := call
  obtain ⟨top, htop, hle⟩ := hc
  rw [join_unchanged_iff] at hle
  intro q st hst
  rcases propagate_cases w pc state with ⟨-, hin, -⟩ | ⟨old, hold, hin, -⟩
  · rw [hin, Std.ExtTreeMap.getElem?_insert] at hst
    by_cases hq : pc = q
    · subst hq
      simp only [Std.compare_self, if_true, Option.some.injEq] at hst
      exact ⟨top, htop, hst ▸ hle⟩
    · exact h q st (by simpa [hq] using hst)
  · rw [hin, Std.ExtTreeMap.getElem?_insert] at hst
    by_cases hq : pc = q
    · subst hq
      simp only [Std.compare_self, if_true, Option.some.injEq] at hst
      obtain ⟨top', htop', hle'⟩ := h pc old hold
      rw [htop, Option.some.injEq] at htop'
      exact ⟨top, htop, hst ▸ sup_le (htop' ▸ hle') hle⟩
    · exact h q st (by simpa [hq] using hst)

theorem Rises.propagateAll_into (h : w.Rises v) {calls : List (Word × AbsState δ)}
    (hc : ∀ call ∈ calls, v.Settled call) : (w.propagateAll calls).Rises v := by
  induction calls generalizing w with
  | nil => exact h
  | cons call calls ih =>
    exact ih (h.propagate_into (hc call List.mem_cons_self))
      fun c hm => hc c (List.mem_cons_of_mem _ hm)

/-- What was served has been propagated. -/
theorem settled_of_served {order : List Word} {pc : Word} {st : AbsState δ}
    (h : (pc, st) ∈ w.servedWith env order) {call : Word × AbsState δ}
    (hcall : call ∈ env.callsFrom pc st) : (w.serveAll env order).Settled call := by
  induction order generalizing w with
  | nil => cases h
  | cons next order ih =>
    rcases List.mem_cons.mp h with h | h
    · cases h
      have hserved : (w.serve env pc).Settled call := by
        rw [serve_eq]
        exact settled_propagateAll _ hcall
      exact (rises_serveAll env (w.serve env pc) order).settled hserved
    · exact ih h

/-- A walk below a settled one stays below it while the calls it makes are made there too: in the
same state, or in one that asks nothing more of the instruction. -/
theorem Rises.serveAll_into (h : w.Rises v) (hi : Inv env none w) {order : List Word}
    (ha : w.Admits env order) (hv : Passed env none v) (hdone : v.worklist = [])
    (hcarry : ∀ visit ∈ w.servedWith env order,
      (∀ call ∈ env.callsFrom visit.1 visit.2, v.Settled call) ∨
        ∀ t, v.inStates[visit.1]? = some t → visit.2 ≤ t → env.Steady visit.1 visit.2 t) :
    (w.serveAll env order).Rises v := by
  induction order generalizing w with
  | nil => exact h
  | cons pc order ih =>
    obtain ⟨s, hs⟩ := hi.reached pc ha.1
    obtain ⟨t, ht, hle⟩ := h pc s hs
    have hvisit : (pc, s) ∈ w.servedWith env (pc :: order) := by
      rw [servedWith, hs, Option.getD_some]
      exact List.mem_cons_self
    have hserve : (w.serve env pc).Rises v := by
      rw [serve_eq, hs, Option.getD_some]
      refine Rises.propagateAll_into ?_ fun call hcall => ?_
      · intro q st hst
        exact h q st (by simpa [promote] using hst)
      · rcases hcarry (pc, s) hvisit with hsettled | hsteady
        · exact hsettled call hcall
        · obtain ⟨call', hcall', hpc, hle'⟩ := (hsteady t ht hle).reproduces hle call hcall
          obtain ⟨old, hold, hsettled⟩ := hv pc t ht (by simp [hdone]) (by simp) call' hcall'
          refine ⟨old, hpc ▸ hold, ?_⟩
          rw [join_unchanged_iff] at hsettled ⊢
          exact hle'.trans hsettled
    exact ih hserve (hi.serve ha.1) ha.2 fun visit hm => hcarry visit (List.mem_cons_of_mem _ hm)

end Into

end Walk

namespace Env
variable (env : Env δ) (row : CFIRow δ)

/-- The walk where the first `Drain` starts. -/
def start : Walk δ :=
  Walk.init.propagate (env.cfi.pcBegin, AbsState.seedFromRow row row.isCanonicalEntry)

/-- The walk where the second `Drain` starts, if it is called at all. -/
def reseeded (w : Walk δ) : Walk δ := w.propagateAll (env.unreachedPads w)

/-- A run under some policy: the addresses it serves in either `Drain`, until nothing is pending
and before `max_iterations` is exceeded. -/
structure Schedule where
  first : List Word
  second : List Word
  drains_first : (env.start row).Drains env first
  drains_second : (env.reseeded ((env.start row).serveAll env first)).Drains env second
  under_cap : first.length + second.length ≤ env.options.maxIterations

end Env

namespace Env.Schedule
variable {env : Env δ} {row : CFIRow δ} (s : env.Schedule row)

def firstWalk : Walk δ := (env.start row).serveAll env s.first

def settled : Walk δ := (env.reseeded s.firstWalk).serveAll env s.second

/-- The states addresses are served in. -/
def visits : List (Word × AbsState δ) :=
  (env.start row).servedWith env s.first ++ (env.reseeded s.firstWalk).servedWith env s.second

/-- Every `Add` of the run. -/
def reports (atFunctionEntry : Bool) : List Report :=
  checkEntryRow env.cfi atFunctionEntry row ++ (setupCallSites env.image env.cfi).2 ++
    env.unreachedPadReports s.firstWalk ++ env.hitCapReports s.settled ++
    env.verifyPass row.isCanonicalEntry s.settled ++ env.reportCoverageGaps s.settled

def verdict (atFunctionEntry : Bool) : Verdict :=
  sinkVerdict env.options.maxFindingsPerFde (s.reports atFunctionEntry)

/-- Whatever one run serves, the other serves in the same state as well, or it ends up in a state of
that address which asks nothing more of the instruction there. -/
structure Follows (s s' : env.Schedule row) : Prop where
  first : ∀ visit ∈ (env.start row).servedWith env s.first,
    visit ∈ (env.start row).servedWith env s'.first ∨
      ∀ t, s'.firstWalk.inStates[visit.1]? = some t → visit.2 ≤ t → env.Steady visit.1 visit.2 t
  second : ∀ visit ∈ (env.reseeded s.firstWalk).servedWith env s.second,
    visit ∈ s'.visits ∨
      ∀ t, s'.settled.inStates[visit.1]? = some t → visit.2 ≤ t → env.Steady visit.1 visit.2 t

theorem follows_self : s.Follows s where
  first _ hvisit := Or.inl hvisit
  second _ hvisit := Or.inl (List.mem_append_right _ hvisit)

/-- No mismatch is lost in the sink: some mismatch, if there is one, comes first with its message and
finds room under the cap. -/
def LosesNoMismatch (atFunctionEntry : Bool) : Prop :=
  (∃ r ∈ s.reports atFunctionEntry, r.severity = .mismatch) →
    KeepsMismatch env.options.maxFindingsPerFde (s.reports atFunctionEntry)

section Books
variable {s s' : env.Schedule row}

theorem books_firstWalk (hc : env.cfi.Covers env.cfi.pcBegin) (s : env.Schedule row) :
    s.firstWalk.Books env := by
  have hseed : ∀ call ∈ [(env.cfi.pcBegin, AbsState.seedFromRow row row.isCanonicalEntry)],
      env.cfi.Covers call.1 := by
    intro call hcall
    rw [List.mem_singleton.mp hcall]
    exact hc
  exact ((Walk.books_init env).propagateAll hseed).serveAll s.drains_first.admits

theorem books_reseeded (hc : env.cfi.Covers env.cfi.pcBegin) (s : env.Schedule row) :
    (env.reseeded s.firstWalk).Books env :=
  (books_firstWalk hc s).propagateAll fun _ hm => covers_of_mem_unreachedPads hm

theorem books_settled (hc : env.cfi.Covers env.cfi.pcBegin) (s : env.Schedule row) :
    s.settled.Books env :=
  (books_reseeded hc s).serveAll s.drains_second.admits

theorem settled_of_visits {pc : Word} {st : AbsState δ} (h : (pc, st) ∈ s'.visits)
    {call : Word × AbsState δ} (hcall : call ∈ env.callsFrom pc st) : s'.settled.Settled call := by
  rcases List.mem_append.mp h with h | h
  · have hfirst : s'.firstWalk.Settled call := Walk.settled_of_served h hcall
    have hup : s'.firstWalk.Rises s'.settled :=
      (Walk.rises_propagateAll _ _).trans (Walk.rises_serveAll env _ s'.second)
    exact hup.settled hfirst
  · exact Walk.settled_of_served h hcall

theorem firstWalk_rises (hc : env.cfi.Covers env.cfi.pcBegin) (h : s.Follows s') :
    s.firstWalk.Rises s'.firstWalk := by
  have hbooks := books_firstWalk hc s'
  have hstart : (env.start row).Inv env none := (Walk.inv_init env).propagate hc
  apply (Walk.rises_serveAll env (env.start row) s'.first).serveAll_into hstart
    s.drains_first.admits hbooks.passed s'.drains_first.done
  intro visit hvisit
  exact (h.first visit hvisit).imp_left fun hshared _ hcall => Walk.settled_of_served hshared hcall

theorem settled_rises (hc : env.cfi.Covers env.cfi.pcBegin) (h : s.Follows s')
    (hfirst : s.firstWalk.inStates = s'.firstWalk.inStates) : s.settled.Rises s'.settled := by
  have hbooks := books_settled hc s'
  have hpads : env.unreachedPads s.firstWalk = env.unreachedPads s'.firstWalk := by
    unfold unreachedPads
    rw [hfirst]
  -- both runs reseed the same states with the same pads
  have hbase : (env.reseeded s.firstWalk).Rises s'.settled := by
    have hall : (env.reseeded s'.firstWalk).Rises s'.settled := Walk.rises_serveAll env _ s'.second
    have hup : s'.firstWalk.Rises s'.settled := (Walk.rises_propagateAll _ _).trans hall
    refine Walk.Rises.propagateAll_into (fun pc st hst => hup pc st (hfirst ▸ hst)) ?_
    intro call hcall
    rw [hpads] at hcall
    exact hall.settled (Walk.settled_propagateAll _ hcall)
  apply hbase.serveAll_into (books_reseeded hc s).inv s.drains_second.admits hbooks.passed
    s'.drains_second.done
  intro visit hvisit
  exact (h.second visit hvisit).imp_left fun hshared _ hcall => settled_of_visits hshared hcall

theorem inStates_eq (hc : env.cfi.Covers env.cfi.pcBegin) (h : s.Follows s') (h' : s'.Follows s) :
    s.firstWalk.inStates = s'.firstWalk.inStates ∧ s.settled.inStates = s'.settled.inStates := by
  have hfirst := (firstWalk_rises hc h).antisymm (firstWalk_rises hc h')
  exact ⟨hfirst, (settled_rises hc h hfirst).antisymm (settled_rises hc h' hfirst.symm)⟩

/-- What was measured follows from what was reached. -/
theorem insnSizes_eq (hc : env.cfi.Covers env.cfi.pcBegin)
    (h : s.settled.inStates = s'.settled.inStates) : s.settled.insnSizes = s'.settled.insnSizes := by
  have hsub : ∀ {s s' : env.Schedule row}, s.settled.inStates = s'.settled.inStates →
      ∀ (pc : Word) (size : ℕ), s.settled.insnSizes[pc]? = some size →
        s'.settled.insnSizes[pc]? = some size := by
    intro s s' h pc size hsize
    obtain ⟨⟨st, hst⟩, insn, hd, rfl⟩ := (books_settled hc s).inv.sized pc size hsize
    exact (books_settled hc s').measured pc st insn (h ▸ hst)
      (by simp [show s'.settled.worklist = [] from s'.drains_second.done]) hd
  apply Std.ExtTreeMap.ext_getElem?
  intro pc
  exact Option.ext fun size => ⟨hsub h pc size, hsub h.symm pc size⟩

end Books

end Env.Schedule

namespace Env
variable {env : Env δ} {w w' : Walk δ}

theorem gapEnd_congr (h : w.insnSizes = w'.insnSizes) (fuel : ℕ) (pc : Word) (allPadding : Bool) :
    env.gapEnd w fuel pc allPadding = env.gapEnd w' fuel pc allPadding := by
  induction fuel generalizing pc allPadding with
  | zero => rfl
  | succ fuel ih => simp only [gapEnd, h, ih]

theorem scanGaps_congr (h : w.insnSizes = w'.insnSizes) (fuel : ℕ) (pc : Word) :
    env.scanGaps w fuel pc = env.scanGaps w' fuel pc := by
  induction fuel generalizing pc with
  | zero => rfl
  | succ fuel ih => simp only [scanGaps, h, ih, gapEnd_congr h]

/-- A conflict that is reported comes with a complaint of the row check itself. -/
theorem conflictReports_eq_nil (hw : w.Clashed) {rc : RowChecker} {pc : Word} {row : CFIRow δ}
    {st : AbsState δ} (hst : w.inStates[pc]? = some st) (h : rc.check row st = []) :
    conflictReports w pc row = [] := by
  unfold conflictReports
  rw [List.filterMap_eq_nil_iff]
  intro c hc
  have hno : rowDependsOn row c.component = false := by
    by_contra hdep
    rw [Bool.not_eq_false] at hdep
    obtain ⟨cs, hcs⟩ : ∃ cs, w.joinConflicts[pc]? = some cs := by
      by_contra hnone
      rw [Option.eq_none_iff_forall_ne_some.mpr fun cs hcs => hnone ⟨cs, hcs⟩] at hc
      cases hc
    rw [hcs, Option.getD_some] at hc
    obtain ⟨st', hst', hbot⟩ := hw pc cs hcs c hc
    rw [hst, Option.some.injEq] at hst'
    exact RowChecker.consulted_ne_bottom h (rowDependsOn_iff.mp hdep) (hst' ▸ hbot)
  rw [hno]
  rfl

end Env

/-- Two lists of calls that stand and fall together and say the same mismatches. -/
structure Alike (rs rs' : List Report) : Prop where
  nil_iff : rs = [] ↔ rs' = []
  mismatch_iff : ∀ r : Report, r.severity = .mismatch → (r ∈ rs ↔ r ∈ rs')

namespace Alike

theorem refl (rs : List Report) : Alike rs rs := ⟨Iff.rfl, fun _ _ => Iff.rfl⟩

theorem append {rs rs' ts ts' : List Report} (h : Alike rs rs') (h' : Alike ts ts') :
    Alike (rs ++ ts) (rs' ++ ts') := by
  refine ⟨?_, fun r hr => ?_⟩
  · rw [List.append_eq_nil_iff, List.append_eq_nil_iff, h.nil_iff, h'.nil_iff]
  · rw [List.mem_append, List.mem_append, h.mismatch_iff r hr, h'.mismatch_iff r hr]

theorem flatMap {α : Type} {l : List α} {f g : α → List Report} (h : ∀ a ∈ l, Alike (f a) (g a)) :
    Alike (l.flatMap f) (l.flatMap g) := by
  induction l with
  | nil => exact refl []
  | cons a l ih =>
    exact (h a List.mem_cons_self).append (ih fun b hb => h b (List.mem_cons_of_mem _ hb))

/-- Reviews that never come alone leave no trace in the verdict. -/
theorem of_reviews {rs cs cs' : List Report} (hcs : rs = [] → cs = []) (hcs' : rs = [] → cs' = [])
    (hr : ∀ r ∈ cs, r.severity = .review) (hr' : ∀ r ∈ cs', r.severity = .review) :
    Alike (rs ++ cs) (rs ++ cs') := by
  refine ⟨?_, fun r hm => ?_⟩
  · rw [List.append_eq_nil_iff, List.append_eq_nil_iff]
    exact ⟨fun h => ⟨h.1, hcs' h.1⟩, fun h => ⟨h.1, hcs h.1⟩⟩
  · have hno : ∀ {cs : List Report}, (∀ r ∈ cs, r.severity = .review) → r ∉ cs := by
      intro cs hcs hmem
      rw [hcs r hmem] at hm
      cases hm
    simp [hno hr, hno hr']

theorem sinkVerdict_blessed {rs rs' : List Report} (h : Alike rs rs') (cap : ℕ) :
    sinkVerdict cap rs = .blessed ↔ sinkVerdict cap rs' = .blessed := by
  rw [UnwindCheck.sinkVerdict_blessed, UnwindCheck.sinkVerdict_blessed, h.nil_iff]

theorem sinkVerdict_eq {rs rs' : List Report} (h : Alike rs rs') {cap : ℕ}
    (hk : (∃ r ∈ rs, r.severity = .mismatch) → KeepsMismatch cap rs)
    (hk' : (∃ r ∈ rs', r.severity = .mismatch) → KeepsMismatch cap rs') :
    sinkVerdict cap rs = sinkVerdict cap rs' := by
  by_cases hm : ∃ r ∈ rs, r.severity = .mismatch
  · obtain ⟨r, hr, hs⟩ := hm
    have hr' := (h.mismatch_iff r hs).mp hr
    rw [(sinkVerdict_mismatch cap rs).mpr (hk ⟨r, hr, hs⟩),
      (sinkVerdict_mismatch cap rs').mpr (hk' ⟨r, hr', hs⟩)]
  · have hno : ¬ KeepsMismatch cap rs := fun h => hm (exists_of_keepsMismatch h)
    have hno' : ¬ KeepsMismatch cap rs' := by
      intro hkeeps
      obtain ⟨r, hr, hs⟩ := exists_of_keepsMismatch hkeeps
      exact hm ⟨r, (h.mismatch_iff r hs).mpr hr, hs⟩
    by_cases hnil : rs = []
    · rw [(UnwindCheck.sinkVerdict_blessed cap rs).mpr hnil,
        (UnwindCheck.sinkVerdict_blessed cap rs').mpr (h.nil_iff.mp hnil)]
    · have hnil' : rs' ≠ [] := fun hn => hnil (h.nil_iff.mpr hn)
      rw [(sinkVerdict_review cap rs).mpr ⟨hnil, hno⟩, (sinkVerdict_review cap rs').mpr ⟨hnil', hno'⟩]

end Alike

namespace Env
variable {env : Env δ} {w w' : Walk δ}

theorem severity_of_mem_conflictReports {pc : Word} {row : CFIRow δ} {r : Report}
    (h : r ∈ conflictReports w pc row) : r.severity = .review := by
  obtain ⟨c, -, hc⟩ := List.mem_filterMap.mp h
  split_ifs at hc
  cases hc
  rfl

theorem verifyAt_alike (hw : w.Clashed) (hw' : w'.Clashed) (isCanonicalEntry : Bool) {pc : Word}
    {st : AbsState δ} (hst : w.inStates[pc]? = some st) (hst' : w'.inStates[pc]? = some st) :
    Alike (env.verifyAt isCanonicalEntry w pc st) (env.verifyAt isCanonicalEntry w' pc st) := by
  unfold verifyAt
  cases env.decodeAt pc with
  | none => exact .refl _
  | some insn =>
    dsimp only
    by_cases hend : env.cfi.pcEnd < insn.next
    · rw [if_pos hend, if_pos hend]
      exact .refl _
    · rw [if_neg hend, if_neg hend]
      refine (Alike.append ?_ (.refl _)).append (.refl _)
      unfold rowReports
      cases env.cfi.rowAt pc with
      | none => exact .refl _
      | some row =>
        exact .of_reviews (conflictReports_eq_nil hw hst) (conflictReports_eq_nil hw' hst')
          (fun _ => severity_of_mem_conflictReports) fun _ => severity_of_mem_conflictReports

theorem verifyPass_alike (hw : w.Clashed) (hw' : w'.Clashed) (h : w.inStates = w'.inStates)
    (isCanonicalEntry : Bool) :
    Alike (env.verifyPass isCanonicalEntry w) (env.verifyPass isCanonicalEntry w') := by
  unfold verifyPass
  rw [h]
  refine .flatMap fun e he => ?_
  have hst := Std.ExtTreeMap.mem_toList_iff_getElem?_eq_some.mp he
  exact verifyAt_alike hw hw' isCanonicalEntry (h ▸ hst) hst

end Env

namespace Env.Schedule
variable {env : Env δ} {row : CFIRow δ} {s s' : env.Schedule row}

theorem hitCap_settled (s : env.Schedule row) : s.settled.hitCap = false := by
  unfold settled reseeded firstWalk start
  rw [Walk.serveAll_hitCap, Walk.propagateAll_hitCap, Walk.serveAll_hitCap, Walk.propagate_hitCap]
  rfl

theorem reports_alike (hc : env.cfi.Covers env.cfi.pcBegin)
    (hfirst : s.firstWalk.inStates = s'.firstWalk.inStates)
    (h : s.settled.inStates = s'.settled.inStates) (atFunctionEntry : Bool) :
    Alike (s.reports atFunctionEntry) (s'.reports atFunctionEntry) := by
  have hpads : env.unreachedPadReports s.firstWalk = env.unreachedPadReports s'.firstWalk := by
    unfold unreachedPadReports unreachedPads
    rw [hfirst]
  have hcap : env.hitCapReports s.settled = env.hitCapReports s'.settled := by
    unfold hitCapReports
    rw [hitCap_settled, hitCap_settled]
  have hgaps : env.reportCoverageGaps s.settled = env.reportCoverageGaps s'.settled := by
    unfold reportCoverageGaps
    rw [scanGaps_congr (insnSizes_eq hc h)]
  unfold reports
  rw [hpads, hcap, hgaps]
  refine (Alike.append (.refl _) ?_).append (.refl _)
  exact verifyPass_alike (books_settled hc s).clashed (books_settled hc s').clashed h _

/-- With the same conflicts on record, the two runs report the same. -/
theorem reports_eq (hc : env.cfi.Covers env.cfi.pcBegin)
    (hfirst : s.firstWalk.inStates = s'.firstWalk.inStates)
    (h : s.settled.inStates = s'.settled.inStates)
    (hconflicts : s.settled.joinConflicts = s'.settled.joinConflicts) (atFunctionEntry : Bool) :
    s.reports atFunctionEntry = s'.reports atFunctionEntry := by
  have hverify : env.verifyPass row.isCanonicalEntry s.settled =
      env.verifyPass row.isCanonicalEntry s'.settled := by
    unfold verifyPass verifyAt rowReports conflictReports
    rw [h, hconflicts]
  unfold reports unreachedPadReports unreachedPads hitCapReports reportCoverageGaps
  rw [hfirst, hitCap_settled, hitCap_settled, hverify, scanGaps_congr (insnSizes_eq hc h)]

/-- Two runs that serve pending addresses in different orders settle in the same states, and bless
or do not bless together, when each follows the other: all but the steps `Steady` leaves out are
monotone. They reach one verdict if they put the same conflicts on record, or lose no mismatch in
their sinks. -/
theorem order_independent (hrow : env.cfi.rowAt env.cfi.pcBegin = some row)
    (h : s.Follows s') (h' : s'.Follows s) :
    s.settled.inStates = s'.settled.inStates ∧ ∀ atFunctionEntry,
      (s.verdict atFunctionEntry = .blessed ↔ s'.verdict atFunctionEntry = .blessed) ∧
      (s.settled.joinConflicts = s'.settled.joinConflicts ∨
          s.LosesNoMismatch atFunctionEntry ∧ s'.LosesNoMismatch atFunctionEntry →
        s.verdict atFunctionEntry = s'.verdict atFunctionEntry) := by
  have hc := env.cfi.covers_of_rowAt hrow
  obtain ⟨hfirst, hsettled⟩ := inStates_eq hc h h'
  refine ⟨hsettled, fun atFunctionEntry => ?_⟩
  have halike := reports_alike hc hfirst hsettled atFunctionEntry
  refine ⟨halike.sinkVerdict_blessed _, ?_⟩
  rintro (hconflicts | ⟨hk, hk'⟩)
  · unfold verdict
    rw [reports_eq hc hfirst hsettled hconflicts atFunctionEntry]
  · exact halike.sinkVerdict_eq hk hk'

end Env.Schedule

namespace Walk
variable {env : Env δ} {w : Walk δ}

@[simp] theorem propagate_iterations (w : Walk δ) (call : Word × AbsState δ) :
    (w.propagate call).iterations = w.iterations := by
  unfold propagate
  dsimp only
  split
  · rfl
  · split_ifs <;> rfl

@[simp] theorem propagateAll_iterations (w : Walk δ) (calls : List (Word × AbsState δ)) :
    (w.propagateAll calls).iterations = w.iterations := by
  induction calls generalizing w with
  | nil => rfl
  | cons call calls ih => exact (ih _).trans (propagate_iterations w call)

theorem visit_iterations (env : Env δ) (w : Walk δ) (pc : Word) (state : AbsState δ) :
    (w.visit env pc state).iterations = w.iterations + 1 := by
  rw [visit_eq, propagateAll_iterations]
  unfold begin
  split <;> rfl

/-- The code's own loop is one of the orders, while it stays under the cap. -/
theorem exists_drains {fuel : ℕ} (h : (w.drainFor env fuel).hitCap = false) :
    w.hitCap = false ∧ ∃ order, w.Drains env order ∧ w.serveAll env order = w.drainFor env fuel ∧
      order.length ≤ fuel ∧ (w.drainFor env fuel).iterations = w.iterations + order.length := by
  induction fuel generalizing w with
  | zero =>
    rw [Walk.drainFor] at h ⊢
    cases hp : w.popped with
    | some next => simp [hp] at h
    | none =>
      simp only [hp] at h ⊢
      exact ⟨h, [], ⟨trivial, by simpa [popped, serveAll] using hp⟩, rfl, le_rfl, rfl⟩
  | succ fuel ih =>
    rw [Walk.drainFor] at h ⊢
    cases hp : w.popped with
    | none =>
      simp only [hp] at h ⊢
      exact ⟨h, [], ⟨trivial, by simpa [popped, serveAll] using hp⟩, rfl, Nat.zero_le _, rfl⟩
    | some next =>
      obtain ⟨pc, state⟩ := next
      simp only [hp] at h ⊢
      obtain ⟨hpc, hv⟩ := visit_eq_serve env hp
      obtain ⟨hcap, order, hd, hall, hlen, hiter⟩ := ih h
      rw [visit_iterations] at hiter
      rw [hv] at hd hall hcap
      refine ⟨by simpa using hcap, pc :: order, ⟨⟨hpc, hd.admits⟩, hd.done⟩, ?_, ?_, ?_⟩
      · rw [hv]
        exact hall
      · simpa using hlen
      · rw [hiter, List.length_cons]
        omega

end Walk

/-- A run of the code that stays under the cap is one of the schedules. -/
theorem Env.exists_schedule (env : Env δ) (row : CFIRow δ)
    (hcap : (env.settle row).hitCap = false) : ∃ s : env.Schedule row,
      s.firstWalk = env.firstWalk row ∧ s.settled = env.settle row := by
  have hlast : env.settle row =
      if (env.unreachedPads (env.firstWalk row)).isEmpty then env.firstWalk row
      else (env.reseeded (env.firstWalk row)).drain env := rfl
  have hfirst : env.firstWalk row = (env.start row).drainFor env (env.options.maxIterations - 0) := rfl
  by_cases hpads : (env.unreachedPads (env.firstWalk row)).isEmpty = true
  · rw [if_pos hpads] at hlast
    rw [hlast] at hcap ⊢
    obtain ⟨-, order, hd, hall, hlen, -⟩ := Walk.exists_drains (hfirst ▸ hcap)
    rw [← hfirst] at hall
    have hsame : env.reseeded ((env.start row).serveAll env order) = env.firstWalk row := by
      rw [hall, reseeded, List.isEmpty_iff.mp hpads]
      rfl
    refine ⟨⟨order, [], hd, ⟨trivial, ?_⟩, by simpa using hlen⟩, hall, ?_⟩
    · rw [hsame]
      exact hall ▸ hd.done
    · exact hsame
  · rw [if_neg hpads] at hlast
    rw [hlast] at hcap
    obtain ⟨hcap₁, second, hd₂, hall₂, hlen₂, -⟩ := Walk.exists_drains hcap
    rw [reseeded, Walk.propagateAll_hitCap] at hcap₁
    obtain ⟨-, first, hd₁, hall₁, hlen₁, hiter⟩ := Walk.exists_drains (hfirst ▸ hcap₁)
    rw [← hfirst] at hall₁ hiter
    have hiter' : (env.reseeded (env.firstWalk row)).iterations = first.length := by
      rw [reseeded, Walk.propagateAll_iterations, hiter, start, Walk.propagate_iterations]
      exact Nat.zero_add _
    refine ⟨⟨first, second, hd₁, hall₁ ▸ hd₂, ?_⟩, hall₁, ?_⟩
    · rw [hiter'] at hlen₂
      omega
    · have hreseeded := congrArg (fun w => (env.reseeded w).serveAll env second) hall₁
      exact (hreseeded.trans hall₂).trans hlast.symm

/-- `Check` returns the verdict of its schedule. -/
theorem check_verdict_eq {options : FDECheckerOptions δ} {cfi : CFI δ}
    {atFunctionEntry guessing : Bool} {row : CFIRow δ} (hrow : cfi.rowAt cfi.pcBegin = some row)
    (hra : row.regs 16 ≠ .undefined) {s : (Env.of options cfi guessing).Schedule row}
    (hfirst : s.firstWalk = (Env.of options cfi guessing).firstWalk row)
    (hsettled : s.settled = (Env.of options cfi guessing).settle row) :
    (check options cfi atFunctionEntry guessing).verdict = s.verdict atFunctionEntry := by
  rw [check_verdict hrow hra]
  unfold Env.Schedule.verdict Env.Schedule.reports
  rw [hfirst, hsettled]
  rfl

section Decidable

instance instDecidableLEAbsState : DecidableLE (AbsState δ) :=
  fun s t => decidable_of_iff _ (join_unchanged_iff s t)

/-- Visits are compared from both sides. -/
theorem mem_visits {visits : List (Word × AbsState δ)} {visit : Word × AbsState δ}
    (h : ∃ e ∈ visits, e.1 = visit.1 ∧ e.2 ≤ visit.2 ∧ visit.2 ≤ e.2) : visit ∈ visits := by
  obtain ⟨e, he, hpc, hle, hge⟩ := h
  have hsame : e = visit := Prod.ext hpc (le_antisymm hle hge)
  exact hsame ▸ he

def Walk.decidableAdmits (env : Env δ) :
    (order : List Word) → (w : Walk δ) → Decidable (w.Admits env order)
  | [], _ => isTrue trivial
  | pc :: order, w =>
    have := decidableAdmits env order (w.serve env pc)
    inferInstanceAs (Decidable (pc ∈ w.worklist ∧ _))

instance instDecidableAdmits (env : Env δ) (w : Walk δ) (order : List Word) :
    Decidable (w.Admits env order) := Walk.decidableAdmits env order w

instance instDecidableDrains (env : Env δ) (w : Walk δ) (order : List Word) :
    Decidable (w.Drains env order) :=
  decidable_of_iff (w.Admits env order ∧ (w.serveAll env order).worklist = [])
    ⟨fun h => ⟨h.1, h.2⟩, fun h => ⟨h.1, h.2⟩⟩

end Decidable

namespace Sample

/-- `lea (%rsp),%r10` -/
def leaR10 : DecodedInsn :=
  insn 4 .lea .other [⟨.register (.gpr64 .r10), 64, true, false⟩,
    ⟨.memory ⟨.gpr64 .rsp, .none, 0, 0⟩, 64, false, false⟩]

/-- `je` over `lea (%rsp),%r10` to another `lea (%rsp),%r10` and a `ret`. -/
def diamond : CFI Int64 := cfi 11 [row 0x1000 8]

def diamondOptions : FDECheckerOptions Int64 where
  image := .ofCode 0x1000 [0x74, 0x04, 0x4c, 0x8d, 0x14, 0x24, 0x4c, 0x8d, 0x14, 0x24, 0xc3]
  disasm := .ofTable ([([0x74, 0x04], je 4), ([0x4c, 0x8d, 0x14, 0x24], leaR10)] ++ encodings)
  allCfis := [((diamond.pcBegin, diamond.pcEnd), diamond)]

def diamondEnv : Env Int64 := .of diamondOptions diamond false

/-- The order of the code: the jump's target before the instruction after the jump, and once more
after that. -/
def diamondLifo : diamondEnv.Schedule (row 0x1000 8) :=
  ⟨[0x1000, 0x1006, 0x100a, 0x1002, 0x1006], [], by decide +kernel, by decide +kernel,
    by decide +kernel⟩

/-- The order of the addresses. -/
def diamondSorted : diamondEnv.Schedule (row 0x1000 8) :=
  ⟨[0x1000, 0x1002, 0x1006, 0x100a], [], by decide +kernel, by decide +kernel, by decide +kernel⟩

/-- The second `lea` asks that rsp is still a frame address. -/
theorem diamond_steady (s : AbsState Int64) {t : AbsState Int64} {d : Int64}
    (ht : t.gpr kDWARFRsp = .cfaRel d) : diamondEnv.Steady 0x1006 s t := by
  have hd : diamondEnv.decodeAt 0x1006 = some ⟨0x1006, leaR10⟩ := by decide +kernel
  intro insn hinsn
  rw [hd, Option.some.injEq] at hinsn
  subst hinsn
  have hnamed : ∀ u : AbsState Int64, ∃ v,
      transferNamed diamondEnv.z ⟨0x1006, leaR10⟩ u = some ({}, v) := fun u => ⟨_, rfl⟩
  have hslot : ∀ u : AbsState Int64, u.gpr kDWARFRsp = .cfaRel d →
      memSlot (dropStaleCmp ⟨0x1006, leaR10⟩ u) ⟨0x1006, leaR10⟩ ⟨.gpr64 .rsp, .none, 0, 0⟩ =
        some (d + Offset.ofInt 0) := by
    intro u hu
    have hread : readReg (dropStaleCmp ⟨0x1006, leaR10⟩ u) (.gpr64 .rsp) = .cfaRel d := by
      rw [← hu, ← dropStaleCmp_gpr ⟨0x1006, leaR10⟩ u]
      rfl
    unfold memSlot
    dsimp only
    rw [hread]
    rfl
  refine ⟨fun _ _ _ _ => ⟨fun _ => ⟨fun _ => ?_, ?_⟩, rfl, ?_⟩, ?_, ?_⟩
  · rw [hslot t ht]
    rfl
  · rintro r hr hsp
    cases hr
    cases hsp
  · intro hnone
    obtain ⟨v, hv⟩ := hnamed (dropStaleCmp ⟨0x1006, leaR10⟩ s)
    rw [hv] at hnone
    cases hnone
  · intro i hi hne
    have hsame : diamondEnv.cfi.rowIndexAt (0x1006 + 4) = diamondEnv.cfi.rowIndexAt 0x1006 := by
      decide +kernel
    exact absurd (hi.symm.trans hsame) hne
  · intro hne
    exact absurd rfl hne

end Sample

theorem diamond_order_independent :
    Sample.diamondLifo.settled.inStates = Sample.diamondSorted.settled.inStates ∧
      Sample.diamondLifo.verdict true = Sample.diamondSorted.verdict true := by
  have hrow : Sample.diamond.rowAt Sample.diamond.pcBegin = some (Sample.row 0x1000 8) := by
    decide +kernel
  have h : Sample.diamondLifo.Follows Sample.diamondSorted := by
    -- only the first visit of the second `lea` has no counterpart
    have hvisits : ∀ visit ∈ (Sample.diamondEnv.start (Sample.row 0x1000 8)).servedWith
        Sample.diamondEnv Sample.diamondLifo.first,
        (∃ e ∈ (Sample.diamondEnv.start (Sample.row 0x1000 8)).servedWith Sample.diamondEnv
          Sample.diamondSorted.first, e.1 = visit.1 ∧ e.2 ≤ visit.2 ∧ visit.2 ≤ e.2) ∨
        visit.1 = 0x1006 := by decide +kernel
    have hfinal : (Sample.diamondSorted.firstWalk.inStates[(0x1006 : Word)]?).all
        (fun t => t.gpr kDWARFRsp = .cfaRel (-8)) = true := by decide +kernel
    refine ⟨fun visit hvisit => ?_, fun _ hvisit => nomatch hvisit⟩
    rcases hvisits visit hvisit with hshared | hpc
    · exact Or.inl (mem_visits hshared)
    · right
      intro t ht _
      rw [hpc] at ht ⊢
      rw [ht] at hfinal
      exact Sample.diamond_steady visit.2 (by simpa using hfinal)
  have h' : Sample.diamondSorted.Follows Sample.diamondLifo := by
    have hvisits : ∀ visit ∈ (Sample.diamondEnv.start (Sample.row 0x1000 8)).servedWith
        Sample.diamondEnv Sample.diamondSorted.first,
        ∃ e ∈ (Sample.diamondEnv.start (Sample.row 0x1000 8)).servedWith Sample.diamondEnv
          Sample.diamondLifo.first, e.1 = visit.1 ∧ e.2 ≤ visit.2 ∧ visit.2 ≤ e.2 := by
      decide +kernel
    exact ⟨fun visit hvisit => Or.inl (mem_visits (hvisits visit hvisit)), fun _ hvisit => nomatch hvisit⟩
  obtain ⟨hstates, hverdict⟩ := Env.Schedule.order_independent hrow h h'
  have hreports : Sample.diamondLifo.reports true = [] ∧ Sample.diamondSorted.reports true = [] := by
    decide +kernel
  refine ⟨hstates, (hverdict true).2 (Or.inr ⟨?_, ?_⟩)⟩
  · rintro ⟨r, hr, -⟩
    simp [hreports.1] at hr
  · rintro ⟨r, hr, -⟩
    simp [hreports.2] at hr

namespace Sample

/-- `je` over `lea (%rsp),%r10` to two `nop`s. The row of the last one takes the CFA from r10, which
one of the two ways leaves unknown. -/
def snapshot : CFI Int64 :=
  cfi 8 [row 0x1000 16, ⟨0x1007, .regOffset 10 24, fun r => if r = 16 then .atCFAOffset (-8) else .unset⟩]

def snapshotOptions : FDECheckerOptions Int64 where
  image := .ofCode 0x1000 [0x74, 0x04, 0x4c, 0x8d, 0x14, 0x24, 0x90, 0x90]
  disasm := .ofTable ([([0x74, 0x04], je 4), ([0x4c, 0x8d, 0x14, 0x24], leaR10)] ++ encodings)
  allCfis := [((snapshot.pcBegin, snapshot.pcEnd), snapshot)]

def snapshotEnv : Env Int64 := .of snapshotOptions snapshot false

/-- The order of the code. -/
def snapshotLifo : snapshotEnv.Schedule (row 0x1000 16) :=
  ⟨[0x1000, 0x1006, 0x1007, 0x1002, 0x1006], [], by decide +kernel, by decide +kernel,
    by decide +kernel⟩

def snapshotSorted : snapshotEnv.Schedule (row 0x1000 16) :=
  ⟨[0x1000, 0x1002, 0x1006], [], by decide +kernel, by decide +kernel, by decide +kernel⟩

end Sample

/-- Served early, the first `nop` falls through while r10 is unknown, and the edge stays; served
after the `lea`, it does not. The code's order is the early one. -/
theorem snapshot_order_matters :
    Sample.snapshotLifo.settled.inStates ≠ Sample.snapshotSorted.settled.inStates ∧
      Sample.snapshotLifo.verdict false = .review ∧ Sample.snapshotSorted.verdict false = .blessed ∧
      (check Sample.snapshotOptions Sample.snapshot false false).verdict = .review := by
  refine ⟨fun h => ?_, by decide +kernel, by decide +kernel, by decide +kernel⟩
  have hreached : Sample.snapshotLifo.settled.inStates.contains 0x1007 = true := by decide +kernel
  have hnot : Sample.snapshotSorted.settled.inStates.contains 0x1007 = false := by decide +kernel
  rw [h, hnot] at hreached
  cases hreached

end UnwindCheck
