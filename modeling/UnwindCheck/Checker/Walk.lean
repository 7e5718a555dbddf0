import UnwindCheck.Checker.Row
import UnwindCheck.Insn.Semantics
import UnwindCheck.Lsda.Reader

/-! Pass one of the full checker: forward dataflow over the instructions reachable from the
start of one FDE. -/
namespace UnwindCheck

structure FDECheckerOptions (δ : Type) where
  image : ELFImage
  disasm : Zydis
  checkUnmentionedCalleeSaved : Bool := false
  reportCoverageGaps : Bool := true
  maxFindingsPerFde : ℕ := 8
  maxIterations : ℕ := 200000
  allCfis : List ((Word × Word) × CFI δ)

/-- `CFIContaining`: the entry of the sorted index whose range holds `pc`. -/
def cfiContaining {δ : Type} (index : List ((Word × Word) × CFI δ)) (pc : Word) : Option (CFI δ) :=
  let it := Lib.upperBound (fun i => (index[i]?).any fun e => pc < e.1.1) index.length
  if it = 0 then none
  else match index[it - 1]? with
    | some e => if pc < e.1.1 ∨ e.1.2 ≤ pc then none else some e.2
    | none => none

/-- The search looks at one candidate: the last entry that starts at or before the address. -/
theorem cfiContaining_cases {δ : Type} {index : List ((Word × Word) × CFI δ)}
    {R : (Word × Word) × CFI δ → (Word × Word) × CFI δ → Prop} (hs : index.Pairwise R)
    (hR : ∀ a b, R a b → a.1.1 ≤ b.1.1) (pc : Word) :
    (cfiContaining index pc = none ∧ ∀ e ∈ index, pc < e.1.1) ∨
      ∃ last ∈ index, last.1.1 ≤ pc ∧
        cfiContaining index pc = (if pc < last.1.2 then some last.2 else none) ∧
        ∀ e ∈ index, e.1.1 ≤ pc → R e last ∨ e = last := by
  have hgreater : ∀ a b, R a b → decide (pc < a.1.1) = true → decide (pc < b.1.1) = true := by
    intro a b hab h
    have hle := hR a b hab
    simp only [decide_eq_true_eq] at h ⊢
    bv_omega
  rcases Lib.upperBound_cases hs hgreater with ⟨hzero, hall⟩ | ⟨last, hlast, hstart, hpos, hget, hbefore⟩
  · left
    unfold cfiContaining
    rw [hzero, if_pos rfl]
    exact ⟨rfl, fun e he => by simpa using hall e he⟩
  · right
    have hstart : last.1.1 ≤ pc := by simpa using hstart
    refine ⟨last, hlast, hstart, ?_, fun e he hle => hbefore e he (by simpa using hle)⟩
    unfold cfiContaining
    rw [if_neg hpos, hget]
    by_cases hlt : pc < last.1.2
    · rw [if_pos hlt]
      exact if_neg (by bv_omega)
    · rw [if_neg hlt]
      exact if_pos (by bv_omega)

/-- A map that fails as a whole where it fails anywhere. -/
theorem exists_mapM_iff {α β : Type} {f : α → Option β} {p : β → Prop} {l : List α} :
    (∃ rs, l.mapM f = some rs ∧ ∀ r ∈ rs, p r) ↔ ∀ a ∈ l, ∃ r, f a = some r ∧ p r := by
  induction l with
  | nil => simp
  | cons a l ih =>
    constructor
    · rintro ⟨rs, hrs, hp⟩
      rw [List.mapM_cons] at hrs
      cases hfa : f a with
      | none =>
        rw [hfa] at hrs
        cases hrs
      | some r =>
        cases htail : l.mapM f with
        | none =>
          rw [hfa, htail] at hrs
          cases hrs
        | some rest =>
          rw [hfa, htail] at hrs
          cases hrs
          have hrest := ih.mp ⟨rest, htail, fun r hr => hp r (List.mem_cons_of_mem _ hr)⟩
          intro b hb
          rcases List.mem_cons.mp hb with rfl | hb
          · exact ⟨r, hfa, hp r List.mem_cons_self⟩
          · exact hrest b hb
    · intro h
      obtain ⟨r, hfa, hr⟩ := h a List.mem_cons_self
      obtain ⟨rest, htail, hrest⟩ := ih.mpr fun b hb => h b (List.mem_cons_of_mem _ hb)
      refine ⟨r :: rest, ?_, ?_⟩
      · rw [List.mapM_cons, hfa, htail]
        rfl
      · intro r' hr'
        rcases List.mem_cons.mp hr' with rfl | hr'
        · exact hr
        · exact hrest r' hr'

/-- What stays fixed during the walk of one FDE. Call sites whose pad is not ours are gone. -/
structure Env (δ : Type) where
  options : FDECheckerOptions δ
  cfi : CFI δ
  callSites : List LSDACallSite
  guessing : Bool
  pads_covered : ∀ cs ∈ callSites, cfi.Covers cs.landingPad

def kMaxJumpTableEntries : ℕ := 512

/-- Pass one's mutable state. The worklist's head is the end that is popped. -/
structure Walk (δ : Type) [Offset δ] where
  inStates : Std.ExtTreeMap Word (AbsState δ) compare
  insnSizes : Std.ExtTreeMap Word ℕ compare
  joinConflicts : Std.ExtTreeMap Word (List (JoinConflict δ)) compare
  worklist : List Word
  pendingPushes : Std.ExtTreeMap Word Bool compare
  iterations : ℕ
  hitCap : Bool

def Walk.init {δ : Type} [Offset δ] : Walk δ := ⟨∅, ∅, ∅, [], ∅, 0, false⟩

/-- How control gets from an instruction to one of its successors. -/
inductive EdgeKind where
  | landingPad
  | fallThrough
  | taken
  | table
  deriving DecidableEq, Repr

variable {δ : Type}

namespace Env
variable (env : Env δ)

def image : ELFImage := env.options.image

def z : Zydis := env.options.disasm

/-- The instruction at `pc`, from at most 16 bytes that end with the FDE. -/
def decodeAt (pc : Word) : Option Instruction :=
  env.z.decode (env.image.bytesAt pc (min 16 (env.cfi.pcEnd - pc).toNat)) pc

def landingPadForCall (callPc : Word) : Option Word :=
  let it := Lib.upperBound (fun i => (env.callSites[i]?).any fun cs => callPc < cs.start)
    env.callSites.length
  if it = 0 then none
  else match env.callSites[it - 1]? with
    | some cs => if cs.start ≤ callPc ∧ callPc < cs.stop then some cs.landingPad else none
    | none => none

def resolveTableEntry (tableAddr : Word) (index : ℕ) : Option Word :=
  let entryAddr := tableAddr + BitVec.ofNat 64 (index * 4)
  let bytes := env.image.bytesAt entryAddr 4
  let rel : BitVec 32 := BitVec.ofNat 32 (littleEndian bytes)
  let target := tableAddr + rel.signExtend 64
  if !env.image.isFileBackedNonExecutable entryAddr 4 then none
  else if bytes.length ≠ 4 then none
  else if (cfiContaining env.options.allCfis target).isNone then none
  else if (env.z.decode (env.image.bytesAt target 16) target).isNone then none
  else some target

/-- Every entry of the table, or nothing when one of them is bad. -/
def resolveJumpTable (tableAddr : Word) (entries : ℕ) : List Word :=
  if entries = 0 ∨ kMaxJumpTableEntries < entries then []
  else if !env.image.isFileBackedNonExecutable tableAddr (entries * 4) then []
  else ((List.range entries).mapM (env.resolveTableEntry tableAddr)).getD []

variable [Offset δ]

/-- Whether the row declared at a guessed target agrees with the state at the jump. -/
def probeAccepts (jmpPc target : Word) (state : AbsState δ) : Bool :=
  let clean := rowMatchesCleanly env.options.checkUnmentionedCalleeSaved jmpPc
  if env.cfi.Covers target then
    (env.cfi.rowAt target).any fun row => clean row state false
  else
    (cfiContaining env.options.allCfis target).any fun targetCfi =>
      (targetCfi.rowAt target).any fun row =>
        clean row state (target = targetCfi.pcBegin && row.isCanonicalEntry)

/-- The loop of `ProbeJumpTable` from entry `index` on. -/
def probeFrom (tableAddr jmpPc : Word) (state : AbsState δ) : (fuel index : ℕ) → List Word
  | 0, _ => []
  | fuel + 1, index =>
    match env.resolveTableEntry tableAddr index with
    | none => []
    | some target =>
      if env.probeAccepts jmpPc target state then
        target :: probeFrom tableAddr jmpPc state fuel (index + 1)
      else []

def probeJumpTable (tableAddr jmpPc : Word) (state : AbsState δ) : List Word :=
  env.probeFrom tableAddr jmpPc state kMaxJumpTableEntries 0

/-- The state an instruction hands to a successor. -/
def edgeState (insn : Instruction) (kind : EdgeKind) (state : AbsState δ) : AbsState δ :=
  let after := (transfer env.z insn state).2
  match kind with
  | .fallThrough => transferEdge insn .fallThrough after
  | .taken => transferEdge insn .taken after
  | .landingPad | .table => after

section Edges
variable (insn : Instruction) (state : AbsState δ)

def padEdges : List (EdgeKind × Word) :=
  if (transfer env.z insn state).1.isCall then
    (env.landingPadForCall insn.address).toList.map fun lp => (.landingPad, lp)
  else []

def fallThroughEdges : List (EdgeKind × Word) :=
  let (outcome, after) := transfer env.z insn state
  if outcome.fallsThrough ∧ insn.next < env.cfi.pcEnd ∧
      fallThroughIsReal env.cfi (env.cfi.rowIndexAt insn.address) insn.next state.gpr after
        outcome.isCall = some true then
    [(.fallThrough, insn.next)]
  else []

def takenEdges : List (EdgeKind × Word) :=
  ((transfer env.z insn state).1.directTarget.toList.filter fun t => env.cfi.Covers t).map
    fun t => (.taken, t)

/-- Targets of a resolved table or, when guessing, of a probed one. -/
def tableTargets : List Word :=
  let (outcome, after) := transfer env.z insn state
  match outcome.jumpTable, outcome.unboundedJumpTarget with
  | some (addr, entries), _ => env.resolveJumpTable addr entries
  | none, some addr =>
    if env.guessing then env.probeJumpTable addr insn.address after else []
  | none, none => []

def tableEdges : List (EdgeKind × Word) :=
  ((env.tableTargets insn state).filter fun t => env.cfi.Covers t).map fun t => (.table, t)

/-- The successors one iteration of `Drain` propagates to, in its order. -/
def edges : List (EdgeKind × Word) :=
  env.padEdges insn state ++ env.fallThroughEdges insn state ++ env.takenEdges insn state ++
    env.tableEdges insn state

end Edges

/-- The `Propagate` calls one iteration makes for `pc` in `state`. -/
def callsFrom (pc : Word) (state : AbsState δ) : List (Word × AbsState δ) :=
  match env.decodeAt pc with
  | none => []
  | some insn => (env.edges insn state).map fun e => (e.2, env.edgeState insn e.1 state)

end Env

variable [Offset δ]

namespace Walk

/-- `FDEChecker::Propagate` -/
def propagate (w : Walk δ) (call : Word × AbsState δ) : Walk δ :=
  let (pc, state) := call
  match w.inStates[pc]? with
  | none =>
    { w with
      inStates := w.inStates.insert pc state
      worklist := pc :: w.worklist
      pendingPushes := w.pendingPushes.insert pc true }
  | some old =>
    let joined := join state old
    let w := { w with
      inStates := w.inStates.insert pc joined.state
      joinConflicts := if joined.conflicts.isEmpty then w.joinConflicts
        else w.joinConflicts.insert pc ((w.joinConflicts[pc]?).getD [] ++ joined.conflicts) }
    if !joined.changed then w
    else if (w.pendingPushes[pc]?).getD false then w
    else { w with
      pendingPushes := w.pendingPushes.insert pc true
      worklist := pc :: w.worklist }

def propagateAll (w : Walk δ) (calls : List (Word × AbsState δ)) : Walk δ := calls.foldl propagate w

/-- The state the next iteration starts from, with its address. -/
def popped (w : Walk δ) : Option (Word × AbsState δ) :=
  w.worklist.head?.map fun pc => (pc, (w.inStates[pc]?).getD .init)

/-- Taking the next address off the worklist. -/
def pop (w : Walk δ) (pc : Word) : Walk δ :=
  { w with
    worklist := w.worklist.tail
    pendingPushes := w.pendingPushes.insert pc false
    iterations := w.iterations + 1 }

/-- One iteration of `Drain` on `pc` in `state`. -/
def visit (env : Env δ) (w : Walk δ) (pc : Word) (state : AbsState δ) : Walk δ :=
  let w := w.pop pc
  let w := match env.decodeAt pc with
    | none => w
    | some insn => { w with insnSizes := w.insnSizes.insert pc insn.size }
  w.propagateAll (env.callsFrom pc state)

/-- The loop of `Drain`, the fuel being the iterations still allowed. -/
def drainFor (env : Env δ) : (fuel : ℕ) → Walk δ → Walk δ
  | 0, w =>
    match w.popped with
    | none => w
    | some _ => { w with iterations := w.iterations + 1, hitCap := true }
  | fuel + 1, w =>
    match w.popped with
    | none => w
    | some (pc, state) => drainFor env fuel (w.visit env pc state)

def drain (env : Env δ) (w : Walk δ) : Walk δ :=
  w.drainFor env (env.options.maxIterations - w.iterations)

/-- The addresses `drainFor` visits with the states it finds there, in order. -/
def popsFor (env : Env δ) : (fuel : ℕ) → Walk δ → List (Word × AbsState δ)
  | 0, _ => []
  | fuel + 1, w =>
    match w.popped with
    | none => []
    | some (pc, state) => (pc, state) :: popsFor env fuel (w.visit env pc state)

def pops (env : Env δ) (w : Walk δ) : List (Word × AbsState δ) :=
  w.popsFor env (env.options.maxIterations - w.iterations)

end Walk

namespace Env
variable (env : Env δ)

/-- Landing pads of the call sites, each once, in address order. -/
def distinctLandingPads : List Word :=
  ((env.callSites.map LSDACallSite.landingPad).insertionSort fun a b => a ≤ b).dedup

/-- The pads pass one did not reach, with the states they are seeded with. -/
def unreachedPads (w : Walk δ) : List (Word × AbsState δ) :=
  env.distinctLandingPads.filterMap fun lp =>
    if w.inStates.contains lp then none
    else (env.cfi.rowAt lp).map fun row => (lp, AbsState.seedFromRow row false)

/-- `SeedUnreachedLandingPads` -/
def seedUnreachedLandingPads (w : Walk δ) : Walk δ :=
  let seeds := env.unreachedPads w
  if seeds.isEmpty then w else (w.propagateAll seeds).drain env

def unreachedPadReports (w : Walk δ) : List Report :=
  (env.unreachedPads w).map fun seed =>
    ⟨.review, seed.1, "this landing pad's incoming state could not be derived from any call site " ++
      "actually walked, so it is trusted from its own declared CFI row instead of independently " ++
      "checked"⟩

/-- Pass one up to the fallback for landing pads. -/
def firstWalk (row : CFIRow δ) : Walk δ :=
  (Walk.init.propagate
    (env.cfi.pcBegin, AbsState.seedFromRow row row.isCanonicalEntry)).drain env

/-- The settled state of a run whose first row is `row`. -/
def settle (row : CFIRow δ) : Walk δ := env.seedUnreachedLandingPads (env.firstWalk row)

/-- Every visit of a run, in order. -/
def runPops (row : CFIRow δ) : List (Word × AbsState δ) :=
  (Walk.init.propagate (env.cfi.pcBegin, AbsState.seedFromRow row row.isCanonicalEntry)).pops env ++
    let w := env.firstWalk row
    if (env.unreachedPads w).isEmpty then [] else (w.propagateAll (env.unreachedPads w)).pops env

/-- Every call of `Propagate` in a run. -/
def runCalls (row : CFIRow δ) : List (Word × AbsState δ) :=
  (env.cfi.pcBegin, AbsState.seedFromRow row row.isCanonicalEntry) ::
    (env.unreachedPads (env.firstWalk row) ++
      (env.runPops row).flatMap fun visit => env.callsFrom visit.1 visit.2)

end Env

end UnwindCheck
