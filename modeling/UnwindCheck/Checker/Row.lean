import UnwindCheck.State.Join
import UnwindCheck.Checker.Finding

/-! One declared row against one abstract state. -/
namespace UnwindCheck

def kCalleeSaved : List (Fin 16) := [kDWARFRbx, kDWARFRbp, 12, 13, 14, 15]

def isCalleeSaved (r : Fin 17) : Bool := kCalleeSaved.any fun q => q.val = r.val

/-- Who asks: the address findings are filed under, the prefix of their messages, and whether
silence about a callee-saved register promises that it is untouched. -/
structure RowChecker where
  pc : Word
  edgeContext : String
  checkUnmentioned : Bool
  deriving DecidableEq, Repr

namespace RowChecker
variable (rc : RowChecker)

def review (msg : String) : Report := ⟨.review, rc.pc, rc.edgeContext ++ msg⟩

def mismatch (msg : String) : Report := ⟨.mismatch, rc.pc, rc.edgeContext ++ msg⟩

variable {δ : Type} [Offset δ]

/-- `%+d` of an offset cast to `int`. -/
def showInt (d : δ) : String := showSigned (asInt32 (Offset.toInt d))

/-- The message for a CFA rule that yields something other than the CFA. -/
def cfaMismatch (cfa : CFARule δ) (delta : δ) : String :=
  "declared CFA is " ++ cfa.toString ++ ", but " ++ dwarfRegName cfa.reg ++ " is CFA" ++
    showInt delta ++ " here, so the rule yields CFA" ++ showInt (delta + cfa.offset) ++
    " (should be " ++ dwarfRegName cfa.reg ++ showInt (-delta) ++ ")"

def checkCFA (cfa : CFARule δ) (state : AbsState δ) : List Report :=
  match cfa.kind with
  | .undefined => [rc.review "no CFA rule is in force here"]
  | .expression =>
    [rc.review "CFA is given by a DWARF expression, which this version does not evaluate"]
  | .regOffset =>
    match state.reg cfa.reg with
    | .cfaRel delta =>
      if delta + cfa.offset ≠ Offset.ofInt 0 then [rc.mismatch (cfaMismatch cfa delta)] else []
    | v =>
      [rc.review ("CFA is declared as " ++ cfa.toString ++ ", but " ++ dwarfRegName cfa.reg ++
        " holds " ++ v.toString ++ " here, so the rule cannot be verified")]

/-- The shape every comparison with a known value has: unknown is a review, wrong a mismatch. -/
def compareValue (v : AbsVal δ) (expected : AbsVal δ) (unknown wrong : String) : List Report :=
  if v.isUnknown then [rc.review unknown]
  else if v ≠ expected then [rc.mismatch (wrong ++ v.toString)]
  else []

def checkSameValue (r : Fin 17) (state : AbsState δ) : List Report :=
  rc.compareValue (state.reg r) (.origReg r)
    ("CFI says " ++ dwarfRegName r ++
      " still holds its entry value, but we are not tracking it here")
    ("CFI says " ++ dwarfRegName r ++ " still holds its entry value, but it holds ")

def checkReg (r : Fin 17) (rule : RegRule δ) (state : AbsState δ) : List Report :=
  match rule with
  | .unset => if rc.checkUnmentioned && isCalleeSaved r then rc.checkSameValue r state else []
  | .undefined => []
  | .sameValue => rc.checkSameValue r state
  | .atCFAOffset offset =>
    rc.compareValue (state.slot offset) (.origReg r)
      ("CFI says " ++ dwarfRegName r ++ " is saved at [" ++ showCFAOffset offset ++
        "], but we cannot say what is stored there")
      ("CFI says " ++ dwarfRegName r ++ " is saved at [" ++ showCFAOffset offset ++
        "], but that slot holds ")
  | .valOffset offset =>
    rc.compareValue (state.reg r) (.cfaRel offset)
      ("CFI says " ++ dwarfRegName r ++ " is " ++ showCFAOffset offset ++
        ", but we are not tracking it here")
      ("CFI says " ++ dwarfRegName r ++ " is " ++ showCFAOffset offset ++ ", but it holds ")
  | .inRegister q =>
    rc.compareValue (state.reg q) (.origReg r)
      ("CFI says " ++ dwarfRegName r ++ " was moved into " ++ dwarfRegName q ++
        ", but we are not tracking " ++ dwarfRegName q ++ " here")
      ("CFI says " ++ dwarfRegName r ++ " was moved into " ++ dwarfRegName q ++ ", but " ++
        dwarfRegName q ++ " holds ")
  | .expression | .valExpression =>
    [rc.review (dwarfRegName r ++
      " is described by a DWARF expression, which this version does not evaluate")]

/-- `RowChecker::Check` -/
def check (row : CFIRow δ) (state : AbsState δ) : List Report :=
  rc.checkCFA row.cfa state ++
    (List.finRange 17).flatMap fun r => rc.checkReg r (row.regs r) state

theorem compareValue_eq_nil {v expected : AbsVal δ} {unknown wrong : String} :
    rc.compareValue v expected unknown wrong = [] ↔ v.isUnknown = false ∧ v = expected := by
  unfold compareValue
  split_ifs with hu hv
  · simp [hu]
  · simp [hv]
  · have he : v = expected := not_not.mp hv
    exact ⟨fun _ => ⟨Bool.eq_false_iff.mpr hu, he⟩, fun _ => rfl⟩

/-- A silent check of a CFA rule has pinned the CFA down. -/
theorem checkCFA_eq_nil {cfa : CFARule δ} {state : AbsState δ} :
    rc.checkCFA cfa state = [] ↔ cfa.kind = .regOffset ∧
      ∃ delta, state.reg cfa.reg = .cfaRel delta ∧ delta + cfa.offset = Offset.ofInt 0 := by
  unfold checkCFA
  cases hk : cfa.kind <;> simp
  cases hv : state.reg cfa.reg <;> simp

/-- A CFA mismatch is a known value the rule's offset does not cancel. -/
theorem checkCFA_mismatch {cfa : CFARule δ} {state : AbsState δ} {report : Report}
    (h : report ∈ rc.checkCFA cfa state) (hsev : report.severity = .mismatch) :
    cfa.kind = .regOffset ∧
      ∃ delta, state.reg cfa.reg = .cfaRel delta ∧ delta + cfa.offset ≠ Offset.ofInt 0 := by
  unfold checkCFA at h
  cases hk : cfa.kind with
  | undefined | expression =>
    simp only [hk, List.mem_singleton] at h
    subst h
    cases hsev
  | regOffset =>
    simp only [hk] at h
    cases hd : state.reg cfa.reg with
    | cfaRel delta =>
      simp only [hd] at h
      split_ifs at h with hz
      · exact ⟨rfl, delta, rfl, hz⟩
      · cases h
    | top | bottom | origReg | other =>
      simp only [hd, List.mem_singleton] at h
      subst h
      cases hsev

theorem check_eq_nil {row : CFIRow δ} {state : AbsState δ} :
    rc.check row state = [] ↔
      rc.checkCFA row.cfa state = [] ∧ ∀ r, rc.checkReg r (row.regs r) state = [] := by
  simp [check]

end RowChecker

section
variable {δ : Type} [Offset δ]

/-- A dry run of the row check: it must not produce anything at all. -/
def rowMatchesCleanly (checkUnmentioned : Bool) (pc : Word) (row : CFIRow δ) (state : AbsState δ)
    (forceCalleeSavedSameValue : Bool) : Bool :=
  (((FindingSink.new 1).addAll
    ((RowChecker.mk pc "" (checkUnmentioned || forceCalleeSavedSameValue)).check row state)).take).isEmpty

/-- Whether the row consults the thing two paths disagreed about. -/
def rowDependsOn (row : CFIRow δ) : Component δ → Bool
  | .slot k => (List.finRange 17).any fun r => row.regs r = .atCFAOffset k
  | .reg q =>
    (row.cfa.kind = .regOffset ∧ row.cfa.reg = q.val) ||
      (List.finRange 17).any fun r =>
        match row.regs r with
        | .inRegister p => p = q.val
        | .sameValue | .valOffset _ => r.val = q.val
        | _ => false

def cfaSatisfiedBy (cfa : CFARule δ) : AbsVal δ → Bool
  | .cfaRel delta => delta + cfa.offset = Offset.ofInt 0
  | _ => false

/-- No rule beyond the return address: the shape of a block that has not run any prologue. -/
def rowLooksLikeFreshBlockStart (row : CFIRow δ) : Bool :=
  (List.finRange 17).all fun r => r.val = kDWARFRip || row.regs r = .unset

/-- `FallThroughIsReal`. Rows are compared by position; `none` is the dereference of a missing
`here`. -/
def fallThroughIsReal (cfi : CFI δ) (here : Option (Fin cfi.rows.length)) (next : Word)
    (before : Fin 16 → AbsVal δ) (after : AbsState δ) (afterCall : Bool) : Option Bool :=
  match cfi.rowIndexAt next with
  | none => some true
  | some i =>
    if some i = here then some true
    else
      let row := cfi.rows.get i
      let cfaAgrees :=
        if h : row.cfa.kind = .regOffset ∧ row.cfa.reg < 16 then
          let was := before ⟨row.cfa.reg, h.2⟩
          let now := after.gpr ⟨row.cfa.reg, h.2⟩
          match was, now with
          | .cfaRel _, .cfaRel _ => cfaSatisfiedBy row.cfa now || cfaSatisfiedBy row.cfa was
          | _, _ => true
        else true
      if afterCall && rowLooksLikeFreshBlockStart row then
        here.map fun j =>
          if rowLooksLikeFreshBlockStart (cfi.rows.get j) then cfaAgrees else false
      else some cfaAgrees

def isExitState (state : AbsState δ) : Bool :=
  (state.gpr kDWARFRsp).isCFARel (Offset.ofInt (-8)) &&
    kCalleeSaved.all fun r => (state.gpr r).isOrigReg r

end

end UnwindCheck
