import UnwindCheck.Insn.Zydis
import UnwindCheck.State.AbsState

/-! The stack-effect semantics: what one instruction does to the abstract state, and what one
edge out of it proves in addition. -/
namespace UnwindCheck

/-- What one instruction does to control flow. `jumpTable` is a table address with its number of
entries, `unboundedJumpTarget` a table address whose size no guard declared. -/
structure TransferOutcome where
  fallsThrough : Bool := true
  directTarget : Option Word := none
  indirectBranch : Bool := false
  isReturn : Bool := false
  isCall : Bool := false
  jumpTable : Option (Word × ℕ) := none
  unboundedJumpTarget : Option Word := none
  reviewReason : String := ""
  deriving DecidableEq, Repr

inductive BranchEdge where
  | fallThrough
  | taken
  deriving DecidableEq, Repr

/-- Registers a call may destroy. -/
def kCallerSaved : List (Fin 16) := [0, 1, 2, 4, 5, 8, 9, 10, 11]

variable {δ : Type} [Offset δ]

def readReg (s : AbsState δ) (reg : ZydisRegister) : AbsVal δ :=
  if reg.isFull64 then
    match reg.dwarfRegOf with
    | some r => s.gpr r
    | none => .bottom
  else .top

/-- The CFA-relative offset a memory operand addresses, when it can be named. -/
def memSlot (s : AbsState δ) (insn : Instruction) (mem : MemOperand) : Option δ :=
  if insn.insn.hasSegment || mem.index ≠ .none then none
  else if !mem.base.isFull64 then none
  else match readReg s mem.base with
    | .cfaRel delta => some (delta + Offset.ofInt mem.disp.toInt)
    | _ => none

def leaValue (s : AbsState δ) (insn : Instruction) (mem : MemOperand) : AbsVal δ :=
  match memSlot s insn mem with
  | some k => .cfaRel k
  | none => .top

/-- Drops every slot that the bytes from `start` on can overlap. -/
def eraseSlots (s : AbsState δ) (start size : δ) : AbsState δ :=
  if size ≤ Offset.ofInt 0 then s
  else
    { s with
      slots := s.slots.filter fun k _ =>
        !(decide (start - Offset.ofInt 7 ≤ k) && decide (k < start + size)) }

/-- Bytes an operand of `bits` bits writes, at least one. -/
def writtenBytes (bits : ℕ) : δ := Offset.ofInt (max 1 (bits / 8))

def writesEflags (insn : Instruction) : Bool :=
  match insn.insn.cpuFlags with
  | none => true
  | some f => f.modified ≠ 0 || f.set0 ≠ 0 || f.set1 ≠ 0 || f.undefined ≠ 0

/-- What merely writing this spelling proves about the full register. -/
def writtenRegBound (reg : ZydisRegister) : ℕ :=
  if reg.widthBits = 32 then widthBound 32 else kBoundTop

def clobberWrittenReg (s : AbsState δ) (reg : ZydisRegister) (d : Fin 16) : AbsState δ :=
  (s.clobberReg d).modifyTable d fun t => { t with valueBound := writtenRegBound reg }

/-- What a proven guard contributes to a zero-extending read of the low `readBits` bits. -/
def provenGuardBound (s : AbsState δ) (reg : Fin 16) (readBits : ℕ) : ℕ :=
  match s.lastCmp with
  | none => kBoundTop
  | some g =>
    if !g.proven then kBoundTop
    else if g.reg ≠ reg || g.widthBits < readBits then kBoundTop
    else min (widthBound readBits) g.provenBound

/-- The guard a source register contributes, nothing where there is no source register. -/
def sourceGuard (s : AbsState δ) (sr : Option (Fin 16)) (readBits : ℕ) : ℕ :=
  match sr with
  | some r => provenGuardBound s r readBits
  | none => kBoundTop

def applyZeroExtendedFrom (src : TableVal) (srcBits guardBound : ℕ) (dst : TableVal) : TableVal :=
  { dst with
    valueBound := min (min (widthBound srcBits) src.valueBound) guardBound
    tableBound := min src.tableBound guardBound }

def applySignExtendedFrom (src : TableVal) (srcBits guardBound : ℕ) (dst : TableVal) : TableVal :=
  let low := min (min (widthBound srcBits) src.valueBound) guardBound
  if 64 ≤ srcBits ∨ 2 ^ (srcBits - 1) ≤ low then dst.clearBounds
  else { dst with valueBound := low, tableBound := min src.tableBound guardBound }

/-- Which comparison, if any, one edge puts the compared value on the in-range side of. -/
inductive GuardEdge where
  | none
  | atMostImm
  | belowImm
  deriving DecidableEq, Repr

def inRangeEdgeOf (id : ZydisMnemonic) (edge : BranchEdge) : GuardEdge :=
  match id, edge with
  | .jnbe, .fallThrough => .atMostImm
  | .jnb, .fallThrough => .belowImm
  | .jbe, .taken => .atMostImm
  | .jb, .taken => .belowImm
  | _, _ => .none

/-- The write of one operand of an unmodelled instruction. -/
def clobberOperand (insn : Instruction) (s : AbsState δ) (op : Operand) : AbsState δ :=
  if !op.writes then s
  else match op.kind with
    | .register r =>
      match r.dwarfRegOf with
      | some d => clobberWrittenReg s r d
      | none => s
    | .memory mem =>
      match memSlot s insn mem with
      | some k => eraseSlots s k (writtenBytes op.size)
      | none => s
    | _ => s

/-- `InsnSemantics::ClobberWrites`, over the whole operand list. -/
def clobberWrites (insn : Instruction) (s : AbsState δ) : AbsState δ :=
  insn.insn.operands.foldl (clobberOperand insn) s

/-- `InsnSemantics::TransferEdge` -/
def transferEdge (insn : Instruction) (edge : BranchEdge) (s : AbsState δ) : AbsState δ :=
  match inRangeEdgeOf insn.id edge, s.lastCmp with
  | .none, _ | _, none => s
  | guardEdge, some g =>
    if g.proven then s
    else if guardEdge = .belowImm ∧ g.imm = 0 then s
    else
      let ubound := if guardEdge = .belowImm then g.imm - 1 else g.imm
      let s := { s with lastCmp := some { g with provenBound := ubound } }
      if 64 ≤ g.widthBits ∨ (s.tbl g.reg).valueBound ≤ widthBound g.widthBits then
        s.applyGuardBound g.reg ubound
      else s

theorem transferEdge_of_none {s : AbsState δ} (h : s.lastCmp = none) (insn : Instruction)
    (edge : BranchEdge) : transferEdge insn edge s = s := by
  unfold transferEdge
  rw [h]
  cases inRangeEdgeOf insn.id edge <;> rfl

/-- What an edge does with a comparison is the same in every state that holds it, but for whether
the bound reaches the register. -/
theorem transferEdge_of_lastCmp (insn : Instruction) (edge : BranchEdge) (g : FlagsGuard) :
    (∀ s : AbsState δ, s.lastCmp = some g → transferEdge insn edge s = s) ∨
    ∃ ubound, g.proven = false ∧
      (inRangeEdgeOf insn.id edge = .atMostImm ∧ ubound = g.imm ∨
        inRangeEdgeOf insn.id edge = .belowImm ∧ g.imm ≠ 0 ∧ ubound = g.imm - 1) ∧
      ∀ s : AbsState δ, s.lastCmp = some g → transferEdge insn edge s =
        if 64 ≤ g.widthBits ∨ (s.tbl g.reg).valueBound ≤ widthBound g.widthBits then
          AbsState.applyGuardBound { s with lastCmp := some { g with provenBound := ubound } } g.reg ubound
        else { s with lastCmp := some { g with provenBound := ubound } } := by
  unfold transferEdge
  cases hp : g.proven with
  | true =>
    left
    intro s hs
    cases inRangeEdgeOf insn.id edge <;> simp [hs, hp]
  | false =>
    cases inRangeEdgeOf insn.id edge with
    | none => exact Or.inl fun _ _ => rfl
    | atMostImm => exact Or.inr ⟨g.imm, rfl, Or.inl ⟨rfl, rfl⟩, fun s hs => by simp [hs, hp]⟩
    | belowImm =>
      by_cases hz : g.imm = 0
      · exact Or.inl fun s hs => by simp [hs, hp, hz]
      · exact Or.inr ⟨g.imm - 1, rfl, Or.inr ⟨rfl, hz, rfl⟩, fun s hs => by simp [hs, hp, hz]⟩

/-- The unconditional invalidation at the top of `Transfer`. -/
def dropStaleCmp (insn : Instruction) (s : AbsState δ) : AbsState δ :=
  if writesEflags insn ∧ ¬ s.lastCmp.any FlagsGuard.proven then { s with lastCmp := none } else s

def isReturnMnemonic : ZydisMnemonic → Bool
  | .ret | .iret | .iretd | .iretq => true
  | _ => false

def isTrapMnemonic : ZydisMnemonic → Bool
  | .ud0 | .ud1 | .ud2 | .hlt | .int3 => true
  | _ => false

/-- Classification of a branch: a direct target, a resolved table, or neither. -/
def branchOutcome (z : Zydis) (insn : Instruction) (s : AbsState δ) : TransferOutcome :=
  let out : TransferOutcome := { fallsThrough := insn.id ≠ .jmp }
  match insn.op? 0 with
  | none => { out with indirectBranch := true }
  | some op =>
    match op.kind with
    | .immediate _ =>
      match z.calcAbsoluteAddress insn.insn op insn.address with
      | some target => { out with directTarget := some target }
      | none => { out with indirectBranch := true }
    | .register r =>
      let v := s.table r.dwarfRegOf
      match v.kind with
      | .jumpTarget addr _ =>
        if v.hasTableBound then { out with jumpTable := some (addr, v.tableBound + 1) }
        else { out with unboundedJumpTarget := some addr, indirectBranch := true }
      | _ => { out with indirectBranch := true }
    | _ => { out with indirectBranch := true }

/-- Everything below rsp is the callee's, and the caller-saved registers are gone. -/
def callEffect (s : AbsState δ) : AbsState δ :=
  let s := match s.gpr kDWARFRsp with
    | .cfaRel delta => s.dropSlotsBelow delta
    | _ => s
  kCallerSaved.foldl AbsState.clobberReg s

/-- The value a push stores, as far as it is tracked. -/
def pushedValue (insn : Instruction) (s : AbsState δ) : AbsVal δ :=
  match (insn.op? 0).map Operand.kind with
  | some (.register r) => readReg s r
  | some (.memory mem) =>
    match memSlot s insn mem with
    | some k => s.slot k
    | none => .top
  | _ => .top

def pushValue (s : AbsState δ) (pushed : AbsVal δ) : AbsState δ :=
  match s.gpr kDWARFRsp with
  | .cfaRel delta =>
    let at' := delta - Offset.ofInt 8
    (s.setVal kDWARFRsp (.cfaRel at')).setSlot at' pushed
  | _ => s

def transferPush (insn : Instruction) (s : AbsState δ) : TransferOutcome × AbsState δ :=
  if insn.opCount ≠ 1 ∨ insn.insn.operandWidth ≠ 64 then
    ({ reviewReason := "push with an operand size other than 8 bytes" }, s.clobberReg kDWARFRsp)
  else ({}, pushValue s (pushedValue insn s))

/-- The value at the top of the stack and the state with rsp moved past it. -/
def popValue (s : AbsState δ) : AbsVal δ × AbsState δ :=
  match s.gpr kDWARFRsp with
  | .cfaRel delta =>
    (s.slot delta, s.setVal kDWARFRsp (.cfaRel (delta + Offset.ofInt 8)))
  | _ => (.top, s)

/-- Where a pop puts the value. -/
def popInto (insn : Instruction) (popped : AbsVal δ) (s : AbsState δ) : AbsState δ :=
  match (insn.op? 0).map Operand.kind with
  | some (.register r) =>
    match r.dwarfRegOf with
    | some d => s.setVal d (if r.isFull64 then popped else .top)
    | none => s
  | some (.memory mem) =>
    match memSlot s insn mem with
    | some k => s.setSlot k popped
    | none => s
  | _ => s

def transferPop (insn : Instruction) (s : AbsState δ) : TransferOutcome × AbsState δ :=
  if insn.opCount ≠ 1 ∨ insn.insn.operandWidth ≠ 64 then
    ({ reviewReason := "pop with an operand size other than 8 bytes" }, s.clobberReg kDWARFRsp)
  else ({}, popInto insn (popValue s).1 (popValue s).2)

def transferLeave (s : AbsState δ) : AbsState δ :=
  let s := s.copyReg kDWARFRsp kDWARFRbp
  match s.gpr kDWARFRsp with
  | .cfaRel delta =>
    (s.setVal kDWARFRbp (s.slot delta)).setVal kDWARFRsp (.cfaRel (delta + Offset.ofInt 8))
  | _ => s.clobberReg kDWARFRbp

/-- `lea`; `none` falls to the generic clobber, here and below. -/
def transferLea (z : Zydis) (insn : Instruction) (s : AbsState δ) : Option (AbsState δ) :=
  match insn.ops2? with
  | some (⟨.register r, _, _, _⟩, src@⟨.memory mem, _, _, _⟩) =>
    match r.dwarfRegOf with
    | none => none
    | some d =>
      if !r.isFull64 then some (clobberWrittenReg s r d)
      else
        let absolute :=
          if mem.base = .rip ∧ mem.index = .none then
            z.calcAbsoluteAddress insn.insn src insn.address
          else none
        match absolute with
        | some target => some (s.setTableReg d (.const target))
        | none => some (s.setVal d (leaValue s insn mem))
  | _ => none

/-- `mov` into the register `r`, known to be GPR `d`. -/
def movToReg (insn : Instruction) (s : AbsState δ) (r : ZydisRegister) (d : Fin 16)
    (src : Operand) : AbsState δ :=
  if !r.isFull64 then
    let sr := if r.widthBits = 32 then src.reg?.bind ZydisRegister.dwarfRegOf else none
    let srcVal := s.table sr
    let guardBound := sourceGuard s sr src.size
    let s := clobberWrittenReg s r d
    if sr.isSome then s.modifyTable d (applyZeroExtendedFrom srcVal src.size guardBound) else s
  else
    match src.kind with
    | .register q =>
      match q.dwarfRegOf with
      | some sr => if q.isFull64 then s.copyReg d sr else s.setVal d .top
      | none => s.setVal d .top
    | .memory mem =>
      match memSlot s insn mem with
      | some k => s.setVal d (if src.size = 64 then s.slot k else .top)
      | none => s.setVal d .top
    | _ => s.clobberReg d

/-- `mov` into memory. -/
def movToMem (insn : Instruction) (s : AbsState δ) (mem : MemOperand) (size : ℕ)
    (src : Operand) : AbsState δ :=
  match memSlot s insn mem with
  | none => s
  | some k =>
    let s := eraseSlots s k (writtenBytes size)
    match src.kind with
    | .register q => if size = 64 ∧ q.isFull64 then s.setSlot k (readReg s q) else s
    | _ => s

def transferMov (insn : Instruction) (s : AbsState δ) : Option (AbsState δ) :=
  match insn.ops2? with
  | some (⟨.register r, _, _, _⟩, src) => r.dwarfRegOf.map fun d => movToReg insn s r d src
  | some (⟨.memory mem, size, _, _⟩, src) => some (movToMem insn s mem size src)
  | _ => none

/-- The switch-table load `movslq disp(%B,%I,4),%T`. -/
def tableLoad (s : AbsState δ) (d : Fin 16) (mem : MemOperand) : Option (AbsState δ) :=
  if mem.index = .none ∨ mem.scale ≠ 4 ∨ mem.base = .none then none
  else do
    let idx ← mem.index.dwarfRegOf
    let base ← mem.base.dwarfRegOf
    if !mem.base.isFull64 then none
    else match (s.tbl base).kind with
      | .const value =>
        some (s.setTableReg d
          (.tableEntry (value + mem.disp.toBitVec) idx value (s.tbl idx).tableBound))
      | _ => none

def transferMovsxd (insn : Instruction) (s : AbsState δ) : Option (AbsState δ) :=
  match insn.ops2? with
  | some (⟨.register r, _, _, _⟩, src) =>
    match r.dwarfRegOf with
    | none => none
    | some d =>
      if !r.isFull64 then none
      else match src.kind with
        | .register q =>
          let sr := q.dwarfRegOf
          let srcVal := s.table sr
          let guardBound := sourceGuard s sr src.size
          let s := s.clobberReg d
          some (if sr.isSome then s.modifyTable d (applySignExtendedFrom srcVal src.size guardBound)
            else s)
        | .memory mem => tableLoad s d mem
        | _ => none
  | _ => none

/-- A table base added to an entry of the same table. -/
def resolveDispatch (base entry : TableVal) : Option TableVal :=
  match base.kind, entry.kind with
  | .const value, .tableEntry addr idx baseConst =>
    if baseConst = value then some (.jumpTarget addr idx entry.tableBound) else none
  | _, _ => none

/-- `add %B,%T` in either operand order. -/
def addDispatch (s : AbsState δ) (r q : ZydisRegister) : Option (AbsState δ) := do
  let d0 ← r.dwarfRegOf
  let d1 ← q.dwarfRegOf
  if r.isFull64 && q.isFull64 then
    let resolved ← (resolveDispatch (s.tbl d0) (s.tbl d1)).or (resolveDispatch (s.tbl d1) (s.tbl d0))
    some (s.setTableReg d0 resolved)
  else none

/-- `add`/`sub` of an immediate. -/
def addSubImm (insn : Instruction) (s : AbsState δ) (r : ZydisRegister) (imm : Word) :
    Option (AbsState δ) :=
  r.dwarfRegOf.map fun d =>
    match r.isFull64, s.gpr d with
    | true, .cfaRel delta =>
      let imm : δ := Offset.ofInt imm.toInt
      s.setVal d (.cfaRel (if insn.id = .add then delta + imm else delta - imm))
    | _, _ => clobberWrittenReg s r d

def transferAddSub (insn : Instruction) (s : AbsState δ) : Option (AbsState δ) :=
  match insn.ops2? with
  | some (⟨.register r, _, _, _⟩, ⟨.register q, _, _, _⟩) =>
    if insn.id = .add then addDispatch s r q else none
  | some (⟨.register r, _, _, _⟩, ⟨.immediate imm, _, _, _⟩) => addSubImm insn s r imm
  | _ => none

/-- Recording the comparison is all that happens here. -/
def transferCmp (insn : Instruction) (s : AbsState δ) : AbsState δ :=
  match insn.ops2? with
  | some (⟨.register r, width, _, _⟩, ⟨.immediate imm, _, _, _⟩) =>
    match r.dwarfRegOf with
    | some d =>
      let imm := if width < 64 then imm.toNat % 2 ^ width else imm.toNat
      { s with lastCmp := some { reg := d, widthBits := width, imm := imm } }
    | none => s
  | _ => s

/-- `movzx` and `movsx`: the destination keeps what the source's bounds and width prove. -/
def transferMovx (insn : Instruction) (s : AbsState δ) : Option (AbsState δ) :=
  match insn.ops2? with
  | some (⟨.register r, _, _, _⟩, src) =>
    match r.dwarfRegOf, src.kind with
    | some d, .register _ | some d, .memory _ =>
      let sr := src.reg?.bind ZydisRegister.dwarfRegOf
      let srcVal := s.table sr
      let guardBound := sourceGuard s sr src.size
      let s := clobberWrittenReg s r d
      if r.widthBits < 32 then some s
      else
        let s := s.modifyTable d
          (if insn.id = .movzx then applyZeroExtendedFrom srcVal src.size guardBound
            else applySignExtendedFrom srcVal src.size guardBound)
        some (s.modifyTable d fun t =>
          { t with valueBound := min t.valueBound (writtenRegBound r) })
    | _, _ => none
  | _ => none

/-- The `switch` over modelled mnemonics; `none` is a `break` to the generic clobber. -/
def transferNamed (z : Zydis) (insn : Instruction) (s : AbsState δ) :
    Option (TransferOutcome × AbsState δ) :=
  match insn.id with
  | .call => some ({ isCall := true }, callEffect s)
  | .syscall | .sysenter | .int | .int1 | .int3 | .into | .vmcall | .vmmcall =>
    some ({}, callEffect s)
  | .push => some (transferPush insn s)
  | .pushfq => some ({}, pushValue s .top)
  | .pop => some (transferPop insn s)
  | .popfq => some ({}, (popValue s).2)
  | .leave => some ({}, transferLeave s)
  | .lea => (transferLea z insn s).map ({}, ·)
  | .mov | .movq => (transferMov insn s).map ({}, ·)
  | .movsxd => (transferMovsxd insn s).map ({}, ·)
  | .add | .sub => (transferAddSub insn s).map ({}, ·)
  | .cmp => some ({}, transferCmp insn s)
  | .movzx | .movsx => (transferMovx insn s).map ({}, ·)
  | .nop | .endbr32 | .endbr64 => some ({}, s)
  | _ => none

/-- `InsnSemantics::Transfer` -/
def transfer (z : Zydis) (insn : Instruction) (s : AbsState δ) : TransferOutcome × AbsState δ :=
  let s := dropStaleCmp insn s
  if isReturnMnemonic insn.id then ({ fallsThrough := false, isReturn := true }, s)
  else if insn.insn.category = .condBr ∨ insn.insn.category = .uncondBr then
    (branchOutcome z insn s, s)
  else if isTrapMnemonic insn.id then ({ fallsThrough := false }, s)
  else (transferNamed z insn s).getD ({}, clobberWrites insn s)

@[simp] theorem dropStaleCmp_gpr (insn : Instruction) (s : AbsState δ) :
    (dropStaleCmp insn s).gpr = s.gpr := by
  unfold dropStaleCmp
  split <;> rfl

@[simp] theorem dropStaleCmp_slots (insn : Instruction) (s : AbsState δ) :
    (dropStaleCmp insn s).slots = s.slots := by
  unfold dropStaleCmp
  split <;> rfl

theorem slot_dropStaleCmp (s : AbsState δ) (insn : Instruction) (k : δ) :
    (dropStaleCmp insn s).slot k = s.slot k := by
  simp [AbsState.slot]

@[simp] theorem dropStaleCmp_tbl (insn : Instruction) (s : AbsState δ) :
    (dropStaleCmp insn s).tbl = s.tbl := by
  unfold dropStaleCmp
  split <;> rfl

theorem dropStaleCmp_lastCmp {insn : Instruction} {s : AbsState δ} {g : FlagsGuard}
    (h : (dropStaleCmp insn s).lastCmp = some g) : s.lastCmp = some g := by
  unfold dropStaleCmp at h
  split_ifs at h
  exact h

@[simp] theorem eraseSlots_gpr (s : AbsState δ) (start size : δ) :
    (eraseSlots s start size).gpr = s.gpr := by
  unfold eraseSlots
  split <;> rfl

@[simp] theorem eraseSlots_tbl (s : AbsState δ) (start size : δ) :
    (eraseSlots s start size).tbl = s.tbl := by
  unfold eraseSlots
  split <;> rfl

@[simp] theorem eraseSlots_lastCmp (s : AbsState δ) (start size : δ) :
    (eraseSlots s start size).lastCmp = s.lastCmp := by
  unfold eraseSlots
  split <;> rfl

@[simp] theorem clobberWrittenReg_gpr (s : AbsState δ) (reg : ZydisRegister) (d : Fin 16) :
    (clobberWrittenReg s reg d).gpr = Function.update s.gpr d .top := s.clobberReg_gpr d

@[simp] theorem clobberWrittenReg_tbl (s : AbsState δ) (reg : ZydisRegister) (d : Fin 16) :
    (clobberWrittenReg s reg d).tbl =
      Function.update s.tbl d { TableVal.none with valueBound := writtenRegBound reg } := by
  unfold clobberWrittenReg AbsState.modifyTable
  rw [AbsState.clobberReg_tbl, Function.update_self, Function.update_idem]

section Untracked
variable {s : AbsState δ}

/-- Where rsp is no frame address, a push, a pop and a call do not move it or drop slots. -/
theorem pushValue_untracked (h : ∀ d, s.gpr kDWARFRsp ≠ .cfaRel d) (v : AbsVal δ) :
    pushValue s v = s := by
  unfold pushValue
  split
  · rename_i d hd
    exact absurd hd (h d)
  · rfl

theorem popValue_untracked (h : ∀ d, s.gpr kDWARFRsp ≠ .cfaRel d) : popValue s = (.top, s) := by
  unfold popValue
  split
  · rename_i d hd
    exact absurd hd (h d)
  · rfl

theorem callEffect_untracked (h : ∀ d, s.gpr kDWARFRsp ≠ .cfaRel d) :
    callEffect s = kCallerSaved.foldl AbsState.clobberReg s := by
  unfold callEffect
  split
  · rename_i d hd
    exact absurd hd (h d)
  · rfl

theorem transferLeave_untracked (h : ∀ d, s.gpr kDWARFRbp ≠ .cfaRel d) :
    transferLeave s = (s.copyReg kDWARFRsp kDWARFRbp).clobberReg kDWARFRbp := by
  have hcopy : (s.copyReg kDWARFRsp kDWARFRbp).gpr kDWARFRsp = s.gpr kDWARFRbp := by simp
  unfold transferLeave
  dsimp only
  rw [hcopy]
  split
  · rename_i d hd
    exact absurd hd (h d)
  · rfl

theorem addSubImm_untracked {insn : Instruction} {r : ZydisRegister} {d : Fin 16}
    (hr : r.dwarfRegOf = some d) (h : ∀ x, s.gpr d ≠ .cfaRel x) (imm : Word) :
    addSubImm insn s r imm = some (clobberWrittenReg s r d) := by
  unfold addSubImm
  rw [hr, Option.map_some]
  split
  · rename_i x _ hx
    exact absurd hx (h x)
  · rfl

end Untracked

/-- An outcome that goes on to the next instruction and nowhere else. -/
structure TransferOutcome.Plain (o : TransferOutcome) : Prop where
  fallsThrough : o.fallsThrough = true
  directTarget : o.directTarget = none
  indirectBranch : o.indirectBranch = false
  isReturn : o.isReturn = false
  jumpTable : o.jumpTable = none
  unboundedJumpTarget : o.unboundedJumpTarget = none

theorem TransferOutcome.plain_default : Plain {} := ⟨rfl, rfl, rfl, rfl, rfl, rfl⟩

theorem transferPush_plain (insn : Instruction) (s : AbsState δ) : (transferPush insn s).1.Plain := by
  unfold transferPush
  split <;> exact ⟨rfl, rfl, rfl, rfl, rfl, rfl⟩

theorem transferPop_plain (insn : Instruction) (s : AbsState δ) : (transferPop insn s).1.Plain := by
  unfold transferPop
  split <;> exact ⟨rfl, rfl, rfl, rfl, rfl, rfl⟩

theorem getD_map_plain (s' : Option (AbsState δ)) (s : AbsState δ) :
    ((s'.map (({} : TransferOutcome), ·)).getD ({}, s)).2 = s'.getD s := by
  cases s' <;> rfl

theorem map_plain {s' : Option (AbsState δ)} {r : TransferOutcome × AbsState δ}
    (h : s'.map (({} : TransferOutcome), ·) = some r) : r.1.Plain := by
  obtain ⟨s, -, rfl⟩ := Option.map_eq_some_iff.mp h
  exact TransferOutcome.plain_default

/-- Only branches and returns have anything to say about control flow. -/
theorem transferNamed_plain {z : Zydis} {insn : Instruction} {s : AbsState δ}
    {r : TransferOutcome × AbsState δ} (h : transferNamed z insn s = some r) : r.1.Plain := by
  unfold transferNamed at h
  split at h <;> first
    | exact map_plain h
    | exact Option.some.inj h ▸ transferPush_plain insn s
    | exact Option.some.inj h ▸ transferPop_plain insn s
    | exact Option.some.inj h ▸ ⟨rfl, rfl, rfl, rfl, rfl, rfl⟩
    | cases h

/-- Only `call` calls. -/
theorem transferNamed_isCall {z : Zydis} {insn : Instruction} {s : AbsState δ}
    {r : TransferOutcome × AbsState δ} (h : transferNamed z insn s = some r) (hid : insn.id ≠ .call) :
    r.1.isCall = false := by
  have hpush : (transferPush insn s).1.isCall = false := by
    unfold transferPush
    split <;> rfl
  have hpop : (transferPop insn s).1.isCall = false := by
    unfold transferPop
    split <;> rfl
  unfold transferNamed at h
  split at h <;> first
    | exact absurd ‹_› hid
    | exact Option.some.inj h ▸ rfl
    | exact Option.some.inj h ▸ hpush
    | exact Option.some.inj h ▸ hpop
    | obtain ⟨_, -, rfl⟩ := Option.map_eq_some_iff.mp h
      rfl
    | cases h

theorem branchOutcome_fallsThrough (z : Zydis) (insn : Instruction) (s : AbsState δ) :
    (branchOutcome z insn s).fallsThrough = decide (insn.id ≠ .jmp) := by
  unfold branchOutcome
  dsimp only
  split
  · rfl
  · split
    · split <;> rfl
    · split
      · split <;> rfl
      · rfl
    · rfl

/-- The target a branch names is in its bytes. -/
theorem branchOutcome_directTarget (z : Zydis) (insn : Instruction) (s : AbsState δ) :
    (branchOutcome z insn s).directTarget = (insn.op? 0).bind fun op =>
      match op.kind with
      | .immediate _ => z.calcAbsoluteAddress insn.insn op insn.address
      | _ => none := by
  unfold branchOutcome
  cases insn.op? 0 with
  | none => rfl
  | some op =>
    cases hk : op.kind with
    | immediate imm => cases hc : z.calcAbsoluteAddress insn.insn op insn.address <;> simp [hk, hc]
    | register r =>
      simp only [Option.bind_some, hk]
      split
      · split <;> rfl
      · rfl
    | memory mem | pointer => simp [hk]

/-- A branch has one way of naming its target. -/
theorem branchOutcome_target (z : Zydis) (insn : Instruction) (s : AbsState δ) :
    (branchOutcome z insn s).isReturn = false ∧ (branchOutcome z insn s).isCall = false ∧
      ((branchOutcome z insn s).directTarget = none ∨
        (branchOutcome z insn s).jumpTable = none ∧
          (branchOutcome z insn s).unboundedJumpTarget = none) := by
  unfold branchOutcome
  dsimp only
  split
  · simp
  · split
    · split <;> simp
    · split
      · split <;> simp
      · simp
    · simp

end UnwindCheck
