import UnwindCheck.Offset
import UnwindCheck.Lib.UpperBound

/-! The declared side: CFA rules, register rules, and the row table of one FDE. -/
namespace UnwindCheck

def kDWARFRip : ℕ := 16

/-- `kNumGPRs` and `kNumDWARFRegs` are the sizes 16 and 17 of the types of register numbers. -/
instance instNeZeroNumGPRs : NeZero (16 : ℕ) := ⟨by decide⟩

instance instNeZeroNumDWARFRegs : NeZero (17 : ℕ) := ⟨by decide⟩

def kDWARFRbx : Fin 16 := 3
def kDWARFRbp : Fin 16 := 6
def kDWARFRsp : Fin 16 := 7

/-- Names of the DWARF registers, `ra` standing for register 16. -/
def kRegNames : List String :=
  ["rax", "rdx", "rcx", "rbx", "rsi", "rdi", "rbp", "rsp", "r8", "r9", "r10", "r11", "r12",
    "r13", "r14", "r15", "ra"]

def dwarfRegName (reg : ℕ) : String :=
  match kRegNames[reg]? with
  | some name => name
  | none => "r\x7b" ++ toString reg ++ "\x7d"

inductive CFARule.Kind where
  | undefined
  | regOffset
  | expression
  deriving DecidableEq, Repr

/-- How the CFI says the CFA is computed at some PC. The register and the offset are updated
one at a time by some opcodes, so they are kept whatever the kind is. -/
structure CFARule (δ : Type) where
  kind : CFARule.Kind
  reg : ℕ
  offset : δ
  deriving DecidableEq, Repr

/-- How the CFI says one register's caller value is recovered at some PC. -/
inductive RegRule (δ : Type) where
  | unset
  | undefined
  | sameValue
  | atCFAOffset (offset : δ)
  | valOffset (offset : δ)
  | inRegister (reg : ℕ)
  | expression
  | valExpression
  deriving DecidableEq, Repr

/-- One row of the virtual unwind table: the rules in force from `pcStart` on. -/
structure CFIRow (δ : Type) where
  pcStart : Word
  cfa : CFARule δ
  regs : Fin 17 → RegRule δ
  deriving DecidableEq

/-- One decoded FDE. -/
structure CFI (δ : Type) where
  fdeAddr : Word
  pcBegin : Word
  pcEnd : Word
  returnReg : ℕ
  signalFrame : Bool
  lsdaAddr : Word
  hasExoticRegs : Bool
  rows : List (CFIRow δ)
  deriving DecidableEq

section
variable {δ : Type} [Offset δ]

/-- The rule before any opcode ran. -/
def CFARule.initial : CFARule δ := ⟨.undefined, 0, Offset.ofInt 0⟩

/-- `CFARule::RegOffset` -/
def CFARule.regOffset (reg : ℕ) (offset : δ) : CFARule δ := ⟨.regOffset, reg, offset⟩

def CFARule.toString (rule : CFARule δ) : String :=
  match rule.kind with
  | .undefined => "<no CFA rule>"
  | .regOffset => dwarfRegName rule.reg ++ showSigned (asInt32 (Offset.toInt rule.offset))
  | .expression => "<DWARF expression>"

def RegRule.toString : RegRule δ → String
  | .unset => "<no rule>"
  | .undefined => "undefined"
  | .sameValue => "same_value"
  | .atCFAOffset offset => "[" ++ showCFAOffset offset ++ "]"
  | .valOffset offset => showCFAOffset offset
  | .inRegister reg => "in " ++ dwarfRegName reg
  | .expression => "<DWARF expression>"
  | .valExpression => "<DWARF val expression>"

def CFIRow.toString (row : CFIRow δ) : String :=
  "cfa=" ++ row.cfa.toString ++
    String.join ((List.finRange 17).filterMap fun r =>
      if row.regs r = .unset then none
      else some (" " ++ dwarfRegName r ++ "=" ++ (row.regs r).toString))

/-- The canonical x86-64 state on entry from a `call`. -/
def CFIRow.isCanonicalEntry (row : CFIRow δ) : Bool :=
  row.cfa = .regOffset 7 (Offset.ofInt 8) ∧ row.regs 16 = .atCFAOffset (Offset.ofInt (-8))

end

namespace CFI
variable {δ : Type} (cfi : CFI δ)

/-- Addresses of the FDE. -/
def Covers (pc : Word) : Prop := cfi.pcBegin ≤ pc ∧ pc < cfi.pcEnd

instance (pc : Word) : Decidable (cfi.Covers pc) := inferInstanceAs (Decidable (_ ∧ _))

theorem Covers.nonempty {cfi : CFI δ} {pc : Word} (h : cfi.Covers pc) : cfi.pcBegin < cfi.pcEnd := by
  obtain ⟨hlo, hhi⟩ := h
  bv_omega

/-- Position of the row `RowAt` returns. The source compares rows by address, so the position
and not the row's contents is what identifies one. -/
def rowIndexAt (pc : Word) : Option (Fin cfi.rows.length) :=
  if cfi.Covers pc then
    let it := Lib.upperBound (fun i => (cfi.rows[i]?).any fun row => pc < row.pcStart)
      cfi.rows.length
    if h : 0 < it ∧ it - 1 < cfi.rows.length then some ⟨it - 1, h.2⟩ else none
  else none

/-- `CFI::RowAt` -/
def rowAt (pc : Word) : Option (CFIRow δ) := (cfi.rowIndexAt pc).map cfi.rows.get

theorem covers_of_rowAt {pc : Word} {row : CFIRow δ} (h : cfi.rowAt pc = some row) :
    cfi.Covers pc := by
  by_contra hc
  simp [rowAt, rowIndexAt, hc] at h

theorem mem_rows_of_rowAt {pc : Word} {row : CFIRow δ} (h : cfi.rowAt pc = some row) :
    row ∈ cfi.rows := by
  obtain ⟨i, -, rfl⟩ := Option.map_eq_some_iff.mp h
  exact List.get_mem _ _

/-- The search can only fail to the left of the first row. -/
theorem rowAt_isSome {first : CFIRow δ} {rest : List (CFIRow δ)} (hrows : cfi.rows = first :: rest)
    {pc : Word} (hc : cfi.Covers pc) (hf : first.pcStart ≤ pc) : (cfi.rowAt pc).isSome := by
  have hpos : 0 < Lib.upperBound (fun i => (cfi.rows[i]?).any fun row => pc < row.pcStart)
      cfi.rows.length := by
    apply Lib.upperBound_pos
    · simp [hrows]
    · simp only [hrows, List.getElem?_cons_zero, Option.any_some, decide_eq_false_iff_not]
      exact BitVec.not_lt.mpr hf
  have hle := Lib.upperBound_le (fun i => (cfi.rows[i]?).any fun row => pc < row.pcStart)
    cfi.rows.length
  simp only [rowAt, rowIndexAt, hc, if_true, Option.isSome_map]
  rw [dif_pos ⟨hpos, by omega⟩]
  rfl

end CFI

end UnwindCheck
