import UnwindCheck.Driver.Uncovered
import UnwindCheck.EhFrame.Enumerate
import UnwindCheck.Lib.Sorted
import UnwindCheck.Light.Check

/-! `Run`: from an opened binary and the command line to the exit code. -/
namespace UnwindCheck

def kExitBlessed : ℕ := 0
def kExitMismatch : ℕ := 1
def kExitReview : ℕ := 2
def kExitFailure : ℕ := 3

variable {δ : Type} [Offset δ]

/-- One FDE as read from `.eh_frame`: its table, or the error that kept it from being decoded. -/
structure RawFDE (δ : Type) where
  vaddr : Word
  cfi : Except String (CFI δ)

namespace ELFBinary
variable (bin : ELFBinary)

/-- The walk `ReadAllFDEs` makes, at live addresses. -/
def walk : Enumeration :=
  enumerateFDEs bin.live (bin.ehFrameStart + bin.bias) (bin.ehFrameEnd + bin.bias)

def readFDE (vaddr : Word) : Except String (CFI δ) :=
  UnwindCheck.readFDE bin.live vaddr bin.ehFrameStart bin.ehFrameEnd bin.bias

/-- `ReadAllFDEs`: what was read up to a bad record is kept. -/
def readAllFDEs : List (RawFDE δ) × Option String :=
  (bin.walk.fdes.map fun addr => ⟨bin.toVaddr addr, bin.readFDE (bin.toVaddr addr)⟩,
    match bin.walk.ended with
    | .error e => some e
    | .ok _ => none)

end ELFBinary

def makeStructuralResult (fdeVaddr pcBegin pcEnd : Word) (severity : Severity) (message : String) :
    FDEResult :=
  ⟨fdeVaddr, pcBegin, pcEnd, false, if severity = .mismatch then .mismatch else .review,
    [⟨severity, pcBegin, message, 0⟩], 0, none, []⟩

/-- One iteration of the loop of `RunStructuralChecks`: the result that settles the FDE, or its
table if it is to be checked. -/
def triage (bin : ELFBinary) (raw : RawFDE δ) : FDEResult ⊕ CFI δ :=
  match raw.cfi with
  | .error e =>
    .inl (makeStructuralResult raw.vaddr 0 0 .review ("cannot decode this FDE: " ++ e))
  | .ok cfi =>
    if cfi.pcEnd = cfi.pcBegin then
      .inl (makeStructuralResult raw.vaddr cfi.pcBegin cfi.pcEnd .mismatch
        "FDE covers an empty PC range (pc_begin == pc_end); noted and skipped")
    else if cfi.pcEnd < cfi.pcBegin then
      .inl (makeStructuralResult raw.vaddr cfi.pcBegin cfi.pcEnd .mismatch
        "FDE covers a backwards PC range")
    else if !bin.isExecutable cfi.pcBegin (cfi.pcEnd - cfi.pcBegin) then
      .inl (makeStructuralResult raw.vaddr cfi.pcBegin cfi.pcEnd .mismatch
        ("FDE covers [0x" ++ showHex cfi.pcBegin ++ ", 0x" ++ showHex cfi.pcEnd ++
          "), which is not inside one executable PT_LOAD"))
    else if bin.inPLT cfi.pcBegin (cfi.pcEnd - cfi.pcBegin) then
      .inl ⟨raw.vaddr, cfi.pcBegin, cfi.pcEnd, false, .blessed, [], 0, none, []⟩
    else .inr cfi

/-- The loop over neighbours. -/
def overlapResults : List (Word × CFI δ) → List FDEResult
  | prev :: cur :: rest =>
    (if cur.2.pcBegin < prev.2.pcEnd then
      [makeStructuralResult cur.1 cur.2.pcBegin cur.2.pcEnd .mismatch
        ("FDE range [0x" ++ showHex cur.2.pcBegin ++ ", 0x" ++ showHex cur.2.pcEnd ++
          ") overlaps the preceding FDE's [0x" ++ showHex prev.2.pcBegin ++ ", 0x" ++
          showHex prev.2.pcEnd ++ ")")]
    else []) ++ overlapResults (cur :: rest)
  | _ => []

/-- The libraries behind the driver. Sorting leaves FDEs with equal keys in any order. -/
structure Tools (δ : Type) where
  disasm : Except String Zydis
  sortByBegin : Lib.KeySort fun raw : Word × CFI δ => raw.2.pcBegin.toNat
  sortIndex : Lib.KeySort fun e : (Word × Word) × CFI δ => toLex (e.1.1.toNat, e.1.2.toNat)
  /-- `Symbolizer::Name` -/
  symbolName : Word → String
  /-- An ECMAScript regex as a search, or why it is none. -/
  regex : String → Except String (String → Bool)
  /-- `absl::SimpleHexAtoi` -/
  simpleHexAtoi : String → Option Word
  /-- `RunInspectPipeline` -/
  runInspectPipeline : FDECheckerOptions δ → CFI δ → (atFunctionEntry : Bool) → Except String FDEResult

/-- The FDEs that are structurally sound, with their record addresses. -/
def soundFDEs (bin : ELFBinary) (fdes : List (RawFDE δ)) : List (Word × CFI δ) :=
  fdes.filterMap fun raw => (triage bin raw).getRight?.map fun cfi => (raw.vaddr, cfi)

/-- The tables `RunStructuralChecks` leaves to be checked. -/
def checkable (bin : ELFBinary) (fdes : List (RawFDE δ)) : List (CFI δ) :=
  (soundFDEs bin fdes).map Prod.snd

/-- The results of `RunStructuralChecks`. -/
def structuralResults (tools : Tools δ) (bin : ELFBinary) (fdes : List (RawFDE δ)) :
    List FDEResult :=
  (fdes.filterMap fun raw => (triage bin raw).getLeft?) ++
    overlapResults (tools.sortByBegin.sort (soundFDEs bin fdes))

/-- The flags that decide what is checked. -/
structure Flags where
  function : String := ""
  pc : String := ""
  maxFindings : ℤ := 8
  checkUnmentionedCalleeSaved : Bool := false
  full : Bool := false
  reportCoverageGaps : Bool := true
  reportUncoveredSymbols : Bool := true
  dumpCfi : Bool := false
  inspect : Bool := false

/-- The ranges symbols are held to. -/
def fdeRanges (fdes : List (RawFDE δ)) : List (Word × Word) :=
  fdes.filterMap fun raw =>
    match raw.cfi with
    | .ok cfi => if cfi.pcBegin < cfi.pcEnd then some (cfi.pcBegin, cfi.pcEnd) else none
    | .error _ => none

def uncoveredResults (flags : Flags) (bin : ELFBinary) (fdes : List (RawFDE δ)) : List FDEResult :=
  if flags.reportUncoveredSymbols then checkUncoveredSymbols bin (fdeRanges fdes) else []

/-- Whether a symbol name denotes something entered by `call`. -/
def isEntryPointName (name : String) : Bool :=
  ¬ ".cold".toList <:+ name.toList ∧ ¬ ".cold.".toList <:+: name.toList

/-- `function_starts.contains` -/
def isFunctionStart (bin : ELFBinary) (vaddr : Word) : Bool :=
  bin.funcSymbols.any fun sym => isEntryPointName sym.name && decide (sym.vaddr = vaddr)

/-- The options every FDE is checked with. -/
def checkerOptions (tools : Tools δ) (z : Zydis) (flags : Flags) (bin : ELFBinary)
    (cfis : List (CFI δ)) : FDECheckerOptions δ where
  image := bin.image
  disasm := z
  checkUnmentionedCalleeSaved := flags.checkUnmentionedCalleeSaved
  reportCoverageGaps := flags.reportCoverageGaps
  maxFindingsPerFde := (max 1 flags.maxFindings).toNat
  allCfis := tools.sortIndex.sort (cfis.map fun cfi => ((cfi.pcBegin, cfi.pcEnd), cfi))

/-- The checker of choice on one FDE; the light one can fail a `CHECK`. -/
def checkFDE (options : FDECheckerOptions δ) (full : Bool) (bin : ELFBinary) (cfi : CFI δ) :
    Option FDEResult :=
  if full then some (checkWithGuessing options cfi (isFunctionStart bin cfi.pcBegin))
  else lightCheck options cfi

/-- `Summarize` -/
structure Summary where
  blessed : ℕ
  reviewLight : ℕ
  review : ℕ
  mismatch : ℕ
  deriving DecidableEq, Repr

def summarize (results : List FDEResult) : Summary where
  blessed := results.countP (·.verdict = .blessed)
  reviewLight := results.countP (·.verdict = .reviewLight)
  review := results.countP (·.verdict = .review)
  mismatch := results.countP (·.verdict = .mismatch)

def exitCode (results : List FDEResult) : ℕ :=
  let summary := summarize results
  if 0 < summary.mismatch then kExitMismatch
  else if 0 < summary.review ∨ 0 < summary.reviewLight then kExitReview
  else kExitBlessed

/-- What `--function` and `--pc` select. -/
structure Filters where
  name : Option (String → Bool)
  pc : Option Word

def parseFilters (tools : Tools δ) (flags : Flags) : Except String Filters := do
  let name ← if flags.function = "" then pure none else some <$> tools.regex flags.function
  let pc ← if flags.pc = "" then pure none
    else match tools.simpleHexAtoi flags.pc with
      | some value => pure (some value)
      | none => throw ("cannot parse --pc value '" ++ flags.pc ++ "' as hex")
  return ⟨name, pc⟩

def Filters.selects (filters : Filters) (tools : Tools δ) (cfi : CFI δ) : Bool :=
  (filters.pc.all fun pc => decide (cfi.Covers pc)) &&
    filters.name.all fun search => search (tools.symbolName cfi.pcBegin)

/-- The results of a run that checks the FDEs `filters` selects. -/
def runResults (tools : Tools δ) (z : Zydis) (flags : Flags) (filters : Filters) (bin : ELFBinary) :
    Option (List FDEResult) :=
  let fdes := bin.readAllFDEs.1
  let cfis := checkable bin fdes
  let options := checkerOptions tools z flags bin cfis
  ((cfis.filter (filters.selects tools)).mapM (checkFDE options flags.full bin)).map fun checked =>
    structuralResults tools bin fdes ++ uncoveredResults flags bin fdes ++ checked

/-- `--inspect`: the first FDE over the address, through the pipeline. -/
def inspect (tools : Tools δ) (z : Zydis) (flags : Flags) (filters : Filters) (bin : ELFBinary) : ℕ :=
  let cfis := checkable bin bin.readAllFDEs.1
  match filters.pc with
  | none => kExitFailure
  | some pc =>
    match cfis.find? fun cfi => decide (cfi.Covers pc) with
    | none => kExitFailure
    | some target =>
      match tools.runInspectPipeline (checkerOptions tools z flags bin cfis) target
          (isFunctionStart bin target.pcBegin) with
      | .error _ => kExitFailure
      | .ok inspected => exitCode [inspected]

/-- `Run`, apart from what it prints; `none` is a failed `CHECK`. -/
def run (tools : Tools δ) (flags : Flags) (opened : Except String ELFBinary) : Option ℕ :=
  match opened with
  | .error _ => some kExitFailure
  | .ok bin =>
    if !bin.hasEhFrame then some kExitFailure
    else match tools.disasm with
      | .error _ => some kExitFailure
      | .ok z =>
        if (bin.readAllFDEs (δ := δ)).1.isEmpty ∧ (bin.readAllFDEs (δ := δ)).2.isSome then
          some kExitFailure
        else match parseFilters tools flags with
          | .error _ => some kExitFailure
          | .ok filters =>
            if flags.inspect then some (inspect tools z flags filters bin)
            else if flags.dumpCfi then some kExitBlessed
            else (runResults tools z flags filters bin).map exitCode

end UnwindCheck
