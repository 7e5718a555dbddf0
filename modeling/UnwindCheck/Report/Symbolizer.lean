import UnwindCheck.Elf.Binary
import UnwindCheck.Lib.Stream
import UnwindCheck.Lib.UpperBound

/-! `Symbolizer`: names from the symbol table, source lines from one batched run of `addr2line`. -/
namespace UnwindCheck

/-- Addresses on one command line. -/
def kBatchSize : ℕ := 4096

/-- What the symbolizer asks of the system it runs on. -/
structure Host where
  /-- `getenv("PATH")` -/
  path : Option String
  /-- `access(.., X_OK) == 0` -/
  executable : String → Bool
  /-- `abi::__cxa_demangle` -/
  cxaDemangle : String → Option String

def Host.toolExists (host : Host) (tool : String) : Bool :=
  if tool.toList.contains '/' then host.executable tool
  else match host.path with
    | none => false
    | some path => (path.toList.splitOn ':').any fun dir =>
      decide (dir ≠ []) && host.executable (String.ofList dir ++ "/" ++ tool)

def Host.demangle (host : Host) (name : String) : String := (host.cxaDemangle name).getD name

inductive Addr2LineMode where
  | auto
  | off
  | explicit
  deriving DecidableEq, Repr

def parseAddr2LineMode (value : String) : Addr2LineMode × String :=
  if value = "off" then (.off, "")
  else if value = "auto" ∨ value = "" then (.auto, "")
  else (.explicit, value)

def pickToolPath (host : Host) (mode : Addr2LineMode) (toolPath : String) : String :=
  if toolPath ≠ "" then toolPath
  else if mode = .auto ∧ host.toolExists "llvm-addr2line" = false ∧ host.toolExists "addr2line" then
    "addr2line"
  else "llvm-addr2line"

/-- The process that a command line starts, `earlier` of them having run before: what it writes,
or `none` when it cannot be started. -/
abbrev Addr2line := (earlier : ℕ) → (argv : List String) → Option (List Char)

/-- What `addr2line` has told so far: `source_lines_` and `debug_names_`. -/
structure DebugInfo where
  sourceLines : Word → Option String := fun _ => none
  debugNames : Word → Option String := fun _ => none

/-- The symbolizer. `asked` is a record of the command lines so far, one that could not be run
among them. -/
structure Symbolizer where
  imagePath : String
  funcSymbols : List FuncSymbol
  toolPath : String
  useAddr2line : Bool := false
  disabledReason : String := ""
  info : DebugInfo := {}
  queried : Finset Word := ∅
  asked : List (List Word) := []

/-- `Symbolizer::Symbolizer` -/
def Symbolizer.new (host : Host) (imagePath : String) (funcSymbols : List FuncSymbol)
    (hasDebugInfo : Bool) (mode : Addr2LineMode) (toolPath : String) : Symbolizer :=
  let toolPath := pickToolPath host mode toolPath
  let sym : Symbolizer := { imagePath, funcSymbols, toolPath }
  match mode with
  | .off => sym
  | .auto =>
    if !hasDebugInfo then sym
    else if !host.toolExists toolPath then
      { sym with disabledReason := toolPath ++ " is not on PATH" }
    else { sym with useAddr2line := true }
  | .explicit =>
    if !host.toolExists toolPath then
      { sym with disabledReason := toolPath ++ " is not executable" }
    else { sym with useAddr2line := true }

/-- `absl::ascii_isspace` -/
def isAsciiSpace (c : Char) : Bool := c = ' ' || decide (9 ≤ c.toNat ∧ c.toNat ≤ 13)

def stripAsciiWhitespace (text : List Char) : List Char :=
  (text.dropWhile isAsciiSpace).rdropWhile isAsciiSpace

/-- What one line of output says: the text up to a null byte, nothing when it is not known. -/
def fieldOf (line : List Char) : String :=
  let text := stripAsciiWhitespace (line.takeWhile (· ≠ Char.ofNat 0))
  if text ≠ [] ∧ ¬ "??".toList <+: text then String.ofList text else ""

/-- `emplace`: a key that is there keeps its value. -/
def emplace (m : Word → Option String) (k : Word) (v : String) : Word → Option String :=
  if (m k).isSome then m else Function.update m k (some v)

/-- The loop of `Prepare` over its argument: those not seen before, in order. -/
def enqueue (queried : Finset Word) : List Word → Finset Word × List Word
  | [] => (queried, [])
  | a :: rest =>
    if a ∈ queried then enqueue queried rest
    else ((enqueue (insert a queried) rest).1, a :: (enqueue (insert a queried) rest).2)

/-- How an address is written relative to the symbol it belongs to. -/
def FuncSymbol.label (host : Host) (s : FuncSymbol) (vaddr : Word) : String :=
  if vaddr = s.vaddr then host.demangle s.name
  else host.demangle s.name ++ "+0x" ++ showHex (((vaddr - s.vaddr).setWidth 32).setWidth 64)

/-- `Symbolizer::Name` over a symbol table, with what to say where the table has nothing. -/
def nameIn (host : Host) (syms : List FuncSymbol) (otherwise : String) (vaddr : Word) : String :=
  let it := Lib.upperBound (fun i => (syms[i]?).any fun s => decide (vaddr < s.vaddr)) syms.length
  if it = 0 then otherwise
  else match syms[it - 1]? with
    | none => otherwise
    | some s =>
      if (if s.size = 0 then s.vaddr ≠ vaddr else s.size ≤ vaddr - s.vaddr) then otherwise
      else s.label host vaddr

namespace DebugInfo

/-- What becomes of the two fields read for one address: a name alone is not to be believed. -/
def learn (info : DebugInfo) (a : Word) (function location : String) : DebugInfo :=
  if location = "" then info
  else
    { sourceLines := emplace info.sourceLines a location
      debugNames := if function = "" then info.debugNames else emplace info.debugNames a function }

/-- The answers to one batch, off the pipe. -/
def readAnswers : DebugInfo → List Word → List Char → DebugInfo
  | info, [], _ => info
  | info, a :: rest, pipe =>
    match Lib.fgets 4096 pipe with
    | none => info
    | some (function, pipe) =>
      match Lib.fgets 4096 pipe with
      | none => info
      | some (location, pipe) =>
        readAnswers (info.learn a (fieldOf function) (fieldOf location)) rest pipe

end DebugInfo

namespace Symbolizer
variable (sym : Symbolizer)

def debugName (vaddr : Word) : String := (sym.info.debugNames vaddr).getD ""

def sourceLine (vaddr : Word) : String := (sym.info.sourceLines vaddr).getD ""

/-- `Symbolizer::Name` -/
def name (host : Host) (vaddr : Word) : String :=
  nameIn host sym.funcSymbols (sym.debugName vaddr) vaddr

def argv (batch : List Word) : List String :=
  [sym.toolPath, "-f", "-C", "-e", sym.imagePath] ++ batch.map fun a => "0x" ++ showHex a

/-- The loop over batches. -/
def askAll (tool : Addr2line) : Symbolizer → List (List Word) → Symbolizer
  | sym, [] => sym
  | sym, batch :: rest =>
    match tool sym.asked.length (sym.argv batch) with
    | none =>
      { sym with
        disabledReason := "could not run addr2line"
        useAddr2line := false
        asked := sym.asked ++ [batch] }
    | some output =>
      askAll tool
        { sym with
          info := sym.info.readAnswers batch output
          asked := sym.asked ++ [batch] } rest

def sortPending (pending : List Word) : List Word :=
  (pending.insertionSort fun a b => a.toNat ≤ b.toNat).destutter (· ≠ ·)

def prepare (tool : Addr2line) (addresses : List Word) : Symbolizer :=
  if sym.useAddr2line = false ∨ addresses = [] then sym
  else
    let queue := enqueue sym.queried addresses
    askAll tool { sym with queried := queue.1 } (Lib.batches kBatchSize (sortPending queue.2))

/-- Any number of calls, one after the other. -/
def prepareAll (tool : Addr2line) (calls : List (List Word)) : Symbolizer :=
  calls.foldl (fun sym addresses => sym.prepare tool addresses) sym

end Symbolizer

end UnwindCheck
