import UnwindCheck.Driver.Exit
import UnwindCheck.Report.Listing
import UnwindCheck.Report.Subprocess

/-! `--inspect`: the annotations of one FDE, the pipe to the Ruby script, and the script itself,
which puts them into the listing of `objdump`. -/
namespace UnwindCheck
variable {δ : Type} [Offset δ]

/-- What an annotation is. A finding has its severity and its repeats. -/
inductive NoteKind where
  | cfiRow
  | state
  | guessed
  | finding (severity : Severity) (repeats : ℕ)
  deriving DecidableEq, Repr

structure Note where
  pc : Word
  kind : NoteKind
  text : String
  deriving DecidableEq, Repr

section Gather

/-- The registers that do not hold their entry value, then the slots. -/
def formatStateCompact (state : AbsState δ) : String :=
  let parts := ((List.finRange 16).filterMap fun r =>
      if (state.gpr r).isOrigReg r then none
      else some (dwarfRegName r ++ "=" ++ (state.gpr r).toString)) ++
    state.slots.toList.map fun e => "[CFA" ++ showSigned (Offset.toInt e.1) ++ "]=" ++ e.2.toString
  if parts = [] then "(matches entry state)" else String.intercalate " " parts

/-- What `Check` puts into `trace_out`: the reached instructions with their states, by address. -/
def insnTrace (options : FDECheckerOptions δ) (cfi : CFI δ) : List (Word × AbsState δ) :=
  match cfi.rowAt cfi.pcBegin with
  | none => []
  | some row =>
    if row.regs 16 = .undefined then []
    else ((Env.of options cfi false).settle row).inStates.toList

def Note.ofRow (row : CFIRow δ) : Note := ⟨row.pcStart, .cfiRow, formatRowCompact (some row)⟩

def Note.ofTrace (t : Word × AbsState δ) : Note := ⟨t.1, .state, formatStateCompact t.2⟩

def Note.ofFinding (f : Finding) : Note := ⟨f.pc, .finding f.severity f.repeats, f.message⟩

def Note.ofGuessed (gjt : GuessedJumpTable) : Note :=
  ⟨gjt.pc, .guessed, "table at 0x" ++ showHex gjt.tableAddr ++ ", " ++ toString gjt.targets.length ++
    " guessed entries:" ++ String.join (gjt.targets.map fun target => " 0x" ++ showHex target)⟩

/-- What `RunInspectPipeline` hands over; findings of the FDE as a whole stay behind. -/
def annotations (options : FDECheckerOptions δ) (cfi : CFI δ) (deep : Bool) (result : FDEResult) :
    List Note :=
  cfi.rows.map Note.ofRow ++
    (if deep then (insnTrace options cfi).map Note.ofTrace else []) ++
    (result.findings.filter fun f => decide (f.pc ≠ 0)).map Note.ofFinding ++
    result.guessedJumpTables.map Note.ofGuessed

end Gather

section Script

/-- `\s` -/
def isRubySpace (c : Char) : Bool := c = ' ' || decide (9 ≤ c.toNat ∧ c.toNat ≤ 13)

def isHexDigit (c : Char) : Bool :=
  decide ('0' ≤ c ∧ c ≤ '9') || decide ('a' ≤ c ∧ c ≤ 'f') || decide ('A' ≤ c ∧ c ≤ 'F')

def hexDigitValue (c : Char) : ℕ :=
  if c ≤ '9' then c.toNat - '0'.toNat
  else if 'a' ≤ c then c.toNat - 'a'.toNat + 10
  else c.toNat - 'A'.toNat + 10

/-- `Integer(digits, 16)` -/
def hexValue (digits : List Char) : ℕ := digits.foldl (fun n c => 16 * n + hexDigitValue c) 0

/-- `ADDRESS_LINE`: blanks, a hexadecimal number, a colon and a tab. -/
def addressOf (line : List Char) : Option ℕ :=
  let text := line.dropWhile isRubySpace
  let digits := text.takeWhile isHexDigit
  if digits ≠ [] ∧ [':', '\t'] <+: text.dropWhile isHexDigit then some (hexValue digits) else none

def isWordChar (c : Char) : Bool := c.isAlphanum || c = '_'

/-- The rest of a line behind "file format ": one word, then blanks. -/
def endsFileFormat (rest : List Char) : Bool :=
  decide (rest.takeWhile (fun c => !isRubySpace c) ≠ []) &&
    (rest.dropWhile fun c => !isRubySpace c).all isRubySpace

/-- "file format " at a word boundary; `before` is the character in front. -/
def isFileFormat (before : Option Char) : List Char → Bool
  | [] => false
  | c :: line =>
    (!before.any isWordChar && "file format ".toList.isPrefixOf (c :: line) &&
      endsFileFormat ((c :: line).drop "file format ".length)) || isFileFormat (some c) line

/-- A number, then anything in angle brackets, and a colon. -/
def isSymbolLine (line : List Char) : Bool :=
  let rest := line.dropWhile isHexDigit
  let text := rest.rdropWhile isRubySpace
  decide (line.takeWhile isHexDigit ≠ []) && " <".toList.isPrefixOf rest &&
    decide (4 ≤ text.length ∧ ">:".toList <:+ text) && !(text.drop 2).contains '\n'

/-- `PASSTHROUGH_LINE` -/
def isPassthrough (line : List Char) : Bool :=
  line.all isRubySpace || isFileFormat none line ||
    "Disassembly of section ".toList.isPrefixOf line || isSymbolLine line

/-- What the script prints. -/
inductive Shown where
  | argv (argv : List String)
  | note (a : Note)
  | line (text : List Char)

/-- `KIND_ORDER` -/
def NoteKind.order : NoteKind → ℕ
  | cfiRow => 0
  | state => 1
  | guessed => 2
  | finding _ _ => 3

/-- `render_annotation` -/
def Note.render (a : Note) (color : Bool) : String :=
  let colorize := fun text code => if color then code ++ text ++ "\x1b[0m" else text
  "    " ++ match a.kind with
    | .cfiRow => colorize a.text "\x1b[2m"
    | .state => colorize ("state: " ++ a.text) "\x1b[2m"
    | .guessed => colorize ("guessed: " ++ a.text) "\x1b[33m"
    | .finding severity repeats =>
      let label := if severity = .mismatch then "MISMATCH" else "REVIEW"
      let more := if 0 < repeats then " [and at " ++ toString repeats ++ " more addresses]" else ""
      colorize (label ++ ": " ++ a.text ++ more)
        (if severity = .mismatch then "\x1b[31m" else "\x1b[33m")

/-- What a run of `objdump` gives: its lines and its exit status. -/
structure ObjdumpRun where
  lines : List (List Char)
  status : ℕ

/-- `sort_by!` leaves annotations of one kind in any order. -/
abbrev KindSort : Type := Lib.KeySort fun a : Note => a.kind.order

/-- `by_pc[pc]` -/
def byPc (sort : KindSort) (as : List Note) (pc : ℕ) : List Note :=
  sort.sort (as.filter fun a => decide (a.pc.toNat = pc))

/-- The loop over the lines: what is printed, and whether all were recognized. -/
def splice (sort : KindSort) (as : List Note) : List (List Char) → List Shown × Bool
  | [] => ([], true)
  | line :: lines =>
    match addressOf line with
    | some pc =>
      ((byPc sort as pc).map .note ++ .line line :: (splice sort as lines).1,
        (splice sort as lines).2)
    | none =>
      if isPassthrough line then (.line line :: (splice sort as lines).1, (splice sort as lines).2)
      else ([], false)

/-- The script from the parsed annotations on: what it prints, and its exit status. -/
def inspectRb (sort : KindSort) (objdump : List String → Option ObjdumpRun) (argv : List String)
    (as : List Note) : List Shown × ℕ :=
  match objdump argv with
  | none => ([.argv argv], 1)
  | some run =>
    let spliced := splice sort as run.lines
    let listed := run.lines.filterMap addressOf
    (.argv argv :: spliced.1,
      if spliced.2 ∧ run.status = 0 ∧ ∀ a ∈ as, a.pc.toNat ∈ listed then 0 else 1)

def objdumpArgv (color : Bool) (binaryPath startHex stopHex : String) : List String :=
  ["objdump", "-d", "--start-address=" ++ startHex, "--stop-address=" ++ stopHex] ++
    (if color then ["--visualize-jumps=extended-color", "--disassembler-color=extended"]
      else ["--visualize-jumps"]) ++ [binaryPath]

end Script

/-- What the pipeline runs on: `dump` of the JSON library that writes the annotations and
`JSON.parse` of the one that reads them, the answers to the writes, the wait for the script, and what
the script runs. -/
structure Pipeline where
  dump : List Note → List Char
  parse : List Char → Option (List Note)
  spawn : List String → Except String ℕ
  writes : List WriteAnswer
  wait : (status : ℕ) → List WaitAnswer
  wait_exited : ∀ status n, WaitAnswer.exited n ∈ wait status → n = status
  objdump : List String → Option ObjdumpRun
  sort : KindSort
  binaryPath : String
  rubyScriptPath : String
  deep : Bool
  color : Bool

namespace Pipeline
variable (pipe : Pipeline)

/-- What one library writes of the annotations, the other reads as them. -/
def Returns (as : List Note) : Prop := pipe.parse (pipe.dump as) = some as

/-- The script over what came through the pipe. -/
def script (input : List Char) (startHex stopHex : String) : List Shown × ℕ :=
  match pipe.parse input with
  | none => ([], 1)
  | some as => inspectRb pipe.sort pipe.objdump (objdumpArgv pipe.color pipe.binaryPath startHex stopHex) as

/-- `RunInspectPipeline`, with what appears on the terminal; `none` is a call that still waits. -/
def runInspectPipeline (options : FDECheckerOptions δ) (cfi : CFI δ) (atFunctionEntry : Bool) :
    List Shown × Option (Except String FDEResult) :=
  let result := checkWithGuessing options cfi atFunctionEntry
  let startHex := "0x" ++ showHex cfi.pcBegin
  let stopHex := "0x" ++ showHex cfi.pcEnd
  match pipe.spawn ["ruby", pipe.rubyScriptPath, pipe.binaryPath, startHex, stopHex,
      if pipe.color then "1" else "0"] with
  | .error e => ([], some (.error ("exec-ing ruby failed: " ++ e)))
  | .ok pid =>
    let as := annotations options cfi pipe.deep result
    let written := writeAll pipe.writes (pipe.dump as)
    let script := pipe.script written.1 startHex stopHex
    (script.1,
      match written.2, waitForProcess (pipe.wait script.2) pid {pid} with
      | some (.error e), some _ => some (.error e)
      | some (.ok ()), some (exitCode, _) =>
        if exitCode ≠ 0 then
          some (.error ("inspect pipeline exited with status " ++ toString exitCode))
        else some (.ok result)
      | _, _ => none)

end Pipeline

def Shown.note? : Shown → Option Note
  | note a => some a
  | _ => none

section Splice
variable {sort : KindSort} {as : List Note}

/-- What stands above a line: the annotations of its address, by kind. -/
def spliceLine (sort : KindSort) (as : List Note) (line : List Char) : List Shown :=
  ((addressOf line).elim [] (byPc sort as)).map .note ++ [.line line]

theorem splice_eq {lines : List (List Char)} (h : (splice sort as lines).2 = true) :
    (splice sort as lines).1 = lines.flatMap (spliceLine sort as) := by
  induction lines with
  | nil => rfl
  | cons line lines ih =>
    unfold splice at h ⊢
    split at h
    · rename_i pc haddr
      simp [spliceLine, haddr, ih h]
    · rename_i haddr
      split_ifs at h ⊢
      simp [spliceLine, haddr, ih h]

theorem mem_byPc {pc : ℕ} {a : Note} : a ∈ byPc sort as pc ↔ a ∈ as ∧ a.pc.toNat = pc := by
  unfold byPc
  rw [(sort.perm _).mem_iff, List.mem_filter, decide_eq_true_eq]

theorem annotation_mem_splice {lines : List (List Char)} {a : Note} (ha : a ∈ as)
    (hlisted : a.pc.toNat ∈ lines.filterMap addressOf) :
    .note a ∈ lines.flatMap (spliceLine sort as) := by
  obtain ⟨line, hline, haddr⟩ := List.mem_filterMap.mp hlisted
  apply List.mem_flatMap.mpr
  refine ⟨line, hline, ?_⟩
  unfold spliceLine
  rw [haddr]
  exact List.mem_append_left _ (List.mem_map_of_mem (mem_byPc.mpr ⟨ha, rfl⟩))

theorem annotations_splice (lines : List (List Char)) :
    (lines.flatMap (spliceLine sort as)).filterMap Shown.note? =
      (lines.filterMap addressOf).flatMap (byPc sort as) := by
  have hline : ∀ l : List Note, (l.map Shown.note).filterMap Shown.note? = l := by
    intro l
    induction l with
    | nil => rfl
    | cons a l ih => simp [Shown.note?, ih]
  induction lines with
  | nil => rfl
  | cons line lines ih =>
    rw [List.flatMap_cons, List.filterMap_append, ih, spliceLine, List.filterMap_append, hline]
    cases haddr : addressOf line with
    | none => simp [haddr, Shown.note?]
    | some pc => simp [haddr, Shown.note?]

/-- Where no address is listed twice, every annotation is shown once. -/
theorem annotations_splice_perm {lines : List (List Char)} (hnodup : (lines.filterMap addressOf).Nodup)
    (hall : ∀ a ∈ as, a.pc.toNat ∈ lines.filterMap addressOf) :
    ((lines.flatMap (spliceLine sort as)).filterMap Shown.note?).Perm as := by
  rw [annotations_splice]
  have hsorted : ((lines.filterMap addressOf).flatMap (byPc sort as)).Perm
      ((lines.filterMap addressOf).flatMap fun pc => as.filter fun a => decide (a.pc.toNat = pc)) :=
    List.Perm.flatMap_left _ fun pc _ => sort.perm _
  exact hsorted.trans (Lib.groups_perm (fun a : Note => a.pc.toNat) hnodup hall)

end Splice

section Success
variable {sort : KindSort} {objdump : List String → Option ObjdumpRun} {argv : List String}
  {as : List Note}

/-- The script exits with 0 only when it recognized every line and found a place for every
annotation. -/
theorem inspectRb_ok (h : (inspectRb sort objdump argv as).2 = 0) :
    ∃ run, objdump argv = some run ∧
      (inspectRb sort objdump argv as).1 = .argv argv :: run.lines.flatMap (spliceLine sort as) ∧
      ∀ a ∈ as, a.pc.toNat ∈ run.lines.filterMap addressOf := by
  unfold inspectRb at h ⊢
  cases hrun : objdump argv with
  | none =>
    rw [hrun] at h
    cases h
  | some run =>
    rw [hrun] at h
    dsimp only at h ⊢
    split_ifs at h with hall
    obtain ⟨hsplice, -, hplaced⟩ := hall
    exact ⟨run, rfl, by rw [splice_eq hsplice], hplaced⟩

/-- A pipeline that succeeds has put all its annotations through the pipe and into the listing. -/
theorem Pipeline.runInspectPipeline_ok {pipe : Pipeline} {options : FDECheckerOptions δ} {cfi : CFI δ}
    {atFunctionEntry : Bool} {result : FDEResult}
    (hjson : pipe.Returns (annotations options cfi pipe.deep
      (checkWithGuessing options cfi atFunctionEntry)))
    (h : (pipe.runInspectPipeline options cfi atFunctionEntry).2 = some (.ok result)) :
    result = checkWithGuessing options cfi atFunctionEntry ∧
      ∃ argv run, pipe.objdump argv = some run ∧
        (pipe.runInspectPipeline options cfi atFunctionEntry).1 = .argv argv ::
          run.lines.flatMap (spliceLine pipe.sort (annotations options cfi pipe.deep result)) ∧
        ∀ a ∈ annotations options cfi pipe.deep result,
          a.pc.toNat ∈ run.lines.filterMap addressOf := by
  unfold Pipeline.runInspectPipeline at h ⊢
  dsimp only at h ⊢
  split at h
  · cases h
  · dsimp only at h ⊢
    split at h
    · cases h
    · rename_i exitCode left hwrite hwait
      split_ifs at h with hcode
      · cases h
      · cases h
        rw [not_not] at hcode
        subst hcode
        have hdata := (writeAll_spec pipe.writes (pipe.dump (annotations options cfi pipe.deep
          (checkWithGuessing options cfi atFunctionEntry)))).2.mp hwrite
        have hexited : .exited 0 ∈ pipe.wait _ := waitForProcess_exited hwait
        have hstatus := pipe.wait_exited _ _ hexited
        unfold Pipeline.script at hstatus ⊢
        rw [hdata, hjson] at hstatus ⊢
        obtain ⟨run, hrun, hshown, hplaced⟩ := inspectRb_ok hstatus.symm
        exact ⟨rfl, _, run, hrun, hshown, hplaced⟩
    · cases h

end Success

def Note.isFinding (a : Note) : Bool :=
  match a.kind with
  | .finding _ _ => true
  | _ => false

theorem filter_isFinding_map {α : Type} {f : α → Note} (h : ∀ x, (f x).isFinding = false)
    (l : List α) : (l.map f).filter Note.isFinding = [] := by
  apply List.filter_eq_nil_iff.mpr
  intro a ha
  obtain ⟨x, -, rfl⟩ := List.mem_map.mp ha
  simp [h x]

theorem annotations_findings (options : FDECheckerOptions δ) (cfi : CFI δ) (deep : Bool)
    (result : FDEResult) : (annotations options cfi deep result).filter Note.isFinding =
      (result.findings.filter fun f => decide (f.pc ≠ 0)).map Note.ofFinding := by
  have hrows := filter_isFinding_map (fun _ => rfl : ∀ row : CFIRow δ, (Note.ofRow row).isFinding = false)
    cfi.rows
  have htrace : (if deep then (insnTrace options cfi).map Note.ofTrace else []).filter
      Note.isFinding = [] := by
    split_ifs
    · exact filter_isFinding_map (fun _ => rfl) _
    · rfl
  have hguessed := filter_isFinding_map (fun _ => rfl : ∀ gjt, (Note.ofGuessed gjt).isFinding = false)
    result.guessedJumpTables
  have hfindings : ((result.findings.filter fun f => decide (f.pc ≠ 0)).map
      Note.ofFinding).filter Note.isFinding =
      (result.findings.filter fun f => decide (f.pc ≠ 0)).map Note.ofFinding := by
    apply List.filter_eq_self.mpr
    intro a ha
    obtain ⟨f, -, rfl⟩ := List.mem_map.mp ha
    rfl
  unfold annotations
  rw [List.filter_append, List.filter_append, List.filter_append, hrows, htrace, hguessed, hfindings]
  simp

/-- The findings `Run` prints itself after the listing. -/
def notices (result : FDEResult) : List Finding := result.findings.filter fun f => decide (f.pc = 0)

theorem findings_shown {sort : KindSort} {lines : List (List Char)}
    {options : FDECheckerOptions δ} {cfi : CFI δ} {deep : Bool} {result : FDEResult}
    (hnodup : (lines.filterMap addressOf).Nodup)
    (hplaced : ∀ a ∈ annotations options cfi deep result, a.pc.toNat ∈ lines.filterMap addressOf) :
    (((lines.flatMap (spliceLine sort (annotations options cfi deep result))).filterMap
        Shown.note?).filter Note.isFinding ++
      (notices result).map Note.ofFinding).Perm (result.findings.map Note.ofFinding) := by
  have hperm := (@annotations_splice_perm sort _ _ hnodup hplaced).filter Note.isFinding
  rw [annotations_findings] at hperm
  have hboth := hperm.append_right ((notices result).map Note.ofFinding)
  rw [← List.map_append] at hboth
  have hsplit := List.filter_append_perm (fun f : Finding => decide (f.pc ≠ 0)) result.findings
  have hnotices : notices result = result.findings.filter fun f => !decide (f.pc ≠ 0) := by
    simp [notices]
  rw [← hnotices] at hsplit
  exact hboth.trans (hsplit.map _)

/-- The driver's pipeline is this one. -/
def Pipeline.Drives (pipe : Pipeline) (tools : Tools δ) : Prop :=
  ∀ options cfi atFunctionEntry result,
    tools.runInspectPipeline options cfi atFunctionEntry = .ok result →
      (pipe.runInspectPipeline options cfi atFunctionEntry).2 = some (.ok result)

/-- The annotations of an FDE of a binary. -/
def Pipeline.annotationsOf (pipe : Pipeline) (tools : Tools δ) (z : Zydis) (flags : Flags)
    (bin : ELFBinary) (target : CFI δ) : List Note :=
  let options := checkerOptions tools z flags bin (checkable bin bin.readAllFDEs.1)
  annotations options target pipe.deep
    (checkWithGuessing options target (isFunctionStart bin target.pcBegin))

/-- An `--inspect` run either fails or shows what it has: the exit code is that of the full
checker's result on the first FDE over the address, every annotation stands above a line with its
address, and where `objdump` lists no address twice the findings in the listing and the notices
behind it are the findings of the result, each once. -/
theorem inspect_shows_findings {tools : Tools δ} {pipe : Pipeline} (hpipe : pipe.Drives tools)
    {z : Zydis} {flags : Flags} {bin : ELFBinary}
    (hjson : ∀ target ∈ checkable bin bin.readAllFDEs.1,
      pipe.Returns (pipe.annotationsOf tools z flags bin target)) (filters : Filters)
    (hexit : inspect tools z flags filters bin ≠ kExitFailure) :
    ∃ pc target argv run, filters.pc = some pc ∧
      (checkable bin bin.readAllFDEs.1).find? (fun cfi => decide (cfi.Covers pc)) = some target ∧
      pipe.objdump argv = some run ∧
      let options := checkerOptions tools z flags bin (checkable bin bin.readAllFDEs.1)
      let entry := isFunctionStart bin target.pcBegin
      let result := checkWithGuessing options target entry
      let as := annotations options target pipe.deep result
      let shown := (pipe.runInspectPipeline options target entry).1
      inspect tools z flags filters bin = exitCode [result] ∧
        shown = .argv argv :: run.lines.flatMap (spliceLine pipe.sort as) ∧
        (∀ a ∈ as, .note a ∈ shown) ∧
        ((run.lines.filterMap addressOf).Nodup →
          ((shown.filterMap Shown.note?).filter Note.isFinding ++
            (notices result).map Note.ofFinding).Perm
              (result.findings.map Note.ofFinding)) := by
  unfold inspect at hexit ⊢
  dsimp only at hexit ⊢
  cases hpc : filters.pc with
  | none =>
    rw [hpc] at hexit
    exact absurd rfl hexit
  | some pc =>
    rw [hpc] at hexit
    dsimp only at hexit ⊢
    cases htarget : (checkable bin bin.readAllFDEs.1).find? fun cfi : CFI δ => decide (cfi.Covers pc) with
    | none =>
      rw [htarget] at hexit
      exact absurd rfl hexit
    | some target =>
      rw [htarget] at hexit
      dsimp only at hexit
      cases hrun : tools.runInspectPipeline
          (checkerOptions tools z flags bin (checkable bin bin.readAllFDEs.1)) target
          (isFunctionStart bin target.pcBegin) with
      | error e =>
        rw [hrun] at hexit
        exact absurd rfl hexit
      | ok result =>
        obtain ⟨rfl, argv, run, hobjdump, hshown, hplaced⟩ :=
          Pipeline.runInspectPipeline_ok (hjson target (List.mem_of_find?_eq_some htarget))
            (hpipe _ _ _ _ hrun)
        refine ⟨pc, target, argv, run, rfl, htarget, hobjdump, ?_⟩
        dsimp only
        rw [hshown, hrun]
        refine ⟨rfl, rfl, ?_, ?_⟩
        · intro a ha
          exact List.mem_cons_of_mem _ (annotation_mem_splice ha (hplaced a ha))
        · intro hnodup
          exact findings_shown hnodup hplaced

namespace Sample

/-- A `push` that the one row does not know of, `nop`s and a `ret`. -/
def overlooked : ELFBinary :=
  { terminated with mem := fun a => if a = 0x1000 then 0x50 else terminated.mem a }

/-- What `objdump` prints for it. -/
def objdumpLines : List (List Char) :=
  ["\n".toList, "a.out:     file format elf64-x86-64\n".toList, "\n".toList,
      "Disassembly of section .text:\n".toList, "0000000000001000 <f>:\n".toList,
      "    1000".toList ++ [':', '\t'] ++ "50 push %rax\n".toList] ++
    ((List.range 14).map fun i => ("    " ++ showHex (0x1001 + BitVec.ofNat 64 i)).toList ++
      [':', '\t'] ++ "90 nop\n".toList) ++
    ["    100f".toList ++ [':', '\t'] ++ "c3 ret\n".toList]

/-- A text of JSON, for one without characters to be escaped. -/
def quoted (text : String) : List Char := '"' :: text.toList ++ ['"']

def member (key : String) (value : List Char) : List Char := quoted key ++ ':' :: value

def item (a : Note) : List Char :=
  let pc := member "pc" (toString a.pc.toNat).toList
  let text := member "text" (quoted a.text)
  let members := match a.kind with
    | .cfiRow => [member "kind" (quoted "cfi_row"), pc, text]
    | .state => [member "kind" (quoted "state"), pc, text]
    | .guessed => [member "kind" (quoted "guessed"), pc, text]
    | .finding severity repeats => [member "kind" (quoted "finding"), pc] ++
        (if 0 < repeats then [member "repeats" (toString repeats).toList] else []) ++
        [member "severity" (quoted (if severity = .mismatch then "mismatch" else "review")), text]
  "\x7b".toList ++ List.intercalate [','] members ++ "\x7d".toList

def dump (as : List Note) : List Char := '[' :: List.intercalate [','] (as.map item) ++ [']']

def overlookedFDEs : List (CFI Int64) := checkable overlooked overlooked.readAllFDEs.1

def overlookedOptions : FDECheckerOptions Int64 := checkerOptions tools decoder {} overlooked overlookedFDEs

def overlookedFDE : CFI Int64 := overlookedFDEs.headD leaf

def overlookedResult : FDEResult :=
  checkWithGuessing overlookedOptions overlookedFDE (isFunctionStart overlooked overlookedFDE.pcBegin)

def overlookedNotes : List Note := annotations overlookedOptions overlookedFDE false overlookedResult

/-- A parser that knows one text. -/
def pipeline : Pipeline where
  dump := dump
  parse text := if text = dump overlookedNotes then some overlookedNotes else none
  spawn _ := .ok 100
  writes := [.wrote 10, .interrupted, .wrote 4096]
  wait status := [.interrupted, .exited status]
  wait_exited status n h := by simpa using h
  objdump _ := some ⟨objdumpLines, 0⟩
  sort := .stable _
  binaryPath := "a.out"
  rubyScriptPath := "inspect.rb"
  deep := false
  color := false

def inspectTools : Tools Int64 :=
  { tools with
    runInspectPipeline options cfi atFunctionEntry :=
      ((pipeline.runInspectPipeline options cfi atFunctionEntry).2).getD (.error "") }

theorem pipeline_drives : pipeline.Drives inspectTools := by
  intro options cfi atFunctionEntry result h
  change ((pipeline.runInspectPipeline options cfi atFunctionEntry).2).getD (.error "") =
    .ok result at h
  cases hrun : (pipeline.runInspectPipeline options cfi atFunctionEntry).2 with
  | none =>
    rw [hrun] at h
    cases h
  | some r =>
    rw [hrun] at h
    exact congrArg some h

theorem overlookedFDEs_eq : overlookedFDEs = [overlookedFDE] := by
  have hlen : overlookedFDEs.length = 1 := by decide +kernel
  obtain ⟨cfi, hcfi⟩ := List.length_eq_one_iff.mp hlen
  rw [overlookedFDE, hcfi]
  rfl

theorem pipeline_returns : ∀ target ∈ checkable overlooked overlooked.readAllFDEs.1,
    pipeline.Returns (pipeline.annotationsOf inspectTools decoder {} overlooked target) := by
  intro target htarget
  have hmem : target ∈ overlookedFDEs := htarget
  rw [overlookedFDEs_eq, List.mem_singleton] at hmem
  subst hmem
  exact if_pos rfl

end Sample

/-- The two findings of a run that fails, each shown once, none as a notice. -/
theorem overlooked_inspected :
    inspect Sample.inspectTools Sample.decoder {} ⟨none, some 0x1004⟩ Sample.overlooked = kExitMismatch ∧
      Sample.overlookedResult.findings.map Finding.pc = [0x1001, 0x100f] ∧
      (((Sample.pipeline.runInspectPipeline Sample.overlookedOptions Sample.overlookedFDE
          (isFunctionStart Sample.overlooked Sample.overlookedFDE.pcBegin)).1.filterMap Shown.note?).filter
        Note.isFinding).Perm (Sample.overlookedResult.findings.map Note.ofFinding) := by
  have hexit : inspect Sample.inspectTools Sample.decoder {} ⟨none, some 0x1004⟩ Sample.overlooked =
      kExitMismatch := by
    decide +kernel
  have hpcs : Sample.overlookedResult.findings.map Finding.pc = [0x1001, 0x100f] := by decide +kernel
  refine ⟨hexit, hpcs, ?_⟩
  have hne : inspect Sample.inspectTools Sample.decoder {} ⟨none, some 0x1004⟩ Sample.overlooked ≠
      kExitFailure := by
    rw [hexit]
    decide
  obtain ⟨pc, target, argv, run, hpc, htarget, hrun, -, -, -, hperm⟩ :=
    inspect_shows_findings Sample.pipeline_drives Sample.pipeline_returns ⟨none, some 0x1004⟩ hne
  have hmem : target ∈ Sample.overlookedFDEs := List.mem_of_find?_eq_some htarget
  rw [Sample.overlookedFDEs_eq, List.mem_singleton] at hmem
  subst hmem
  obtain rfl : (⟨Sample.objdumpLines, 0⟩ : ObjdumpRun) = run := Option.some.inj hrun
  have hnodup : (Sample.objdumpLines.filterMap addressOf).Nodup := by decide +kernel
  have hshown := hperm hnodup
  have hnotices : notices Sample.overlookedResult = [] := by
    rw [notices, List.filter_eq_nil_iff]
    intro f hf
    have hfpc : f.pc ∈ Sample.overlookedResult.findings.map Finding.pc := List.mem_map_of_mem hf
    rw [hpcs] at hfpc
    have hnonzero : ∀ a ∈ [(0x1001 : Word), 0x100f], a ≠ 0 := by simp
    simpa using hnonzero f.pc hfpc
  have hleft : (((Sample.pipeline.runInspectPipeline Sample.overlookedOptions Sample.overlookedFDE
      (isFunctionStart Sample.overlooked Sample.overlookedFDE.pcBegin)).1.filterMap Shown.note?).filter
        Note.isFinding ++ (notices Sample.overlookedResult).map Note.ofFinding).Perm
      (Sample.overlookedResult.findings.map Note.ofFinding) := hshown
  rw [hnotices, List.map_nil, List.append_nil] at hleft
  exact hleft

end UnwindCheck
