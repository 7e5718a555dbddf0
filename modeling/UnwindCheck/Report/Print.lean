import UnwindCheck.Driver.Run
import UnwindCheck.Report.Listing
import UnwindCheck.Report.Names

/-! `PrintReport`: what is listed, in which order, and what is said about each address. -/
namespace UnwindCheck
variable {δ : Type} [Offset δ]

structure ReportOptions where
  showBlessed : Bool := false
  summaryOnly : Bool := false
  onlyMismatch : Bool := false
  onlyReview : Bool := false

def Verdict.toString : Verdict → String
  | .blessed => "BLESSED"
  | .reviewLight => "REVIEW-LIGHT"
  | .review => "REVIEW"
  | .mismatch => "MISMATCH"

/-- The position of the enumerator, which the listing is sorted by. -/
def Verdict.rank : Verdict → ℕ
  | .blessed => 0
  | .reviewLight => 1
  | .review => 2
  | .mismatch => 3

def shouldList (verdict : Verdict) (options : ReportOptions) : Bool :=
  if verdict = .blessed then options.showBlessed
  else if !options.onlyMismatch && !options.onlyReview then true
  else (options.onlyMismatch && decide (verdict = .mismatch)) ||
    (options.onlyReview && (decide (verdict = .review) || decide (verdict = .reviewLight)))

/-- What is said about addresses. -/
structure Naming where
  name : Word → String
  sourceLine : Word → String

def Symbolizer.naming (sym : Symbolizer) (host : Host) : Naming := ⟨sym.name host, sym.sourceLine⟩

/-- `ReportContext` -/
structure ReportContext (δ : Type) where
  lister : Lister
  cfiByPcBegin : Word → Option (CFI δ)

/-- The instructions of a result's FDE, when there are any to be shown. -/
def ReportContext.listingOf (ctx : ReportContext δ) (r : FDEResult) : List (ListedInsn δ) :=
  if r.pcBegin = r.pcEnd then []
  else match ctx.cfiByPcBegin r.pcBegin with
    | none => []
    | some cfi => ctx.lister.listInstructions cfi

namespace Naming
variable (naming : Naming)

def location (pc : Word) : String :=
  if naming.sourceLine pc = "" then "0x" ++ showHex pc
  else "0x" ++ showHex pc ++ " (" ++ naming.sourceLine pc ++ ")"

def printHeader (r : FDEResult) : String :=
  let name := naming.name r.pcBegin
  padRight 8 r.verdict.toString ++ " " ++ (if name = "" then "<no symbol>" else name) ++ "  [0x" ++
    showHex r.pcBegin ++ " - 0x" ++ showHex r.pcEnd ++ ")" ++
    (if r.signalFrame then "  (signal frame)" else "") ++ "\n"

def printFinding (listing : List (ListedInsn δ)) (f : Finding) : List String :=
  if f.pc = 0 then ["  " ++ f.message ++ "\n"]
  else
    let repeats := if 0 < f.repeats then " [and at " ++ toString f.repeats ++ " more addresses]" else ""
    ("  " ++ naming.location f.pc ++ ": " ++ f.message ++ repeats ++ "\n") ::
      if listing.isEmpty then [] else (appendFindingContext listing f.pc {}).getD []

def printGuessed (gjt : GuessedJumpTable) : List String :=
  ("  " ++ naming.location gjt.pc ++ ": guessed " ++ toString gjt.targets.length ++
    " switch-table entries (table at 0x" ++ showHex gjt.tableAddr ++ "), targets:\n") ::
    gjt.targets.map fun target => "      -> " ++ naming.location target ++ "\n"

def printOne (ctx : ReportContext δ) (r : FDEResult) : List String :=
  naming.printHeader r :: r.findings.flatMap (naming.printFinding (ctx.listingOf r)) ++
    r.guessedJumpTables.flatMap naming.printGuessed

end Naming

/-- Every address one entry of the report can mention. -/
def FDEResult.addresses (r : FDEResult) : List Word :=
  r.pcBegin :: r.findings.map Finding.pc ++
    r.guessedJumpTables.flatMap fun gjt => gjt.pc :: gjt.targets

/-- What is listed, in the order of `results`. -/
def listed (options : ReportOptions) (results : List FDEResult) : List FDEResult :=
  results.filter fun r => shouldList r.verdict options

/-- What is listed, in the order of the report. -/
def ordered (options : ReportOptions) (results : List FDEResult) : List FDEResult :=
  (listed options results).insertionSort fun a b => b.verdict.rank ≤ a.verdict.rank

def Summary.total (s : Summary) : ℕ := s.blessed + s.reviewLight + s.review + s.mismatch

def Summary.print (s : Summary) : String :=
  toString s.total ++ " FDEs: " ++ toString s.blessed ++ " blessed, " ++ toString s.reviewLight ++
    " review-light, " ++ toString s.review ++ " review, " ++ toString s.mismatch ++ " mismatch\n"

/-- `PrintReport`: its lines, and the symbolizer it leaves. -/
def printReport (tool : Addr2line) (host : Host) (sym : Symbolizer) (options : ReportOptions)
    (ctx : ReportContext δ) (results : List FDEResult) : List String × Symbolizer :=
  let sym := if options.summaryOnly then sym
    else sym.prepare tool ((listed options results).flatMap FDEResult.addresses)
  let entries := if options.summaryOnly then []
    else (ordered options results).flatMap ((sym.naming host).printOne ctx) ++
      if ordered options results = [] then [] else ["\n"]
  (entries ++ [(summarize results).print] ++
    if sym.disabledReason = "" then []
    else ["(source lines unavailable: " ++ sym.disabledReason ++ ")\n"], sym)

section Congr
variable {naming naming' : Naming}

theorem location_congr {pc : Word} (h : naming.sourceLine pc = naming'.sourceLine pc) :
    naming.location pc = naming'.location pc := by
  unfold Naming.location
  rw [h]

/-- An entry says nothing about addresses that are not among its own. -/
theorem printOne_congr (ctx : ReportContext δ) {r : FDEResult}
    (hname : naming.name r.pcBegin = naming'.name r.pcBegin)
    (hsource : ∀ pc ∈ r.addresses, naming.sourceLine pc = naming'.sourceLine pc) :
    naming.printOne ctx r = naming'.printOne ctx r := by
  have hheader : naming.printHeader r = naming'.printHeader r := by
    unfold Naming.printHeader
    rw [hname]
  have hfindings : r.findings.flatMap (naming.printFinding (ctx.listingOf r)) =
      r.findings.flatMap (naming'.printFinding (ctx.listingOf r)) := by
    apply List.flatMap_congr
    intro f hf
    have hpc : f.pc ∈ r.addresses :=
      List.mem_append_left _ (List.mem_cons_of_mem _ (List.mem_map_of_mem hf))
    unfold Naming.printFinding
    rw [location_congr (hsource f.pc hpc)]
  have hguessed : r.guessedJumpTables.flatMap naming.printGuessed =
      r.guessedJumpTables.flatMap naming'.printGuessed := by
    apply List.flatMap_congr
    intro gjt hgjt
    have hmem : ∀ pc ∈ gjt.pc :: gjt.targets, pc ∈ r.addresses := fun pc hpc =>
      List.mem_append_right _ (List.mem_flatMap.mpr ⟨gjt, hgjt, hpc⟩)
    have htargets : (gjt.targets.map fun target => "      -> " ++ naming.location target ++ "\n") =
        gjt.targets.map fun target => "      -> " ++ naming'.location target ++ "\n" := by
      apply List.map_congr_left
      intro target htarget
      rw [location_congr (hsource target (hmem target (List.mem_cons_of_mem _ htarget)))]
    unfold Naming.printGuessed
    rw [location_congr (hsource gjt.pc (hmem gjt.pc List.mem_cons_self)), htargets]
  unfold Naming.printOne
  rw [hheader, hfindings, hguessed]

end Congr

/-- The verdicts in the order of the report. -/
def reportOrder : List Verdict := [.mismatch, .review, .reviewLight, .blessed]

omit [Offset δ] in
theorem ordered_eq_groups (options : ReportOptions) (results : List FDEResult) :
    ordered options results = reportOrder.flatMap fun v =>
      if shouldList v options then results.filter fun r => decide (r.verdict = v) else [] := by
  have hranks : ∀ r ∈ listed options results, r.verdict.rank ∈ [3, 2, 1, 0] := by
    intro r _
    cases r.verdict <;> decide
  have hsorted := Lib.insertionSort_eq_groups (fun r : FDEResult => r.verdict.rank)
    (by decide : [3, 2, 1, 0].Pairwise (· > ·)) hranks
  have hgroup : ∀ v : Verdict, ((listed options results).filter fun r => decide (r.verdict.rank = v.rank)) =
      if shouldList v options then results.filter fun r => decide (r.verdict = v) else [] := by
    intro v
    have hrank : ∀ r : FDEResult, decide (r.verdict.rank = v.rank) = decide (r.verdict = v) := by
      intro r
      cases r.verdict <;> cases v <;> decide
    unfold listed
    rw [List.filter_filter]
    split_ifs with hlist
    · apply List.filter_congr
      intro r _
      rw [hrank]
      by_cases hv : r.verdict = v
      · simp [hv, hlist]
      · simp [hv]
    · apply List.filter_eq_nil_iff.mpr
      intro r _
      rw [hrank]
      by_cases hv : r.verdict = v
      · simp [hv, hlist]
      · simp [hv]
  have hverdicts : ([3, 2, 1, 0].flatMap fun k =>
      (listed options results).filter fun r => decide (r.verdict.rank = k)) =
      reportOrder.flatMap fun v =>
        (listed options results).filter fun r => decide (r.verdict.rank = v.rank) := rfl
  unfold ordered
  rw [hsorted, hverdicts]
  apply List.flatMap_congr
  intro v _
  exact hgroup v

/-- What is said about addresses when each is looked up by itself, by a tool that answers so. -/
def Symbolizer.plainNaming (sym : Symbolizer) (host : Host) (answer : Word → Answer) : Naming where
  name v := nameIn host sym.funcSymbols (if sym.useAddr2line then (answer v).name else "") v
  sourceLine v := if sym.useAddr2line then (answer v).source else ""

/-- The report as a reader would specify it: the results of each verdict in the order they came,
mismatches first, and the counts of all of them. -/
def plainReport (naming : Naming) (disabledReason : String) (options : ReportOptions)
    (ctx : ReportContext δ) (results : List FDEResult) : List String :=
  (if options.summaryOnly then []
    else (reportOrder.flatMap fun v =>
      if shouldList v options then
        (results.filter fun r => decide (r.verdict = v)).flatMap (naming.printOne ctx)
      else []) ++ if listed options results = [] then [] else ["\n"]) ++
    [(summarize results).print] ++
    if disabledReason = "" then [] else ["(source lines unavailable: " ++ disabledReason ++ ")\n"]

theorem Symbolizer.Fresh.naming_eq {sym : Symbolizer} (h : Fresh sym) {tool : Addr2line}
    {answer : Word → Answer} (htool : tool.Answers sym answer) (host : Host)
    {addresses : List Word} {pc : Word} (hpc : pc ∈ addresses) :
    ((sym.prepare tool addresses).naming host).name pc = (sym.plainNaming host answer).name pc ∧
      ((sym.prepare tool addresses).naming host).sourceLine pc =
        (sym.plainNaming host answer).sourceLine pc := by
  have hlookups := h.lookups htool [addresses] pc
  have hinformed := h.informed.prepare htool (h.orderly tool) addresses
  have hwanted : sym.wanted [addresses] pc = true ↔ sym.useAddr2line = true := by
    rw [Symbolizer.wanted_iff]
    exact ⟨fun hw => hw.1, fun huse => ⟨huse, addresses, List.mem_singleton_self _, hpc⟩⟩
  simp only [hwanted] at hlookups
  constructor
  · show nameIn host (sym.prepare tool addresses).funcSymbols
      ((sym.prepare tool addresses).debugName pc) pc = _
    rw [hinformed.funcSymbols]
    have hdebug : (sym.prepare tool addresses).debugName pc =
        if sym.useAddr2line = true then (answer pc).name else "" := hlookups.2
    rw [hdebug]
    rfl
  · exact hlookups.1

/-- One batched run of `addr2line` before anything is printed, and one sort: what comes out is the
report in which every address is looked up by itself and every verdict has its own list. -/
theorem printReport_plain (host : Host) (imagePath : String) (funcSymbols : List FuncSymbol)
    (hasDebugInfo : Bool) (mode : Addr2LineMode) (toolPath : String) {tool : Addr2line}
    {answer : Word → Answer}
    (htool : tool.Answers (.new host imagePath funcSymbols hasDebugInfo mode toolPath) answer)
    (options : ReportOptions) (ctx : ReportContext δ) (results : List FDEResult) :
    let sym := Symbolizer.new host imagePath funcSymbols hasDebugInfo mode toolPath
    (printReport tool host sym options ctx results).1 =
      plainReport (sym.plainNaming host answer) sym.disabledReason options ctx results := by
  intro sym
  have hfresh : sym.Fresh := Symbolizer.fresh_new host imagePath funcSymbols hasDebugInfo mode toolPath
  have hempty : ordered options results = [] ↔ listed options results = [] := by
    have hlen := List.length_insertionSort (fun a b : FDEResult => b.verdict.rank ≤ a.verdict.rank)
      (listed options results)
    rw [← List.length_eq_zero_iff, ← List.length_eq_zero_iff, ordered, hlen]
  unfold printReport plainReport
  cases hsummary : options.summaryOnly with
  | true => simp
  | false =>
    have hreason : (sym.prepare tool ((listed options results).flatMap
        FDEResult.addresses)).disabledReason = sym.disabledReason :=
      (hfresh.informed.prepare htool (hfresh.orderly tool) _).disabledReason
    have hentries : (ordered options results).flatMap (((sym.prepare tool ((listed options
        results).flatMap FDEResult.addresses)).naming host).printOne ctx) =
        (ordered options results).flatMap ((sym.plainNaming host answer).printOne ctx) := by
      apply List.flatMap_congr
      intro r hr
      have hlisted : r ∈ listed options results :=
        (List.perm_insertionSort _ _).mem_iff.mp hr
      have hmem : ∀ pc ∈ r.addresses, pc ∈ (listed options results).flatMap FDEResult.addresses :=
        fun pc hpc => List.mem_flatMap.mpr ⟨r, hlisted, hpc⟩
      apply printOne_congr
      · exact (hfresh.naming_eq htool host (hmem r.pcBegin List.mem_cons_self)).1
      · intro pc hpc
        exact (hfresh.naming_eq htool host (hmem pc hpc)).2
    have hgroups : (ordered options results).flatMap ((sym.plainNaming host answer).printOne ctx) =
        reportOrder.flatMap fun v => if shouldList v options then
          (results.filter fun r => decide (r.verdict = v)).flatMap
            ((sym.plainNaming host answer).printOne ctx) else [] := by
      rw [ordered_eq_groups, List.flatMap_assoc]
      apply List.flatMap_congr
      intro v _
      split_ifs
      · rfl
      · rfl
    simp only [Bool.false_eq_true, if_false, hreason, hentries, hgroups, hempty]

namespace Sample

/-- A review and a mismatch, in this order. -/
def twoResults : List FDEResult :=
  [⟨0x2000, 0x1000, 0x1004, false, .review, [⟨.review, 0, "gave up", 0⟩], 0, none, []⟩,
    ⟨0x2018, 0x1004, 0x1008, false, .mismatch, [⟨.mismatch, 0x1004, "wrong", 2⟩], 0, none, []⟩]

def noContext : ReportContext Int64 := ⟨unawareLister, fun _ => none⟩

end Sample

theorem twoResults_printed :
    (printReport Sample.addr2line Sample.host Sample.symbolizer {} Sample.noContext Sample.twoResults).1 =
      ["MISMATCH g+0x4  [0x1004 - 0x1008)\n",
        "  0x1004 (f.c:3): wrong [and at 2 more addresses]\n",
        "REVIEW   g  [0x1000 - 0x1004)\n",
        "  gave up\n",
        "\n",
        "2 FDEs: 0 blessed, 0 review-light, 1 review, 1 mismatch\n"] := by
  have hanswers := Sample.addr2line_answers Sample.symbolizer
  have hplain := printReport_plain Sample.host "a.out" Sample.symbols true .auto "" hanswers {}
    Sample.noContext Sample.twoResults
  exact hplain.trans (by decide +kernel)

end UnwindCheck
