import UnwindCheck.Report.Symbolizer

/-! What `Prepare` asks and learns over any number of calls. -/
namespace UnwindCheck

section Queue

theorem mem_enqueue {queried : Finset Word} {addresses : List Word} {a : Word} :
    (a ∈ (enqueue queried addresses).1 ↔ a ∈ queried ∨ a ∈ addresses) ∧
      (a ∈ (enqueue queried addresses).2 ↔ a ∈ addresses ∧ a ∉ queried) := by
  induction addresses generalizing queried with
  | nil => simp [enqueue]
  | cons b rest ih =>
    unfold enqueue
    split_ifs with hb
    · rw [ih.1, ih.2]
      constructor
      · rw [List.mem_cons]
        constructor
        · exact Or.imp_right Or.inr
        · intro h
          rcases h with h | rfl | h
          · exact Or.inl h
          · exact Or.inl hb
          · exact Or.inr h
      · rw [List.mem_cons]
        constructor
        · exact fun h => ⟨Or.inr h.1, h.2⟩
        · intro h
          rcases h.1 with rfl | hmem
          · exact absurd hb h.2
          · exact ⟨hmem, h.2⟩
    · constructor
      · rw [ih.1, Finset.mem_insert, List.mem_cons]
        tauto
      · rw [List.mem_cons, ih.2, Finset.mem_insert, List.mem_cons]
        constructor
        · intro h
          rcases h with rfl | ⟨hmem, hnot⟩
          · exact ⟨Or.inl rfl, hb⟩
          · exact ⟨Or.inr hmem, fun h => hnot (Or.inr h)⟩
        · intro h
          by_cases hab : a = b
          · exact Or.inl hab
          · refine Or.inr ⟨h.1.resolve_left hab, ?_⟩
            intro hin
            rcases hin with hin | hin
            · exact hab hin
            · exact h.2 hin

theorem nodup_enqueue (queried : Finset Word) (addresses : List Word) :
    (enqueue queried addresses).2.Nodup := by
  induction addresses generalizing queried with
  | nil => simp [enqueue]
  | cons b rest ih =>
    unfold enqueue
    split_ifs with hb
    · exact ih queried
    · rw [List.nodup_cons]
      constructor
      · intro h
        have hnot := (mem_enqueue.2.mp h).2
        exact hnot (Finset.mem_insert_self b queried)
      · exact ih (insert b queried)

/-- Without repetitions, sorting is all that happens to what is pending. -/
theorem sortPending_spec {pending : List Word} (h : pending.Nodup) :
    (Symbolizer.sortPending pending).Perm pending ∧
      (Symbolizer.sortPending pending).Pairwise fun a b => a.toNat < b.toNat := by
  have htotal : Std.Total fun a b : Word => a.toNat ≤ b.toNat := ⟨fun a b => Nat.le_total _ _⟩
  have htrans : IsTrans Word fun a b => a.toNat ≤ b.toNat := ⟨fun _ _ _ => Nat.le_trans⟩
  have hperm := List.perm_insertionSort (fun a b : Word => a.toNat ≤ b.toNat) pending
  have hsorted := List.pairwise_insertionSort (fun a b : Word => a.toNat ≤ b.toNat) pending
  have hne : (pending.insertionSort fun a b => a.toNat ≤ b.toNat).Pairwise (· ≠ ·) :=
    hperm.nodup_iff.mpr h
  have hlt : (pending.insertionSort fun a b => a.toNat ≤ b.toNat).Pairwise
      fun a b => a.toNat < b.toNat := by
    apply (hsorted.and hne).imp
    intro a b hab
    have hval : a.toNat ≠ b.toNat := fun heq => hab.2 (BitVec.eq_of_toNat_eq heq)
    omega
  have hself : Symbolizer.sortPending pending = pending.insertionSort fun a b => a.toNat ≤ b.toNat :=
    List.destutter_of_isChain _ _ hne.isChain
  rw [hself]
  exact ⟨hperm, hlt⟩

end Queue

namespace Symbolizer

/-- The batches are asked in order up to the first that cannot be, and that one ends it. -/
theorem askAll_spec (tool : Addr2line) (sym : Symbolizer) (batches : List (List Word)) :
    ∃ done rest info ran, batches = done ++ rest ∧ (ran = true → rest = []) ∧
      askAll tool sym batches =
        { sym with
          info := info
          asked := sym.asked ++ done
          disabledReason := if ran then sym.disabledReason else "could not run addr2line"
          useAddr2line := ran && sym.useAddr2line } ∧
      ∀ i batch, done[i]? = some batch → tool (sym.asked.length + i) (sym.argv batch) = none →
        ran = false ∧ i + 1 = done.length := by
  induction batches generalizing sym with
  | nil => exact ⟨[], [], sym.info, true, rfl, fun _ => rfl, by simp [askAll], by simp⟩
  | cons batch batches ih =>
    unfold askAll
    split
    · refine ⟨[batch], batches, sym.info, false, rfl, by simp, by simp, ?_⟩
      intro i b hi _
      obtain ⟨hlt, -⟩ := List.getElem?_eq_some_iff.mp hi
      rw [List.length_singleton] at hlt ⊢
      exact ⟨rfl, by omega⟩
    · rename_i output houtput
      obtain ⟨done, rest, info, ran, hsplit, hran, heq, hlast⟩ := ih
        { sym with
          info := sym.info.readAnswers batch output
          asked := sym.asked ++ [batch] }
      refine ⟨batch :: done, rest, info, ran, by rw [hsplit]; rfl, hran, by simpa using heq, ?_⟩
      intro i b hi hnone
      cases i with
      | zero =>
        have hb : batch = b := by simpa using hi
        subst hb
        rw [Nat.add_zero, houtput] at hnone
        cases hnone
      | succ i =>
        have hlen : (sym.asked ++ [batch]).length + i = sym.asked.length + (i + 1) := by
          rw [List.length_append, List.length_singleton]
          omega
        have h := hlast i b (by simpa using hi) (by
          dsimp only
          rw [hlen]
          exact hnone)
        rw [List.length_cons]
        exact ⟨h.1, by omega⟩

/-- What is kept from call to call; `mentioned` are the addresses of all calls so far. -/
structure Orderly (tool : Addr2line) (mentioned : Word → Prop) (sym : Symbolizer) : Prop where
  nodup : sym.asked.flatten.Nodup
  batches : ∀ batch ∈ sym.asked,
    batch ≠ [] ∧ batch.length ≤ kBatchSize ∧ batch.Pairwise fun a b => a.toNat < b.toNat
  queried : ∀ a ∈ sym.asked.flatten, a ∈ sym.queried
  mentions : ∀ a ∈ sym.queried, mentioned a
  complete : sym.useAddr2line = true → ∀ a, mentioned a → a ∈ sym.asked.flatten
  failed : ∀ i batch, sym.asked[i]? = some batch → tool i (sym.argv batch) = none →
    sym.useAddr2line = false ∧ i + 1 = sym.asked.length

/-- What is pending in a call: the new addresses, in ascending order. -/
theorem pending_spec (queried : Finset Word) (addresses : List Word) :
    (sortPending (enqueue queried addresses).2).Nodup ∧
      (sortPending (enqueue queried addresses).2).Pairwise (fun a b => a.toNat < b.toNat) ∧
      ∀ a, a ∈ sortPending (enqueue queried addresses).2 ↔ a ∈ addresses ∧ a ∉ queried := by
  have hnodup := nodup_enqueue queried addresses
  obtain ⟨hperm, hlt⟩ := sortPending_spec hnodup
  refine ⟨hperm.nodup_iff.mpr hnodup, hlt, ?_⟩
  intro a
  rw [hperm.mem_iff, mem_enqueue.2]

theorem Orderly.prepare {tool : Addr2line} {mentioned : Word → Prop} {sym : Symbolizer}
    (h : Orderly tool mentioned sym) (addresses : List Word) :
    Orderly tool (fun a => mentioned a ∨ a ∈ addresses) (sym.prepare tool addresses) := by
  unfold Symbolizer.prepare
  split_ifs with hskip
  · refine ⟨h.nodup, h.batches, h.queried, fun a ha => Or.inl (h.mentions a ha), ?_, h.failed⟩
    intro huse a ha
    rcases hskip with hoff | hnil
    · rw [hoff] at huse
      cases huse
    · subst hnil
      exact h.complete huse a (ha.resolve_right List.not_mem_nil)
  · have huse : sym.useAddr2line = true := by
      by_contra hoff
      exact hskip (Or.inl (Bool.eq_false_iff.mpr hoff))
    obtain ⟨hnodup, hlt, hmem⟩ := pending_spec sym.queried addresses
    obtain ⟨done, rest, info, ran, hsplit, hran, heq, hlast⟩ := askAll_spec tool
      { sym with queried := (enqueue sym.queried addresses).1 }
      (Lib.batches kBatchSize (sortPending (enqueue sym.queried addresses).2))
    have hflat := Lib.batches_flatten kBatchSize (sortPending (enqueue sym.queried addresses).2)
    rw [hsplit, List.flatten_append] at hflat
    have hdone : done.flatten.Sublist (sortPending (enqueue sym.queried addresses).2) := by
      rw [← hflat]
      exact List.sublist_append_left _ _
    dsimp only
    rw [heq]
    constructor
    · rw [List.flatten_append, List.nodup_append]
      refine ⟨h.nodup, hnodup.sublist hdone, ?_⟩
      intro a ha b hb hab
      subst hab
      exact ((hmem a).mp (hdone.subset hb)).2 (h.queried a ha)
    · intro batch hbatch
      rcases List.mem_append.mp hbatch with hold | hnew
      · exact h.batches batch hold
      · have hin : batch ∈ Lib.batches kBatchSize (sortPending (enqueue sym.queried addresses).2) := by
          rw [hsplit]
          exact List.mem_append_left rest hnew
        obtain ⟨hne, hlen⟩ := Lib.of_mem_batches (by decide) hin
        exact ⟨hne, hlen, (hlt.sublist hdone).sublist (List.sublist_flatten_of_mem hnew)⟩
    · intro a ha
      rw [List.flatten_append, List.mem_append] at ha
      apply mem_enqueue.1.mpr
      rcases ha with ha | ha
      · exact Or.inl (h.queried a ha)
      · exact Or.inr ((hmem a).mp (hdone.subset ha)).1
    · intro a ha
      exact (mem_enqueue.1.mp ha).imp_left (h.mentions a)
    · intro hstill a ha
      have hrest : rest = [] := hran (Bool.and_eq_true_iff.mp hstill).1
      subst hrest
      rw [List.flatten_nil, List.append_nil] at hflat
      rw [List.flatten_append, List.mem_append, hflat, hmem]
      by_cases hq : a ∈ sym.queried
      · exact Or.inl (h.complete huse a (h.mentions a hq))
      · refine Or.inr ⟨ha.resolve_left ?_, hq⟩
        intro hm
        exact hq (h.queried a (h.complete huse a hm))
    · intro i batch hi hnone
      have hi : (sym.asked ++ done)[i]? = some batch := hi
      change (ran && sym.useAddr2line) = false ∧ i + 1 = (sym.asked ++ done).length
      by_cases hold : i < sym.asked.length
      · rw [List.getElem?_append_left hold] at hi
        have hoff := (h.failed i batch hi hnone).1
        rw [huse] at hoff
        cases hoff
      · have hi' : done[i - sym.asked.length]? = some batch := by
          rw [List.getElem?_append_right (by omega)] at hi
          exact hi
        have hpos : sym.asked.length + (i - sym.asked.length) = i := by omega
        obtain ⟨hoff, hend⟩ := hlast (i - sym.asked.length) batch hi' (by
          dsimp only
          rw [hpos]
          exact hnone)
        rw [List.length_append, hoff, Bool.false_and]
        exact ⟨rfl, by omega⟩

theorem Orderly.prepareAll {tool : Addr2line} {mentioned : Word → Prop} {sym : Symbolizer}
    (h : Orderly tool mentioned sym) (calls : List (List Word)) :
    Orderly tool (fun a => mentioned a ∨ ∃ addresses ∈ calls, a ∈ addresses)
      (sym.prepareAll tool calls) := by
  induction calls generalizing mentioned sym with
  | nil => simpa [Symbolizer.prepareAll] using h
  | cons addresses calls ih =>
    have hrest := ih (h.prepare addresses)
    simpa only [Symbolizer.prepareAll, List.foldl_cons, List.exists_mem_cons_iff, or_assoc] using hrest

/-- Nothing asked, nothing known. -/
structure Fresh (sym : Symbolizer) : Prop where
  info : sym.info = {}
  queried : sym.queried = ∅
  asked : sym.asked = []

theorem fresh_new (host : Host) (imagePath : String) (funcSymbols : List FuncSymbol)
    (hasDebugInfo : Bool) (mode : Addr2LineMode) (toolPath : String) :
    Fresh (new host imagePath funcSymbols hasDebugInfo mode toolPath) := by
  unfold new
  dsimp only
  split
  · exact ⟨rfl, rfl, rfl⟩
  · split_ifs <;> exact ⟨rfl, rfl, rfl⟩
  · split_ifs <;> exact ⟨rfl, rfl, rfl⟩

theorem Fresh.orderly {sym : Symbolizer} (h : Fresh sym) (tool : Addr2line) :
    Orderly tool (fun _ => False) sym := by
  constructor
  · simp [h.asked]
  · simp [h.asked]
  · simp [h.asked]
  · simp [h.queried]
  · exact fun _ _ hfalse => hfalse.elim
  · simp [h.asked]

/-- Whatever `addr2line` does and however the addresses are spread over calls: no address is asked
twice, no command line is empty, too long or out of order, none asks what nobody mentioned, one that
could not be run is the last there ever is, and while the tool is in use everything mentioned has
been asked. -/
theorem prepareAll_asks_once (host : Host) (imagePath : String) (funcSymbols : List FuncSymbol)
    (hasDebugInfo : Bool) (mode : Addr2LineMode) (toolPath : String) (tool : Addr2line)
    (calls : List (List Word)) :
    let sym := (new host imagePath funcSymbols hasDebugInfo mode toolPath).prepareAll tool calls
    sym.asked.flatten.Nodup ∧
      (∀ batch ∈ sym.asked, batch ≠ [] ∧ batch.length ≤ kBatchSize ∧
        batch.Pairwise fun a b => a.toNat < b.toNat) ∧
      (∀ a ∈ sym.asked.flatten, ∃ addresses ∈ calls, a ∈ addresses) ∧
      (∀ i batch, sym.asked[i]? = some batch → tool i (sym.argv batch) = none →
        sym.useAddr2line = false ∧ i + 1 = sym.asked.length) ∧
      (sym.useAddr2line = true →
        ∀ addresses ∈ calls, ∀ a ∈ addresses, a ∈ sym.asked.flatten) := by
  have hfresh := fresh_new host imagePath funcSymbols hasDebugInfo mode toolPath
  have h := (hfresh.orderly tool).prepareAll calls
  refine ⟨h.nodup, h.batches, ?_, h.failed, ?_⟩
  · intro a ha
    exact (h.mentions a (h.queried a ha)).resolve_left id
  · intro huse addresses haddresses a ha
    exact h.complete huse a (Or.inr ⟨addresses, haddresses, ha⟩)

end Symbolizer

section Fields

theorem takeWhile_append_newline (line : List Char) :
    (line ++ ['\n']).takeWhile (· ≠ Char.ofNat 0) = line.takeWhile (· ≠ Char.ofNat 0) ∨
      (line ++ ['\n']).takeWhile (· ≠ Char.ofNat 0) = line.takeWhile (· ≠ Char.ofNat 0) ++ ['\n'] := by
  induction line with
  | nil => exact Or.inr (by decide)
  | cons c line ih =>
    rw [List.cons_append, List.takeWhile_cons, List.takeWhile_cons]
    split_ifs
    · rcases ih with h | h
      · exact Or.inl (congrArg (c :: ·) h)
      · exact Or.inr (congrArg (c :: ·) h)
    · exact Or.inl rfl

theorem stripAsciiWhitespace_append_newline (text : List Char) :
    stripAsciiWhitespace (text ++ ['\n']) = stripAsciiWhitespace text := by
  unfold stripAsciiWhitespace
  rw [List.dropWhile_append]
  split_ifs with hall
  · have hnil : text.dropWhile isAsciiSpace = [] := List.isEmpty_iff.mp hall
    rw [hnil]
    decide
  · exact List.rdropWhile_concat_pos _ _ _ (by decide)

/-- The newline is no part of what a line says. -/
theorem fieldOf_append_newline (line : List Char) : fieldOf (line ++ ['\n']) = fieldOf line := by
  have hstrip : stripAsciiWhitespace ((line ++ ['\n']).takeWhile (· ≠ Char.ofNat 0)) =
      stripAsciiWhitespace (line.takeWhile (· ≠ Char.ofNat 0)) := by
    rcases takeWhile_append_newline line with h | h
    · rw [h]
    · rw [h, stripAsciiWhitespace_append_newline]
  unfold fieldOf
  rw [hstrip]

end Fields

/-- The two lines `addr2line -f` has for an address. -/
structure Answer where
  function : List Char
  location : List Char

namespace Answer
variable (answer : Answer)

def lines : List Char := answer.function ++ '\n' :: (answer.location ++ ['\n'])

/-- The source line, empty when it is not known. -/
def source : String := fieldOf answer.location

/-- The name, empty when it is not known or comes without a source line. -/
def name : String := if answer.source = "" then "" else fieldOf answer.function

/-- Both lines fit into the buffer they are read through. -/
structure Fits : Prop where
  function : '\n' ∉ answer.function ∧ answer.function.length + 1 < 4096
  location : '\n' ∉ answer.location ∧ answer.location.length + 1 < 4096

end Answer

/-- A tool that answers every address it is asked with two lines, in order. -/
structure Addr2line.Answers (tool : Addr2line) (sym : Symbolizer) (answer : Word → Answer) : Prop where
  fits : ∀ a, (answer a).Fits
  output : ∀ earlier batch, batch.length ≤ kBatchSize →
    tool earlier (sym.argv batch) = some (batch.flatMap fun a => (answer a).lines)

/-- The map holds what `value` says of `K` where it says anything. -/
def Recorded (value : Word → String) (K : List Word) (m : Word → Option String) : Prop :=
  ∀ a v, m a = some v ↔ a ∈ K ∧ value a ≠ "" ∧ v = value a

section Recorded
variable {value : Word → String} {K : List Word} {m : Word → Option String} {a : Word}

theorem Recorded.skip (h : Recorded value K m) (hempty : value a = "") :
    Recorded value (K ++ [a]) m := by
  intro b v
  rw [h b v]
  by_cases hb : b = a
  · subst hb
    simp [hempty]
  · simp [hb]

theorem Recorded.eq_none (h : Recorded value K m) (ha : a ∉ K) : m a = none := by
  apply Option.eq_none_iff_forall_ne_some.mpr
  intro v hv
  exact ha ((h a v).mp hv).1

theorem Recorded.emplace (h : Recorded value K m) (ha : a ∉ K) (hvalue : value a ≠ "") :
    Recorded value (K ++ [a]) (UnwindCheck.emplace m a (value a)) := by
  have hnone : m a = none := h.eq_none ha
  intro b v
  by_cases hb : b = a
  · subst hb
    simp [UnwindCheck.emplace, hnone, hvalue, eq_comm]
  · simp [UnwindCheck.emplace, hnone, hb, h b v]

theorem Recorded.getD (h : Recorded value K m) :
    (a ∈ K → (m a).getD "" = value a) ∧ (a ∉ K → (m a).getD "" = "") := by
  constructor
  · intro ha
    by_cases hempty : value a = ""
    · have hnone : m a = none := by
        apply Option.eq_none_iff_forall_ne_some.mpr
        intro v hv
        exact ((h a v).mp hv).2.1 hempty
      rw [hnone, hempty]
      rfl
    · rw [(h a (value a)).mpr ⟨ha, hempty, rfl⟩]
      rfl
  · intro ha
    rw [h.eq_none ha]
    rfl

end Recorded

namespace DebugInfo
variable {answer : Word → Answer} {K : List Word} {info : DebugInfo}

/-- The answers to `K` and nothing else. -/
structure Knows (answer : Word → Answer) (K : List Word) (info : DebugInfo) : Prop where
  lines : Recorded (fun a => (answer a).source) K info.sourceLines
  names : Recorded (fun a => (answer a).name) K info.debugNames

theorem Knows.learn (h : Knows answer K info) {a : Word} (ha : a ∉ K) :
    Knows answer (K ++ [a])
      (info.learn a (fieldOf (answer a).function) (fieldOf (answer a).location)) := by
  unfold DebugInfo.learn
  by_cases hloc : fieldOf (answer a).location = ""
  · -- nothing is kept of an address without a source line
    have hsource : (answer a).source = "" := hloc
    have hnone : (answer a).name = "" := by simp [Answer.name, hsource]
    rw [if_pos hloc]
    exact ⟨h.lines.skip hsource, h.names.skip hnone⟩
  · have hsource : (answer a).source ≠ "" := hloc
    have hname : fieldOf (answer a).function = (answer a).name := by simp [Answer.name, hsource]
    rw [if_neg hloc, hname]
    refine ⟨h.lines.emplace ha hsource, ?_⟩
    dsimp only
    split_ifs with hempty
    · exact h.names.skip hempty
    · exact h.names.emplace ha hempty

/-- The pairing of lines with addresses, through one batch. -/
theorem Knows.readAnswers (hfits : ∀ a, (answer a).Fits) (h : Knows answer K info) {batch : List Word}
    (hnodup : batch.Nodup) (hnew : ∀ a ∈ batch, a ∉ K) (rest : List Char) :
    Knows answer (K ++ batch)
      (info.readAnswers batch ((batch.flatMap fun a => (answer a).lines) ++ rest)) := by
  induction batch generalizing K info with
  | nil => simpa [DebugInfo.readAnswers] using h
  | cons a batch ih =>
    obtain ⟨hfirst, hrest⟩ := List.nodup_cons.mp hnodup
    obtain ⟨⟨hfnl, hflen⟩, hlnl, hllen⟩ := hfits a
    have hpipe : ((a :: batch).flatMap fun a => (answer a).lines) ++ rest =
        (answer a).function ++ '\n' :: ((answer a).location ++
          '\n' :: ((batch.flatMap fun a => (answer a).lines) ++ rest)) := by
      simp [Answer.lines]
    have hlearned := h.learn (hnew a List.mem_cons_self)
    have hnext := ih hlearned hrest (by
      intro b hb hin
      rcases List.mem_append.mp hin with hin | hin
      · exact hnew b (List.mem_cons_of_mem a hb) hin
      · rw [List.mem_singleton.mp hin] at hb
        exact hfirst hb)
    rw [hpipe, DebugInfo.readAnswers, Lib.fgets_line hfnl hflen]
    dsimp only
    rw [Lib.fgets_line hlnl hllen]
    dsimp only
    rw [fieldOf_append_newline, fieldOf_append_newline]
    simpa using hnext

end DebugInfo

namespace Symbolizer
variable {tool : Addr2line} {answer : Word → Answer} {sym : Symbolizer}

/-- What is asked is what is known, and no call has failed. -/
structure Informed (answer : Word → Answer) (start sym : Symbolizer) : Prop where
  knows : sym.info.Knows answer sym.asked.flatten
  imagePath : sym.imagePath = start.imagePath
  toolPath : sym.toolPath = start.toolPath
  funcSymbols : sym.funcSymbols = start.funcSymbols
  useAddr2line : sym.useAddr2line = start.useAddr2line
  disabledReason : sym.disabledReason = start.disabledReason

theorem Informed.askAll {start : Symbolizer} (htool : tool.Answers start answer)
    (h : Informed answer start sym) {batches : List (List Word)}
    (hlen : ∀ batch ∈ batches, batch.length ≤ kBatchSize)
    (hnodup : (sym.asked ++ batches).flatten.Nodup) :
    Informed answer start (Symbolizer.askAll tool sym batches) := by
  induction batches generalizing sym with
  | nil => exact h
  | cons batch batches ih =>
    have hargv : sym.argv batch = start.argv batch := by
      simp [Symbolizer.argv, h.toolPath, h.imagePath]
    have houtput : tool sym.asked.length (sym.argv batch) =
        some (batch.flatMap fun a => (answer a).lines) := by
      rw [hargv]
      exact htool.output _ batch (hlen batch List.mem_cons_self)
    rw [Symbolizer.askAll, houtput]
    dsimp only
    have hsplit := hnodup
    rw [List.flatten_append, List.flatten_cons, List.nodup_append] at hsplit
    obtain ⟨-, hbatch, hapart⟩ := hsplit
    have hnew : ∀ a ∈ batch, a ∉ sym.asked.flatten := by
      intro a ha hin
      exact hapart a hin a (List.mem_append_left _ ha) rfl
    have hread := h.knows.readAnswers htool.fits (List.nodup_append.mp hbatch).1 hnew []
    rw [List.append_nil] at hread
    apply ih
    · exact ⟨by simpa using hread, h.imagePath, h.toolPath, h.funcSymbols, h.useAddr2line,
        h.disabledReason⟩
    · exact fun b hb => hlen b (List.mem_cons_of_mem batch hb)
    · simpa using hnodup

theorem Informed.prepare {start : Symbolizer} {mentioned : Word → Prop}
    (htool : tool.Answers start answer) (h : Informed answer start sym)
    (horder : Orderly tool mentioned sym) (addresses : List Word) :
    Informed answer start (sym.prepare tool addresses) := by
  unfold Symbolizer.prepare
  split_ifs with hskip
  · exact h
  · obtain ⟨hnodup, -, hmem⟩ := pending_spec sym.queried addresses
    apply Informed.askAll htool
    · exact ⟨h.knows, h.imagePath, h.toolPath, h.funcSymbols, h.useAddr2line, h.disabledReason⟩
    · exact fun batch hbatch => (Lib.of_mem_batches (by decide) hbatch).2
    · rw [List.flatten_append, Lib.batches_flatten, List.nodup_append]
      refine ⟨horder.nodup, hnodup, ?_⟩
      intro a ha b hb hab
      subst hab
      exact ((hmem a).mp hb).2 (horder.queried a ha)

theorem Informed.prepareAll {start : Symbolizer} {mentioned : Word → Prop}
    (htool : tool.Answers start answer) (h : Informed answer start sym)
    (horder : Orderly tool mentioned sym) (calls : List (List Word)) :
    Informed answer start (sym.prepareAll tool calls) := by
  induction calls generalizing sym mentioned with
  | nil => exact h
  | cons addresses calls ih =>
    exact ih (h.prepare htool horder addresses) (horder.prepare addresses)

theorem Fresh.informed (h : Fresh sym) : Informed answer sym sym := by
  refine ⟨?_, rfl, rfl, rfl, rfl, rfl⟩
  constructor
  · intro a
    simp [h.info, h.asked]
  · intro a
    simp [h.info, h.asked]

theorem prepareAll_of_off (hoff : sym.useAddr2line = false) (calls : List (List Word)) :
    sym.prepareAll tool calls = sym := by
  induction calls with
  | nil => rfl
  | cons addresses calls ih =>
    have hskip : sym.prepare tool addresses = sym := by simp [Symbolizer.prepare, hoff]
    rw [Symbolizer.prepareAll, List.foldl_cons, hskip]
    exact ih

/-- Whether the tool is used at all, and for this address. -/
def wanted (sym : Symbolizer) (calls : List (List Word)) (a : Word) : Bool :=
  sym.useAddr2line && calls.any fun addresses => addresses.contains a

theorem wanted_iff (sym : Symbolizer) (calls : List (List Word)) (a : Word) :
    sym.wanted calls a = true ↔ sym.useAddr2line = true ∧ ∃ addresses ∈ calls, a ∈ addresses := by
  simp [wanted]

theorem Fresh.mem_asked (h : Fresh sym) (htool : tool.Answers sym answer) (calls : List (List Word))
    (a : Word) : a ∈ (sym.prepareAll tool calls).asked.flatten ↔ sym.wanted calls a = true := by
  have horder := (h.orderly tool).prepareAll calls
  have hinfo := h.informed.prepareAll htool (h.orderly tool) calls
  rw [wanted_iff]
  constructor
  · intro ha
    refine ⟨?_, (horder.mentions a (horder.queried a ha)).resolve_left id⟩
    by_contra hoff
    rw [prepareAll_of_off (Bool.eq_false_iff.mpr hoff), h.asked] at ha
    cases ha
  · intro hm
    exact horder.complete (hinfo.useAddr2line.trans hm.1) a (Or.inr hm.2)

theorem Fresh.lookups (h : Fresh sym) (htool : tool.Answers sym answer) (calls : List (List Word))
    (a : Word) :
    (sym.prepareAll tool calls).sourceLine a =
        (if sym.wanted calls a then (answer a).source else "") ∧
      (sym.prepareAll tool calls).debugName a =
        (if sym.wanted calls a then (answer a).name else "") := by
  have hinfo := h.informed.prepareAll htool (h.orderly tool) calls
  have hasked := h.mem_asked htool calls a
  unfold Symbolizer.sourceLine Symbolizer.debugName
  split_ifs with hwanted
  · have hmem := hasked.mpr hwanted
    exact ⟨hinfo.knows.lines.getD.1 hmem, hinfo.knows.names.getD.1 hmem⟩
  · have hnot := mt hasked.mp hwanted
    exact ⟨hinfo.knows.lines.getD.2 hnot, hinfo.knows.names.getD.2 hnot⟩

/-- Batching is invisible: however the addresses are spread over calls and command lines, each
has the source line and the name the tool has for it alone, and no other address has any. -/
theorem prepareAll_lookups (host : Host) (imagePath : String) (funcSymbols : List FuncSymbol)
    (hasDebugInfo : Bool) (mode : Addr2LineMode) (toolPath : String)
    (htool : tool.Answers (new host imagePath funcSymbols hasDebugInfo mode toolPath) answer)
    (calls : List (List Word)) (a : Word) :
    let start := new host imagePath funcSymbols hasDebugInfo mode toolPath
    let sym := start.prepareAll tool calls
    sym.sourceLine a = (if start.wanted calls a then (answer a).source else "") ∧
      sym.debugName a = (if start.wanted calls a then (answer a).name else "") :=
  (fresh_new host imagePath funcSymbols hasDebugInfo mode toolPath).lookups htool calls a

end Symbolizer

namespace Sample

/-- A host with every tool, on which nothing is mangled. -/
def host : Host := ⟨some "/usr/bin", fun _ => true, fun _ => none⟩

def symbols : List FuncSymbol := [⟨0x1000, 16, "f"⟩, ⟨0x1000, 16, "g"⟩, ⟨0x1020, 0, "h"⟩]

/-- Debug information for one address. -/
def answerTo (arg : String) : Answer :=
  if arg = "0x1004" then ⟨"f".toList, "f.c:3".toList⟩ else ⟨"??".toList, "??:0".toList⟩

def addr2line : Addr2line := fun _ argv => some ((argv.drop 5).flatMap fun arg => (answerTo arg).lines)

def symbolizer : Symbolizer := .new host "a.out" symbols true .auto ""

theorem answerTo_fits (arg : String) : (answerTo arg).Fits := by
  unfold answerTo
  split_ifs
  · exact ⟨by decide, by decide⟩
  · exact ⟨by decide, by decide⟩

theorem addr2line_answers (sym : Symbolizer) :
    addr2line.Answers sym fun a => answerTo ("0x" ++ showHex a) where
  fits a := answerTo_fits _
  output earlier batch _ := by
    simp [addr2line, Symbolizer.argv, List.flatMap_map]

end Sample

theorem two_calls_looked_up :
    let sym := Sample.symbolizer.prepareAll Sample.addr2line [[0x1004, 0x1008], [0x1004]]
    sym.sourceLine 0x1004 = "f.c:3" ∧ sym.debugName 0x1004 = "f" ∧ sym.sourceLine 0x1008 = "" := by
  have hanswers := Sample.addr2line_answers Sample.symbolizer
  have hat := Symbolizer.prepareAll_lookups Sample.host "a.out" Sample.symbols true .auto "" hanswers
    [[0x1004, 0x1008], [0x1004]]
  refine ⟨(hat 0x1004).1.trans ?_, (hat 0x1004).2.trans ?_, (hat 0x1008).1.trans ?_⟩
  · decide +kernel
  · decide +kernel
  · decide +kernel

end UnwindCheck
