import UnwindCheck.Offset

/-! Findings, the sink that folds and caps them, and the verdict read off what is left. -/
namespace UnwindCheck

inductive Severity where
  | review
  | mismatch
  deriving DecidableEq, Repr

inductive Verdict where
  | blessed
  | reviewLight
  | review
  | mismatch
  deriving DecidableEq, Repr

/-- One call of `FindingSink::Add`. -/
structure Report where
  severity : Severity
  pc : Word
  message : String
  deriving DecidableEq, Repr

/-- A reported finding, with the number of further calls that repeated its message. -/
structure Finding where
  severity : Severity
  pc : Word
  message : String
  repeats : ℕ
  deriving DecidableEq, Repr

/-- The finding says what the call said. -/
def Finding.Of (f : Finding) (r : Report) : Prop :=
  f.severity = r.severity ∧ f.pc = r.pc ∧ f.message = r.message

/-- The sink. `index_` is the position of a message in `findings`, so it is not stored apart. -/
structure FindingSink where
  cap : ℕ
  truncated : ℕ
  findings : List Finding
  deriving DecidableEq, Repr

namespace FindingSink

def new (cap : ℕ) : FindingSink := ⟨cap, 0, []⟩

def add (sink : FindingSink) (r : Report) : FindingSink :=
  match sink.findings.findIdx? (·.message = r.message) with
  | some i =>
    { sink with findings := sink.findings.modify i fun f => { f with repeats := f.repeats + 1 } }
  | none =>
    if sink.cap ≤ sink.findings.length then { sink with truncated := sink.truncated + 1 }
    else { sink with findings := sink.findings ++ [⟨r.severity, r.pc, r.message, 0⟩] }

def addAll (sink : FindingSink) (rs : List Report) : FindingSink := rs.foldl add sink

def take (sink : FindingSink) : List Finding :=
  if 0 < sink.truncated then
    sink.findings ++
      [⟨.review, 0, toString sink.truncated ++ " further distinct findings not shown", 0⟩]
  else sink.findings

end FindingSink

/-- The loop at the end of `FDEChecker::Run`. -/
def verdictLoop (v : Verdict) : List Finding → Verdict
  | [] => v
  | f :: fs => if f.severity = .mismatch then .mismatch else verdictLoop .review fs

def verdictOf (findings : List Finding) : Verdict := verdictLoop .blessed findings

/-- The verdict of a run that made exactly these calls. -/
def sinkVerdict (cap : ℕ) (rs : List Report) : Verdict :=
  verdictOf ((FindingSink.new cap).addAll rs).take

theorem verdictLoop_mismatch {v : Verdict} (hv : v ≠ .mismatch) (fs : List Finding) :
    verdictLoop v fs = .mismatch ↔ ∃ f ∈ fs, f.severity = .mismatch := by
  induction fs generalizing v with
  | nil => simpa [verdictLoop] using hv
  | cons f fs ih =>
    unfold verdictLoop
    split_ifs with h
    · simp [h]
    · simp [h, ih (v := .review) (by decide)]

theorem verdictLoop_review_ne (fs : List Finding) : verdictLoop .review fs ≠ .blessed := by
  induction fs with
  | nil => simp [verdictLoop]
  | cons f fs ih =>
    unfold verdictLoop
    split_ifs
    · simp
    · exact ih

theorem verdictOf_mismatch (fs : List Finding) :
    verdictOf fs = .mismatch ↔ ∃ f ∈ fs, f.severity = .mismatch :=
  verdictLoop_mismatch (by decide) fs

theorem verdictOf_blessed (fs : List Finding) : verdictOf fs = .blessed ↔ fs = [] := by
  cases fs with
  | nil => simp [verdictOf, verdictLoop]
  | cons f fs =>
    simp only [verdictOf, verdictLoop]
    split_ifs
    · simp
    · simpa using verdictLoop_review_ne fs

theorem verdictLoop_cases (v : Verdict) (fs : List Finding) :
    verdictLoop v fs = v ∨ verdictLoop v fs = .review ∨ verdictLoop v fs = .mismatch := by
  induction fs generalizing v with
  | nil => exact Or.inl rfl
  | cons f fs ih =>
    unfold verdictLoop
    split_ifs
    · exact Or.inr (Or.inr rfl)
    · rcases ih .review with h | h | h
      · exact Or.inr (Or.inl h)
      · exact Or.inr (Or.inl h)
      · exact Or.inr (Or.inr h)

namespace FindingSink

/-- Messages of the calls made so far. -/
def messages (rs : List Report) : List String := rs.map Report.message

/-- What the sink holds after the calls `rs`: distinct messages of theirs, all of them while the
cap is not reached, and nothing but a positive count of the rest once it is. -/
structure Holds (cap : ℕ) (rs : List Report) (sink : FindingSink) : Prop where
  cap_eq : sink.cap = cap
  nodup : (sink.findings.map Finding.message).Nodup
  subset : ∀ m ∈ sink.findings.map Finding.message, m ∈ messages rs
  complete : sink.findings.length < cap → ∀ m ∈ messages rs, m ∈ sink.findings.map Finding.message
  length_le : sink.findings.length ≤ cap
  nonempty : rs ≠ [] → sink.findings ≠ [] ∨ 0 < sink.truncated
  kept : sink.truncated = 0 → ∀ m ∈ messages rs, m ∈ sink.findings.map Finding.message

@[simp]
theorem mem_messages_append {rs : List Report} {r : Report} {m : String} :
    m ∈ messages (rs ++ [r]) ↔ m ∈ messages rs ∨ m = r.message := by
  simp [messages]

/-- Counting a repeat touches nothing else of a finding. -/
theorem map_modify_repeats {α : Type} (field : Finding → α) (fs : List Finding) (i : ℕ)
    (hfield : ∀ f : Finding, field { f with repeats := f.repeats + 1 } = field f) :
    (fs.modify i fun f => { f with repeats := f.repeats + 1 }).map field = fs.map field := by
  apply List.ext_getElem?
  intro j
  simp only [List.getElem?_map, List.getElem?_modify]
  cases fs[j]? with
  | none => simp
  | some f =>
    split
    · exact congrArg some (hfield f)
    · rfl

theorem findIdx?_message_eq_none {fs : List Finding} {m : String} :
    fs.findIdx? (fun f => decide (f.message = m)) = none ↔ m ∉ fs.map Finding.message := by
  simp [List.findIdx?_eq_none_iff]

theorem holds_new (cap : ℕ) : Holds cap [] (new cap) where
  cap_eq := rfl
  nodup := by simp [new]
  subset := by simp [new]
  complete := by simp [messages]
  length_le := by simp [new]
  nonempty := by simp
  kept := by simp [messages]

section
variable {cap : ℕ} {rs : List Report} {sink : FindingSink} (h : Holds cap rs sink) (r : Report)
include h

/-- A message the sink has already. -/
theorem Holds.addRepeat {i : ℕ} (hmem : r.message ∈ sink.findings.map Finding.message) :
    Holds cap (rs ++ [r])
      { sink with findings := sink.findings.modify i fun f => { f with repeats := f.repeats + 1 } } := by
  have hmap := map_modify_repeats Finding.message sink.findings i fun _ => rfl
  have hlen := List.length_modify (fun f : Finding => { f with repeats := f.repeats + 1 })
    sink.findings i
  refine ⟨h.cap_eq, by rw [hmap]; exact h.nodup, ?_, ?_, by rw [hlen]; exact h.length_le, ?_, ?_⟩
  · rw [hmap]
    intro m hm
    exact mem_messages_append.mpr (Or.inl (h.subset m hm))
  · rw [hmap, hlen]
    intro hlt m hm
    rcases mem_messages_append.mp hm with hm | rfl
    · exact h.complete hlt m hm
    · exact hmem
  · intro _
    left
    intro he
    have hz : sink.findings = [] := by
      rw [← List.length_eq_zero_iff, ← hlen]
      exact List.length_eq_zero_iff.mpr he
    simp [hz] at hmem
  · rw [hmap]
    intro hz m hm
    rcases mem_messages_append.mp hm with hm | rfl
    · exact h.kept hz m hm
    · exact hmem

/-- A new message that finds the sink full. -/
theorem Holds.addTruncated (hc : cap ≤ sink.findings.length) :
    Holds cap (rs ++ [r]) { sink with truncated := sink.truncated + 1 } := by
  refine ⟨h.cap_eq, h.nodup, ?_, ?_, h.length_le, fun _ => Or.inr (Nat.succ_pos _), ?_⟩
  · intro m hm
    exact mem_messages_append.mpr (Or.inl (h.subset m hm))
  · intro hlt
    exact absurd hlt (by simpa using hc)
  · intro hz
    exact absurd hz (Nat.succ_ne_zero _)

/-- A new message that finds room. -/
theorem Holds.addFresh (hc : sink.findings.length < cap)
    (hfresh : r.message ∉ sink.findings.map Finding.message) :
    Holds cap (rs ++ [r])
      { sink with findings := sink.findings ++ [⟨r.severity, r.pc, r.message, 0⟩] } := by
  refine ⟨h.cap_eq, ?_, ?_, ?_, ?_, fun _ => Or.inl (by simp), ?_⟩
  · simp only [List.map_append, List.map_cons, List.map_nil]
    refine List.nodup_append.mpr ⟨h.nodup, by simp, ?_⟩
    intro a ha b hb hab
    rw [List.mem_singleton] at hb
    exact hfresh (hb ▸ hab ▸ ha)
  · intro m hm
    simp only [List.map_append, List.map_cons, List.map_nil, List.mem_append,
      List.mem_singleton] at hm
    exact mem_messages_append.mpr (hm.imp_left (h.subset m))
  · intro _ m hm
    simp only [List.map_append, List.map_cons, List.map_nil, List.mem_append,
      List.mem_singleton]
    exact (mem_messages_append.mp hm).imp_left (h.complete hc m)
  · simp only [List.length_append, List.length_singleton]
    omega
  · intro hz m hm
    simp only [List.map_append, List.map_cons, List.map_nil, List.mem_append,
      List.mem_singleton]
    exact (mem_messages_append.mp hm).imp_left (h.kept hz m)

theorem Holds.add : Holds cap (rs ++ [r]) (sink.add r) := by
  unfold FindingSink.add
  split
  · rename_i i hi
    refine h.addRepeat r ?_
    by_contra hm
    rw [findIdx?_message_eq_none.mpr hm] at hi
    cases hi
  · rename_i hi
    split_ifs with hc
    · exact h.addTruncated r (h.cap_eq ▸ hc)
    · exact h.addFresh r (h.cap_eq ▸ not_le.mp hc) (findIdx?_message_eq_none.mp hi)

end

theorem addAll_append (sink : FindingSink) (rs : List Report) (r : Report) :
    sink.addAll (rs ++ [r]) = (sink.addAll rs).add r := by
  simp [addAll]

theorem holds_addAll (cap : ℕ) (rs : List Report) : Holds cap rs ((new cap).addAll rs) := by
  induction rs using List.reverseRecOn with
  | nil => exact holds_new cap
  | append_singleton rs r ih =>
    rw [addAll_append]
    exact ih.add r

/-- A finding keeps what the first call with its message said. -/
theorem first_of_mem_addAll {cap : ℕ} {rs : List Report} {f : Finding}
    (h : f ∈ ((new cap).addAll rs).findings) :
    ∃ pre r post, rs = pre ++ r :: post ∧ f.Of r ∧ f.message ∉ messages pre := by
  induction rs using List.reverseRecOn generalizing f with
  | nil => cases h
  | append_singleton rs r ih =>
    have hold : ∀ g ∈ ((new cap).addAll rs).findings,
        ∃ pre r' post, rs ++ [r] = pre ++ r' :: post ∧ g.Of r' ∧ g.message ∉ messages pre := by
      intro g hg
      obtain ⟨pre, r', post, hsplit, hof, hfirst⟩ := ih hg
      exact ⟨pre, r', post ++ [r], by rw [hsplit]; simp, hof, hfirst⟩
    rw [addAll_append] at h
    unfold add at h
    split at h
    · obtain ⟨i, hi, rfl⟩ := List.mem_iff_getElem.mp h
      have hi' : i < ((new cap).addAll rs).findings.length := by simpa using hi
      obtain ⟨pre, r', post, hsplit, hof, hfirst⟩ := hold _ (List.getElem_mem hi')
      rw [List.getElem_modify]
      split_ifs
      · exact ⟨pre, r', post, hsplit, hof, hfirst⟩
      · exact ⟨pre, r', post, hsplit, hof, hfirst⟩
    · rename_i hfresh
      have hroom := holds_addAll cap rs
      split_ifs at h with hc
      · exact hold f h
      · rcases List.mem_append.mp h with h | h
        · exact hold f h
        · rw [List.mem_singleton.mp h]
          refine ⟨rs, r, [], rfl, ⟨rfl, rfl, rfl⟩, fun hm => ?_⟩
          rw [hroom.cap_eq, not_le] at hc
          exact findIdx?_message_eq_none.mp hfresh (hroom.complete hc _ hm)

theorem exists_of_mem_addAll {cap : ℕ} {rs : List Report} {f : Finding}
    (h : f ∈ ((new cap).addAll rs).findings) : ∃ r ∈ rs, f.Of r := by
  obtain ⟨pre, r, post, rfl, hof, -⟩ := first_of_mem_addAll h
  exact ⟨r, by simp, hof⟩

/-- Nothing is left out exactly where the distinct messages fit under the cap. -/
theorem truncated_eq_zero_iff (cap : ℕ) (rs : List Report) :
    ((new cap).addAll rs).truncated = 0 ↔ (messages rs).toFinset.card ≤ cap := by
  induction rs using List.reverseRecOn with
  | nil => simp [addAll, new, messages]
  | append_singleton rs r ih =>
    have h := holds_addAll cap rs
    have hmsgs : (messages (rs ++ [r])).toFinset = insert r.message (messages rs).toFinset := by
      ext m
      simp [or_comm]
    rw [addAll_append, hmsgs]
    set sink := (new cap).addAll rs
    have hlen : (sink.findings.map Finding.message).toFinset.card = sink.findings.length := by
      rw [List.toFinset_card_of_nodup h.nodup, List.length_map]
    unfold add
    split
    · rename_i i hi
      have hold : r.message ∈ messages rs := by
        by_contra hm
        rw [findIdx?_message_eq_none.mpr fun hf => hm (h.subset _ hf)] at hi
        cases hi
      rw [Finset.insert_eq_of_mem (List.mem_toFinset.mpr hold)]
      exact ih
    · rename_i hi
      have hfresh := findIdx?_message_eq_none.mp hi
      split_ifs with hc
      · rw [h.cap_eq] at hc
        have hsub : insert r.message (sink.findings.map Finding.message).toFinset ⊆
            insert r.message (messages rs).toFinset := by
          apply Finset.insert_subset_insert
          intro m hm
          exact List.mem_toFinset.mpr (h.subset m (List.mem_toFinset.mp hm))
        have hcard := Finset.card_le_card hsub
        rw [Finset.card_insert_of_notMem (by rwa [List.mem_toFinset]), hlen] at hcard
        simp only [false_iff, not_le]
        omega
      · rw [h.cap_eq, not_le] at hc
        have hsub : (messages rs).toFinset ⊆ (sink.findings.map Finding.message).toFinset := by
          intro m hm
          exact List.mem_toFinset.mpr (h.complete hc m (List.mem_toFinset.mp hm))
        have hcard := Finset.card_le_card hsub
        have hinsert := Finset.card_insert_le r.message (messages rs).toFinset
        rw [hlen] at hcard
        have hzero : sink.truncated = 0 := ih.mpr (by omega)
        simp only [hzero, true_iff]
        omega

theorem Holds.take_eq_nil {cap : ℕ} {rs : List Report} {sink : FindingSink} (h : Holds cap rs sink)
    (ht : sink.take = []) : rs = [] := by
  by_contra hne
  unfold take at ht
  split_ifs at ht with hp
  · simp at ht
  · rcases h.nonempty hne with hf | hf
    · exact hf ht
    · exact hp hf

theorem exists_mismatch_take (sink : FindingSink) :
    (∃ f ∈ sink.take, f.severity = .mismatch) ↔ ∃ f ∈ sink.findings, f.severity = .mismatch := by
  unfold take
  split_ifs
  · simp [or_and_right, exists_or]
  · rfl

end FindingSink

/-- The first call to use its message carries a mismatch and finds room under the cap. -/
def KeepsMismatch (cap : ℕ) (rs : List Report) : Prop :=
  ∃ pre r post, rs = pre ++ r :: post ∧ r.severity = .mismatch ∧
    r.message ∉ FindingSink.messages pre ∧ (FindingSink.messages pre).dedup.length < cap

theorem keepsMismatch_append (cap : ℕ) (rs : List Report) (r : Report) :
    KeepsMismatch cap (rs ++ [r]) ↔ KeepsMismatch cap rs ∨
      (r.severity = .mismatch ∧ r.message ∉ FindingSink.messages rs ∧
        (FindingSink.messages rs).dedup.length < cap) := by
  constructor
  · rintro ⟨pre, x, post, he, hx⟩
    rcases List.eq_nil_or_concat post with rfl | ⟨post, y, rfl⟩
    · obtain ⟨rfl, hr⟩ := List.append_inj' he rfl
      rw [List.singleton_inj] at hr
      exact Or.inr (hr ▸ hx)
    · rw [List.concat_eq_append, ← List.cons_append, ← List.append_assoc] at he
      exact Or.inl ⟨pre, x, post, (List.append_inj' he rfl).1, hx⟩
  · rintro (⟨pre, x, post, rfl, hx⟩ | hr)
    · exact ⟨pre, x, post ++ [r], by simp, hx⟩
    · exact ⟨rs, r, [], rfl, hr⟩

theorem exists_mismatch_addAll (cap : ℕ) (rs : List Report) :
    (∃ f ∈ ((FindingSink.new cap).addAll rs).findings, f.severity = .mismatch) ↔
      KeepsMismatch cap rs := by
  induction rs using List.reverseRecOn with
  | nil => simp [FindingSink.addAll, FindingSink.new, KeepsMismatch]
  | append_singleton rs r ih =>
    have h := FindingSink.holds_addAll cap rs
    rw [FindingSink.addAll_append, keepsMismatch_append, ← ih]
    set sink := (FindingSink.new cap).addAll rs
    have hdedup : sink.findings.length ≤ (FindingSink.messages rs).dedup.length := by
      rw [← List.length_map (f := Finding.message)]
      exact (List.subperm_of_subset h.nodup
        fun m hm => List.mem_dedup.mpr (h.subset m hm)).length_le
    unfold FindingSink.add
    split
    · rename_i i hi
      -- a repeat changes no severity, and its message is not new
      have hold : r.message ∈ FindingSink.messages rs := by
        by_contra hm
        rw [FindingSink.findIdx?_message_eq_none.mpr fun hf => hm (h.subset _ hf)] at hi
        cases hi
      have hsev := FindingSink.map_modify_repeats Finding.severity sink.findings i fun _ => rfl
      have hex : ∀ fs : List Finding, (∃ f ∈ fs, f.severity = .mismatch) ↔
          Severity.mismatch ∈ fs.map Finding.severity := by simp
      simp only [hex, hsev, hold, not_true_eq_false, false_and, and_false, or_false]
    · rename_i hi
      have hfresh := FindingSink.findIdx?_message_eq_none.mp hi
      split_ifs with hc
      · rw [h.cap_eq] at hc
        have hfull : ¬ (FindingSink.messages rs).dedup.length < cap := by omega
        simp only [hfull, and_false, or_false]
      · rw [h.cap_eq, not_le] at hc
        have hnew : r.message ∉ FindingSink.messages rs := fun hm => hfresh (h.complete hc _ hm)
        have hroom : (FindingSink.messages rs).dedup.length < cap := by
          refine lt_of_le_of_lt ?_ hc
          rw [← List.length_map (f := Finding.message)]
          exact (List.subperm_of_subset (List.nodup_dedup _)
            fun m hm => h.complete hc m (List.mem_dedup.mp hm)).length_le
        simp only [List.mem_append, List.mem_singleton, or_and_right, exists_or,
          exists_eq_left, hnew, hroom, not_false_eq_true, and_true]

/-- Any finding at all keeps the FDE from being blessed. -/
theorem sinkVerdict_blessed (cap : ℕ) (rs : List Report) :
    sinkVerdict cap rs = .blessed ↔ rs = [] := by
  rw [sinkVerdict, verdictOf_blessed]
  constructor
  · exact (FindingSink.holds_addAll cap rs).take_eq_nil
  · rintro rfl
    rfl

theorem sinkVerdict_mismatch (cap : ℕ) (rs : List Report) :
    sinkVerdict cap rs = .mismatch ↔ KeepsMismatch cap rs := by
  rw [sinkVerdict, verdictOf_mismatch, FindingSink.exists_mismatch_take, exists_mismatch_addAll]

/-- The verdict is the worst thing the calls said. -/
def ReportsWorst (cap : ℕ) (rs : List Report) : Prop :=
  (sinkVerdict cap rs = .mismatch ↔ ∃ r ∈ rs, r.severity = .mismatch) ∧
    (sinkVerdict cap rs = .blessed ↔ rs = []) ∧
    (sinkVerdict cap rs = .review ↔ rs ≠ [] ∧ ∀ r ∈ rs, r.severity ≠ .mismatch)

theorem sinkVerdict_review (cap : ℕ) (rs : List Report) :
    sinkVerdict cap rs = .review ↔ rs ≠ [] ∧ ¬ KeepsMismatch cap rs := by
  have hb := sinkVerdict_blessed cap rs
  have hm := sinkVerdict_mismatch cap rs
  rcases verdictLoop_cases .blessed ((FindingSink.new cap).addAll rs).take with h | h | h
  · have hv : sinkVerdict cap rs = .blessed := h
    rw [hv]
    exact ⟨fun he => absurd he (by decide), fun he => absurd (hb.mp hv) he.1⟩
  · have hv : sinkVerdict cap rs = .review := h
    rw [hv] at hb hm ⊢
    refine ⟨fun _ => ⟨fun he => ?_, fun hk => ?_⟩, fun _ => rfl⟩
    · exact absurd (hb.mpr he) (by decide)
    · exact absurd (hm.mpr hk) (by decide)
  · have hv : sinkVerdict cap rs = .mismatch := h
    rw [hv]
    exact ⟨fun he => absurd he (by decide), fun he => absurd (hm.mp hv) he.2⟩

theorem exists_of_keepsMismatch {cap : ℕ} {rs : List Report} (h : KeepsMismatch cap rs) :
    ∃ r ∈ rs, r.severity = .mismatch := by
  obtain ⟨pre, r, post, rfl, hs, -⟩ := h
  exact ⟨r, by simp, hs⟩

/-- The verdict is the worst thing seen exactly when no mismatch is lost, either to the cap or
to an earlier review with the same text. -/
theorem reportsWorst_iff (cap : ℕ) (rs : List Report) :
    ReportsWorst cap rs ↔ (∀ r ∈ rs, r.severity ≠ .mismatch) ∨ KeepsMismatch cap rs := by
  rw [ReportsWorst, sinkVerdict_mismatch, sinkVerdict_blessed, sinkVerdict_review]
  constructor
  · rintro ⟨hm, -, -⟩
    by_cases hk : KeepsMismatch cap rs
    · exact Or.inr hk
    · exact Or.inl fun r hr hs => hk (hm.mpr ⟨r, hr, hs⟩)
  · rintro (hnone | hk)
    · have hno : ¬ KeepsMismatch cap rs := fun hk => by
        obtain ⟨r, hr, hs⟩ := exists_of_keepsMismatch hk
        exact hnone r hr hs
      refine ⟨⟨fun hk => absurd hk hno, fun ⟨r, hr, hs⟩ => absurd hs (hnone r hr)⟩, Iff.rfl,
        ⟨fun h => ⟨h.1, hnone⟩, fun h => ⟨h.1, hno⟩⟩⟩
    · refine ⟨⟨exists_of_keepsMismatch, fun _ => hk⟩, Iff.rfl,
        ⟨fun h => absurd hk h.2, fun h => ?_⟩⟩
      obtain ⟨r, hr, hs⟩ := exists_of_keepsMismatch hk
      exact absurd hs (h.2 r hr)

/-- With room for one finding, a mismatch that comes after a review is not in the verdict. -/
theorem not_reportsWorst_review_then_mismatch :
    ¬ ReportsWorst 1 [⟨.review, 0x401000, "no CFA rule is in force here"⟩,
      ⟨.mismatch, 0x401004, "return with rsp at CFA-16 (should be CFA-8)"⟩] := by
  intro h
  have hv := h.1.mpr ⟨_, List.mem_cons_of_mem _ List.mem_cons_self, rfl⟩
  exact absurd hv (by decide +kernel)

end UnwindCheck
