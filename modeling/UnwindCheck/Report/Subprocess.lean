import Mathlib

/-! Child processes: the pipes to them, what goes through, and what is left behind. -/
namespace UnwindCheck

/-- What the kernel answers to one `write`. -/
inductive WriteAnswer where
  | wrote (n : ℕ)
  | interrupted
  | failed (error : String)
  deriving DecidableEq, Repr

/-- `WriteAll` against the answers it gets: what went out, and the status. `none` is a call that
still waits for an answer. -/
def writeAll : List WriteAnswer → List Char → List Char × Option (Except String Unit)
  | _, [] => ([], some (.ok ()))
  | [], _ :: _ => ([], none)
  | .wrote n :: answers, c :: data =>
    ((c :: data).take n ++ (writeAll answers ((c :: data).drop n)).1,
      (writeAll answers ((c :: data).drop n)).2)
  | .interrupted :: answers, c :: data => writeAll answers (c :: data)
  | .failed e :: _, _ :: _ => ([], some (.error ("write: " ++ e)))

/-- Whatever the kernel takes at a time and however often it is interrupted, what goes out is a
beginning of the data, and all of it exactly when the call succeeds. -/
theorem writeAll_spec (answers : List WriteAnswer) (data : List Char) :
    (writeAll answers data).1 <+: data ∧
      ((writeAll answers data).2 = some (.ok ()) ↔ (writeAll answers data).1 = data) := by
  induction answers generalizing data with
  | nil =>
    cases data with
    | nil => simp [writeAll]
    | cons c data => simp [writeAll]
  | cons answer answers ih =>
    cases data with
    | nil => simp [writeAll]
    | cons c data =>
      cases answer with
      | wrote n =>
        obtain ⟨⟨rest, hrest⟩, hiff⟩ := ih ((c :: data).drop n)
        have hsplit := List.take_append_drop n (c :: data)
        rw [writeAll]
        constructor
        · refine ⟨rest, ?_⟩
          rw [List.append_assoc, hrest]
          exact hsplit
        · rw [hiff]
          constructor
          · intro h
            rw [h]
            exact hsplit
          · intro h
            exact List.append_cancel_left (h.trans hsplit.symm)
      | interrupted => exact ih (c :: data)
      | failed e => simp [writeAll]

/-- What `waitpid` answers. -/
inductive WaitAnswer where
  | interrupted
  | failed
  | exited (status : ℕ)
  | signaled
  deriving DecidableEq, Repr

/-- `WaitForProcess`, with the children that are left: one whose end is reported is gone, one that
cannot be waited for stays. `none` is a call that still waits. -/
def waitForProcess : List WaitAnswer → (pid : ℕ) → (children : Finset ℕ) → Option (ℤ × Finset ℕ)
  | [], _, _ => none
  | .interrupted :: answers, pid, children => waitForProcess answers pid children
  | .failed :: _, _, children => some (-1, children)
  | .exited status :: _, pid, children => some (status, children.erase pid)
  | .signaled :: _, pid, children => some (-1, children.erase pid)

theorem waitForProcess_cases {answers : List WaitAnswer} {pid : ℕ} {children : Finset ℕ}
    {r : ℤ × Finset ℕ} (h : waitForProcess answers pid children = some r) :
    (r.2 = children.erase pid ∧ (r.1 = -1 ∨ ∃ status : ℕ, .exited status ∈ answers ∧ r.1 = status)) ∨
      r = (-1, children) ∧ .failed ∈ answers := by
  induction answers with
  | nil => cases h
  | cons answer answers ih =>
    cases answer with
    | interrupted =>
      rcases ih h with ⟨hgone, hcode⟩ | ⟨hleft, hfailed⟩
      · left
        refine ⟨hgone, hcode.imp_right ?_⟩
        intro hexited
        obtain ⟨status, hmem, hstatus⟩ := hexited
        exact ⟨status, List.mem_cons_of_mem _ hmem, hstatus⟩
      · exact Or.inr ⟨hleft, List.mem_cons_of_mem _ hfailed⟩
    | failed =>
      cases h
      exact Or.inr ⟨rfl, List.mem_cons_self⟩
    | exited status =>
      cases h
      exact Or.inl ⟨rfl, Or.inr ⟨status, List.mem_cons_self, rfl⟩⟩
    | signaled =>
      cases h
      exact Or.inl ⟨rfl, Or.inl rfl⟩

theorem waitForProcess_exited {answers : List WaitAnswer} {pid : ℕ} {children left : Finset ℕ}
    (h : waitForProcess answers pid children = some (0, left)) : WaitAnswer.exited 0 ∈ answers := by
  rcases waitForProcess_cases h with ⟨-, hcode | ⟨status, hmem, hstatus⟩⟩ | ⟨hfailed, -⟩
  · cases hcode
  · have hzero : status = 0 := by
      dsimp only at hstatus
      omega
    rw [← hzero]
    exact hmem
  · cases hfailed

/-- The descriptors that are open, and how often one was closed that was not. -/
@[ext]
structure Descriptors where
  live : Finset ℕ
  misuses : ℕ

/-- A pipe; an end that is not ours to close is `none`. -/
structure Pipe where
  readEnd : Option ℕ
  writeEnd : Option ℕ

namespace Descriptors

def close (d : Descriptors) (fd : Option ℕ) : Descriptors :=
  match fd with
  | none => d
  | some fd => ⟨d.live.erase fd, if fd ∈ d.live then d.misuses else d.misuses + 1⟩

/-- `ClosePipe` -/
def closePipe (d : Descriptors) (pipe : Pipe) : Descriptors :=
  (d.close pipe.readEnd).close pipe.writeEnd

end Descriptors

/-- What the process holds: descriptors, and children that were not waited for. -/
@[ext]
structure Holdings where
  fds : Descriptors
  children : Finset ℕ

/-- What the kernel does about pipes and processes, each of which it may refuse. -/
structure Kernel where
  pipe2 : (live : Finset ℕ) → Except String (ℕ × ℕ)
  posixSpawnp : (children : Finset ℕ) → (argv : List String) → Except String ℕ
  write : List WriteAnswer
  waitpid : (pid : ℕ) → List WaitAnswer

/-- What a kernel grants is new: two descriptors that are not open, a process that is no child yet. -/
structure Kernel.Lawful (kernel : Kernel) : Prop where
  pipe2 : ∀ {live r w}, kernel.pipe2 live = .ok (r, w) → r ∉ live ∧ w ∉ live ∧ r ≠ w
  posixSpawnp : ∀ {children argv pid}, kernel.posixSpawnp children argv = .ok pid → pid ∉ children

structure SpawnOptions where
  pipeStdin : Bool := false
  pipeStdout : Bool := false
  discardStderr : Bool := false

structure Subprocess where
  pid : ℕ
  stdinFd : Option ℕ
  stdoutFd : Option ℕ

namespace Kernel
variable (kernel : Kernel)

/-- One of the two pipes, if it is wanted. -/
def openPipe (wanted : Bool) (d : Descriptors) : Except String (Pipe × Descriptors) :=
  if wanted then
    match kernel.pipe2 d.live with
    | .error e => .error ("pipe(): " ++ e)
    | .ok (r, w) => .ok (⟨some r, some w⟩, { d with live := insert r (insert w d.live) })
  else .ok (⟨none, none⟩, d)

/-- `SpawnProcess`, with what it does to what the caller holds. -/
def spawnProcess (argv : List String) (options : SpawnOptions) (held : Holdings) :
    Except String Subprocess × Holdings :=
  match argv with
  | [] => (.error "SpawnProcess: empty argv", held)
  | program :: _ =>
    match kernel.openPipe options.pipeStdin held.fds with
    | .error e => (.error e, held)
    | .ok (stdin, fds) =>
      match kernel.openPipe options.pipeStdout fds with
      | .error e => (.error e, { held with fds := fds.closePipe stdin })
      | .ok (stdout, fds) =>
        -- the ends the child owns are closed whether or not there is one
        let fds := (fds.close stdin.readEnd).close stdout.writeEnd
        match kernel.posixSpawnp held.children argv with
        | .error e => (.error ("posix_spawnp(" ++ program ++ "): " ++ e),
            { held with
              fds := (fds.closePipe ⟨none, stdin.writeEnd⟩).closePipe ⟨stdout.readEnd, none⟩ })
        | .ok pid => (.ok ⟨pid, stdin.writeEnd, stdout.readEnd⟩, ⟨fds, insert pid held.children⟩)

end Kernel

/-- `after` is `d` with the descriptors `fds` opened on top. -/
structure Descriptors.Owns (d : Descriptors) (fds : List ℕ) (after : Descriptors) : Prop where
  nodup : fds.Nodup
  fresh : ∀ fd ∈ fds, fd ∉ d.live
  live : ∀ fd, fd ∈ after.live ↔ fd ∈ d.live ∨ fd ∈ fds
  misuses : after.misuses = d.misuses

namespace Descriptors.Owns
variable {d after : Descriptors} {fds fds' : List ℕ}

theorem refl (d : Descriptors) : d.Owns [] d := ⟨List.nodup_nil, by simp, by simp, rfl⟩

theorem eq (h : d.Owns [] after) : after = d := by
  apply Descriptors.ext
  · apply Finset.ext
    intro fd
    simpa using h.live fd
  · exact h.misuses

theorem perm (h : d.Owns fds after) (hcount : ∀ fd, fds.count fd = fds'.count fd) :
    d.Owns fds' after := by
  have hperm : fds.Perm fds' := List.perm_iff_count.mpr hcount
  refine ⟨hperm.nodup_iff.mp h.nodup, fun fd hfd => h.fresh fd (hperm.mem_iff.mpr hfd), ?_, h.misuses⟩
  intro fd
  rw [h.live fd, hperm.mem_iff]

theorem close {fd : Option ℕ} (h : d.Owns (fd.toList ++ fds) after) :
    d.Owns fds (after.close fd) := by
  cases fd with
  | none => exact h
  | some fd =>
    have hcons : (some fd).toList ++ fds = fd :: fds := rfl
    rw [hcons] at h
    obtain ⟨hnot, hnodup⟩ := List.nodup_cons.mp h.nodup
    have hold : fd ∉ d.live := h.fresh fd List.mem_cons_self
    have hlive : fd ∈ after.live := (h.live fd).mpr (Or.inr List.mem_cons_self)
    refine ⟨hnodup, fun other hother => h.fresh other (List.mem_cons_of_mem fd hother), ?_, ?_⟩
    · intro other
      show other ∈ after.live.erase fd ↔ _
      rw [Finset.mem_erase, h.live other, List.mem_cons]
      constructor
      · intro hmem
        exact hmem.2.imp_right fun hin => hin.resolve_left hmem.1
      · intro hmem
        constructor
        · intro heq
          subst heq
          exact hmem.elim hold hnot
        · exact hmem.imp_right Or.inr
    · show (if fd ∈ after.live then after.misuses else after.misuses + 1) = d.misuses
      rw [if_pos hlive]
      exact h.misuses

theorem openPipe {kernel : Kernel} (hk : kernel.Lawful) {wanted : Bool} {pipe : Pipe} {opened : Descriptors}
    (h : d.Owns fds after) (hopen : kernel.openPipe wanted after = .ok (pipe, opened)) :
    d.Owns (pipe.readEnd.toList ++ pipe.writeEnd.toList ++ fds) opened ∧
      pipe.readEnd.isSome = wanted ∧ pipe.writeEnd.isSome = wanted := by
  unfold Kernel.openPipe at hopen
  cases wanted with
  | false =>
    simp only [Bool.false_eq_true, if_false, Except.ok.injEq, Prod.mk.injEq] at hopen
    obtain ⟨rfl, rfl⟩ := hopen
    exact ⟨h, rfl, rfl⟩
  | true =>
    simp only [if_true] at hopen
    split at hopen
    · cases hopen
    · rename_i r w hpipe
      simp only [Except.ok.injEq, Prod.mk.injEq] at hopen
      obtain ⟨rfl, rfl⟩ := hopen
      obtain ⟨hr, hw, hne⟩ := hk.pipe2 hpipe
      rw [h.live] at hr hw
      push Not at hr hw
      refine ⟨?_, rfl, rfl⟩
      have hlist : (some r).toList ++ (some w).toList ++ fds = r :: w :: fds := rfl
      rw [hlist]
      constructor
      · simp [hne, hr.2, hw.2, h.nodup]
      · intro fd hfd
        rcases List.mem_cons.mp hfd with rfl | hfd
        · exact hr.1
        · rcases List.mem_cons.mp hfd with rfl | hfd
          · exact hw.1
          · exact h.fresh fd hfd
      · intro fd
        simp only [Finset.mem_insert, h.live fd, List.mem_cons]
        tauto
      · exact h.misuses

end Descriptors.Owns

/-- No path through `SpawnProcess` loses a descriptor or closes one it does not own: on failure
everything is as before, and on success only the child and the ends handed out are new. -/
theorem Kernel.Lawful.spawnProcess_owns {kernel : Kernel} (hk : kernel.Lawful) (argv : List String)
    (options : SpawnOptions) (held : Holdings) :
    match kernel.spawnProcess argv options held with
    | (.error _, after) => after = held
    | (.ok sp, after) => sp.stdinFd.isSome = options.pipeStdin ∧
        sp.stdoutFd.isSome = options.pipeStdout ∧
        held.fds.Owns (sp.stdinFd.toList ++ sp.stdoutFd.toList) after.fds ∧
        sp.pid ∉ held.children ∧ after.children = insert sp.pid held.children := by
  unfold Kernel.spawnProcess
  cases argv with
  | nil => rfl
  | cons program args =>
    dsimp only
    cases hin : kernel.openPipe options.pipeStdin held.fds with
    | error e => rfl
    | ok opened =>
      obtain ⟨stdin, d₁⟩ := opened
      obtain ⟨hin, -, hstdin⟩ := (Descriptors.Owns.refl held.fds).openPipe hk hin
      dsimp only
      cases hout : kernel.openPipe options.pipeStdout d₁ with
      | error e =>
        have hfds : d₁.closePipe stdin = held.fds := by
          apply Descriptors.Owns.eq
          apply Descriptors.Owns.close
          apply Descriptors.Owns.close
          simpa using hin
        exact Holdings.ext hfds rfl
      | ok opened =>
        obtain ⟨stdout, d₂⟩ := opened
        obtain ⟨hout, hstdout, -⟩ := hin.openPipe hk hout
        have hparent : held.fds.Owns (stdin.writeEnd.toList ++ stdout.readEnd.toList)
            ((d₂.close stdin.readEnd).close stdout.writeEnd) := by
          apply Descriptors.Owns.close
          apply Descriptors.Owns.close
          apply hout.perm
          intro fd
          simp only [List.count_append, List.count_nil]
          omega
        dsimp only
        cases hspawn : kernel.posixSpawnp held.children (program :: args) with
        | error e =>
          have hfds : (((d₂.close stdin.readEnd).close stdout.writeEnd).closePipe
              ⟨none, stdin.writeEnd⟩).closePipe ⟨stdout.readEnd, none⟩ = held.fds := by
            apply Descriptors.Owns.eq
            apply Descriptors.Owns.close
            apply Descriptors.Owns.close
            apply Descriptors.Owns.close
            apply Descriptors.Owns.close
            simpa using hparent
          exact Holdings.ext hfds rfl
        | ok pid => exact ⟨hstdin, hstdout, hparent, hk.posixSpawnp hspawn, rfl⟩

/-- The two kinds of child: `addr2line`, read from, and the Ruby script, written to. -/
inductive Child where
  | addr2line (argv : List String)
  | ruby (argv : List String) (input : List Char)

namespace Child

def argv : Child → List String
  | addr2line argv => argv
  | ruby argv _ => argv

def options : Child → SpawnOptions
  | addr2line _ => { pipeStdout := true, discardStderr := true }
  | ruby _ _ => { pipeStdin := true }

/-- What is done with the pipe, well or not; `none` is a write that still waits. -/
def talk (kernel : Kernel) : Child → Option (Except String Unit)
  | addr2line _ => some (.ok ())
  | ruby _ input => (writeAll kernel.write input).2

/-- The end of the pipe its user closes when done: `fclose(pipe)`, `close(proc->stdin_fd)`. -/
def ours : Child → Subprocess → Option ℕ
  | addr2line _, sp => sp.stdoutFd
  | ruby _ _, sp => sp.stdinFd

end Child

/-- One child from `SpawnProcess` to `WaitForProcess`, which comes after the talking whether that
went well or not. `none` is a child that is still there. -/
def Kernel.runChild (kernel : Kernel) (child : Child) (held : Holdings) : Option Holdings :=
  match kernel.spawnProcess child.argv child.options held with
  | (.error _, held) => some held
  | (.ok sp, held) => do
    let _ ← child.talk kernel
    let fds := held.fds.close (child.ours sp)
    let waited ← waitForProcess (kernel.waitpid sp.pid) sp.pid held.children
    some ⟨fds, waited.2⟩

/-- One child after the other. -/
def runChildren (runs : List (Kernel × Child)) (held : Holdings) : Option Holdings :=
  runs.foldlM (fun held run => run.1.runChild run.2 held) held

/-- A child that was started, and that `waitpid` failed on. -/
def Kernel.Abandons (kernel : Kernel) (child : Child) (pid : ℕ) : Prop :=
  (∃ children, kernel.posixSpawnp children child.argv = .ok pid) ∧ .failed ∈ kernel.waitpid pid

theorem Kernel.posixSpawnp_of_spawnProcess {kernel : Kernel} {argv : List String}
    {options : SpawnOptions} {held after : Holdings} {sp : Subprocess}
    (h : kernel.spawnProcess argv options held = (.ok sp, after)) :
    kernel.posixSpawnp held.children argv = .ok sp.pid := by
  unfold Kernel.spawnProcess at h
  split at h
  · cases h
  · split at h
    · cases h
    · split at h
      · cases h
      · dsimp only at h
        split at h
        · cases h
        · rename_i hspawn
          cases h
          exact hspawn

/-- What one child leaves behind: nothing, or itself if it could not be waited for. -/
theorem Kernel.Lawful.runChild_leaves {kernel : Kernel} (hk : kernel.Lawful) {child : Child}
    {held after : Holdings} (h : kernel.runChild child held = some after) :
    after = held ∨ ∃ pid, kernel.Abandons child pid ∧ pid ∉ held.children ∧
      after = ⟨held.fds, insert pid held.children⟩ := by
  have hspawn := hk.spawnProcess_owns child.argv child.options held
  unfold Kernel.runChild at h
  split at h
  · rename_i heq
    rw [heq] at hspawn
    cases h
    exact Or.inl hspawn
  · rename_i sp started heq
    rw [heq] at hspawn
    obtain ⟨hstdin, hstdout, howns, hnew, hchildren⟩ := hspawn
    have hclosed : started.fds.close (child.ours sp) = held.fds := by
      apply Descriptors.Owns.eq
      apply Descriptors.Owns.close
      cases child with
      | addr2line argv =>
        have hnone : sp.stdinFd = none := by simpa [Child.options] using hstdin
        rw [hnone] at howns
        simpa [Child.ours] using howns
      | ruby argv input =>
        have hnone : sp.stdoutFd = none := by simpa [Child.options] using hstdout
        rw [hnone] at howns
        simpa [Child.ours] using howns
    obtain ⟨_, -, h⟩ := Option.bind_eq_some_iff.mp h
    obtain ⟨waited, hwait, h⟩ := Option.bind_eq_some_iff.mp h
    cases h
    rw [hclosed]
    rw [hchildren] at hwait
    rcases waitForProcess_cases hwait with ⟨hgone, -⟩ | ⟨hleft, hfailed⟩
    · left
      rw [hgone, Finset.erase_insert hnew]
    · right
      refine ⟨sp.pid, ⟨⟨held.children, posixSpawnp_of_spawnProcess heq⟩, hfailed⟩, hnew, ?_⟩
      rw [hleft]

/-- Over any number of children of either kind, whatever pipes, processes and writes the kernel
grants or refuses each time: no descriptor is lost, none is closed twice, and every child is waited
for but those on which `waitpid` itself fails. -/
theorem children_leave_nothing {runs : List (Kernel × Child)} (hk : ∀ run ∈ runs, run.1.Lawful)
    {held after : Holdings} (h : runChildren runs held = some after) :
    after.fds = held.fds ∧ held.children ⊆ after.children ∧
      (∀ pid ∈ after.children, pid ∉ held.children → ∃ run ∈ runs, run.1.Abandons run.2 pid) ∧
      ((∀ run ∈ runs, ∀ pid, .failed ∉ run.1.waitpid pid) → after = held) := by
  have hleft : after.fds = held.fds ∧ held.children ⊆ after.children ∧
      ∀ pid ∈ after.children, pid ∉ held.children → ∃ run ∈ runs, run.1.Abandons run.2 pid := by
    induction runs generalizing held with
    | nil =>
      cases h
      exact ⟨rfl, Finset.Subset.refl _, fun pid hin hnot => absurd hin hnot⟩
    | cons run runs ih =>
      obtain ⟨between, hrun, hrest⟩ := Option.bind_eq_some_iff.mp h
      obtain ⟨hfds, hsub, hnew⟩ := ih (fun r hr => hk r (List.mem_cons_of_mem run hr)) hrest
      rcases (hk run List.mem_cons_self).runChild_leaves hrun with rfl | ⟨pid, habandons, -, rfl⟩
      · refine ⟨hfds, hsub, ?_⟩
        intro other hin hnot
        obtain ⟨r, hr, hother⟩ := hnew other hin hnot
        exact ⟨r, List.mem_cons_of_mem run hr, hother⟩
      · refine ⟨hfds, (Finset.subset_insert pid held.children).trans hsub, ?_⟩
        intro other hin hnot
        by_cases heq : other = pid
        · subst heq
          exact ⟨run, List.mem_cons_self, habandons⟩
        · obtain ⟨r, hr, hother⟩ := hnew other hin (by simp [heq, hnot])
          exact ⟨r, List.mem_cons_of_mem run hr, hother⟩
  obtain ⟨hfds, hsub, hnew⟩ := hleft
  refine ⟨hfds, hsub, hnew, ?_⟩
  intro hwaits
  apply Holdings.ext
  · exact hfds
  · apply Finset.Subset.antisymm
    · intro pid hin
      by_contra hnot
      obtain ⟨run, hrun, -, hfailed⟩ := hnew pid hin hnot
      exact hwaits run hrun pid hfailed
    · exact hsub

namespace Sample

/-- The lowest numbers that are above all in use. -/
def kernel : Kernel where
  pipe2 live := .ok (live.sup id + 1, live.sup id + 2)
  posixSpawnp children _ := .ok (children.sup id + 1)
  write := [.wrote 1, .interrupted, .failed "Broken pipe"]
  waitpid _ := [.interrupted, .exited 0]

theorem not_mem_of_sup_lt {s : Finset ℕ} {n : ℕ} (h : s.sup id < n) : n ∉ s := by
  intro hmem
  have hle : n ≤ s.sup id := Finset.le_sup (f := id) hmem
  omega

theorem kernel_lawful : kernel.Lawful where
  pipe2 h := by
    cases h
    exact ⟨not_mem_of_sup_lt (by omega), not_mem_of_sup_lt (by omega), by omega⟩
  posixSpawnp h := by
    cases h
    exact not_mem_of_sup_lt (by omega)

/-- A kernel that has no pipe, one that starts nothing, one that does not let wait. -/
def shortKernel : Kernel := { kernel with pipe2 := fun _ => .error "Too many open files" }

def noRuby : Kernel := { kernel with posixSpawnp := fun _ _ => .error "No such file or directory" }

def deaf : Kernel := { kernel with waitpid := fun _ => [.interrupted, .failed] }

theorem shortKernel_lawful : shortKernel.Lawful where
  pipe2 h := by cases h
  posixSpawnp h := @kernel_lawful.posixSpawnp _ [] _ h

theorem noRuby_lawful : noRuby.Lawful where
  pipe2 := kernel_lawful.pipe2
  posixSpawnp h := by cases h

theorem deaf_lawful : deaf.Lawful where
  pipe2 := kernel_lawful.pipe2
  posixSpawnp h := @kernel_lawful.posixSpawnp _ [] _ h

end Sample

theorem children_left :
    runChildren [(Sample.kernel, .addr2line ["addr2line"]), (Sample.shortKernel, .ruby ["ruby"] []),
        (Sample.noRuby, .ruby ["ruby"] []), (Sample.kernel, .ruby ["ruby"] ['a', 'b'])]
      ⟨⟨{0, 1, 2}, 0⟩, ∅⟩ = some ⟨⟨{0, 1, 2}, 0⟩, ∅⟩ ∧
      ∃ after, runChildren [(Sample.deaf, .ruby ["ruby"] [])] ⟨⟨{0, 1, 2}, 0⟩, ∅⟩ = some after ∧
        after.fds = ⟨{0, 1, 2}, 0⟩ ∧ after.children = {1} := by
  constructor
  · obtain ⟨after, hafter⟩ : ∃ after, runChildren [(Sample.kernel, .addr2line ["addr2line"]),
        (Sample.shortKernel, .ruby ["ruby"] []), (Sample.noRuby, .ruby ["ruby"] []),
        (Sample.kernel, .ruby ["ruby"] ['a', 'b'])] ⟨⟨{0, 1, 2}, 0⟩, ∅⟩ = some after := ⟨_, rfl⟩
    have hleft := children_leave_nothing (by simp [Sample.kernel_lawful, Sample.shortKernel_lawful,
      Sample.noRuby_lawful]) hafter
    rw [hafter, hleft.2.2.2 (by simp [Sample.kernel, Sample.shortKernel, Sample.noRuby])]
  · have hruns : ∀ run ∈ [(Sample.deaf, Child.ruby ["ruby"] [])], run.1.Lawful := by
      simp [Sample.deaf_lawful]
    refine ⟨_, rfl, ?_, by decide⟩
    exact (children_leave_nothing hruns rfl).1

end UnwindCheck
