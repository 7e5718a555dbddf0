import UnwindCheck.EhFrame.Reader

/-! The linear walk over the records of `.eh_frame`. -/
namespace UnwindCheck
variable (mem : Word → Byte)

/-- `ReadU32` of the walk, which works on plain addresses. -/
def readU32At (addr stop : Word) (what : String) : Except String (BitVec 32) :=
  if stop < addr + 4 ∨ addr + 4 < addr then
    .error ("truncated .eh_frame while reading " ++ what ++ " at 0x" ++ showHex16 addr)
  else .ok (BitVec.ofNat 32 (littleEndian (readMem mem addr 4)))

/-- The callbacks of one walk, and where it ended or what it threw. -/
structure Enumeration where
  fdes : List Word
  ended : Except String Word

/-- The loop of `EnumerateFDEs`. -/
def enumerateFrom (stop : Word) : (fuel : ℕ) → (pos : Word) → Enumeration
  | 0, pos => ⟨[], .ok pos⟩
  | fuel + 1, pos =>
    if pos + 8 ≤ stop then
      match readU32At mem pos stop "record length" with
      | .error e => ⟨[], .error e⟩
      | .ok len =>
        if len = 0 then ⟨[], .ok pos⟩
        else if len = 0xffffffff then
          ⟨[], .error ("64-bit DWARF length at 0x" ++ showHex16 pos ++ " is not supported")⟩
        else
          let payload := pos + 4
          let next := payload + len.setWidth 64
          if next ≤ pos ∨ stop < next then
            ⟨[], .error ("record at 0x" ++ showHex16 pos ++ " claims length " ++
              toString len.toNat ++ ", overrunning the section")⟩
          else
            match readU32At mem payload stop "CIE id" with
            | .error e => ⟨[], .error e⟩
            | .ok id =>
              let rest := enumerateFrom stop fuel next
              if id ≠ 0 then ⟨pos :: rest.fdes, rest.ended⟩ else rest
    else ⟨[], .ok pos⟩

/-- `EnumerateFDEs`. Every record moves the walk forward, so the fuel does not run out. -/
def enumerateFDEs (start stop : Word) : Enumeration := enumerateFrom mem stop (stop.toNat + 1) start

/-- The walk came to the terminator or used up the section: nothing is left that it did not look
at. -/
def Enumeration.Complete (stop : Word) (e : Enumeration) : Prop :=
  ∃ pos, e.ended = .ok pos ∧
    (pos = stop ∨ pos.toNat + 4 ≤ stop.toNat ∧ littleEndian (readMem mem pos 4) = 0)

/-- More fuel than the section has bytes makes no difference. -/
theorem enumerateFrom_fuel {stop : Word} {n m : ℕ} {pos : Word} (hn : stop.toNat - pos.toNat < n)
    (hm : n ≤ m) : enumerateFrom mem stop m pos = enumerateFrom mem stop n pos := by
  induction n generalizing m pos with
  | zero => omega
  | succ n ih =>
    obtain ⟨m, rfl⟩ : ∃ k, m = k + 1 := ⟨m - 1, by omega⟩
    unfold enumerateFrom
    split_ifs with hroom
    · cases readU32At mem pos stop "record length" with
      | error e => rfl
      | ok len =>
        dsimp only
        split_ifs with hzero hlong hbad
        · rfl
        · rfl
        · rfl
        · obtain ⟨hback, hover⟩ := not_or.mp hbad
          have hstep : stop.toNat - (pos + 4 + len.setWidth 64).toNat < n := by
            rw [BitVec.not_le, BitVec.lt_def] at hback
            rw [BitVec.not_lt, BitVec.le_def] at hover
            omega
          rw [ih hstep (by omega)]
    · rfl

/-- The 32-bit word at an address. -/
def wordAt (addr : Word) : BitVec 32 := BitVec.ofNat 32 (littleEndian (readMem mem addr 4))

/-- A CIE or an FDE, as far as the walk looks at it. -/
structure EhRecord where
  len : BitVec 32
  id : BitVec 32
  four_le : 4 ≤ len.toNat
  not_long : len ≠ 0xffffffff

/-- Where the record after one at `pos` starts. -/
def EhRecord.next (r : EhRecord) (pos : Word) : Word := pos + 4 + r.len.setWidth 64

/-- Records one after the other from `pos` to `last`, all of them inside the section. -/
def LaidOut (stop : Word) : (pos : Word) → List EhRecord → (last : Word) → Prop
  | pos, [], last => pos = last ∧ pos ≤ stop
  | pos, r :: rs, last =>
    wordAt mem pos = r.len ∧ wordAt mem (pos + 4) = r.id ∧
      pos.toNat + 4 + r.len.toNat ≤ stop.toNat ∧ LaidOut stop (r.next pos) rs last

/-- The start addresses of the FDEs among records that begin at `pos`. -/
def fdeStarts : (pos : Word) → List EhRecord → List Word
  | _, [] => []
  | pos, r :: rs => if r.id ≠ 0 then pos :: fdeStarts (r.next pos) rs else fdeStarts (r.next pos) rs

/-- What may follow the last record of a proper section: too little for another one, or the
terminator. No user mapping comes near the end of the address space, where the eight bytes the
walk looks for would not be addresses any more. -/
inductive EndsAt (stop last : Word) : Prop
  | room (short : stop.toNat < last.toNat + 8) (mapped : last.toNat + 8 < 2 ^ 64)
  | terminator (room : last.toNat + 4 ≤ stop.toNat) (zero : wordAt mem last = 0)

/-- A record with a length of the 64-bit format, or one that is longer than the section. -/
structure BadAt (stop last : Word) : Prop where
  room : last.toNat + 8 ≤ stop.toNat
  bad : wordAt mem last = 0xffffffff ∨ stop.toNat < last.toNat + 4 + (wordAt mem last).toNat

/-- The walk left the loop by itself. -/
def Enumeration.Stopped (stop : Word) (e : Enumeration) : Prop :=
  ∀ pos, e.ended = .ok pos → ¬ pos + 8 ≤ stop ∨ wordAt mem pos = 0

theorem readU32At_ok {addr stop : Word} {what : String} (h : addr.toNat + 4 ≤ stop.toNat) :
    readU32At mem addr stop what = .ok (wordAt mem addr) := by
  have hstop := stop.isLt
  have hroom : ¬ (stop < addr + 4 ∨ addr + 4 < addr) := by bv_omega
  rw [readU32At, if_neg hroom]
  rfl

/-- A read that succeeds stayed inside the section. -/
theorem room_of_readU32At {addr stop : Word} {what : String} {w : BitVec 32}
    (h : readU32At mem addr stop what = .ok w) :
    addr.toNat + 4 ≤ stop.toNat ∧ wordAt mem addr = w := by
  unfold readU32At at h
  split_ifs at h with hbad
  · obtain ⟨hover, hback⟩ := not_or.mp hbad
    exact ⟨by bv_omega, Except.ok.inj h⟩

theorem EhRecord.toNat_next (r : EhRecord) {pos stop : Word}
    (h : pos.toNat + 4 + r.len.toNat ≤ stop.toNat) :
    (r.next pos).toNat = pos.toNat + 4 + r.len.toNat := by
  have hstop := stop.isLt
  unfold next
  bv_omega

/-- One iteration on a record inside the section. -/
theorem enumerateFrom_record {stop pos : Word} (r : EhRecord) (fuel : ℕ)
    (hlen : wordAt mem pos = r.len) (hid : wordAt mem (pos + 4) = r.id)
    (hfits : pos.toNat + 4 + r.len.toNat ≤ stop.toNat) :
    enumerateFrom mem stop (fuel + 1) pos =
      let rest := enumerateFrom mem stop fuel (r.next pos)
      if r.id ≠ 0 then ⟨pos :: rest.fdes, rest.ended⟩ else rest := by
  have hstop := stop.isLt
  have hfour := r.four_le
  have hnext := r.toNat_next hfits
  have hroom : pos + 8 ≤ stop := by bv_omega
  have hpayload : (pos + 4).toNat = pos.toNat + 4 := by bv_omega
  have hread : readU32At mem pos stop "record length" = .ok r.len := by
    rw [← hlen]
    exact readU32At_ok mem (by omega)
  have hread' : readU32At mem (pos + 4) stop "CIE id" = .ok r.id := by
    rw [← hid]
    exact readU32At_ok mem (by omega)
  have hzero : r.len ≠ 0 := by
    intro h
    rw [h] at hfour
    exact absurd hfour (by decide)
  have hinside : ¬ (r.next pos ≤ pos ∨ stop < r.next pos) := by
    rw [BitVec.le_def, BitVec.lt_def, hnext]
    omega
  rw [enumerateFrom, if_pos hroom, hread]
  dsimp only
  rw [if_neg hzero, if_neg r.not_long]
  change (if r.next pos ≤ pos ∨ stop < r.next pos then _ else _) = _
  rw [if_neg hinside, hread']
  rfl

/-- Behind the last record the walk stops, whatever fuel is left. -/
theorem enumerateFrom_ends {stop last : Word} (h : EndsAt mem stop last) (hle : last ≤ stop)
    (fuel : ℕ) : enumerateFrom mem stop (fuel + 1) last = ⟨[], .ok last⟩ := by
  cases h with
  | room short mapped =>
    have hroom : ¬ last + 8 ≤ stop := by bv_omega
    rw [enumerateFrom, if_neg hroom]
  | terminator room zero =>
    rw [enumerateFrom, readU32At_ok mem room]
    dsimp only
    rw [if_pos zero, ite_self]

/-- At a bad record it throws. -/
theorem enumerateFrom_bad {stop last : Word} (h : BadAt mem stop last) (fuel : ℕ) :
    ∃ e, enumerateFrom mem stop (fuel + 1) last = ⟨[], .error e⟩ := by
  obtain ⟨room, bad⟩ := h
  have hstop := stop.isLt
  have hroom : last + 8 ≤ stop := by bv_omega
  have hread : readU32At mem last stop "record length" = .ok (wordAt mem last) :=
    readU32At_ok mem (by omega)
  have hzero : wordAt mem last ≠ 0 := by
    intro hz
    rw [hz] at bad
    rcases bad with hlong | hover
    · exact absurd hlong (by decide)
    · have hnone : (0 : BitVec 32).toNat = 0 := rfl
      omega
  rw [enumerateFrom, if_pos hroom, hread]
  dsimp only
  rw [if_neg hzero]
  split_ifs with hlong hbad
  · exact ⟨_, rfl⟩
  · exact ⟨_, rfl⟩
  · -- a length that ends neither behind the section nor, wrapped around, before the record
    exfalso
    have hover := bad.resolve_left hlong
    have hlt := (wordAt mem last).isLt
    obtain ⟨hback, hinside⟩ := not_or.mp hbad
    bv_omega

theorem LaidOut.le_stop {stop pos last : Word} {records : List EhRecord}
    (h : LaidOut mem stop pos records last) : last ≤ stop := by
  induction records generalizing pos with
  | nil =>
    obtain ⟨rfl, hle⟩ := h
    exact hle
  | cons r rs ih => exact ih h.2.2.2

/-- The walk makes its callbacks for the records and then goes on from their end. -/
theorem enumerateFrom_laidOut {stop pos last : Word} {records : List EhRecord}
    (h : LaidOut mem stop pos records last) (fuel : ℕ) :
    enumerateFrom mem stop (records.length + fuel) pos =
      ⟨fdeStarts pos records ++ (enumerateFrom mem stop fuel last).fdes,
        (enumerateFrom mem stop fuel last).ended⟩ := by
  induction records generalizing pos with
  | nil =>
    obtain ⟨rfl, -⟩ := h
    simp [fdeStarts]
  | cons r rs ih =>
    obtain ⟨hlen, hid, hfits, hrest⟩ := h
    have hfuel : (r :: rs).length + fuel = rs.length + fuel + 1 := by
      simp only [List.length_cons]
      omega
    have hstarts : fdeStarts pos (r :: rs) =
        if r.id ≠ 0 then pos :: fdeStarts (r.next pos) rs else fdeStarts (r.next pos) rs := rfl
    rw [hfuel, enumerateFrom_record mem r _ hlen hid hfits, ih hrest, hstarts]
    split_ifs <;> rfl

/-- The records take up the space between the two addresses. -/
theorem LaidOut.length_le {stop pos last : Word} {records : List EhRecord}
    (h : LaidOut mem stop pos records last) : pos.toNat + records.length ≤ stop.toNat := by
  induction records generalizing pos with
  | nil => exact h.1 ▸ h.2
  | cons r rs ih =>
    obtain ⟨-, -, hfits, hrest⟩ := h
    have hle := ih hrest
    rw [r.toNat_next hfits] at hle
    simp only [List.length_cons]
    omega

theorem enumerateFDEs_laidOut {start stop last : Word} {records : List EhRecord}
    (h : LaidOut mem stop start records last) : ∃ fuel, enumerateFDEs mem start stop =
      ⟨fdeStarts start records ++ (enumerateFrom mem stop (fuel + 1) last).fdes,
        (enumerateFrom mem stop (fuel + 1) last).ended⟩ := by
  have hle := LaidOut.length_le mem h
  refine ⟨stop.toNat - records.length, ?_⟩
  rw [← enumerateFrom_laidOut mem h, enumerateFDEs]
  congr 1
  omega

/-- What the loop does at `pos`: it leaves, throws, or goes on behind a record that ends inside the
section, which it reports only where both words could be read. -/
theorem enumerateFrom_cases (stop pos : Word) (fuel : ℕ) :
    (enumerateFrom mem stop (fuel + 1) pos = ⟨[], .ok pos⟩ ∧
      (¬ pos + 8 ≤ stop ∨ wordAt mem pos = 0)) ∨
    (∃ e, enumerateFrom mem stop (fuel + 1) pos = ⟨[], .error e⟩) ∨
    ∃ next, pos < next ∧ next ≤ stop ∧
      (enumerateFrom mem stop (fuel + 1) pos = enumerateFrom mem stop fuel next ∨
        pos.toNat + 8 ≤ stop.toNat ∧ enumerateFrom mem stop (fuel + 1) pos =
          ⟨pos :: (enumerateFrom mem stop fuel next).fdes,
            (enumerateFrom mem stop fuel next).ended⟩) := by
  rw [enumerateFrom]
  by_cases hroom : pos + 8 ≤ stop
  · rw [if_pos hroom]
    cases hlen : readU32At mem pos stop "record length" with
    | error e => exact Or.inr (Or.inl ⟨e, rfl⟩)
    | ok len =>
      obtain ⟨hfour, hword⟩ := room_of_readU32At mem hlen
      dsimp only
      split_ifs with hzero hlong hbad
      · exact Or.inl ⟨rfl, Or.inr (hword.trans hzero)⟩
      · exact Or.inr (Or.inl ⟨_, rfl⟩)
      · exact Or.inr (Or.inl ⟨_, rfl⟩)
      · obtain ⟨hback, hover⟩ := not_or.mp hbad
        cases hid : readU32At mem (pos + 4) stop "CIE id" with
        | error e => exact Or.inr (Or.inl ⟨e, rfl⟩)
        | ok id =>
          obtain ⟨height, -⟩ := room_of_readU32At mem hid
          refine Or.inr (Or.inr ⟨_, BitVec.not_le.mp hback, BitVec.not_lt.mp hover, ?_⟩)
          dsimp only
          split_ifs with hfde
          · exact Or.inr ⟨by bv_omega, rfl⟩
          · exact Or.inl rfl
  · rw [if_neg hroom]
    exact Or.inl ⟨rfl, Or.inl hroom⟩

/-- Every iteration moves forward, so the walk ends on any contents, and it reports an address only
after it read eight bytes there. -/
theorem enumerateFrom_ends_by_itself {stop pos : Word} {fuel : ℕ}
    (hfuel : stop.toNat - pos.toNat < fuel) :
    (enumerateFrom mem stop fuel pos).Stopped mem stop ∧
      ∀ a ∈ (enumerateFrom mem stop fuel pos).fdes, a.toNat + 8 ≤ stop.toNat := by
  induction fuel generalizing pos with
  | zero => omega
  | succ fuel ih =>
    rcases enumerateFrom_cases mem stop pos fuel with ⟨heq, hstop⟩ | ⟨e, heq⟩ |
      ⟨next, hforward, hinside, hstep⟩
    · rw [heq]
      refine ⟨?_, by simp⟩
      intro pos' hpos'
      cases hpos'
      exact hstop
    · rw [heq]
      refine ⟨?_, by simp⟩
      intro pos' hpos'
      cases hpos'
    · have hless : stop.toNat - next.toNat < fuel := by bv_omega
      obtain ⟨hstopped, hroom⟩ := ih hless
      rcases hstep with heq | ⟨height, heq⟩
      · rw [heq]
        exact ⟨hstopped, hroom⟩
      · rw [heq]
        refine ⟨hstopped, ?_⟩
        intro a ha
        rcases List.mem_cons.mp ha with rfl | ha
        · exact height
        · exact hroom a ha

/-- On records the walk reports exactly the FDEs, in order, and throws at a bad record only after
them; on any contents it ends, and never reports an address with less than a record's header
behind it. -/
theorem enumerateFDEs_exact (stop : Word) :
    (∀ (start last : Word) (records : List EhRecord), LaidOut mem stop start records last →
      (EndsAt mem stop last → (enumerateFDEs mem start stop).fdes = fdeStarts start records ∧
        ∃ pos, (enumerateFDEs mem start stop).ended = .ok pos) ∧
      (BadAt mem stop last → (enumerateFDEs mem start stop).fdes = fdeStarts start records ∧
        ∃ e, (enumerateFDEs mem start stop).ended = .error e)) ∧
    ∀ start : Word, (enumerateFDEs mem start stop).Stopped mem stop ∧
      (∀ fuel, stop.toNat < fuel →
        enumerateFrom mem stop fuel start = enumerateFDEs mem start stop) ∧
      ∀ a ∈ (enumerateFDEs mem start stop).fdes, a.toNat + 8 ≤ stop.toNat := by
  constructor
  · intro start last records h
    obtain ⟨fuel, hwalk⟩ := enumerateFDEs_laidOut mem h
    rw [hwalk]
    constructor
    · intro hend
      rw [enumerateFrom_ends mem hend (LaidOut.le_stop mem h)]
      exact ⟨List.append_nil _, last, rfl⟩
    · intro hbad
      obtain ⟨e, he⟩ := enumerateFrom_bad mem hbad fuel
      rw [he]
      exact ⟨List.append_nil _, e, rfl⟩
  · intro start
    have hfuel : stop.toNat - start.toNat < stop.toNat + 1 := by omega
    obtain ⟨hstopped, hroom⟩ := enumerateFrom_ends_by_itself mem hfuel
    refine ⟨hstopped, ?_, hroom⟩
    intro fuel hf
    exact enumerateFrom_fuel mem hfuel hf

namespace Sample

/-- A CIE and an FDE without anything in them, and the terminator. -/
def records : List EhRecord := [⟨4, 0, by decide, by decide⟩, ⟨4, 12, by decide, by decide⟩]

def recordsMem : Word → Byte :=
  fun a => [4, 0, 0, 0, 0, 0, 0, 0, 4, 0, 0, 0, 12, 0, 0, 0, 0, 0, 0, 0].getD (a - 0x2000).toNat 0

end Sample

theorem records_enumerated :
    LaidOut Sample.recordsMem 0x2014 0x2000 Sample.records 0x2010 ∧
      EndsAt Sample.recordsMem 0x2014 0x2010 ∧
      (enumerateFDEs Sample.recordsMem 0x2000 0x2014).fdes = [0x2008] := by
  have hlaid : LaidOut Sample.recordsMem 0x2014 0x2000 Sample.records 0x2010 := by
    refine ⟨by decide, by decide, by decide, by decide, by decide, by decide, by decide, by decide⟩
  have hends : EndsAt Sample.recordsMem 0x2014 0x2010 := .terminator (by decide) (by decide)
  have hexact := (enumerateFDEs_exact Sample.recordsMem 0x2014).1 0x2000 0x2010 Sample.records hlaid
  exact ⟨hlaid, hends, (hexact.1 hends).1⟩

end UnwindCheck
