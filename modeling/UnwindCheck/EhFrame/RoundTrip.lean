import UnwindCheck.EhFrame.Writer

/-! A written `.eh_frame` section is enumerated and read back as what was written. -/
namespace UnwindCheck
open Lib

theorem addressAfter_add (p : Word) (m n : ℕ) : addressAfter (addressAfter p m) n = addressAfter p (m + n) := by
  simp only [addressAfter, BitVec.ofNat_add, BitVec.add_assoc]

theorem toNat_addressAfter {p : Word} {n : ℕ} (stop : Word) (h : p.toNat + n ≤ stop.toNat) :
    (addressAfter p n).toNat = p.toNat + n := by
  have hstop := stop.isLt
  have hn : (BitVec.ofNat 64 n).toNat = n := by
    rw [BitVec.toNat_ofNat, Nat.mod_eq_of_lt (by omega)]
  rw [addressAfter, BitVec.toNat_add, hn, Nat.mod_eq_of_lt (by omega)]

/-- The text stands at `p`. -/
def Holds (mem : Word → Byte) (p : Word) (text : List Byte) : Prop := readMem mem p text.length = text

section Memory
variable {mem : Word → Byte} {p : Word} {first second : List Byte}

theorem readMem_add (p : Word) (m n : ℕ) :
    readMem mem p (m + n) = readMem mem p m ++ readMem mem (addressAfter p m) n := by
  simp only [readMem, List.range_add, List.map_append, List.map_map]
  congr 1
  refine List.map_congr_left fun i _ => ?_
  simp only [Function.comp_apply, addressAfter, BitVec.ofNat_add, BitVec.add_assoc]

theorem holds_append : Holds mem p (first ++ second) ↔
    Holds mem p first ∧ Holds mem (addressAfter p first.length) second := by
  unfold Holds
  rw [List.length_append, readMem_add]
  constructor
  · intro h
    exact List.append_inj h (length_readMem mem p first.length)
  · rintro ⟨hfirst, hsecond⟩
    rw [hfirst, hsecond]

end Memory

/-- A 32-bit field. -/
theorem wordAt_of_holds {mem : Word → Byte} {p : Word} {n : ℕ} (h : Holds mem p (leBytes 4 n)) :
    wordAt mem p = BitVec.ofNat 32 n := by
  have hread : readMem mem p 4 = leBytes 4 n := by
    have hlen := length_leBytes 4 n
    unfold Holds at h
    rwa [hlen] at h
  unfold wordAt
  rw [hread, littleEndian_leBytes]
  apply BitVec.eq_of_toNat_eq
  simp only [BitVec.toNat_ofNat]
  omega

namespace EhFrameRecord
variable {mem : Word → Byte} {p : Word} (f : EhFrameRecord)

theorem length_text : f.text.length = 8 + f.body.length := by
  simp only [text, List.length_append, length_leBytes]

theorem toNat_len : (f.header.len).toNat = f.body.length + 4 := by
  have hshort := f.short
  rw [header, BitVec.toNat_ofNat, Nat.mod_eq_of_lt (by omega)]

/-- What a record in memory looks like. -/
theorem holds_iff : Holds mem p f.text ↔ Holds mem p (leBytes 4 (f.body.length + 4)) ∧
    Holds mem (p + 4) (leBytes 4 f.id.toNat ++ f.body) := by
  unfold text
  rw [List.append_assoc, holds_append, length_leBytes]
  rfl

theorem next_eq (p : Word) : f.header.next p = addressAfter p f.text.length := by
  have hlen : f.header.len.setWidth 64 = BitVec.ofNat 64 (f.body.length + 4) := by
    apply BitVec.eq_of_toNat_eq
    have hshort := f.short
    rw [BitVec.toNat_setWidth, f.toNat_len, BitVec.toNat_ofNat]
  have hfour : (4 : Word) + BitVec.ofNat 64 (f.body.length + 4) = BitVec.ofNat 64 (8 + f.body.length) := by
    have hsum : 8 + f.body.length = 4 + (f.body.length + 4) := by omega
    rw [hsum, BitVec.ofNat_add 4]
    rfl
  rw [EhRecord.next, hlen, f.length_text, addressAfter, BitVec.add_assoc, hfour]

theorem wordAt_len (h : Holds mem p f.text) : wordAt mem p = f.header.len :=
  wordAt_of_holds (f.holds_iff.mp h).1

theorem wordAt_id (h : Holds mem p f.text) : wordAt mem (p + 4) = f.id := by
  have hid := (holds_append.mp (f.holds_iff.mp h).2).1
  rw [wordAt_of_holds hid, BitVec.ofNat_toNat, BitVec.setWidth_eq]

/-- The bytes a record is read from. -/
theorem readMem_of_holds (h : Holds mem p f.text) :
    readMem mem (p + 4) (wordAt mem p).toNat = leBytes 4 f.id.toNat ++ f.body ∧
      readMem mem (p + 8) ((wordAt mem p).toNat - 4) = f.body := by
  have hrest := (f.holds_iff.mp h).2
  have hbody := (holds_append.mp hrest).2
  have height : addressAfter (p + 4) (leBytes 4 f.id.toNat).length = p + 8 := by
    rw [length_leBytes]
    exact addressAfter_add p 4 4
  rw [height] at hbody
  unfold Holds at hrest hbody
  rw [List.length_append, length_leBytes] at hrest
  rw [f.wordAt_len h, f.toNat_len, Nat.add_sub_cancel, Nat.add_comm]
  exact ⟨hrest, hbody⟩

end EhFrameRecord

section Records
variable {mem : Word → Byte} {bounds : Word × Word} {p cieAddr : Word} {f : EhFrameRecord}

theorem ofBody_eq_some {id : BitVec 32} {body : List Byte} (h : EhFrameRecord.ofBody id body = some f) :
    f.id = id ∧ f.body = body := by
  unfold EhFrameRecord.ofBody at h
  split_ifs at h
  cases h
  exact ⟨rfl, rfl⟩

theorem writeCIE_text {cie : CIE} {ops : List CfaOp} (h : writeCIE p cie ops = some f) :
    f.id = 0 ∧ cieRecordText (p + 4) (cie, ops) (leBytes 4 0 ++ f.body) := by
  obtain ⟨fields, hfields, h⟩ := Option.bind_eq_some_iff.mp h
  obtain ⟨insns, hinsns, h⟩ := Option.bind_eq_some_iff.mp h
  obtain ⟨hid, hbody⟩ := ofBody_eq_some h
  have htext := writeCIEFields_text (p := p + 4) hfields
  have hops := writeOps_text hinsns
  rw [addressAfter_add] at hops
  refine ⟨hid, cie, leBytes 4 0 ++ fields, insns, ?_, htext, ops, ?_, rfl⟩
  · rw [hbody, List.append_assoc]
  · rw [List.length_append, length_leBytes]
    exact hops

theorem cieAt_of_holds {cie : CIE} {ops : List CfaOp} (h : writeCIE p cie ops = some f)
    (hmem : Holds mem p f.text) (hlo : bounds.1.toNat ≤ p.toNat)
    (hhi : p.toNat + f.text.length ≤ bounds.2.toNat) : CIEAt mem bounds p cie ops := by
  obtain ⟨hid, htext⟩ := writeCIE_text h
  have hlen := f.wordAt_len hmem
  have hbytes := (f.readMem_of_holds hmem).1
  rw [f.length_text] at hhi
  rw [hid] at hbytes
  refine ⟨BitVec.le_def.mpr hlo, ?_, ?_, ?_⟩
  · rw [hlen, f.toNat_len]
    omega
  · rw [hlen]
    exact f.header.not_long
  · rw [hbytes]
    exact htext

theorem writeFDE_text {r : FDERecord} (h : writeFDE p cieAddr r = some f) :
    f.id ≠ 0 ∧ p + 4 - f.id.setWidth 64 = cieAddr ∧ fdeRecordText r.cie r.cieOps (p + 8) r f.body := by
  obtain ⟨pcStart, hstart, h⟩ := Option.bind_eq_some_iff.mp h
  obtain ⟨pcRange, hrange, h⟩ := Option.bind_eq_some_iff.mp h
  obtain ⟨aug, haug, h⟩ := Option.bind_eq_some_iff.mp h
  obtain ⟨insns, hinsns, h⟩ := Option.bind_eq_some_iff.mp h
  obtain ⟨⟨hpos, hlt⟩, h⟩ := Option.ite_none_right_eq_some.mp h
  obtain ⟨hid, hbody⟩ := ofBody_eq_some h
  have hwide : f.id.setWidth 64 = p + 4 - cieAddr := by
    apply BitVec.eq_of_toNat_eq
    rw [hid, BitVec.toNat_setWidth, BitVec.toNat_setWidth, Nat.mod_eq_of_lt hlt,
      Nat.mod_eq_of_lt (BitVec.isLt _)]
  refine ⟨?_, ?_, ?_⟩
  · intro hzero
    rw [hzero] at hwide
    rw [← hwide] at hpos
    exact absurd hpos (by decide)
  · rw [hwide, sub_sub_cancel]
  · rw [hbody]
    exact ⟨(r.pcStart, r.pcRange, r.lsdaPtr), _, insns, rfl,
      ⟨r.pcStart, pcStart, _, rfl, writePointer_text hstart, r.pcRange, pcRange, aug, rfl,
        writePointer_text hrange, r.lsdaPtr, writeFDEAug_text haug, rfl⟩,
      r.fdeOps, writeOps_text hinsns, rfl⟩

theorem fdeAt_of_holds {r : FDERecord} (h : writeFDE p cieAddr r = some f) (hmem : Holds mem p f.text)
    (hlo : bounds.1.toNat ≤ p.toNat) (hhi : p.toNat + f.text.length ≤ bounds.2.toNat)
    (hcie : CIEAt mem bounds cieAddr r.cie r.cieOps) : FDEAt mem bounds p r := by
  obtain ⟨hid, hback, htext⟩ := writeFDE_text h
  have hlen := f.wordAt_len hmem
  have hbytes := (f.readMem_of_holds hmem).2
  rw [f.length_text] at hhi
  refine ⟨BitVec.le_def.mpr hlo, ?_, ?_, ?_, ?_, ?_⟩
  · rw [hlen, f.toNat_len]
    omega
  · rw [hlen]
    exact f.header.not_long
  · rw [hlen]
    exact f.header.four_le
  · rw [f.wordAt_id hmem, hback]
    exact hcie
  · rw [hbytes]
    exact htext

end Records

section Sections
variable {mem : Word → Byte} {bounds : Word × Word} {p cieAddr stop : Word} {fs : List EhFrameRecord}

@[simp] theorem recordsText_cons (f : EhFrameRecord) (fs : List EhFrameRecord) :
    recordsText (f :: fs) = f.text ++ recordsText fs := List.flatMap_cons

@[simp] theorem recordsText_append (fs gs : List EhFrameRecord) :
    recordsText (fs ++ gs) = recordsText fs ++ recordsText gs := List.flatMap_append

theorem laidOut_of_holds (stop : Word) (hmem : Holds mem p (recordsText fs))
    (hroom : p.toNat + (recordsText fs).length ≤ stop.toNat) :
    LaidOut mem stop p (fs.map EhFrameRecord.header) (addressAfter p (recordsText fs).length) := by
  induction fs generalizing p with
  | nil =>
    refine ⟨by simp [addressAfter, recordsText], ?_⟩
    rw [BitVec.le_def]
    simpa [recordsText] using hroom
  | cons f fs ih =>
    rw [recordsText_cons, holds_append] at hmem
    rw [recordsText_cons, List.length_append] at hroom
    obtain ⟨hfirst, hrest⟩ := hmem
    have hnext : (addressAfter p f.text.length).toNat = p.toNat + f.text.length :=
      toNat_addressAfter stop (by omega)
    have hlaid := ih hrest (by rw [hnext]; omega)
    rw [addressAfter_add, ← List.length_append] at hlaid
    refine ⟨f.wordAt_len hfirst, f.wordAt_id hfirst, ?_, ?_⟩
    · rw [f.toNat_len]
      rw [f.length_text] at hroom
      omega
    · rw [f.next_eq]
      exact hlaid

theorem fdeStarts_append (p : Word) (fs gs : List EhFrameRecord) :
    fdeStarts p ((fs ++ gs).map EhFrameRecord.header) = fdeStarts p (fs.map EhFrameRecord.header) ++
      fdeStarts (addressAfter p (recordsText fs).length) (gs.map EhFrameRecord.header) := by
  induction fs generalizing p with
  | nil => simp [fdeStarts, addressAfter, recordsText]
  | cons f fs ih =>
    simp only [List.cons_append, List.map_cons, fdeStarts, f.next_eq, ih, recordsText_cons,
      List.length_append, addressAfter_add]
    split_ifs <;> rfl

/-- FDEs behind each other are read back, wherever their CIE stands. -/
theorem writeFDEs_read {rs : List FDERecord} (hwrite : writeFDEs p cieAddr rs = some fs)
    (hmem : Holds mem p (recordsText fs)) (hlo : bounds.1.toNat ≤ p.toNat)
    (hhi : p.toNat + (recordsText fs).length ≤ bounds.2.toNat)
    (hcie : ∀ r ∈ rs, CIEAt mem bounds cieAddr r.cie r.cieOps) :
    (fdeStarts p (fs.map EhFrameRecord.header)).map (readRecord mem bounds) = rs.map Except.ok := by
  induction rs generalizing p fs with
  | nil =>
    cases hwrite
    rfl
  | cons r rs ih =>
    obtain ⟨f, hf, hwrite⟩ := Option.bind_eq_some_iff.mp hwrite
    obtain ⟨gs, hgs, hwrite⟩ := Option.bind_eq_some_iff.mp hwrite
    cases hwrite
    rw [recordsText_cons, holds_append] at hmem
    rw [recordsText_cons, List.length_append] at hhi
    obtain ⟨hfirst, hrest⟩ := hmem
    have hnext : (addressAfter p f.text.length).toNat = p.toNat + f.text.length :=
      toNat_addressAfter bounds.2 (by omega)
    have hread := readRecord_ok_iff.mpr
      (fdeAt_of_holds hf hfirst hlo (by omega) (hcie r List.mem_cons_self))
    have hreads := ih hgs hrest (by omega) (by rw [hnext]; omega) fun q hq =>
      hcie q (List.mem_cons_of_mem r hq)
    have hid : f.header.id ≠ 0 := (writeFDE_text hf).1
    rw [List.map_cons, fdeStarts, if_pos hid, f.next_eq, List.map_cons, hread, hreads, List.map_cons]

theorem writeGroup_read {g : EhFrameGroup} (hwrite : writeGroup p g = some fs)
    (hmem : Holds mem p (recordsText fs)) (hlo : bounds.1.toNat ≤ p.toNat)
    (hhi : p.toNat + (recordsText fs).length ≤ bounds.2.toNat) :
    (fdeStarts p (fs.map EhFrameRecord.header)).map (readRecord mem bounds) = g.records.map Except.ok := by
  obtain ⟨f, hf, hwrite⟩ := Option.bind_eq_some_iff.mp hwrite
  obtain ⟨gs, hgs, hwrite⟩ := Option.bind_eq_some_iff.mp hwrite
  cases hwrite
  rw [recordsText_cons, holds_append] at hmem
  rw [recordsText_cons, List.length_append] at hhi
  obtain ⟨hfirst, hrest⟩ := hmem
  have hnext : (addressAfter p f.text.length).toNat = p.toNat + f.text.length :=
    toNat_addressAfter bounds.2 (by omega)
  have hcie : CIEAt mem bounds p g.cie g.cieOps := cieAt_of_holds hf hfirst hlo (by omega)
  have hid : f.header.id = 0 := (writeCIE_text hf).1
  rw [List.map_cons, fdeStarts, if_neg (not_not.mpr hid), f.next_eq]
  apply writeFDEs_read hgs hrest
  · omega
  · rw [hnext]
    omega
  · intro r hr
    obtain ⟨fde, -, rfl⟩ := List.mem_map.mp hr
    exact hcie

theorem writeGroups_read {groups : List EhFrameGroup} (hwrite : writeGroups p groups = some fs)
    (hmem : Holds mem p (recordsText fs)) (hlo : bounds.1.toNat ≤ p.toNat)
    (hhi : p.toNat + (recordsText fs).length ≤ bounds.2.toNat) :
    (fdeStarts p (fs.map EhFrameRecord.header)).map (readRecord mem bounds) =
      (groups.flatMap EhFrameGroup.records).map Except.ok := by
  induction groups generalizing p fs with
  | nil =>
    cases hwrite
    rfl
  | cons g groups ih =>
    obtain ⟨first, hfirst, hwrite⟩ := Option.bind_eq_some_iff.mp hwrite
    obtain ⟨second, hsecond, hwrite⟩ := Option.bind_eq_some_iff.mp hwrite
    cases hwrite
    rw [recordsText_append, holds_append] at hmem
    rw [recordsText_append, List.length_append] at hhi
    have hnext : (addressAfter p (recordsText first).length).toNat = p.toNat + (recordsText first).length :=
      toNat_addressAfter bounds.2 (by omega)
    have hhead := writeGroup_read hfirst hmem.1 hlo (by omega)
    have htail := ih hsecond hmem.2 (by omega) (by rw [hnext]; omega)
    rw [fdeStarts_append, List.map_append, hhead, htail, List.flatMap_cons, List.map_append]

/-- A written section, wherever it is loaded and whatever follows it: the walk ends at its terminator
and finds its FDEs, and each of them is read as what was written. -/
theorem section_roundTrip {start : Word} {groups : List EhFrameGroup} {text : List Byte}
    (hwrite : writeSection start groups = some text) (hmem : Holds mem start text)
    (hroom : start.toNat + text.length ≤ stop.toNat) :
    (enumerateFDEs mem start stop).Complete mem stop ∧
      (enumerateFDEs mem start stop).fdes.map (readRecord mem (start, stop)) =
        (groups.flatMap EhFrameGroup.records).map Except.ok := by
  obtain ⟨fs, hfs, hwrite⟩ := Option.bind_eq_some_iff.mp hwrite
  cases hwrite
  obtain ⟨hrecords, hterminator⟩ := holds_append.mp hmem
  rw [List.length_append, length_leBytes] at hroom
  have hlaid := laidOut_of_holds stop hrecords (by omega)
  have hlast : (addressAfter start (recordsText fs).length).toNat = start.toNat + (recordsText fs).length :=
    toNat_addressAfter stop (by omega)
  have hzero : wordAt mem (addressAfter start (recordsText fs).length) = 0 := wordAt_of_holds hterminator
  obtain ⟨fuel, henum⟩ := enumerateFDEs_laidOut mem hlaid
  have hends := enumerateFrom_ends mem (.terminator (by omega) hzero) (LaidOut.le_stop mem hlaid) fuel
  rw [henum, hends]
  constructor
  · refine ⟨_, rfl, Or.inr ⟨by omega, ?_⟩⟩
    have hread : readMem mem (addressAfter start (recordsText fs).length) 4 = leBytes 4 0 :=
      hterminator
    rw [hread]
    decide
  · rw [List.append_nil]
    exact writeGroups_read hfs hrecords (le_refl _) (by dsimp only; omega)

end Sections

namespace Sample

/-- The rules at a function's entry, and an FDE that pushes %rbp. -/
def pushGroup : EhFrameGroup where
  cie := ⟨1, -8, 16, true, ⟨0x1b, kDwEhPeOmitted, false⟩⟩
  cieOps := [.defCfa 7 8, .offset 16 1, .nop, .nop]
  fdes := [(0x1000, 16, none, [.advanceLoc 1, .defCfaOffset 16, .offset 6 2])]

/-- The section `pushGroup` is written as. -/
def pushSection : List Byte := ehFrame [0x41, 0x0e, 0x10, 0x86, 2]

end Sample

theorem bind_eq_some {α β : Type} {x : Option α} {f : α → Option β} {a : α} {b : β} (hx : x = some a)
    (hf : f a = some b) : x >>= f = some b := by
  rw [hx]
  exact hf

theorem writeUleb_small {v : Word} (h : v.toNat < 128) : writeUleb v = [Leb128.byteOf false v.toNat] := by
  rw [writeUleb, Leb128.encodeUnsigned, if_pos h]

theorem writeSleb_small {v : Word} (h : -64 ≤ v.toInt ∧ v.toInt < 64) :
    writeSleb v = [Leb128.byteOf false v.toInt] := by
  rw [writeSleb, Leb128.encodeSigned, if_pos h]

/-- The numbers of `pushGroup`, in a byte each. -/
theorem pushGroup_bytes : writeUleb 0 = [0] ∧ writeUleb 1 = [1] ∧ writeUleb 2 = [2] ∧ writeUleb 7 = [7] ∧
    writeUleb 8 = [8] ∧ writeUleb 16 = [16] ∧ writeSleb (-8) = [0x78] :=
  ⟨writeUleb_small (by decide), writeUleb_small (by decide), writeUleb_small (by decide),
    writeUleb_small (by decide), writeUleb_small (by decide), writeUleb_small (by decide),
    writeSleb_small (by decide)⟩

theorem writeSection_pushGroup : writeSection 0x2000 [Sample.pushGroup] = some Sample.pushSection := by
  obtain ⟨h0, h1, h2, h7, h8, h16, hm8⟩ := pushGroup_bytes
  have hcieOps : ∀ p, writeOps 0x1b p Sample.pushGroup.cieOps = some [0x0c, 7, 8, 0x90, 1, 0, 0] := by
    intro p
    simp only [Sample.pushGroup, writeOps, writeOp, h7, h8, h1]
    rfl
  have hfdeOps : ∀ p, writeOps 0x1b p [.advanceLoc 1, .defCfaOffset 16, .offset 6 2] =
      some [0x41, 0x0e, 0x10, 0x86, 2] := by
    intro p
    simp only [writeOps, writeOp, h16, h2]
    rfl
  have hcie : writeCIEFields Sample.pushGroup.cie = some [1, 0x7a, 0x52, 0, 1, 0x78, 0x10, 1, 0x1b] := by
    have hlen : writeUleb (BitVec.ofNat 64 (writeAug ⟨0x1b, kDwEhPeOmitted, false⟩).2.length) = [1] := h1
    simp only [Sample.pushGroup, writeCIEFields, h1, hm8, hlen]
    rfl
  have hfirst : writeCIE 0x2000 Sample.pushGroup.cie Sample.pushGroup.cieOps =
      some ⟨0, [1, 0x7a, 0x52, 0, 1, 0x78, 0x10, 1, 0x1b, 0x0c, 7, 8, 0x90, 1, 0, 0], by decide⟩ := by
    unfold writeCIE
    exact bind_eq_some hcie (bind_eq_some (hcieOps _) rfl)
  have hfde : writeFDE 0x2018 0x2000 ⟨Sample.pushGroup.cie, 0x1000, 16, Sample.pushGroup.cieOps, none,
      [.advanceLoc 1, .defCfaOffset 16, .offset 6 2]⟩ =
      some ⟨0x1c, [0xe0, 0xef, 0xff, 0xff, 16, 0, 0, 0, 0, 0x41, 0x0e, 0x10, 0x86, 2], by decide⟩ := by
    have hstart : writePointer 0x1b 0x2020 0x1000 = some [0xe0, 0xef, 0xff, 0xff] := by decide
    have hrange : writePointer 0x0b 0x2024 16 = some [16, 0, 0, 0] := by decide
    have haug : writeFDEAug 0x2028 Sample.pushGroup.cie none = some [0] := by
      simp only [writeFDEAug, h0]
      rfl
    unfold writeFDE
    exact bind_eq_some hstart (bind_eq_some hrange (bind_eq_some haug (bind_eq_some (hfdeOps _) rfl)))
  have hfdes : writeFDEs 0x2018 0x2000 Sample.pushGroup.records = some [_] :=
    bind_eq_some hfde rfl
  have hgroup : writeGroup 0x2000 Sample.pushGroup = some [_, _] :=
    bind_eq_some hfirst (bind_eq_some hfdes rfl)
  have hgroups : writeGroups 0x2000 [Sample.pushGroup] = some [_, _] := bind_eq_some hgroup rfl
  exact bind_eq_some hgroups (congrArg some (by decide))

/-- The FDE of `pushGroup` comes back from the section. -/
theorem pushSection_read :
    (enumerateFDEs (Sample.ehFrameMem [0x41, 0x0e, 0x10, 0x86, 2]) 0x2000 0x2034).fdes.map
      (readRecord (Sample.ehFrameMem [0x41, 0x0e, 0x10, 0x86, 2]) (0x2000, 0x2034)) =
    Sample.pushGroup.records.map Except.ok := by
  have hmem : Holds (Sample.ehFrameMem [0x41, 0x0e, 0x10, 0x86, 2]) 0x2000 Sample.pushSection := by
    unfold Holds
    decide
  exact (section_roundTrip writeSection_pushGroup hmem (by decide)).2

end UnwindCheck
