import UnwindCheck.EhFrame.Program
import UnwindCheck.EhFrame.LSDAPointer
import UnwindCheck.Lib.UpperBound

/-! `FindAndDecodeFDE`: the FDE for one address by binary search in `.eh_frame_hdr`, and what it has to
do with decoding every FDE. -/
namespace UnwindCheck

/-- Offsets from the start of `.eh_frame_hdr`. -/
structure EHFrameHdrEntry where
  startIpOffset : BitVec 32
  fdePtrOffset : BitVec 32
  deriving DecidableEq, Repr

namespace EHFrameHdrEntry
variable (e : EHFrameHdrEntry) (hdr : Word)

def startPc : Word := hdr + e.startIpOffset.signExtend 64

def fdeAddr : Word := hdr + e.fdePtrOffset.signExtend 64

end EHFrameHdrEntry

section
variable (mem : Word → Byte)

/-- `ReadSubslice<EHFrameHdrEntry>` -/
def readEntries (n : Word) : SliceM (List EHFrameHdrEntry) := do
  let s ← get
  if s.data &&& 3 ≠ 0 then
    throw ("eh_frame read error: insufficient alignment. Align needed: 4, address: 0x" ++
      String.ofList (Nat.toDigits 16 s.data.toNat))
  if 2 ^ 64 ≤ n.toNat * 8 then
    throw ("eh_frame read error: ReadSubslice overflow. n * sizeof(T) = " ++ toString n.toInt ++ " * 8")
  if s.size < n.toNat * 8 then throw "eh_frame read error: truncated data"
  set (s.advance (n.toNat * 8))
  return (List.range n.toNat).map fun i =>
    ⟨BitVec.ofNat 32 (littleEndian (readMem mem (s.data + BitVec.ofNat 64 (8 * i)) 4)),
      BitVec.ofNat 32 (littleEndian (readMem mem (s.data + BitVec.ofNat 64 (8 * i + 4)) 4))⟩

/-- The header of `.eh_frame_hdr` and the search table behind it. -/
def readEHFrameHdr : SliceM (List EHFrameHdrEntry) := do
  let header ← readSubslice 4
  let version := mem header.data
  let ehFramePtrEnc := mem (header.data + 1)
  let fdeCountEnc := mem (header.data + 2)
  let tableEnc := mem (header.data + 3)
  if version ≠ 1 then throw ("bad eh_frame_hdr version: " ++ toString version.toNat)
  let _ ← readEncodedPtr mem ehFramePtrEnc
  let fdeCount ← readEncodedPtr mem fdeCountEnc
  if fdeCount = 0 ∨ tableEnc = kDwEhPeOmitted then throw "no binary search table for fdes"
  if tableEnc ≠ 0x3b then
    throw ("unsupported table encoding: " ++ String.ofList (Nat.toDigits 16 tableEnc.toNat))
  readEntries mem fdeCount

end

/-- The loop of `FindFDE`. `after i` says that entry `i` starts behind the address. -/
def bisect (after : ℕ → Bool) : (fuel low high : ℕ) → ℕ
  | 0, low, _ => low
  | fuel + 1, low, high =>
    if low < high then
      let mid := (low + high) / 2
      if after mid then bisect after fuel low mid else bisect after fuel (mid + 1) high
    else low

/-- `FindFDE`, 0 if there is none. -/
def findFDE (mem : Word → Byte) (bounds : Word × Word) (hdr lookupPc : Word) : Except String Word := do
  let slice ← makeSlice bounds hdr
  let (entries, _) ← (readEHFrameHdr mem).run slice
  let low := bisect (fun i => (entries[i]?).any fun e => decide (lookupPc < e.startPc hdr))
    entries.length 0 entries.length
  if 0 < low then return ((entries[low - 1]?).map (EHFrameHdrEntry.fdeAddr · hdr)).getD 0
  else return 0

variable {δ : Type} [Offset δ]

/-- `ParseFDE` with an address to look up. -/
def parseFDEFor (mem : Word → Byte) (bounds : Word × Word) (fdeAddr lookupPc : Word)
    (b : TableBuilder δ) : Except String (TableBuilder δ) :=
  parseFDEWhere mem bounds fdeAddr
    (fun pcStart pcEnd => decide (pcStart ≤ lookupPc ∧ lookupPc < pcEnd)) b

/-- `FindAndDecode` -/
def findAndDecode (mem : Word → Byte) (bounds : Word × Word) (hdr lookupPc : Word)
    (b : TableBuilder δ) : Except String (TableBuilder δ) := do
  let fde ← findFDE mem bounds hdr lookupPc
  if fde = 0 then return b
  parseFDEFor mem bounds fde lookupPc b

/-- The loop halves the same ranges as `upper_bound`. -/
theorem bisect_eq (after : ℕ → Bool) (fuel low high : ℕ) (h : low ≤ high) :
    bisect after fuel low high = Lib.upperBoundFrom after fuel low (high - low) := by
  induction fuel generalizing low high with
  | zero => rfl
  | succ fuel ih =>
    unfold bisect Lib.upperBoundFrom
    by_cases hlt : low < high
    · have hmid : low + (high - low) / 2 = (low + high) / 2 := by omega
      have hlen : high - low ≠ 0 := by omega
      rw [if_pos hlt, if_neg hlen, hmid]
      have hleft := ih low ((low + high) / 2) (by omega)
      have hright := ih ((low + high) / 2 + 1) high (by omega)
      have hleftLen : (low + high) / 2 - low = (high - low) / 2 := by omega
      have hrightLen : high - ((low + high) / 2 + 1) = high - low - (high - low) / 2 - 1 := by omega
      rw [hleftLen] at hleft
      rw [hrightLen] at hright
      dsimp only
      rw [hleft, hright]
    · have hlen : high - low = 0 := by omega
      rw [if_neg hlt, if_pos hlen]

namespace FDERecord

/-- The FDE is for the address. -/
def Covers (r : FDERecord) (pc : Word) : Prop := r.pcStart ≤ pc ∧ pc < r.pcStart + r.pcRange

end FDERecord

section Ranges
variable {mem : Word → Byte} {bounds : Word × Word} {fdeAddr : Word} {r : FDERecord}

/-- What a record that can be read decides about a lookup. -/
theorem parseFDEFor_of_readRecord (h : readRecord mem bounds fdeAddr = .ok r) (lookupPc : Word)
    (b : TableBuilder δ) :
    (r.Covers lookupPc → parseFDEFor mem bounds fdeAddr lookupPc b = parseFDE mem bounds fdeAddr b) ∧
      (¬ r.Covers lookupPc → parseFDEFor mem bounds fdeAddr lookupPc b =
        .ok (if r.cie.aug.signalFrame then b.handleAugS else b)) := by
  obtain ⟨fde, hfde, h⟩ := except_bind_ok h
  obtain ⟨⟨cieAddr, fde₁⟩, hhdr, h⟩ := except_bind_ok h
  obtain ⟨cieSlice, hcs, h⟩ := except_bind_ok h
  obtain ⟨⟨cie, cieSlice₁⟩, hcie, h⟩ := except_bind_ok h
  obtain ⟨⟨pcStart, fde₂⟩, hstart, h⟩ := except_bind_ok h
  obtain ⟨⟨pcRange, fde₃⟩, hrange, h⟩ := except_bind_ok h
  obtain ⟨cieOps, -, h⟩ := except_bind_ok h
  obtain ⟨⟨lsdaPtr, fde₄⟩, -, h⟩ := except_bind_ok h
  obtain ⟨fdeOps, -, h⟩ := except_bind_ok h
  cases h
  unfold parseFDEFor parseFDE parseFDEWhere FDERecord.Covers
  simp only [hfde, hhdr, hcs, hcie, hstart, hrange, bind, Except.bind]
  constructor
  · intro hcovers
    have htest : ¬ ¬ decide (pcStart ≤ lookupPc ∧ lookupPc < pcStart + pcRange) = true := by
      rw [not_not]
      exact decide_eq_true hcovers
    exact (if_neg htest).trans (if_neg (not_not.mpr trivial)).symm
  · intro hnot
    have htest : ¬ decide (pcStart ≤ lookupPc ∧ lookupPc < pcStart + pcRange) = true := by
      rw [decide_eq_true_iff]
      exact hnot
    exact (if_pos htest).trans rfl

end Ranges

section Tables
variable {mem : Word → Byte} {bounds : Word × Word} {hdr lookupPc : Word}

/-- The entry points at the record and gives its first address. -/
structure EHFrameHdrEntry.Lists (mem : Word → Byte) (bounds : Word × Word) (hdr : Word)
    (e : EHFrameHdrEntry) (r : FDERecord) : Prop where
  addr_ne : e.fdeAddr hdr ≠ 0
  read : readRecord mem bounds (e.fdeAddr hdr) = .ok r
  start : e.startPc hdr = r.pcStart

/-- A search table as linkers write it: its entries are in the order of the ranges, which do not
overlap. -/
structure SearchTable (mem : Word → Byte) (bounds : Word × Word) (hdr : Word)
    (table : List (EHFrameHdrEntry × FDERecord)) : Prop where
  read : ∃ slice rest, makeSlice bounds hdr = .ok slice ∧
    (readEHFrameHdr mem).run slice = .ok (table.map Prod.fst, rest)
  lists : ∀ t ∈ table, t.1.Lists mem bounds hdr t.2
  noWrap : ∀ t ∈ table, t.2.pcStart.toNat + t.2.pcRange.toNat < 2 ^ 64
  apart : table.Pairwise fun t t' => t.2.pcStart.toNat + t.2.pcRange.toNat ≤ t'.2.pcStart.toNat

theorem FDERecord.covers_iff {r : FDERecord} {pc : Word}
    (h : r.pcStart.toNat + r.pcRange.toNat < 2 ^ 64) :
    r.Covers pc ↔ r.pcStart.toNat ≤ pc.toNat ∧ pc.toNat < r.pcStart.toNat + r.pcRange.toNat := by
  rw [FDERecord.Covers, BitVec.le_def, BitVec.lt_def, BitVec.toNat_add_of_lt h]

/-- The entry is for addresses behind the one that is looked up. -/
def after (hdr lookupPc : Word) (t : EHFrameHdrEntry × FDERecord) : Bool :=
  decide (lookupPc < t.1.startPc hdr)

/-- The entry the search ends at: the last that does not start behind the address. -/
structure LastAt (table : List (EHFrameHdrEntry × FDERecord)) (lookupPc : Word)
    (last : EHFrameHdrEntry × FDERecord) : Prop where
  mem : last ∈ table
  start_le : last.2.pcStart ≤ lookupPc
  others : ∀ t ∈ table, t.2.pcStart ≤ lookupPc →
    t.2.pcStart.toNat + t.2.pcRange.toNat ≤ last.2.pcStart.toNat ∨ t = last

/-- `FindFDE` ends at the last entry that does not start behind the address. -/
theorem SearchTable.findFDE_cases {table : List (EHFrameHdrEntry × FDERecord)}
    (h : SearchTable mem bounds hdr table) (lookupPc : Word) :
    (findFDE mem bounds hdr lookupPc = .ok 0 ∧ ∀ t ∈ table, lookupPc < t.2.pcStart) ∨
      ∃ last, LastAt table lookupPc last ∧
        findFDE mem bounds hdr lookupPc = .ok (last.1.fdeAddr hdr) := by
  obtain ⟨slice, rest, hslice, hhdr⟩ := h.read
  have hstart : ∀ t ∈ table, t.1.startPc hdr = t.2.pcStart := fun t ht => (h.lists t ht).start
  have hs : table.Pairwise fun t t' => t.2.pcStart.toNat + t.2.pcRange.toNat ≤ t'.2.pcStart.toNat ∧
      t.1.startPc hdr ≤ t'.1.startPc hdr := by
    refine h.apart.imp_of_mem fun ht ht' hle => ⟨hle, ?_⟩
    rw [hstart _ ht, hstart _ ht', BitVec.le_def]
    omega
  -- the search sees the entries only
  have hafter : (fun i : ℕ => ((table.map Prod.fst)[i]?).any fun e : EHFrameHdrEntry =>
      decide (lookupPc < e.startPc hdr)) =
      fun i : ℕ => (table[i]?).any (after hdr lookupPc) := by
    funext i
    rw [List.getElem?_map, Option.any_map]
    rfl
  have hbisect : bisect (fun i : ℕ => (table[i]?).any (after hdr lookupPc)) table.length 0 table.length =
      Lib.upperBound (fun i : ℕ => (table[i]?).any (after hdr lookupPc)) table.length :=
    bisect_eq _ _ _ _ (Nat.zero_le _)
  have hfind : findFDE mem bounds hdr lookupPc =
      let low := Lib.upperBound (fun i : ℕ => (table[i]?).any (after hdr lookupPc)) table.length
      if 0 < low then .ok (((table[low - 1]?).map fun t => t.1.fdeAddr hdr).getD 0) else .ok 0 := by
    unfold findFDE
    simp only [hslice, hhdr, bind, Except.bind, hafter, List.length_map, hbisect]
    simp only [List.getElem?_map, Option.map_map]
    split_ifs <;> rfl
  rw [hfind]
  have hmono : ∀ t t' : EHFrameHdrEntry × FDERecord,
      (t.2.pcStart.toNat + t.2.pcRange.toNat ≤ t'.2.pcStart.toNat ∧ t.1.startPc hdr ≤ t'.1.startPc hdr) →
        after hdr lookupPc t = true → after hdr lookupPc t' = true := by
    intro t t' hR hlt
    have hle := BitVec.le_def.mp hR.2
    rw [after, decide_eq_true_iff, BitVec.lt_def] at hlt ⊢
    omega
  rcases Lib.upperBound_cases hs hmono with ⟨hzero, hall⟩ | ⟨last, hlast, hnot, hpos, hget, hothers⟩
  · left
    refine ⟨by simp only [hzero]; rfl, ?_⟩
    intro t ht
    have hlt := hall t ht
    rw [after, decide_eq_true_iff, hstart t ht] at hlt
    exact hlt
  · right
    have hle : last.2.pcStart ≤ lookupPc := by
      rw [after, decide_eq_false_iff_not, hstart last hlast] at hnot
      exact BitVec.not_lt.mp hnot
    refine ⟨last, ⟨hlast, hle, ?_⟩, ?_⟩
    · intro t ht htle
      have hat : after hdr lookupPc t = false := by
        rw [after, decide_eq_false_iff_not, hstart t ht]
        exact BitVec.not_lt.mpr htle
      rcases hothers t ht hat with hR | heq
      · exact Or.inl hR.1
      · exact Or.inr heq
    · dsimp only
      rw [if_pos (Nat.pos_of_ne_zero hpos), hget]
      rfl

variable {δ : Type} [Offset δ]

/-- The binary search decodes the FDE that covers the address as decoding it directly does. Where
none does, nothing is decoded: the visitor hears nothing when every entry starts behind the address,
and of a signal frame when that is what the CIE of the entry the search ends at says. -/
theorem SearchTable.lookup_decodes {table : List (EHFrameHdrEntry × FDERecord)}
    (h : SearchTable mem bounds hdr table) (b : TableBuilder δ) :
    (∀ t ∈ table, t.2.Covers lookupPc →
      findAndDecode mem bounds hdr lookupPc b = parseFDE mem bounds (t.1.fdeAddr hdr) b) ∧
    ((∀ t ∈ table, ¬ t.2.Covers lookupPc) →
      (∀ t ∈ table, lookupPc < t.2.pcStart) ∧ findFDE mem bounds hdr lookupPc = .ok 0 ∧
          findAndDecode mem bounds hdr lookupPc b = .ok b ∨
        ∃ last, LastAt table lookupPc last ∧
          findFDE mem bounds hdr lookupPc = .ok (last.1.fdeAddr hdr) ∧
          findAndDecode mem bounds hdr lookupPc b =
            .ok (if last.2.cie.aug.signalFrame then b.handleAugS else b)) := by
  rcases h.findFDE_cases lookupPc with ⟨hfind, hall⟩ | ⟨last, hlast, hfind⟩
  · constructor
    · intro t ht hcovers
      exact absurd hcovers.1 (BitVec.not_le.mpr (hall t ht))
    · intro _
      refine Or.inl ⟨hall, hfind, ?_⟩
      unfold findAndDecode
      rw [hfind]
      rfl
  · have hlists := h.lists last hlast.mem
    have hfor : findAndDecode mem bounds hdr lookupPc b =
        parseFDEFor mem bounds (last.1.fdeAddr hdr) lookupPc b := by
      unfold findAndDecode
      rw [hfind]
      change (if last.1.fdeAddr hdr = 0 then _ else _) = _
      rw [if_neg hlists.addr_ne]
    obtain ⟨hyes, hno⟩ := parseFDEFor_of_readRecord hlists.read lookupPc b
    constructor
    · intro t ht hcovers
      have hrange := (FDERecord.covers_iff (h.noWrap t ht)).mp hcovers
      have hle := BitVec.le_def.mp hlast.start_le
      obtain rfl : t = last := by
        rcases hlast.others t ht hcovers.1 with hapart | heq
        · omega
        · exact heq
      rw [hfor, hyes hcovers]
    · intro hnone
      refine Or.inr ⟨last, hlast, hfind, ?_⟩
      rw [hfor, hno (hnone last hlast.mem)]

end Tables

namespace Sample

/-- `.eh_frame` with one FDE at 0x2000, and `.eh_frame_hdr` behind it at 0x2040. -/
def ehFrameHdrMem : Word → Byte :=
  fun a => (ehFrame [0x41, 0x0e, 0x10, 0x86, 2] ++ List.replicate 14 0 ++
    [1, 0x1b, 0x03, 0x3b, 0xbc, 0xff, 0xff, 0xff, 1, 0, 0, 0, 0xc0, 0xef, 0xff, 0xff,
      0xd8, 0xff, 0xff, 0xff]).getD (a - 0x2000).toNat 0

def hdrRecord : FDERecord :=
  ⟨⟨1, -8, 16, true, ⟨0x1b, kDwEhPeOmitted, false⟩⟩, 0x1000, 16, [.defCfa 7 8, .offset 16 1, .nop, .nop],
    none, [.advanceLoc 1, .defCfaOffset 16, .offset 6 2]⟩

end Sample

theorem hdr_searchTable : SearchTable Sample.ehFrameHdrMem (0x2000, 0x2054) 0x2040
    [(⟨0xffffefc0, 0xffffffd8⟩, Sample.hdrRecord)] where
  read := ⟨_, _, rfl, rfl⟩
  lists t ht := by
    obtain rfl := List.mem_singleton.mp ht
    exact ⟨by decide, by rfl, by decide⟩
  noWrap t ht := by
    obtain rfl := List.mem_singleton.mp ht
    decide
  apart := List.pairwise_singleton _ _

/-- An address inside the function is looked up as its FDE, and the one behind it as nothing. -/
theorem hdr_looked_up :
    findAndDecode Sample.ehFrameHdrMem (0x2000, 0x2054) 0x2040 0x1004
        (TableBuilder.new 0x2018 0 : TableBuilder Int64) =
      parseFDE Sample.ehFrameHdrMem (0x2000, 0x2054) 0x2018 (TableBuilder.new 0x2018 0) ∧
    findAndDecode Sample.ehFrameHdrMem (0x2000, 0x2054) 0x2040 0x1010
        (TableBuilder.new 0x2018 0 : TableBuilder Int64) = .ok (TableBuilder.new 0x2018 0) := by
  constructor
  · have hcovers : Sample.hdrRecord.Covers 0x1004 := ⟨by decide, by decide⟩
    exact (SearchTable.lookup_decodes hdr_searchTable _).1 _ (List.mem_singleton.mpr rfl) hcovers
  · have hnone : ∀ t ∈ [((⟨0xffffefc0, 0xffffffd8⟩ : EHFrameHdrEntry), Sample.hdrRecord)],
        ¬ t.2.Covers 0x1010 := by
      intro t ht hcovers
      obtain rfl := List.mem_singleton.mp ht
      exact absurd hcovers.2 (by decide)
    rcases (SearchTable.lookup_decodes hdr_searchTable (TableBuilder.new 0x2018 0 : TableBuilder Int64)).2
      hnone with ⟨-, -, h⟩ | ⟨last, hlast, -, h⟩
    · exact h
    · obtain rfl := List.mem_singleton.mp hlast.mem
      exact h

end UnwindCheck
