import UnwindCheck.Lib.Leb128
import UnwindCheck.Lsda.Reader

/-! The format of a language-specific data area as a relation between bytes and what they say, and
that the reader reads exactly that. -/
namespace UnwindCheck

/-- An unsigned LEB128 number of at most ten bytes. -/
def Uleb128 (bytes : List Byte) (n : ℕ) : Prop :=
  Lib.Leb128.Group bytes ∧ bytes.length ≤ 10 ∧ Lib.Leb128.unsignedValue bytes = n

/-- The sizes of the fixed-width fields, and whether they are signed. -/
def fixedFormat (lo : Byte) : Option (ℕ × Bool) :=
  if lo = 0x02 then some (2, false)
  else if lo = 0x0A then some (2, true)
  else if lo = 0x0B then some (4, true)
  else if lo = 0x03 then some (4, false)
  else if lo = 0x0C ∨ lo = 0x04 ∨ lo = 0 then some (8, false)
  else none

/-- The number in such a field. -/
def fixedValue (isSigned : Bool) (bytes : List Byte) : Word :=
  if isSigned then (BitVec.ofNat (8 * bytes.length) (littleEndian bytes)).signExtend 64
  else BitVec.ofNat 64 (littleEndian bytes)

/-- A field at `vaddr`, in one of the encodings an LSDA can use. A pc-relative zero is the null
pointer, so it is no address. -/
inductive EncodedField (vaddr : Word) : (encoding : Byte) → List Byte → Word → Prop
  | uleb128 {bytes : List Byte} {n : ℕ} (hn : Uleb128 bytes n) (hlt : n < 2 ^ 64) :
      EncodedField vaddr 0x01 bytes (BitVec.ofNat 64 n)
  | sleb128 {bytes : List Byte} {n : ℕ} (hn : Uleb128 bytes n) :
      EncodedField vaddr 0x09 bytes ((BitVec.ofNat (7 * bytes.length) n).signExtend 64)
  | fixed {encoding : Byte} {size : ℕ} {isSigned : Bool} {bytes : List Byte}
      (hlo : fixedFormat (encoding &&& 0x0f) = some (size, isSigned))
      (hhi : encoding &&& 0xf0 = 0 ∨ encoding &&& 0xf0 = 0x10 ∧ fixedValue isSigned bytes ≠ 0)
      (hlen : bytes.length = size) :
      EncodedField vaddr encoding bytes
        ((if encoding &&& 0xf0 = 0x10 then vaddr else 0) + fixedValue isSigned bytes)

/-- The signed LEB128 and the signed two-byte encodings the reader has no case for. -/
def KnownEncoding (encoding : Byte) : Prop :=
  encoding &&& 0x0f ≠ 0x09 ∧ encoding &&& 0x0f ≠ 0x0A

instance (encoding : Byte) : Decidable (KnownEncoding encoding) := inferInstanceAs (Decidable (_ ∧ _))

/-- One record of the call-site table, as numbers. -/
structure CallSiteEntry where
  start : Word
  length : Word
  pad : Word
  deriving DecidableEq, Repr

/-- A table of records from `vaddr` on. -/
inductive CallSiteTable (encoding : Byte) : (vaddr : Word) → List Byte → List CallSiteEntry → Prop
  | nil {vaddr : Word} : CallSiteTable encoding vaddr [] []
  | cons {vaddr : Word} {entry : CallSiteEntry} {start length pad action rest : List Byte} {n : ℕ}
      {entries : List CallSiteEntry}
      (hstart : EncodedField vaddr encoding start entry.start)
      (hlength : EncodedField (vaddr + BitVec.ofNat 64 start.length) encoding length entry.length)
      (hpad : EncodedField (vaddr + BitVec.ofNat 64 (start.length + length.length)) encoding pad
        entry.pad)
      (haction : Uleb128 action n) (hlt : n < 2 ^ 64)
      (hrest : CallSiteTable encoding
        (vaddr + BitVec.ofNat 64 (start.length + length.length + pad.length + action.length)) rest
        entries) :
      CallSiteTable encoding vaddr (start ++ length ++ pad ++ action ++ rest) (entry :: entries)

/-- The field after an encoding byte that may say there is none. -/
inductive OptionalField (holds : Byte → List Byte → Word → Prop) :
    List Byte → Option (Byte × Word) → Prop
  | omitted : OptionalField holds [kDwEhPeOmitted] none
  | present {encoding : Byte} {bytes : List Byte} {v : Word} (hne : encoding ≠ kDwEhPeOmitted)
      (hv : holds encoding bytes v) : OptionalField holds (encoding :: bytes) (some (encoding, v))

/-- The bytes of the image from `vaddr` on, whichever of them are asked for. -/
structure ELFImage.Backs (image : ELFImage) (vaddr : Word) (bytes : List Byte) : Prop where
  fits : vaddr.toNat + bytes.length < 2 ^ 64
  bytesAt : ∀ i k, i + k ≤ bytes.length →
    image.bytesAt (vaddr + BitVec.ofNat 64 i) k = (bytes.drop i).take k

/-- What an LSDA says: the base for landing pads with its encoding, if it names one, and the call
sites with theirs. -/
structure LSDA where
  lpstart : Option (Byte × Word)
  encoding : Byte
  entries : List CallSiteEntry
  deriving DecidableEq, Repr

/-- The data area at `vaddr`. The sites start within the function, which is never half the address
space. -/
structure WellFormedLSDA (image : ELFImage) (vaddr : Word) (lsda : LSDA) : Prop where
  layout : ∃ lp tt size table ttype,
    image.Backs vaddr (lp ++ tt ++ [lsda.encoding] ++ size ++ table) ∧
    OptionalField (EncodedField (vaddr + 1)) lp lsda.lpstart ∧
    OptionalField (fun _ bytes v => ∃ n, Uleb128 bytes n ∧ n < 2 ^ 64 ∧ v = BitVec.ofNat 64 n)
      tt ttype ∧
    Uleb128 size table.length ∧
    CallSiteTable lsda.encoding
      (vaddr + BitVec.ofNat 64 (lp.length + tt.length + 1 + size.length)) table lsda.entries
  starts : ∀ entry ∈ lsda.entries, entry.start.toNat < 2 ^ 63

section Reads
variable {image : ELFImage} {vaddr : Word} {bytes rest : List Byte}

theorem ELFImage.Backs.tail (h : image.Backs vaddr (bytes ++ rest)) :
    image.Backs (vaddr + BitVec.ofNat 64 bytes.length) rest := by
  obtain ⟨hfits, hread⟩ := h
  rw [List.length_append] at hfits hread
  have hlt : bytes.length < 2 ^ 64 := by omega
  constructor
  · rw [BitVec.toNat_add, BitVec.toNat_ofNat, Nat.mod_eq_of_lt hlt, Nat.mod_eq_of_lt (by omega)]
    omega
  · intro i k hik
    have hsub := hread (bytes.length + i) k (by omega)
    rw [List.drop_length_add_append, BitVec.ofNat_add, ← add_assoc] at hsub
    exact hsub

theorem ELFImage.Backs.bytesAt_head (h : image.Backs vaddr (bytes ++ rest)) :
    image.bytesAt vaddr bytes.length = bytes := by
  have hread := h.bytesAt 0 bytes.length (by simp)
  simpa using hread

/-- A cursor reads `v` from `bytes` wherever they stand. -/
def LSDACursor.Reads {α : Type} (image : ELFImage) (vaddr : Word) (bytes : List Byte)
    (x : LSDACursor α) (v : α) : Prop :=
  ∀ rest, image.Backs vaddr (bytes ++ rest) →
    x.run vaddr = .ok (v, vaddr + BitVec.ofNat 64 bytes.length)

theorem LSDACursor.readU8_reads (b : Byte) : LSDACursor.Reads image vaddr [b] (LSDACursor.readU8 image) b := by
  intro rest h
  have hread : image.bytesAt vaddr 1 = [b] := h.bytesAt_head
  unfold LSDACursor.readU8
  simp only [StateT.run_bind, StateT.run_get, pure_bind, hread]
  rfl

theorem LSDACursor.Reads.run_bind {α β : Type} {x : LSDACursor α} {f : α → LSDACursor β} {a : α}
    (hx : LSDACursor.Reads image vaddr bytes x a) (h : image.Backs vaddr (bytes ++ rest)) :
    (x >>= f).run vaddr = (f a).run (vaddr + BitVec.ofNat 64 bytes.length) := by
  rw [StateT.run_bind, hx rest h]
  rfl

/-- Reading one thing after the other. -/
theorem LSDACursor.Reads.bind {α β : Type} {x : LSDACursor α} {f : α → LSDACursor β} {a : α} {b : β}
    {more : List Byte} (hx : LSDACursor.Reads image vaddr bytes x a)
    (hf : LSDACursor.Reads image (vaddr + BitVec.ofNat 64 bytes.length) more (f a) b) :
    LSDACursor.Reads image vaddr (bytes ++ more) (x >>= f) b := by
  intro rest h
  rw [List.append_assoc] at h
  rw [hx.run_bind h, hf rest h.tail, List.length_append, BitVec.ofNat_add, add_assoc]

theorem LSDACursor.Reads.pure {α : Type} (a : α) :
    LSDACursor.Reads image vaddr [] (Pure.pure a) a := by
  intro rest h
  rw [List.length_nil, BitVec.add_zero]
  rfl

theorem readUleb128From_succ {fuel shift : ℕ} (result : Word) (hs : shift < 64) :
    LSDACursor.readUleb128From image (fuel + 1) shift result = (do
      let byte ← LSDACursor.readU8 image
      let result := result ||| BitVec.ofNat 64 (byte.toNat % 128 * 2 ^ shift)
      if byte.toNat < 128 then return result
      else LSDACursor.readUleb128From image fuel (shift + 7) result) := by
  rw [LSDACursor.readUleb128From, if_neg (by omega)]

theorem LSDACursor.readUleb128From_reads {shift fuel : ℕ} {result : Word} (h : Lib.Leb128.Group bytes)
    (hlen : shift + 7 * bytes.length ≤ 70) (hr : result.toNat < 2 ^ shift)
    (hfuel : 64 < shift + 7 * fuel) :
    LSDACursor.Reads image vaddr bytes (LSDACursor.readUleb128From image fuel shift result)
      (BitVec.ofNat 64 (result.toNat + Lib.Leb128.unsignedValue bytes * 2 ^ shift)) := by
  induction h generalizing shift fuel result vaddr with
  | @last b hb =>
    rw [List.length_singleton] at hlen
    obtain ⟨fuel, rfl⟩ : ∃ k, fuel = k + 1 := ⟨fuel - 1, by omega⟩
    have hvalue : Lib.Leb128.unsignedValue [b] = b.toNat % 128 := by
      simp [Lib.Leb128.unsignedValue, Lib.Leb128.payload]
    rw [readUleb128From_succ result (by omega)]
    refine (LSDACursor.readU8_reads b).bind ?_
    rw [if_pos hb, hvalue, Lib.Leb128.or_payload hr]
    exact .pure _
  | @more b bs hb hbs ih =>
    have hpos := hbs.length_pos
    rw [List.length_cons] at hlen
    obtain ⟨fuel, rfl⟩ : ∃ k, fuel = k + 1 := ⟨fuel - 1, by omega⟩
    rw [readUleb128From_succ result (by omega)]
    refine (LSDACursor.readU8_reads b).bind ?_
    rw [if_neg (by omega), ← Lib.Leb128.ofNat_or_payload_add hr]
    exact ih (by omega) (Lib.Leb128.toNat_or_payload_lt hr b) (by omega)

theorem LSDACursor.readUleb128_reads {n : ℕ} (h : Uleb128 bytes n) :
    LSDACursor.Reads image vaddr bytes (LSDACursor.readUleb128 image) (BitVec.ofNat 64 n) := by
  obtain ⟨hgroup, hlen, rfl⟩ := h
  have hread := @LSDACursor.readUleb128From_reads image vaddr bytes 0 11 0 hgroup (by omega) (by decide)
    (by omega)
  unfold LSDACursor.readUleb128
  simpa using hread

/-- Sign extension by hand. -/
theorem fixedValue_eq (isSigned : Bool) {size : ℕ} (hlen : bytes.length = size)
    (hsize : isSigned = true → size = 4) :
    (if isSigned = true ∧ size < 8 ∧ 2 ^ (size * 8 - 1) ≤ littleEndian bytes then
        BitVec.ofInt 64 (littleEndian bytes - 2 ^ (size * 8))
      else BitVec.ofNat 64 (littleEndian bytes)) = fixedValue isSigned bytes := by
  unfold fixedValue
  cases isSigned with
  | false => rw [if_neg (by simp), if_neg (by simp)]
  | true =>
    obtain rfl := hsize rfl
    have hlt := littleEndian_lt bytes
    rw [hlen] at hlt ⊢
    rw [if_pos rfl, BitVec.signExtend, BitVec.toInt_eq_toNat_cond, BitVec.toNat_ofNat,
      Nat.mod_eq_of_lt (by omega)]
    by_cases hneg : 2 ^ (4 * 8 - 1) ≤ littleEndian bytes
    · rw [if_pos ⟨rfl, by omega, hneg⟩, if_neg (by omega)]
      norm_cast
    · rw [if_neg (by simp only [hneg, and_false, not_false_eq_true]), if_pos (by omega)]
      exact (BitVec.ofInt_natCast 64 _).symm

theorem LSDACursor.readFixed_reads {size : ℕ} {isSigned : Bool} (hlen : bytes.length = size)
    (hsize : isSigned = true → size = 4) (pcrel : Bool) :
    LSDACursor.Reads image vaddr bytes (LSDACursor.readFixed image size isSigned pcrel)
      ((if pcrel then vaddr else 0) + fixedValue isSigned bytes) := by
  intro rest h
  have hread : image.bytesAt vaddr size = bytes := by
    rw [← hlen]
    exact h.bytesAt_head
  unfold LSDACursor.readFixed
  simp only [StateT.run_bind, StateT.run_get, pure_bind, hread]
  rw [if_neg (by omega), ← fixedValue_eq isSigned hlen hsize, hlen]
  rfl

/-- An encoding of fixed width is read as its format says. -/
theorem readEncoded_fixed {encoding : Byte} {size : ℕ} {isSigned : Bool}
    (hknown : KnownEncoding encoding)
    (hlo : fixedFormat (encoding &&& 0x0f) = some (size, isSigned))
    (hhi : encoding &&& 0xf0 = 0x10 ∨ encoding &&& 0xf0 = 0) :
    LSDACursor.readEncoded image encoding =
        LSDACursor.readFixed image size isSigned (encoding &&& 0xf0 = 0x10) ∧
      (isSigned = true → size = 4) := by
  have hok : ¬ (encoding &&& 0xf0 ≠ 0x10 ∧ encoding &&& 0xf0 ≠ 0) := by
    rintro ⟨h10, h0⟩
    exact hhi.elim h10 h0
  have hA := hknown.2
  unfold LSDACursor.readEncoded
  dsimp only
  generalize encoding &&& 0x0f = lo at hlo hA ⊢
  unfold fixedFormat at hlo
  by_cases h2 : lo = 0x02
  · subst h2
    cases hlo
    rw [if_neg (by decide), if_neg hok, if_pos rfl]
    exact ⟨rfl, fun h => by cases h⟩
  · rw [if_neg h2, if_neg hA] at hlo
    by_cases hB : lo = 0x0B
    · subst hB
      cases hlo
      rw [if_neg (by decide), if_neg hok, if_neg h2, if_pos rfl]
      exact ⟨rfl, fun _ => rfl⟩
    · rw [if_neg hB] at hlo
      by_cases h3 : lo = 0x03
      · subst h3
        cases hlo
        rw [if_neg (by decide), if_neg hok, if_neg h2, if_neg hB, if_pos rfl]
        exact ⟨rfl, fun h => by cases h⟩
      · rw [if_neg h3] at hlo
        split_ifs at hlo with h8
        cases hlo
        have h1 : lo ≠ 0x01 := by
          rintro rfl
          revert h8
          decide
        rw [if_neg h1, if_neg hok, if_neg h2, if_neg hB, if_neg h3, if_pos h8]
        exact ⟨rfl, fun h => by cases h⟩

theorem LSDACursor.readEncoded_reads {encoding : Byte} {v : Word} (hknown : KnownEncoding encoding)
    (h : EncodedField vaddr encoding bytes v) :
    LSDACursor.Reads image vaddr bytes (LSDACursor.readEncoded image encoding) v := by
  cases h with
  | uleb128 hn _ => exact LSDACursor.readUleb128_reads hn
  | sleb128 hn => exact absurd rfl hknown.1
  | fixed hlo hhi hlen =>
    have hhi' : encoding &&& 0xf0 = 0x10 ∨ encoding &&& 0xf0 = 0 := by tauto
    obtain ⟨heq, hsize⟩ := readEncoded_fixed hknown hlo hhi'
    rw [heq]
    have hread := @LSDACursor.readFixed_reads image vaddr _ _ _ hlen hsize (encoding &&& 0xf0 = 0x10)
    simpa only [decide_eq_true_eq] using hread

/-- The reader gives up on the other encodings. -/
theorem readEncoded_unknown {encoding : Byte} (h : ¬ KnownEncoding encoding) (cursor : Word) :
    ∃ e, (LSDACursor.readEncoded image encoding).run cursor = .error e := by
  have hlo : encoding &&& 0x0f = 0x09 ∨ encoding &&& 0x0f = 0x0A := by
    unfold KnownEncoding at h
    tauto
  unfold LSDACursor.readEncoded
  dsimp only
  generalize encoding &&& 0x0f = lo at hlo
  generalize "gcc_except_table: unsupported encoding 0x" ++ _ = bad
  rcases hlo with rfl | rfl
  · rw [if_neg (by decide)]
    split_ifs <;> first | exact ⟨_, rfl⟩ | contradiction
  · rw [if_neg (by decide)]
    split_ifs <;> first | exact ⟨_, rfl⟩ | contradiction

/-- Where the reader places a record: range and pad both from `lpstart` on. -/
def CallSiteEntry.site (lpstart : Word) (entry : CallSiteEntry) : Option LSDACallSite :=
  if entry.pad ≠ 0 then
    some ⟨lpstart + entry.start, lpstart + entry.start + entry.length, lpstart + entry.pad⟩
  else none

theorem readCallSite_reads {encoding : Byte} {entry : CallSiteEntry} {lpstart : Word}
    {start length pad action : List Byte} {n : ℕ} (hknown : KnownEncoding encoding)
    (hstart : EncodedField vaddr encoding start entry.start)
    (hlength : EncodedField (vaddr + BitVec.ofNat 64 start.length) encoding length entry.length)
    (hpad : EncodedField (vaddr + BitVec.ofNat 64 (start.length + length.length)) encoding pad
      entry.pad)
    (haction : Uleb128 action n) :
    LSDACursor.Reads image vaddr (start ++ length ++ pad ++ action)
      (readCallSite image encoding lpstart) (entry.site lpstart) := by
  have hbytes : start ++ length ++ pad ++ action =
      start ++ (length ++ (pad ++ (action ++ []))) := by simp
  rw [BitVec.ofNat_add, ← add_assoc] at hpad
  rw [hbytes]
  unfold readCallSite CallSiteEntry.site
  refine (LSDACursor.readEncoded_reads hknown hstart).bind ?_
  refine (LSDACursor.readEncoded_reads hknown hlength).bind ?_
  refine (LSDACursor.readEncoded_reads hknown hpad).bind ?_
  refine (LSDACursor.readUleb128_reads haction).bind ?_
  split_ifs
  · exact .pure _
  · exact .pure _

theorem Uleb128.length_pos {n : ℕ} (h : Uleb128 bytes n) : 0 < bytes.length := h.1.length_pos

theorem readCallSites_stop {encoding : Byte} {lpstart tableEnd : Word} {fuel : ℕ}
    (h : ¬ vaddr < tableEnd) :
    (readCallSites image encoding lpstart tableEnd (fuel + 1)).run vaddr = .ok ([], vaddr) := by
  rw [readCallSites, StateT.run_bind, StateT.run_get, pure_bind, if_neg h]
  rfl

theorem readCallSites_more {encoding : Byte} {lpstart tableEnd : Word} {fuel : ℕ}
    (h : vaddr < tableEnd) :
    (readCallSites image encoding lpstart tableEnd (fuel + 1)).run vaddr = (do
      let site ← readCallSite image encoding lpstart
      let rest ← readCallSites image encoding lpstart tableEnd fuel
      return site.toList ++ rest).run vaddr := by
  rw [readCallSites, StateT.run_bind, StateT.run_get, pure_bind, if_pos h]

/-- The cursor is before the end of a table that is not empty. -/
theorem ELFImage.Backs.lt_end (h : image.Backs vaddr (bytes ++ rest)) (hpos : 0 < bytes.length) :
    vaddr < vaddr + BitVec.ofNat 64 bytes.length := by
  have hfits := h.fits
  rw [List.length_append] at hfits
  rw [BitVec.lt_def, BitVec.toNat_add, BitVec.toNat_ofNat, Nat.mod_eq_of_lt (by omega),
    Nat.mod_eq_of_lt (by omega)]
  omega

/-- The loop reads the records of the table, no more and no fewer. -/
theorem readCallSites_reads {encoding : Byte} {entries : List CallSiteEntry} (lpstart : Word)
    {fuel : ℕ} (hknown : KnownEncoding encoding) (h : CallSiteTable encoding vaddr bytes entries)
    (hfuel : entries.length < fuel) :
    LSDACursor.Reads image vaddr bytes
      (readCallSites image encoding lpstart (vaddr + BitVec.ofNat 64 bytes.length) fuel)
      (entries.filterMap (CallSiteEntry.site lpstart)) := by
  induction h generalizing fuel with
  | nil =>
    intro rest hbacks
    obtain ⟨fuel, rfl⟩ : ∃ k, fuel = k + 1 := ⟨fuel - 1, by omega⟩
    rw [List.length_nil, BitVec.add_zero, readCallSites_stop (BitVec.lt_irrefl _)]
    rfl
  | @cons vaddr entry start length pad action table n entries hstart hlength hpad haction _ htable ih =>
    intro rest hbacks
    obtain ⟨fuel, rfl⟩ : ∃ k, fuel = k + 1 := ⟨fuel - 1, by omega⟩
    have hsite : LSDACursor.Reads image vaddr (start ++ length ++ pad ++ action)
        (readCallSite image encoding lpstart) (entry.site lpstart) :=
      readCallSite_reads hknown hstart hlength hpad haction
    generalize hrecord : start ++ length ++ pad ++ action = record at hbacks hsite ⊢
    have hlen : start.length + length.length + pad.length + action.length = record.length := by
      rw [← hrecord]
      simp only [List.length_append]
    have hpos := haction.length_pos
    have hbefore := hbacks.lt_end (by rw [List.length_append]; omega)
    rw [hlen] at htable ih
    rw [List.append_assoc] at hbacks
    have hend : vaddr + BitVec.ofNat 64 (record ++ table).length =
        vaddr + BitVec.ofNat 64 record.length + BitVec.ofNat 64 table.length := by
      rw [List.length_append, BitVec.ofNat_add, add_assoc]
    have hfuel' : entries.length < fuel := by
      rw [List.length_cons] at hfuel
      omega
    have hrest := ih hfuel' rest hbacks.tail
    rw [readCallSites_more hbefore, hsite.run_bind hbacks, StateT.run_bind, hend, hrest,
      List.filterMap_cons]
    cases entry.site lpstart <;> rfl

end Reads

end UnwindCheck
