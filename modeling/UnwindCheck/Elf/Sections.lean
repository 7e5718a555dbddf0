import UnwindCheck.Elf.Binary
import UnwindCheck.Elf.Mapping
import UnwindCheck.EhFrame.Confined
import UnwindCheck.Lib.Sorted

/-! `ELFImage::Open` after the fake load: the section headers, the symbols, and `.eh_frame` through
its header where the sections do not have it. -/
namespace UnwindCheck

/-- The fields of `Elf64_Ehdr` that place the section headers. -/
structure SectionTable where
  shoff : Word
  shentsize : BitVec 16
  shnum : BitVec 16
  shstrndx : BitVec 16
  deriving DecidableEq, Repr

/-- The fields of `Elf64_Shdr` read here. -/
structure Elf64Shdr where
  name : BitVec 32
  type : BitVec 32
  addr : Word
  offset : Word
  size : Word
  link : BitVec 32
  entsize : Word
  deriving DecidableEq, Repr

def kShtSymtab : BitVec 32 := 2
def kShtNobits : BitVec 32 := 8
def kShtDynsym : BitVec 32 := 11
def kSttFunc : ℕ := 2
def kShnUndef : ℕ := 0

/-- The bytes of a literal. -/
def asciiBytes (s : String) : List Byte := s.toList.map fun c => BitVec.ofNat 8 c.toNat

namespace ELFFile
variable (file : ELFFile)

def sectionTable : SectionTable where
  shoff := BitVec.ofNat 64 (file.field 40 8)
  shentsize := BitVec.ofNat 16 (file.field 58 2)
  shnum := BitVec.ofNat 16 (file.field 60 2)
  shstrndx := BitVec.ofNat 16 (file.field 62 2)

/-- `shdr_at` -/
def shdrAt (i : ℕ) : Elf64Shdr :=
  let off := file.sectionTable.shoff.toNat + i * 64
  { name := BitVec.ofNat 32 (file.field off 4)
    type := BitVec.ofNat 32 (file.field (off + 4) 4)
    addr := BitVec.ofNat 64 (file.field (off + 16) 8)
    offset := BitVec.ofNat 64 (file.field (off + 24) 8)
    size := BitVec.ofNat 64 (file.field (off + 32) 8)
    link := BitVec.ofNat 32 (file.field (off + 40) 4)
    entsize := BitVec.ofNat 64 (file.field (off + 56) 8) }

/-- `have_sections` -/
def haveSections : Bool :=
  let tab := file.sectionTable
  tab.shoff ≠ 0 ∧ tab.shnum ≠ 0 ∧ tab.shentsize = 64 ∧
    fitsIn tab.shoff (tab.shnum.setWidth 64 * 64) (BitVec.ofNat 64 file.size) ∧ tab.shstrndx < tab.shnum

/-- What `strnlen` counts at `off`: the bytes before the terminator, at most `max` of them. -/
def cString : (off max : ℕ) → List Byte
  | _, 0 => []
  | off, max + 1 => if file.bytes off = 0 then [] else file.bytes off :: cString (off + 1) max

/-- A name at `name` in the string table of `size` bytes at `off`. -/
def nameIn (off size name : ℕ) : List Byte := if size ≤ name then [] else file.cString (off + name) (size - name)

/-- `name_of` -/
def nameOf (sh : Elf64Shdr) : List Byte :=
  let shstr := file.shdrAt file.sectionTable.shstrndx.toNat
  if shstr.type ≠ kShtNobits ∧ fitsIn shstr.offset shstr.size (BitVec.ofNat 64 file.size) then
    file.nameIn shstr.offset.toNat shstr.size.toNat sh.name.toNat
  else []

/-- One symbol of the table, where it is a defined function with a name. -/
def funcSymbolAt (off : ℕ) (str : Elf64Shdr) : Option FuncSymbol :=
  let value := BitVec.ofNat 64 (file.field (off + 8) 8)
  if file.field (off + 4) 1 % 16 ≠ kSttFunc ∨ file.field (off + 6) 2 = kShnUndef ∨ value = 0 then none
  else
    match file.nameIn str.offset.toNat str.size.toNat (file.field off 4) with
    | [] => none
    | name => some ⟨value, BitVec.ofNat 64 (file.field (off + 16) 8),
        String.ofList (name.map fun b => Char.ofNat b.toNat)⟩

end ELFFile

/-- What the loop over the section headers collects. -/
structure SectionScan where
  ehFrame : Word × Word := (0, 0)
  pltRanges : List (Word × Word) := []
  hasDebugLine : Bool := false
  hasDebugLink : Bool := false
  symtabIdx : ℕ := 0
  dynsymIdx : ℕ := 0
  deriving DecidableEq, Repr

/-- A header that gives `.eh_frame` a place. -/
def ELFFile.isEhFrame (file : ELFFile) (sh : Elf64Shdr) : Bool :=
  file.nameOf sh = asciiBytes ".eh_frame" ∧ sh.addr ≠ 0 ∧ sh.size ≠ 0

/-- One iteration of the loop over the section headers. -/
def scanSection (file : ELFFile) (scan : SectionScan) (i : ℕ) : SectionScan :=
  let sh := file.shdrAt i
  let name := file.nameOf sh
  if file.isEhFrame sh then { scan with ehFrame := (sh.addr, sh.addr + sh.size) }
  else if asciiBytes ".plt" <+: name ∧ sh.addr ≠ 0 ∧ sh.size ≠ 0 then
    { scan with pltRanges := scan.pltRanges ++ [(sh.addr, sh.addr + sh.size)] }
  else if name = asciiBytes ".debug_line" then { scan with hasDebugLine := true }
  else if name = asciiBytes ".gnu_debuglink" then { scan with hasDebugLink := true }
  else if sh.type = kShtSymtab then { scan with symtabIdx := i }
  else if sh.type = kShtDynsym then { scan with dynsymIdx := i }
  else scan

namespace ELFFile
variable (file : ELFFile)

def scanSections : SectionScan :=
  if file.haveSections then (List.range file.sectionTable.shnum.toNat).foldl (scanSection file) {} else {}

/-- The functions of `.symtab`, or of `.dynsym` where there is no `.symtab`, as they come. -/
def funcSymbols : List FuncSymbol :=
  let scan := file.scanSections
  let chosen := if scan.symtabIdx ≠ 0 then scan.symtabIdx else scan.dynsymIdx
  if chosen = 0 then []
  else
    let sym := file.shdrAt chosen
    if sym.link.toNat < file.sectionTable.shnum.toNat ∧ sym.entsize = 24 ∧
        fitsIn sym.offset sym.size (BitVec.ofNat 64 file.size) then
      let str := file.shdrAt sym.link.toNat
      if fitsIn str.offset str.size (BitVec.ofNat 64 file.size) then
        (List.range (sym.size.toNat / 24)).filterMap fun i => file.funcSymbolAt (sym.offset.toNat + i * 24) str
      else []
    else []

end ELFFile

/-- `DecodeEhPtr`, without the count of bytes it took, which nobody looks at. -/
def decodeEhPtr (data : List Byte) (dataVaddr : Word) (encoding : Byte) : Option Word :=
  let lo := encoding &&& 0x0f
  let hi := encoding &&& 0xf0
  let load (n : ℕ) : Option ℕ := if data.length < n then none else some (littleEndian (data.take n))
  let base : Option Word := if hi = 0x10 then some dataVaddr else if hi ≠ 0 then none else some 0
  base.bind fun base =>
    if lo = 0x0B then (load 4).map fun raw => base + (BitVec.ofNat 32 raw).signExtend 64
    else if lo = 0x03 then (load 4).map fun raw => base + BitVec.ofNat 64 raw
    else if lo = 0x0C ∨ lo = 0x04 ∨ lo = kDwEhPeAbsptr then
      (load 8).map fun raw => base + BitVec.ofNat 64 raw
    else none

namespace LoadedImage
variable (img : LoadedImage) (file : ELFFile)

/-- The live address is in the image of some file mapping. -/
def Mapped (a : Word) : Prop := ∃ m ∈ img.mappings, (a - m.target).toNat < m.len.toNat

/-- The byte the fake load has for a link-time address: that of the last mapping over it, zero
behind the end of the file. What no mapping has cannot be read. -/
def mem (vaddr : Word) : Byte :=
  let a := toImage img.bias vaddr
  match img.mappings.reverse.find? fun m => (a - m.target).toNat < m.len.toNat with
  | some m =>
    let off := m.offset.toNat + (a - m.target).toNat
    if off < file.size then file.bytes off else 0
  | none => 0

/-- `.eh_frame` as `.eh_frame_hdr` has it: from its pointer to the end of the segment. -/
def ehFrameOfHdr : Option (Word × Word) :=
  let hdr := ELFImage.bytesAt ⟨img.segments.map ElfSegment.toLoadSegment, img.mem file⟩ img.ehFrameHdr 20
  if 8 ≤ hdr.length ∧ hdr[0]? = some 1 then do
    let ptr ← decodeEhPtr (hdr.drop 4) (img.ehFrameHdr + 4) (hdr.getD 1 0)
    let seg ← img.segments.find? fun seg => seg.contains ptr 0
    return (ptr, seg.vaddr + seg.filesz)
  else none

/-- The range of `.eh_frame`. -/
@[irreducible] def ehFrame : Word × Word :=
  let found := file.scanSections.ehFrame
  if ¬ found.1 < found.2 ∧ img.ehFrameHdr ≠ 0 then (img.ehFrameOfHdr file).getD found else found

/-- What `ELFImage::Open` returns. -/
def binary (sort : Lib.KeySort fun sym : FuncSymbol => sym.vaddr.toNat) : ELFBinary where
  segments := img.segments
  mem := img.mem file
  bias := img.bias
  ehFrameStart := (img.ehFrame file).1
  ehFrameEnd := (img.ehFrame file).2
  pltRanges := file.scanSections.pltRanges
  funcSymbols := sort.sort file.funcSymbols

variable (sort : Lib.KeySort fun sym : FuncSymbol => sym.vaddr.toNat)

@[simp] theorem binary_ehFrameStart : (img.binary file sort).ehFrameStart = (img.ehFrame file).1 := rfl

@[simp] theorem binary_ehFrameEnd : (img.binary file sort).ehFrameEnd = (img.ehFrame file).2 := rfl

end LoadedImage

/-- The header that the loop took `.eh_frame` from, the last one that gives it a place. -/
def ELFFile.ehFrameSection (file : ELFFile) : Option Elf64Shdr :=
  if file.haveSections then
    (((List.range file.sectionTable.shnum.toNat).map file.shdrAt).filter file.isEhFrame).getLast?
  else none

/-- The file contents of the segment hold the range. -/
def ElfSegment.Backs (seg : ElfSegment) (start stop : Word) : Prop :=
  seg.vaddr ≤ start ∧ stop.toNat ≤ seg.vaddr.toNat + seg.filesz.toNat

/-- `.eh_frame` lies in the file-backed part of one segment, and so the walk over its records and
the decoding of each of them read mapped bytes only. -/
structure EhFrameMapped (img : LoadedImage) (bin : ELFBinary) : Prop where
  backed : ∃ seg ∈ bin.segments, seg.Backs bin.ehFrameStart bin.ehFrameEnd
  reads : ∀ live live' : Word → Byte, (∀ a, img.Mapped a → live a = live' a) →
    enumerateFDEs live' (bin.ehFrameStart + bin.bias) (bin.ehFrameEnd + bin.bias) =
        enumerateFDEs live (bin.ehFrameStart + bin.bias) (bin.ehFrameEnd + bin.bias) ∧
      ∀ vaddr, (readFDE live' vaddr bin.ehFrameStart bin.ehFrameEnd bin.bias : Except String (CFI Int64)) =
        readFDE live vaddr bin.ehFrameStart bin.ehFrameEnd bin.bias

/-- A header of `.eh_frame` whose end does not wrap around places it inside the file contents of a
`PT_LOAD`. -/
def ELFFile.EhFrameSectionBacked (file : ELFFile) : Prop :=
  ∀ sh, file.ehFrameSection = some sh → sh.addr.toNat + sh.size.toNat < 2 ^ 64 →
    ∃ p ∈ file.phdrs, p.isLoad = true ∧ p.vaddr ≤ sh.addr ∧
      sh.addr.toNat + sh.size.toNat ≤ p.vaddr.toNat + p.filesz.toNat

section Scan
variable {file : ELFFile}

theorem foldl_scanSection_ehFrame (scan : SectionScan) (l : List ℕ) :
    (l.foldl (scanSection file) scan).ehFrame =
      (((l.map file.shdrAt).filter file.isEhFrame).getLast?.map fun sh =>
        (sh.addr, sh.addr + sh.size)).getD scan.ehFrame := by
  induction l generalizing scan with
  | nil => rfl
  | cons i l ih =>
    rw [List.foldl_cons, ih, List.map_cons, List.filter_cons]
    by_cases hsh : file.isEhFrame (file.shdrAt i) = true
    · have hstep : (scanSection file scan i).ehFrame =
          ((file.shdrAt i).addr, (file.shdrAt i).addr + (file.shdrAt i).size) := by
        simp [scanSection, hsh]
      rw [if_pos hsh, List.getLast?_cons, hstep]
      cases ((l.map file.shdrAt).filter file.isEhFrame).getLast? <;> simp
    · have hstep : (scanSection file scan i).ehFrame = scan.ehFrame := by
        simp only [scanSection, hsh]
        split_ifs <;> simp_all
      rw [if_neg hsh, hstep]

theorem scanSections_ehFrame : file.scanSections.ehFrame =
    (file.ehFrameSection.map fun sh => (sh.addr, sh.addr + sh.size)).getD (0, 0) := by
  unfold ELFFile.scanSections ELFFile.ehFrameSection
  split_ifs
  · exact foldl_scanSection_ehFrame {} _
  · rw [Option.map_none, Option.getD_none]

theorem ehFrameSection_size {sh : Elf64Shdr} (h : file.ehFrameSection = some sh) : sh.size ≠ 0 := by
  unfold ELFFile.ehFrameSection at h
  split_ifs at h
  have hin := (List.mem_filter.mp (List.mem_of_getLast? h)).2
  simp only [ELFFile.isEhFrame, decide_eq_true_eq] at hin
  exact hin.2.2

/-- The fallback ends where the file contents of the segment do. -/
theorem backs_of_ehFrameOfHdr {img : LoadedImage} {range : Word × Word}
    (h : img.ehFrameOfHdr file = some range) : ∃ seg ∈ img.segments, seg.Backs range.1 range.2 := by
  unfold LoadedImage.ehFrameOfHdr at h
  dsimp only at h
  split_ifs at h
  obtain ⟨ptr, -, h⟩ := Option.bind_eq_some_iff.mp h
  obtain ⟨seg, hseg, h⟩ := Option.bind_eq_some_iff.mp h
  cases h
  have hcontains := List.find?_some hseg
  simp only [ElfSegment.contains, decide_eq_true_eq] at hcontains
  refine ⟨seg, List.mem_of_find?_eq_some hseg, hcontains.1, ?_⟩
  rw [BitVec.toNat_add]
  exact Nat.mod_le _ _

/-- The range is what the sections have, or what `.eh_frame_hdr` has where theirs is empty. -/
theorem ehFrame_eq_or (img : LoadedImage) (file : ELFFile) :
    img.ehFrame file = file.scanSections.ehFrame ∨
      ¬ file.scanSections.ehFrame.1 < file.scanSections.ehFrame.2 ∧
        img.ehFrameOfHdr file = some (img.ehFrame file) := by
  unfold LoadedImage.ehFrame
  generalize file.scanSections.ehFrame = found
  generalize img.ehFrameOfHdr file = range
  dsimp only
  split_ifs with hfall
  · cases range with
    | none => exact Or.inl rfl
    | some range => exact Or.inr ⟨hfall.1, rfl⟩
  · exact Or.inl rfl

/-- A header gives a range that is not empty exactly if its end does not wrap around. -/
theorem scanSections_forward_iff :
    file.scanSections.ehFrame.1 < file.scanSections.ehFrame.2 ↔
      ∃ sh, file.ehFrameSection = some sh ∧ sh.addr.toNat + sh.size.toNat < 2 ^ 64 := by
  rw [scanSections_ehFrame]
  cases hsh : file.ehFrameSection with
  | none => exact iff_of_false (by decide) fun ⟨sh, hsome, _⟩ => nomatch hsome
  | some sh =>
    have hsize := ehFrameSection_size hsh
    have hforward : sh.addr < sh.addr + sh.size ↔ sh.addr.toNat + sh.size.toNat < 2 ^ 64 := by
      constructor
      · intro hlt
        bv_omega
      · intro hlt
        bv_omega
    refine hforward.trans ⟨fun hlt => ⟨sh, rfl, hlt⟩, ?_⟩
    rintro ⟨sh', hsome, hlt⟩
    cases hsome
    exact hlt

end Scan

section Mapped
variable {os : Mmap} {path : String} {file : ELFFile} {img : LoadedImage}

/-- The file contents of a segment are mapped. -/
theorem mapped_of_mem_segments (h : openImage os path file = .ok img) {seg : ElfSegment}
    (hseg : seg ∈ img.segments) {v : Word} (hlo : seg.vaddr ≤ v)
    (hhi : v.toNat < seg.vaddr.toNat + seg.filesz.toNat) : img.Mapped (v + img.bias) := by
  obtain ⟨scan, hsound, -, -, -, -, hmappings⟩ := openImage_ok h
  obtain ⟨p, hp, rfl⟩ := (mem_segments_of_openImage h seg).mp hseg
  have hfits := (hsound.checked p hp).2
  have hsz : p.segment.filesz.toNat < 2 ^ 63 := by
    have hsize := file.size_lt
    simp only [fitsIn, decide_eq_true_eq] at hfits
    have hfile : (BitVec.ofNat 64 file.size).toNat = file.size := by
      rw [BitVec.toNat_ofNat, Nat.mod_eq_of_lt (by omega)]
    show p.filesz.toNat < 2 ^ 63
    bv_omega
  refine ⟨_, (hmappings _).mpr ⟨p, hp, ?_, rfl⟩, ?_⟩
  · show p.segment.filesz ≠ 0
    bv_omega
  · rw [toNat_fileMapping_len _ hsz]
    have hoffset : v + img.bias - (fileMapping img.bias p.segment).target =
        v - roundDown p.segment.vaddr kPageSize := by
      show v + img.bias - (roundDown p.segment.vaddr kPageSize + img.bias) = _
      ring
    rw [hoffset, BitVec.toNat_sub, toNat_roundDown]
    have hle : p.segment.vaddr.toNat ≤ v.toNat := hlo
    have hv := v.isLt
    simp only [pageCeil, pageFloor]
    omega

/-- Every live address between the bounds is mapped. -/
theorem mapped_of_backs (h : openImage os path file = .ok img) {seg : ElfSegment}
    (hseg : seg ∈ img.segments) {start stop : Word} (hbacks : seg.Backs start stop) (hlt : start < stop)
    {a : Word} (hlo : start + img.bias ≤ a) (hhi : a < stop + img.bias) : img.Mapped a := by
  obtain ⟨hstart, hstop⟩ := hbacks
  have hv : start ≤ a - img.bias ∧ a - img.bias < stop := by bv_omega
  have hmapped : img.Mapped (a - img.bias + img.bias) :=
    mapped_of_mem_segments h hseg (by bv_omega) (by bv_omega)
  rwa [sub_add_cancel] at hmapped

end Mapped

/-- `.eh_frame` is mapped exactly if the section header that places it, if one does and its end does
not wrap around, places it inside the file contents of a `PT_LOAD`. -/
theorem ehFrameMapped_iff {os : Mmap} {path : String} {file : ELFFile} {img : LoadedImage}
    (sort : Lib.KeySort fun sym : FuncSymbol => sym.vaddr.toNat) (h : openImage os path file = .ok img)
    (hhas : (img.binary file sort).hasEhFrame = true) :
    EhFrameMapped img (img.binary file sort) ↔ file.EhFrameSectionBacked := by
  have hlt : (img.ehFrame file).1 < (img.ehFrame file).2 := of_decide_eq_true hhas
  constructor
  · intro hmapped sh hsh hwrap
    obtain ⟨seg, hseg, hlo, hhi⟩ := hmapped.backed
    obtain ⟨p, hp, rfl⟩ := (mem_segments_of_openImage h seg).mp hseg
    obtain ⟨hphdr, hload⟩ := List.mem_filter.mp hp
    have hrange : img.ehFrame file = (sh.addr, sh.addr + sh.size) := by
      rcases ehFrame_eq_or img file with hfound | ⟨hempty, -⟩
      · rw [hfound, scanSections_ehFrame, hsh]
        rfl
      · exact absurd (scanSections_forward_iff.mpr ⟨sh, hsh, hwrap⟩) hempty
    simp only [LoadedImage.binary_ehFrameStart, LoadedImage.binary_ehFrameEnd, hrange] at hlo hhi
    refine ⟨p, hphdr, hload, hlo, ?_⟩
    have hend : (sh.addr + sh.size).toNat = sh.addr.toNat + sh.size.toNat := by
      rw [BitVec.toNat_add, Nat.mod_eq_of_lt hwrap]
    rw [← hend]
    exact hhi
  · intro hback
    have hbacked : ∃ seg ∈ img.segments, seg.Backs (img.ehFrame file).1 (img.ehFrame file).2 := by
      rcases ehFrame_eq_or img file with hfound | ⟨-, hhdr⟩
      · rw [hfound] at hlt ⊢
        obtain ⟨sh, hsh, hwrap⟩ := scanSections_forward_iff.mp hlt
        obtain ⟨p, hphdr, hload, hlo, hhi⟩ := hback sh hsh hwrap
        rw [scanSections_ehFrame, hsh]
        refine ⟨p.segment, (mem_segments_of_openImage h _).mpr
          ⟨p, List.mem_filter.mpr ⟨hphdr, hload⟩, rfl⟩, hlo, ?_⟩
        show (sh.addr + sh.size).toNat ≤ _
        rw [BitVec.toNat_add, Nat.mod_eq_of_lt hwrap]
        exact hhi
      · exact backs_of_ehFrameOfHdr hhdr
    refine ⟨hbacked, fun live live' hsame => ?_⟩
    obtain ⟨seg, hseg, hbacks⟩ := hbacked
    have hbytes : SameBytes ((img.ehFrame file).1 + img.bias) ((img.ehFrame file).2 + img.bias) live live' :=
      fun a hlo hhi => hsame a (mapped_of_backs h hseg hbacks hlt hlo hhi)
    exact ⟨enumerateFDEs_congr hbytes, readFDE_congr hbytes⟩

namespace Sample

/-- A shared object of one `PT_LOAD` with the whole file at 0x1000, and a section header that has
`.eh_frame` at `addr`. -/
def withEhFrame (addr size : ℕ) : ELFFile where
  size := 258
  bytes i := ([0x7f, 0x45, 0x4c, 0x46, 2, 1, 1] ++ List.replicate 9 0 ++ leBytes 2 3 ++
    leBytes 2 62 ++ leBytes 4 1 ++ leBytes 8 0 ++ leBytes 8 64 ++ leBytes 8 120 ++ leBytes 4 0 ++
    leBytes 2 64 ++ leBytes 2 56 ++ leBytes 2 1 ++ leBytes 2 64 ++ leBytes 2 2 ++ leBytes 2 0 ++
    (leBytes 4 1 ++ leBytes 4 4 ++ leBytes 8 0 ++ leBytes 8 0x1000 ++ leBytes 8 0x1000 ++
      leBytes 8 258 ++ leBytes 8 258 ++ leBytes 8 4096) ++
    (leBytes 4 9 ++ leBytes 4 3 ++ leBytes 16 0 ++ leBytes 8 248 ++ leBytes 8 10 ++ leBytes 24 0) ++
    (leBytes 4 0 ++ leBytes 4 1 ++ leBytes 8 2 ++ leBytes 8 addr ++ leBytes 8 0 ++ leBytes 8 size ++
      leBytes 24 0) ++ asciiBytes ".eh_frame").getD i 0
  size_lt := by norm_num

def onePage : LoadedImage :=
  ⟨[⟨⟨0x1000, 258, false⟩, 258, 0⟩], 0x7f0000000000, 0x1000, 0x7effffff_f000, 0,
    [⟨0x7f0000000000, 0x1000, 0⟩]⟩

end Sample

/-- The section header names a place that no segment has. -/
theorem unbacked_not_ehFrameMapped :
    openImage Sample.mmap "a.out" (Sample.withEhFrame 0x5000 64) = .ok Sample.onePage ∧
      (Sample.onePage.binary (Sample.withEhFrame 0x5000 64) (.stable _)).hasEhFrame = true ∧
      ¬ EhFrameMapped Sample.onePage (Sample.onePage.binary (Sample.withEhFrame 0x5000 64) (.stable _)) := by
  have hrange : Sample.onePage.ehFrame (Sample.withEhFrame 0x5000 64) = (0x5000, 0x5040) := by
    decide +kernel
  refine ⟨rfl, by decide +kernel, fun h => ?_⟩
  obtain ⟨seg, hseg, -, hhi⟩ := h.backed
  have hone : seg = ⟨⟨0x1000, 258, false⟩, 258, 0⟩ := List.mem_singleton.mp hseg
  rw [LoadedImage.binary_ehFrameEnd, hrange, hone] at hhi
  revert hhi
  decide

theorem backed_ehFrameMapped :
    EhFrameMapped Sample.onePage (Sample.onePage.binary (Sample.withEhFrame 0x1000 64) (.stable _)) := by
  have hsection : (Sample.withEhFrame 0x1000 64).ehFrameSection =
      some ⟨0, 1, 0x1000, 0, 64, 0, 0⟩ := by decide +kernel
  have hopen : openImage Sample.mmap "a.out" (Sample.withEhFrame 0x1000 64) = .ok Sample.onePage := rfl
  refine (ehFrameMapped_iff _ hopen (by decide +kernel)).mpr fun sh hsh _ => ?_
  obtain rfl : (⟨0, 1, 0x1000, 0, 64, 0, 0⟩ : Elf64Shdr) = sh := Option.some.inj (hsection.symm.trans hsh)
  exact ⟨(Sample.withEhFrame 0x1000 64).phdrAt 64, by decide +kernel, by decide +kernel, by decide +kernel,
    by decide +kernel⟩

end UnwindCheck
