import UnwindCheck.Image
import UnwindCheck.EhFrame.Reader

/-! `ELFImage::Open` up to the fake load: the headers, the reservation and the segments mapped
into it. -/
namespace UnwindCheck

def kPageSize : Word := 4096

def roundDown (v align : Word) : Word := v &&& ~~~(align - 1)

def roundUp (v align : Word) : Word := roundDown (v + align - 1) align

/-- Whether `[off, off+len)` fits in a buffer of the given size. -/
def fitsIn (off len size : Word) : Bool := off ≤ size ∧ len ≤ size - off

/-- The mapped file. An `off_t` holds its size. -/
structure ELFFile where
  size : ℕ
  bytes : ℕ → Byte
  size_lt : size < 2 ^ 63

/-- A little-endian field of `n` bytes. -/
def ELFFile.field (file : ELFFile) (off n : ℕ) : ℕ :=
  littleEndian ((List.range n).map fun i => file.bytes (off + i))

/-- The fields of `Elf64_Ehdr` read here. -/
structure Elf64Ehdr where
  ident : List Byte
  type : BitVec 16
  machine : BitVec 16
  phoff : Word
  phentsize : BitVec 16
  phnum : BitVec 16
  deriving DecidableEq, Repr

/-- The fields of `Elf64_Phdr` read here. -/
structure Elf64Phdr where
  type : BitVec 32
  flags : BitVec 32
  offset : Word
  vaddr : Word
  filesz : Word
  memsz : Word
  deriving DecidableEq, Repr

namespace ELFFile
variable (file : ELFFile)

def ehdr : Elf64Ehdr where
  ident := (List.range 16).map file.bytes
  type := BitVec.ofNat 16 (file.field 16 2)
  machine := BitVec.ofNat 16 (file.field 18 2)
  phoff := BitVec.ofNat 64 (file.field 32 8)
  phentsize := BitVec.ofNat 16 (file.field 54 2)
  phnum := BitVec.ofNat 16 (file.field 56 2)

def phdrAt (off : ℕ) : Elf64Phdr where
  type := BitVec.ofNat 32 (file.field off 4)
  flags := BitVec.ofNat 32 (file.field (off + 4) 4)
  offset := BitVec.ofNat 64 (file.field (off + 8) 8)
  vaddr := BitVec.ofNat 64 (file.field (off + 16) 8)
  filesz := BitVec.ofNat 64 (file.field (off + 32) 8)
  memsz := BitVec.ofNat 64 (file.field (off + 40) 8)

/-- The program header table. -/
def phdrs : List Elf64Phdr :=
  (List.range file.ehdr.phnum.toNat).map fun i => file.phdrAt (file.ehdr.phoff.toNat + i * 56)

end ELFFile

def kPtLoad : BitVec 32 := 1
def kPtGnuEhFrame : BitVec 32 := 0x6474e550

/-- The headers a segment is made from. -/
def Elf64Phdr.isLoad (phdr : Elf64Phdr) : Bool := phdr.type = kPtLoad ∧ phdr.memsz ≠ 0

/-- `LoadSegment` with the fields only the loader looks at. -/
structure ElfSegment extends LoadSegment where
  memsz : Word
  offset : Word
  deriving DecidableEq, Repr

def Elf64Phdr.segment (phdr : Elf64Phdr) : ElfSegment :=
  ⟨⟨phdr.vaddr, phdr.filesz, phdr.flags &&& 1 ≠ 0⟩, phdr.memsz, phdr.offset⟩

def stdMin (a b : Word) : Word := if b < a then b else a

def stdMax (a b : Word) : Word := if a < b then b else a

/-- What the loop over the program headers collects. -/
structure PhdrScan where
  segments : List ElfSegment
  minVaddr : Word
  maxEnd : Word
  ehFrameHdr : Word
  deriving DecidableEq, Repr

/-- One iteration of the loop over the program headers. -/
def scanPhdr (path : String) (fileSize : Word) (scan : PhdrScan) (phdr : Elf64Phdr) :
    Except String PhdrScan :=
  if phdr.type = kPtGnuEhFrame then .ok { scan with ehFrameHdr := phdr.vaddr }
  else if !phdr.isLoad then .ok scan
  else if phdr.memsz < phdr.filesz ∨ !fitsIn phdr.offset phdr.filesz fileSize then
    .error (path ++ " has a PT_LOAD running past the end of the file")
  else .ok { scan with
    segments := scan.segments ++ [phdr.segment]
    minVaddr := stdMin scan.minVaddr phdr.vaddr
    maxEnd := stdMax scan.maxEnd (phdr.vaddr + phdr.memsz) }

def scanPhdrs (path : String) (fileSize : Word) (phdrs : List Elf64Phdr) : Except String PhdrScan :=
  phdrs.foldlM (scanPhdr path fileSize) ⟨[], BitVec.allOnes 64, 0, 0⟩

/-- `mmap` as the loader calls it. A reservation of no bytes fails, one that succeeds starts on
a page and ends in the address space; an error comes with its `strerror` text. -/
structure Mmap where
  reserve : Word → Except String Word
  fixed : (target len offset : Word) → Except String Unit
  reserve_pos : ∀ span image, reserve span = .ok image → span ≠ 0
  reserve_aligned : ∀ span image, reserve span = .ok image → image.toNat % 4096 = 0
  reserve_fits : ∀ span image, reserve span = .ok image → image.toNat + span.toNat ≤ 2 ^ 64

/-- One `MAP_FIXED` call. -/
structure Mapping where
  target : Word
  len : Word
  offset : Word
  deriving DecidableEq, Repr

/-- The fake load. -/
structure LoadedImage where
  segments : List ElfSegment
  image : Word
  imageSize : Word
  bias : Word
  ehFrameHdr : Word
  mappings : List Mapping
  deriving DecidableEq, Repr

def toImage (bias vaddr : Word) : Word := vaddr + bias

/-- Where a segment's file contents go. -/
def fileMapping (bias : Word) (seg : ElfSegment) : Mapping :=
  let segVaddrStart := roundDown seg.vaddr kPageSize
  let pageOffset := seg.vaddr - segVaddrStart
  ⟨toImage bias segVaddrStart, roundUp (seg.filesz + pageOffset) kPageSize,
    roundDown seg.offset kPageSize⟩

/-- One iteration of the loop that maps the segments, with the calls made so far. -/
def mapSegment (os : Mmap) (path : String) (bias : Word) (made : List Mapping) (seg : ElfSegment) :
    Except String (List Mapping) :=
  if seg.filesz = 0 then .ok made
  else if seg.vaddr % kPageSize ≠ seg.offset % kPageSize then
    .error (path ++ " has a PT_LOAD with unaligned vaddr 0x" ++ showHex seg.vaddr ++
      " vs offset 0x" ++ showHex seg.offset)
  else
    let m := fileMapping bias seg
    match os.fixed m.target m.len m.offset with
    | .error e =>
      .error ("cannot mmap segment at 0x" ++ showHex seg.vaddr ++ " for " ++ path ++ ": " ++ e)
    | .ok () => .ok (made ++ [m])

/-- The checks on the ELF header. -/
def checkEhdr (path : String) (file : ELFFile) : Except String Unit :=
  let ehdr := file.ehdr
  if file.size < 64 then .error (path ++ " is too small to be an ELF64 file")
  else if ehdr.ident.take 4 ≠ [0x7f, 0x45, 0x4c, 0x46] then .error (path ++ " is not an ELF file")
  else if ehdr.ident[4]? ≠ some 2 ∨ ehdr.ident[5]? ≠ some 1 then
    .error (path ++ " is not a little-endian ELF64 file")
  else if ehdr.machine ≠ 62 then
    .error (path ++ " targets machine " ++ toString ehdr.machine.toNat ++
      "; only x86-64 (62) is supported")
  else if ehdr.type ≠ 2 ∧ ehdr.type ≠ 3 then
    .error (path ++ " has ELF type " ++ toString ehdr.type.toNat ++
      "; only ET_EXEC and ET_DYN are supported")
  else if ehdr.phnum = 0 ∨ ehdr.phentsize ≠ 56 ∨
      !fitsIn ehdr.phoff (ehdr.phnum.setWidth 64 * 56) (BitVec.ofNat 64 file.size) then
    .error (path ++ " has a malformed program header table")
  else .ok ()

/-- The size of the reservation. -/
def PhdrScan.span (scan : PhdrScan) : Word :=
  roundUp scan.maxEnd kPageSize - roundDown scan.minVaddr kPageSize

/-- The fake load: one reservation, and each segment mapped into it. -/
def fakeLoad (os : Mmap) (path : String) (scan : PhdrScan) : Except String LoadedImage :=
  if scan.segments = [] then .error (path ++ " has no PT_LOAD segments")
  else if 2 ^ 40 < scan.span.toNat then
    .error (path ++ " spans " ++ toString (scan.span.toNat / 2 ^ 30 % 2 ^ 32) ++
      " GiB of vaddr space; refusing to map")
  else
    match os.reserve scan.span with
    | .error e =>
      .error ("cannot reserve " ++ toString (scan.span.toNat % 2 ^ 32) ++
        " bytes of image space for " ++ path ++ ": " ++ e)
    | .ok image => do
      let segments := scan.segments.insertionSort fun a b => a.vaddr ≤ b.vaddr
      let bias := image - roundDown scan.minVaddr kPageSize
      let mappings ← segments.foldlM (mapSegment os path bias) []
      return ⟨segments, image, scan.span, bias, scan.ehFrameHdr, mappings⟩

/-- `ELFImage::Open`, up to the last `mmap`. -/
def openImage (os : Mmap) (path : String) (file : ELFFile) : Except String LoadedImage := do
  checkEhdr path file
  let scan ← scanPhdrs path (BitVec.ofNat 64 file.size) file.phdrs
  fakeLoad os path scan

end UnwindCheck
