import UnwindCheck.Elf.Open
import UnwindCheck.EhFrame.Relocation

/-! An opened image with everything the driver asks of it. -/
namespace UnwindCheck

/-- `FuncSymbol` -/
structure FuncSymbol where
  vaddr : Word
  size : Word
  name : String
  deriving DecidableEq, Repr

/-- `LoadSegment::Contains` -/
def ElfSegment.contains (seg : ElfSegment) (addr size : Word) : Bool :=
  seg.vaddr ≤ addr ∧ addr - seg.vaddr ≤ seg.memsz ∧ size ≤ seg.memsz - (addr - seg.vaddr)

/-- The whole of an `ELFImage`. `mem` has the contents of the segments at their link-time
addresses; the fake load has them `bias` above. -/
structure ELFBinary where
  segments : List ElfSegment
  mem : Word → Byte
  bias : Word
  ehFrameStart : Word
  ehFrameEnd : Word
  pltRanges : List (Word × Word)
  funcSymbols : List FuncSymbol

namespace ELFBinary
variable (bin : ELFBinary)

/-- What the checkers see of it. -/
def image : ELFImage := ⟨bin.segments.map ElfSegment.toLoadSegment, bin.mem⟩

/-- The bytes at live addresses. -/
def live : Word → Byte := loadedAt bin.mem bin.bias

def toVaddr (imageAddr : Word) : Word := imageAddr - bin.bias

def hasEhFrame : Bool := bin.ehFrameStart < bin.ehFrameEnd

def isExecutable (vaddr size : Word) : Bool :=
  bin.segments.any fun seg => seg.executable && seg.contains vaddr size

def inPLT (vaddr size : Word) : Bool :=
  bin.pltRanges.any fun range =>
    decide (range.1 ≤ vaddr) && decide (vaddr - range.1 ≤ range.2 - range.1) &&
      decide (size ≤ range.2 - range.1 - (vaddr - range.1))

end ELFBinary

end UnwindCheck
