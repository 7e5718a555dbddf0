import UnwindCheck.Offset
import UnwindCheck.Image
import UnwindCheck.Elf.Open
import UnwindCheck.Elf.Mapping
import UnwindCheck.Elf.Binary
import UnwindCheck.Lib.UpperBound
import UnwindCheck.Lib.Rising
import UnwindCheck.Lib.Sorted
import UnwindCheck.Lib.Flat
import UnwindCheck.Lib.Ascents
import UnwindCheck.Lib.LastWrite
import UnwindCheck.Lib.Missing
import UnwindCheck.Lib.Leb128
import UnwindCheck.Lib.Signed
import UnwindCheck.Lib.Wording
import UnwindCheck.Cfi.Row
import UnwindCheck.Cfi.TableBuilder
import UnwindCheck.EhFrame.Reader
import UnwindCheck.EhFrame.Decoder
import UnwindCheck.EhFrame.Leb128
import UnwindCheck.EhFrame.Enumerate
import UnwindCheck.EhFrame.Confined
import UnwindCheck.EhFrame.Program
import UnwindCheck.EhFrame.Relocation
import UnwindCheck.EhFrame.Bias
import UnwindCheck.EhFrame.Provenance
import UnwindCheck.EhFrame.Lazy
import UnwindCheck.EhFrame.Locations
import UnwindCheck.EhFrame.Near
import UnwindCheck.EhFrame.Augmentation
import UnwindCheck.EhFrame.LSDAPointer
import UnwindCheck.EhFrame.Grammar
import UnwindCheck.EhFrame.Record
import UnwindCheck.EhFrame.Acceptance
import UnwindCheck.EhFrame.Writer
import UnwindCheck.EhFrame.RoundTrip
import UnwindCheck.EhFrame.Lookup
import UnwindCheck.Elf.Sections
import UnwindCheck.Lsda.Reader
import UnwindCheck.Lsda.Uleb128
import UnwindCheck.Lsda.Format
import UnwindCheck.Lsda.Placement
import UnwindCheck.State.Value
import UnwindCheck.State.AbsState
import UnwindCheck.State.Join
import UnwindCheck.Lib.Agreement
import UnwindCheck.State.Lattice
import UnwindCheck.Insn.Zydis
import UnwindCheck.Insn.Semantics
import UnwindCheck.Insn.Agree
import UnwindCheck.Insn.Writes
import UnwindCheck.Insn.Footprint
import UnwindCheck.Insn.Above
import UnwindCheck.Insn.Steady
import UnwindCheck.Insn.Monotone
import UnwindCheck.Insn.Signed
import UnwindCheck.Insn.Near
import UnwindCheck.Checker.Finding
import UnwindCheck.Checker.Row
import UnwindCheck.Checker.Walk
import UnwindCheck.Checker.Invariant
import UnwindCheck.Checker.Verify
import UnwindCheck.Checker.Run
import UnwindCheck.Checker.Blessed
import UnwindCheck.Checker.Coverage
import UnwindCheck.Checker.Guessing
import UnwindCheck.Checker.OnlyJump
import UnwindCheck.Checker.FixedPoint
import UnwindCheck.Checker.Termination
import UnwindCheck.Checker.Conflict
import UnwindCheck.Checker.Depends
import UnwindCheck.Checker.Steady
import UnwindCheck.Checker.Order
import UnwindCheck.Checker.Pruning
import UnwindCheck.Checker.Paths
import UnwindCheck.Checker.TailCalls
import UnwindCheck.Checker.Seed
import UnwindCheck.Checker.LandingPads
import UnwindCheck.Light.Check
import UnwindCheck.Light.Sweep
import UnwindCheck.Arithmetic
import UnwindCheck.Margins
import UnwindCheck.Machine.Exec
import UnwindCheck.Machine.Unwinder
import UnwindCheck.Machine.Sound
import UnwindCheck.Machine.Cpu
import UnwindCheck.Machine.Clobber
import UnwindCheck.Machine.Widths
import UnwindCheck.Machine.Bounds
import UnwindCheck.Machine.Spellings
import UnwindCheck.Machine.Guards
import UnwindCheck.Machine.Stale
import UnwindCheck.Machine.Stores
import UnwindCheck.Machine.Balanced
import UnwindCheck.Machine.Frame
import UnwindCheck.Machine.Snapshot
import UnwindCheck.Machine.Moves
import UnwindCheck.Machine.Outcome
import UnwindCheck.Machine.Tables
import UnwindCheck.Machine.Memory
import UnwindCheck.Machine.Watched
import UnwindCheck.Machine.Activation
import UnwindCheck.Machine.Journey
import UnwindCheck.Light.Sound
import UnwindCheck.Exits
import UnwindCheck.Driver.Uncovered
import UnwindCheck.Driver.Run
import UnwindCheck.Driver.Gaps
import UnwindCheck.Driver.Exit
import UnwindCheck.Driver.Overlap
import UnwindCheck.Driver.Index
import UnwindCheck.Report.Symbolizer
import UnwindCheck.Report.Lookups
import UnwindCheck.Report.Names
import UnwindCheck.Report.Listing
import UnwindCheck.Report.Print
import UnwindCheck.Report.Subprocess
import UnwindCheck.Report.Inspect
