import ClojitCvm.Slot.Immediate
import ClojitCvm.Slots.Refinement
import ClojitCvm.Slots.Amortized
import ClojitCvm.Loader.Bounds
import ClojitCvm.Loader.DebugLevel
import ClojitCvm.Loader.Dispatch
import ClojitCvm.Loader.Disorder
import ClojitCvm.Loader.Encodings
import ClojitCvm.Heap.Scan
import ClojitCvm.Heap.Walk
import ClojitCvm.Machine.FrameInvariant
import ClojitCvm.Machine.CallReturn
import ClojitCvm.Machine.PointerSafety
import ClojitCvm.Machine.ObjectLaws
import ClojitCvm.Machine.OperandOrder
import ClojitCvm.Machine.ExitStatus
import ClojitCvm.Machine.Output
import ClojitCvm.Machine.ArithmeticErrors
import ClojitCvm.Machine.IntegerPrograms
import ClojitCvm.Machine.FunctionValues
import ClojitCvm.Machine.RootCoverage
import ClojitCvm.Machine.ProgramCounter
import ClojitCvm.Machine.KeywordConstants
import ClojitCvm.Machine.PrintedText
import ClojitCvm.Machine.SlotDump
import ClojitCvm.Machine.BulkMove
import ClojitCvm.Machine.TypeSizes
import ClojitCvm.Machine.Tracing
import ClojitCvm.Machine.Ideal
import ClojitCvm.Machine.IdealObjects
import ClojitCvm.Machine.IdealRuns
import ClojitCvm.Machine.Observations
import ClojitCvm.Loader.Relocation
import ClojitCvm.Machine.Placement
import ClojitCvm.Machine.Relocation
import ClojitCvm.Machine.CheckedPrograms
import ClojitCvm.Loader.Tables
import ClojitCvm.Loader.Contents
import ClojitCvm.Machine.MemoryUse
import ClojitCvm.Machine.FileMeaning
import ClojitCvm.Machine.ForwardPrograms
import ClojitCvm.Machine.Globals
import ClojitCvm.Machine.FunctionContracts
import ClojitCvm.Machine.SlotChecks
