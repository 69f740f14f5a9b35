import Starlight.Lib.Exec
import Starlight.Lib.Keeps
import Starlight.Lib.SlotLayout
import Starlight.Lib.Buffer
import Starlight.Vm.Attributes
import Starlight.Vm.Value
import Starlight.Vm.Structure
import Starlight.Vm.StructureInvariant
import Starlight.Vm.StructureStore
import Starlight.Vm.StructureTransitions
import Starlight.Vm.World
import Starlight.Vm.Property
import Starlight.Vm.Object
import Starlight.Vm.WorldInvariant
import Starlight.Vm.LookupSpec
import Starlight.Vm.UpdateSpec
import Starlight.Vm.DefineSpec
import Starlight.Vm.IndexedSpec
import Starlight.Vm.ObjectSpec
import Starlight.Vm.Heap
import Starlight.Vm.HeapSpec
import Starlight.Vm.HeapRuns
import Starlight.Vm.Refusal
import Starlight.Vm.PermanenceRuns
import Starlight.Vm.Extensibility
import Starlight.Vm.ExtensibilitySpec
import Starlight.Vm.ExtensibilityRuns
import Starlight.Vm.InlineCache
import Starlight.Vm.InlineCacheSpec
import Starlight.Vm.InlineCacheRuns
import Starlight.Vm.Quiet
import Starlight.Vm.ConstructMap
import Starlight.Vm.ConstructRuns
import Starlight.Vm.PutGet
import Starlight.Vm.JsProperty
import Starlight.Vm.Validation
import Starlight.Vm.ShapeLinks
import Starlight.Vm.ShapeTree
import Starlight.Vm.ShapeRuns
import Starlight.Vm.ShapeHistory
import Starlight.Vm.Elements
import Starlight.Vm.ElementStorage
import Starlight.Vm.OwnNames
import Starlight.Vm.IndexedPut
import Starlight.Vm.ByVal
import Starlight.Vm.OwnKeysKept
import Starlight.Vm.OwnKeys
import Starlight.Vm.ArrayStorage
import Starlight.Vm.StringIndex
import Starlight.Vm.StorageModes
import Starlight.Vm.ArrayLength
import Starlight.Vm.ArrayRuns
import Starlight.Vm.ArrayNatives
import Starlight.Vm.ForIn
import Starlight.Vm.KeyOrder
import Starlight.Vm.Descriptors
import Starlight.Vm.DescriptorFields
import Starlight.Vm.DescriptorRoundTrip
import Starlight.Vm.Arguments
import Starlight.Vm.ArgumentsRuns
import Starlight.Lib.CodeBuffer
import Starlight.Compiler.Syntax
import Starlight.Compiler.Opcode
import Starlight.Compiler.Analysis
import Starlight.Compiler.State
import Starlight.Compiler.Compile
import Starlight.Lib.Reachability
import Starlight.Gc.SpaceBitmap
import Starlight.Gc.SizeClass
import Starlight.Gc.Block
import Starlight.Gc.Space
import Starlight.Gc.SpaceInvariant
import Starlight.Gc.SpaceAllocate
import Starlight.Gc.SpaceSweep
import Starlight.Gc.SweepRuns
import Starlight.Gc.SpaceRuns
import Starlight.Gc.SlotVisitor
import Starlight.Gc.Marking
import Starlight.Gc.Heap
import Starlight.Gc.HeapInvariant
import Starlight.Gc.Collection
import Starlight.Gc.ParallelMarking
import Starlight.Gc.ParallelStep
import Starlight.Gc.ParallelInvariant
import Starlight.Gc.ParallelTermination
import Starlight.Gc.Safepoint
import Starlight.Gc.SafepointInvariant
import Starlight.Gc.SafepointRuns
import Starlight.Promise.Machine
import Starlight.Promise.Invariant
import Starlight.Promise.Adoption
import Starlight.Promise.Reactions
import Starlight.Promise.JobQueue
import Starlight.Promise.Tracking
import Starlight.Promise.Combinators
import Starlight.Modules.Loader
import Starlight.Modules.LoaderSpec
import Starlight.Interpreter.Stack
import Starlight.Interpreter.NativeCall
import Starlight.Interpreter.Activation
import Starlight.Interpreter.Balance
import Starlight.Compiler.Encoding
import Starlight.Compiler.Program
import Starlight.Compiler.Formed
import Starlight.Compiler.FormedParts
import Starlight.Compiler.FormedCode
import Starlight.Compiler.InstructionStream
import Starlight.Lib.BinaryFloat
import Starlight.Lib.HashTable
import Starlight.Lib.Transducer
import Starlight.Vm.Double
import Starlight.Vm.Boxed
import Starlight.Vm.IntegerValues
import Starlight.Vm.MapKeys
import Starlight.Vm.Conversions
import Starlight.Vm.Equality
import Starlight.Vm.Comparison
import Starlight.Vm.Arithmetic
import Starlight.Vm.PropertyKey
import Starlight.Vm.IntegerConversion
import Starlight.Interpreter.Generator
import Starlight.Interpreter.Coroutine
import Starlight.Vm.NewArray
import Starlight.Interpreter.SpreadCall
import Starlight.Interpreter.ArrayLiteral
import Starlight.Interpreter.BoundFunction
import Starlight.Gc.ConservativeScan
import Starlight.Gc.HeapWalk
import Starlight.Compiler.SwitchCode
import Starlight.Compiler.MemberCall
import Starlight.Compiler.ForBinding
import Starlight.Vm.ArrayShift
import Starlight.Vm.ArrayAppend
import Starlight.Vm.ArrayStack
import Starlight.Vm.ArrayCopies
import Starlight.Vm.ArraySlice
import Starlight.Vm.ArrayConcat
import Starlight.Vm.BufferSlice
import Starlight.Vm.DataViewLaw
import Starlight.Vm.StringSearch
import Starlight.Vm.StringPositions
import Starlight.Vm.StringIterator
import Starlight.Vm.RegExpProtocol
import Starlight.Vm.SplitPaths
import Starlight.Vm.Replacement
import Starlight.Interpreter.FrameSetup
import Starlight.Vm.MergeSort
import Starlight.Vm.BucketSort
import Starlight.Vm.StringReplace
import Starlight.Vm.RadixString
import Starlight.Vm.ParseInt
import Starlight.Vm.DecimalRounding
import Starlight.Vm.DateTime
import Starlight.Vm.DateComponents
import Starlight.Vm.RegexSearcher
import Starlight.Utils.OrderedSet
import Starlight.Utils.SegmentedVec
import Starlight.Vm.Interner
import Starlight.Gc.BitmapCover
import Starlight.Gc.SizeClassTable
import Starlight.Gc.PreciseAllocation
import Starlight.Vm.InOperator
