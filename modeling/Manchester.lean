import Manchester.Machine.Types
import Manchester.Framework.Bytes
import Manchester.Framework.Fifo
import Manchester.Framework.Transition
import Manchester.Framework.Rounds
import Manchester.Framework.Loop
import Manchester.Framework.Xorshift
import Manchester.Framework.OneAtATime
import Manchester.Framework.Interning
import Manchester.Queue.SharedQueue
import Manchester.Framework.Buckets
import Manchester.Matching.MatchingUnit
import Manchester.Matching.Order
import Manchester.Queue.BoundedFifo
import Manchester.Loader.Placed
import Manchester.Loader.Atomic
import Manchester.Loader.Bounds
import Manchester.Loader.Frame
import Manchester.Loader.Privilege
import Manchester.Loader.Opcodes
import Manchester.Loader.ExportList
import Manchester.Strip.Rename
import Manchester.Strip.Linking
import Manchester.Assembler.Edges
import Manchester.Assembler.Owners
import Manchester.Assembler.Leaves
import Manchester.Assembler.Emit
import Manchester.Assembler.Carried
import Manchester.Assembler.ImageWords
import Manchester.Assembler.Operands
import Manchester.Assembler.Encoding
import Manchester.Assembler.RoundTrip
import Manchester.Framework.Network
import Manchester.Framework.Deadlock
import Manchester.Framework.Guarded
import Manchester.Framework.Net
import Manchester.Framework.Flow
import Manchester.Framework.Piece
import Manchester.Pipeline.FunctionUnit
import Manchester.Pipeline.InputModule
import Manchester.Pipeline.IoSwitch
import Manchester.Pipeline.Tags
import Manchester.Pipeline.Printing
import Manchester.Pipeline.LoadOperands
import Manchester.Pipeline.Machine
import Manchester.Pipeline.Schedule
import Manchester.Pipeline.Trap
import Manchester.Pipeline.Authority
import Manchester.Pipeline.Capacity
import Manchester.Pipeline.Flood
import Manchester.Pipeline.TrapCode
import Manchester.Pipeline.TrapRun
import Manchester.Pipeline.TrapFiring
import Manchester.Pipeline.Transparent
import Manchester.Pipeline.Settled
import Manchester.Loader.Confined
import Manchester.Pipeline.StoreRun
import Manchester.Pipeline.Issued
import Manchester.Pipeline.Intercepted
import Manchester.Pipeline.MainBinding
import Manchester.Pipeline.LoadResult
import Manchester.Dataflow.Abstract
import Manchester.Dataflow.Implements
import Manchester.Assembler.Firing
import Manchester.Assembler.LineFlow
import Manchester.Assembler.Direct
import Manchester.Assembler.Ports
import Manchester.Assembler.Image
import Manchester.Assembler.Sends
import Manchester.Assembler.LineProgram
import Manchester.Dataflow.Flights
import Manchester.Dataflow.LineFiring
import Manchester.Framework.Drain
import Manchester.Dataflow.LineRun
import Manchester.Dataflow.LineStart
import Manchester.Dataflow.LinePrints
import Manchester.Dataflow.LineEnd
import Manchester.Dataflow.LineCorrect
import Manchester.Framework.Ranked
import Manchester.Framework.Worker
import Manchester.Compiler.Syntax
import Manchester.Compiler.UsedVariables
import Manchester.Compiler.Generate
import Manchester.Compiler.Names
import Manchester.Compiler.Text
import Manchester.Compiler.Sequential
import Manchester.Compiler.Lazy
import Manchester.Compiler.Views
import Manchester.Compiler.Straight
import Manchester.Compiler.Branching
import Manchester.Compiler.Conditional
import Manchester.Compiler.Correct
import Manchester.Compiler.Tidy
import Manchester.Compiler.EndToEnd
import Manchester.Compiler.Calls
import Manchester.Compiler.Hosts
import Manchester.Os.Words
import Manchester.Os.Source
import Manchester.Os.Strings
import Manchester.Os.Compare
import Manchester.Os.Search
import Manchester.Os.Build
import Manchester.Os.Input
import Manchester.Pipeline.TrapHash
import Manchester.Os.Number
import Manchester.Os.Copy
import Manchester.Os.Hash
import Manchester.Os.Shifts
import Manchester.Os.Shell
import Manchester.Table.Map
import Manchester.Pipeline.TrapTable
import Manchester.Queue.Progress
import Manchester.Dataflow.LineCorrect
import Manchester.Dataflow.Tame
import Manchester.Dataflow.PipelineEnd
import Manchester.Dataflow.LineTame
import Manchester.Compiler.Deployed
