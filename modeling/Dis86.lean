import Dis86.IR.Methods
import Dis86.Lib.FlowRun
import Dis86.IR.Flow
import Dis86.IR.Ssa
import Dis86.IR.Construction
import Dis86.IR.Total
import Dis86.Opt.MemSymbol
import Dis86.Opt.MemSymbolLift
import Dis86.Opt.MemSymbolRun
import Dis86.IR.Fin
import Dis86.Ast.Builder
import Dis86.Ast.Render
import Dis86.Ast.Emit
import Dis86.Ast.Rendered
import Dis86.Lib.ParallelAssign
import Dis86.Ast.Meaning
import Dis86.Ast.Leaves
import Dis86.Ast.Phis
import Dis86.Lib.CInt
import Dis86.Ast.Tree
import Dis86.Ast.Promotion
import Dis86.Build.Builder
import Dis86.Lib.Outcome
import Dis86.Mz.Exe
import Dis86.Mz.Total
import Dis86.Asm.InstrFmt
import Dis86.Asm.Region
import Dis86.Mz.Loadable
import Dis86.Asm.Decode
import Dis86.Asm.Exact
import Dis86.Asm.Parts
import Dis86.Asm.Atomic
import Dis86.Asm.Decodable
import Dis86.Lib.Search
import Dis86.Opt.DeadBlock
import Dis86.Opt.DeadBlockRepair
import Dis86.Opt.DeadBlockSpec
import Dis86.Opt.DeadBlockCut
import Dis86.Opt.DeadBlockVisit
import Dis86.Lib.Trace
import Dis86.Opt.DeadBlockRun
import Dis86.Opt.DeadBlockElimination
import Dis86.Asm.Linear
import Dis86.Config.Regions
import Dis86.Analyze.FuncDetails
import Dis86.Validate.Function
import Dis86.Asm.Boundary
import Dis86.Spec.Regions
import Dis86.Validate.Sound
import Dis86.Build.GuestWrites
import Dis86.Build.Execution
import Dis86.Build.GuestOrder
import Dis86.Build.Synchronise
import Dis86.Build.ExitWrites
import Dis86.Build.ExitCode
import Dis86.Build.ExitRun
import Dis86.Build.ParallelWrites
import Dis86.Build.StringDecode
import Dis86.Hydra.Machine
import Dis86.Hydra.Overlay
import Dis86.Hydra.Callstack
import Dis86.Hydra.Exec
import Dis86.Hydra.OverlayAddresses
import Dis86.Hydra.Passive
import Dis86.Hydra.Resumption
import Dis86.Hydra.Snapshot
import Dis86.Hydra.SnapshotTamper
import Dis86.Analyze.Walk
import Dis86.Analyze.Bounds
import Dis86.Analyze.Total
import Dis86.Analyze.Discovery
import Dis86.Analyze.Exact
import Dis86.Config.TypeAgreement
import Dis86.Config.Spelling
import Dis86.Build.Emitter
import Dis86.Build.StringValues
import Dis86.Opt.Sweep
import Dis86.Opt.ConstantFolding
import Dis86.Opt.ConstantFoldingRun
import Dis86.Opt.DeadCode
import Dis86.Opt.Propagation
import Dis86.Opt.StackPointer
import Dis86.Opt.StackPointerChain
import Dis86.Sym.Coalesce
import Dis86.Sym.Stack
import Dis86.Sym.StackCollect
import Dis86.Sym.StackExact
import Dis86.IR.FinSplit
import Dis86.IR.FinExits
import Dis86.IR.FinExact
import Dis86.Lib.ByteMemory
import Dis86.Opt.StoreToLoad
import Dis86.Opt.StoreToLoadExact
import Dis86.Opt.FuseLoads
import Dis86.Opt.FuseLoadsExact
import Dis86.IR.Execution
import Dis86.Opt.PhiReduction
import Dis86.Config.RangeSets
import Dis86.Config.RegionSets
import Dis86.Config.Coverage
import Dis86.Asm.Targets
import Dis86.Spec.Tiling
import Dis86.Opt.ChainedComparisons
import Dis86.Lib.Fuel
import Dis86.Ast.AccessPath
import Dis86.Ast.AccessAgreement
import Dis86.Lib.DepthFirst
import Dis86.Abi.CallerReads
import Dis86.Abi.CallerReadsExact
import Dis86.Lib.CToken
import Dis86.Lib.CGrammar
import Dis86.Lib.CClean
import Dis86.Ast.Gen
import Dis86.Ast.GenLexes
import Dis86.Ast.GenShape
import Dis86.Ast.GenReads
import Dis86.Build.Arithmetic
import Dis86.Build.ArithmeticExact
import Dis86.IR.BlockData
import Dis86.IR.Lookups
import Dis86.Lib.Threads
import Dis86.Lib.CounterLoop
import Dis86.Native.Scroll
import Dis86.Native.ScrollExact
import Dis86.Lib.Answers
import Dis86.Native.Pit
import Dis86.Native.TextWindow
import Dis86.Native.TextWindowExact
import Dis86.Analyze.Trace
import Dis86.Analyze.TraceExact
import Dis86.Hydra.CallStub
import Dis86.Confgen.Backends
import Dis86.Confgen.BackendsExact
import Dis86.Dosdebug.Dump
import Dis86.Dosdebug.DumpText
import Dis86.Dosdebug.DumpStream
import Dis86.Hydra.Decimal
import Dis86.Hydra.DecimalExact
import Dis86.Ast.Frame
import Dis86.Ast.FrameExact
import Dis86.Lib.PartitionPoint
import Dis86.Util.RangeSet
import Dis86.Lib.Conjunction
import Dis86.Build.EntryValues
import Dis86.Lib.DepthMemo
import Dis86.Ast.GuestPointers
import Dis86.Build.ArithmeticRun
import Dis86.Opt.FuseVariables
import Dis86.Emu.Products
import Dis86.Emu.Frames
import Dis86.Confgen.Carried
