import Windy.Project.Journal
import Windy.Manager.Close
import Windy.Manager.Handles
import Windy.Mcp.Revision
import Windy.Mcp.Persisted
import Windy.Mcp.Idempotency
import Windy.Decompiler.Ssa.Frontier
import Windy.Mcp.Completeness
import Windy.Decompiler.V2.CallSites
import Windy.Bel.SingleFlight
import Windy.Manager.DecompileCache
import Windy.Decompiler.V2.Engine
import Windy.Analysis.Partition
import Windy.Analysis.Boundaries
import Windy.Analysis.Coverage
import Windy.Bel.Ranges
import Windy.Decompiler.Structure.ShortCircuit
import Windy.Decompiler.V2.Seed
import Windy.Decompiler.Ssa.ReachingReturn
import Windy.Decompiler.Ssa.Widths
import Windy.Decompiler.Structure.Pdom
import Windy.Decompiler.Structure.GotoCleanup
import Windy.Decompiler.V2.Reproducible
import Windy.Decompiler.V2.CondExpr
import Windy.Decompiler.Analysis.PointsTo
import Windy.Decompiler.V2.PrintRead
import Windy.Bel.RelatedSearch
import Windy.Analysis.Thunks
import Windy.Loader.Dump.MemoryMap
import Windy.Loader.Dump.ModulePe
import Windy.Loader.ImportTables
import Windy.Llm.Attribution
import Windy.Analysis.MemWalk
import Windy.Decompiler.HirBridge
import Windy.Project.CallArguments
import Windy.Project.TypeRecovery
import Windy.Analysis.Search
import Windy.Llm.Strings
import Windy.Project.Symsrv
import Windy.Analysis.Prologue
import Windy.Analysis.Arity
import Windy.Manager.DumpModules
import Windy.Ir.AgentText
import Windy.Analysis.SketchAgree
import Windy.Analysis.DeepCache
import Windy.Project.RenameBatch
