import AScript.Lib.IndexMap
import AScript.Lib.Machine
import AScript.Lib.Checked
import AScript.Lib.Coarse
import AScript.Lib.Codec
import AScript.Lib.Worklist
import AScript.Lib.Float64
import AScript.Object.Shape
import AScript.Object.Storage
import AScript.Object.Refinement
import AScript.Object.World
import AScript.Object.InlineCache
import AScript.Runtime.Number
import AScript.Syntax.Ast
import AScript.Bytecode.Opcode
import AScript.Bytecode.Chunk
import AScript.Bytecode.Verify
import AScript.Bytecode.Frame
import AScript.Bytecode.StackSafety
import AScript.Bytecode.Activations
import AScript.Bytecode.IndexSafety
import AScript.Bytecode.Decode
import AScript.Bytecode.Dispatch
import AScript.Bytecode.FusedDispatch
import AScript.Runtime.Heap
import AScript.Runtime.Contract
import AScript.Check.CheckTy
import AScript.Check.Denotation
import AScript.Check.Elide
import AScript.Check.Kinds
import AScript.Check.Refute
import AScript.Worker.Serialize
import AScript.Worker.Graph
import AScript.Worker.Clone
import AScript.Worker.Sendable
import AScript.Worker.Airlock
import AScript.Stdlib.Caps
import AScript.Lib.Meet
import AScript.Stdlib.Authority
import AScript.Lib.Rounding
import AScript.Runtime.Range
import AScript.Runtime.RangeExact
import AScript.Lib.Dialogue
import AScript.Det.Context
import AScript.Det.StrictReplay
import AScript.Det.Resume
import AScript.Pkg.Resolve
import AScript.Pkg.Satisfied
import AScript.Pkg.OrderIndependence
import AScript.Lib.Notify
import AScript.Stdlib.Sync
import AScript.Stdlib.Channel
import AScript.Stdlib.Permit
import AScript.Stdlib.Bulkhead
import AScript.Stdlib.Breaker
import AScript.Lib.Wire
import AScript.Bytecode.Aso
import AScript.Bytecode.AsoErasure
import AScript.Bytecode.AsoRoundTrip
import AScript.Lib.Cursor
import AScript.Trace.Container
import AScript.Trace.RoundTrip
import AScript.Bundle.Archive
import AScript.Bundle.Pgo
import AScript.Bundle.Sections
import AScript.Lib.Lexical
import AScript.Bundle.Logical
import AScript.Bundle.LogicalKeys
import AScript.Bundle.Loader
import AScript.Bundle.Identity
import AScript.Bundle.SameRun
import AScript.Lib.FileTree
import AScript.Stdlib.Extract
import AScript.Stdlib.Jail
import AScript.Syntax.Kind
import AScript.Lib.Scan
import AScript.Syntax.LexLiterals
import AScript.Syntax.CstLexer
import AScript.Syntax.Lossless
import AScript.Syntax.CstParser
import AScript.Syntax.TreeBuilder
import AScript.Syntax.Balance
import AScript.Syntax.CstTree
import AScript.Syntax.CstErrors
import AScript.Syntax.Lexer
import AScript.Syntax.LexerScans
import AScript.Syntax.FrontEnds
import AScript.Lib.Precedence
import AScript.Stdlib.Semver
import AScript.Stdlib.SemverGrammar
import AScript.Stdlib.SemverOrder
import AScript.Stdlib.SemverRange
import AScript.Stdlib.SemverInterval
import AScript.Lib.Succeeds
import AScript.Stdlib.SemverMeaning
import AScript.Lib.Toml
import AScript.Pkg.Lockfile
import AScript.Pkg.LockfileToml
import AScript.Check.Normalize
import AScript.Check.Join
import AScript.Lib.EditScript
import AScript.Stdlib.Diff
import AScript.Stdlib.Myers
import AScript.Stdlib.DiffHunks
import AScript.Stdlib.Unified
import AScript.Stdlib.UnifiedApply
import AScript.Stdlib.UnifiedLines
import AScript.Bytecode.Globals
import AScript.Bytecode.GlobalCaches
import AScript.Lib.Closure
import AScript.Bytecode.Slice
import AScript.Bytecode.SliceClosure
import AScript.Stdlib.Cron
import AScript.Stdlib.CronValue
import AScript.Lib.Calendar
import AScript.Stdlib.CronNext
import AScript.Runtime.Binop
import AScript.Check.ArithKinds
import AScript.Lib.Ring
import AScript.Stdlib.BreakerWindow
import AScript.Lib.Bucket
import AScript.Stdlib.Limiter
import AScript.Lib.Message
import AScript.Stdlib.Http1Request
import AScript.Lib.Source
import AScript.Lib.LossyUtf8
import AScript.Stdlib.Http1Body
import AScript.Stdlib.Http1Chunked
import AScript.Lib.FileTreeGrowth
import AScript.Stdlib.PathCarveOut
import AScript.Lib.Url
import AScript.Stdlib.UrlHost
import AScript.Lib.Accepts
import AScript.Stdlib.CapsCodec
import AScript.Lib.IndexMapMoves
import AScript.Lib.LastUse
import AScript.Stdlib.Lru
import AScript.Lib.ByteText
import AScript.Stdlib.Html
import AScript.Lib.Measured
import AScript.Lsp.LineIndex
import AScript.Lib.Intervals
import AScript.Check.Fix
import AScript.Stdlib.ExtractWrites
import AScript.Stdlib.ExtractRollback
import AScript.Stdlib.Msgpack
import AScript.Stdlib.MsgpackRoundTrip
import AScript.Stdlib.MsgpackGraph
import AScript.Lib.Csv
import AScript.Stdlib.Csv
import AScript.Bytecode.Shake
import AScript.Bytecode.Marks
import AScript.Bytecode.ShakeSites
import AScript.Compile.Compile
import AScript.Lib.Reach
import AScript.Compile.Code
import AScript.Compile.Blocks
import AScript.Compile.Correct
import AScript.Compile.Verified
