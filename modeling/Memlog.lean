import Memlog.Lib.BinaryFloat
import Memlog.Lib.ByteMem
import Memlog.Lib.RedBlack
import Memlog.Lib.SortedList
import Memlog.Lib.Text
import Memlog.Mx.Element
import Memlog.Mx.Run
import Memlog.Parser.Accepts
import Memlog.Parser.FileCache
import Memlog.Parser.Files
import Memlog.Parser.History
import Memlog.Parser.Latest
import Memlog.Parser.Ledger
import Memlog.Parser.Lines
import Memlog.Parser.Model
import Memlog.Parser.Refine
import Memlog.RbTree.Refine
import Memlog.Tool.Heap
import Memlog.Tool.Lookup
import Memlog.Tool.Realloc
import Memlog.Vex.Exec
import Memlog.Vex.Pass
import Memlog.Vex.Sanity
import Memlog.Vex.Syntax
import Memlog.Vex.Trace
import Memlog.Wire.Expand
import Memlog.Wire.Logged
import Memlog.Wire.Model
import Memlog.Wire.Sane
import Memlog.Vex.Scope
import Memlog.Wire.Simulates
import Memlog.Mx.LargestFirst
import Memlog.Mx.Poison
import Memlog.Mx.Split
import Memlog.Parquet.Model
import Memlog.Parquet.Rows
import Memlog.Parquet.Archive
import Memlog.Parquet.Keys
import Memlog.Lib.Sql
import Memlog.Query.Blocks
import Memlog.Query.Viable
import Memlog.Tool.Site
import Memlog.Query.Site
import Memlog.Query.SiteAgree
import Memlog.RbTree.Balance
import Memlog.Mx.Rounding
import Memlog.Mx.Order
import Memlog.Mx.Effect
import Memlog.Tool.SitesFile
import Memlog.Parser.Plan
import Memlog.Parser.Rerun
import Memlog.Lib.Ranks
import Memlog.Query.Gini
import Memlog.Query.SiteProfile
import Memlog.Lib.Replay
import Memlog.Query.Silent
import Memlog.Lib.Cover
import Memlog.Query.Concentration
import Memlog.Lib.FloatFormat
import Memlog.Query.Feasibility
import Memlog.Query.Harness
import Memlog.Parser.CacheRuns
import Memlog.RbTree.Safe
import Memlog.Pipeline.Table
import Memlog.Pipeline.Silent
import Memlog.Lib.Stateful
import Memlog.RbTree.Objects
import Memlog.Mx.Stats
import Memlog.Tool.Full
import Memlog.Tool.Owned
import Memlog.Tool.Fini
import Memlog.Tool.Counters
import Memlog.Vex.Hook
import Memlog.Wire.MxSimulates
import Memlog.Wire.Instruments
import Memlog.Tool.Reply
import Memlog.Program.Model
import Memlog.Program.Simulates
import Memlog.Program.MxInvariant
import Memlog.Lib.Writes
import Memlog.Strmem.Model
import Memlog.Strmem.Correct
import Memlog.Lib.LastRow
import Memlog.Parser.Current
import Memlog.Pipeline.Snapshot
import Memlog.Program.Memory
