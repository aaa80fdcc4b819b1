import RiceVM.Lib.Exec
import RiceVM.State
import RiceVM.Unwind
import RiceVM.Gc
import RiceVM.Data
import RiceVM.Env
import RiceVM.Ops.Data
import RiceVM.Ops.Concurrency
import RiceVM.Run
import RiceVM.Turns
import RiceVM.Programs
import RiceVM.Channels
import RiceVM.Threads
import RiceVM.Waiting
import RiceVM.Exits
import RiceVM.ThreadData
import RiceVM.HandOff
import RiceVM.CallStack
import RiceVM.HeapIds
import RiceVM.RefCounts
import RiceVM.Mspawn
import RiceVM.Debugger
import RiceVM.Collect
import RiceVM.Preemptive
import RiceVM.WorkerPool
import RiceVM.SentPointers
import RiceVM.Imports
import RiceVM.HostPaths
import RiceVM.Varargs
import RiceVM.Loader.Instantiate
import RiceVM.Limbo.RoundTrip
import RiceVM.Limbo.Records
import RiceVM.Limbo.Calls
import RiceVM.Limbo.Folding
import RiceVM.Limbo.Confinement
import RiceVM.Limbo.Families
import RiceVM.Limbo.EntryPoint
import RiceVM.Limbo.ExprRoundTrip
import RiceVM.Limbo.Constants
import RiceVM.Limbo.Agreement
import RiceVM.Lib.Assembly
import RiceVM.Lib.Emitter
import RiceVM.Lib.Words
import RiceVM.Limbo.CaseSelect
import RiceVM.Limbo.Condition
import RiceVM.Limbo.ConditionCode
import RiceVM.Limbo.ConditionAgree
import RiceVM.Limbo.Compound
import RiceVM.Limbo.Expansion
import RiceVM.Descriptors
import RiceVM.Pipes
import RiceVM.AltPointers
import RiceVM.Results
import RiceVM.Limbo.Lexer
import RiceVM.Limbo.Literals
import RiceVM.Limbo.Tokens
import RiceVM.Ops.Strings
import RiceVM.Limbo.CharAssign
import RiceVM.Ops.Convert
import RiceVM.Limbo.Casts
import RiceVM.Limbo.CharSharing
import RiceVM.Limbo.Sections
import RiceVM.Lea
import RiceVM.Slices
import RiceVM.BlockCounts
import RiceVM.Transfers
import RiceVM.TkSends
import RiceVM.CharBytes
import RiceVM.Reaping
import RiceVM.TraceMaps
import RiceVM.Powers
import RiceVM.CaseTables
import RiceVM.Numerals
import RiceVM.DataItems
import RiceVM.FixedPoint
import RiceVM.SizeWords
import RiceVM.Delivery
import RiceVM.Fairness
import RiceVM.Lists
import RiceVM.Backtrace
import RiceVM.Ops.Compare
import RiceVM.StringValues
import RiceVM.ModuleData
import RiceVM.Limbo.Refinement
import RiceVM.Limbo.Patched
