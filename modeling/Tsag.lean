import Tsag.Lib.Transition
import Tsag.Lib.CString
import Tsag.Lib.Fifo
import Tsag.Lib.Ring
import Tsag.Lib.Condvar
import Tsag.Discover
import Tsag.DedupLimit
import Tsag.MatchFailures
import Tsag.QueueThreads
import Tsag.LangWaiters
import Tsag.Conservation
import Tsag.Shutdown
import Tsag.Execution
import Tsag.Schedule
import Tsag.LineEndings
import Tsag.MergeTurns
import Tsag.Program
import Tsag.ReadTags
import Tsag.ProgramMemory
import Tsag.ProgramOutput
