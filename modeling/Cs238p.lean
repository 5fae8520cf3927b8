import Cs238p.Jit.Spelling
import Cs238p.Jit.Codegen
import Cs238p.Lib.Memory
import Cs238p.Lib.Ring
import Cs238p.Logfs.Writer
import Cs238p.Logfs.Close
import Cs238p.Logfs.LogProofs
import Cs238p.Kvdb.Index
import Cs238p.Kvdb.Raw
import Cs238p.Kvdb.IndexRuns
import Cs238p.Kvdb.Chains
import Cs238p.Lib.Outcome
import Cs238p.Lib.AvlBag
import Cs238p.Scm.Owned
import Cs238p.Scm.Runs
import Cs238p.Scm.Utilised
import Cs238p.Avl.Restart
import Cs238p.Avl.Blocks
import Cs238p.Lib.LinkedList
import Cs238p.Lib.RoundRobin
import Cs238p.Sched.RoundRobin
import Cs238p.Kvdb.FullDevice
import Cs238p.Logfs.Shutdown
import Cs238p.Kvdb.IndexFull
import Cs238p.Kvdb.Admission
import Cs238p.Kvdb.Cycles
import Cs238p.Lib.Orbit
import Cs238p.Logfs.FailedRead
import Cs238p.Kvdb.Alike
import Cs238p.Kvdb.FailedAppend
import Cs238p.Sched.Preempt
import Cs238p.Sched.PreemptInv
import Cs238p.Sched.PreemptRuns
import Cs238p.Avl.Multiplicity
import Cs238p.Avl.Reuse
import Cs238p.Avl.Failures
import Cs238p.Shell.Strtrim
import Cs238p.Shell.Load
import Cs238p.Shell.Dispatch
import Cs238p.Shell.ReadLine
import Cs238p.Shell.Editor
import Cs238p.Shell.History
import Cs238p.Jit.Bounds
import Cs238p.Jit.Constants
import Cs238p.Lib.Outline
import Cs238p.Avl.Print
import Cs238p.Shell.Commands
import Cs238p.Shell.Shell
import Cs238p.Shell.Program
import Cs238p.Shell.Terminal
import Cs238p.Lib.Calls
import Cs238p.Logfs.Calls
import Cs238p.Logfs.Delayed
import Cs238p.Logfs.DelayedRuns
import Cs238p.Kvdb.Calls
import Cs238p.Kvdb.Delayed
import Cs238p.Lib.Fairness
import Cs238p.Logfs.Progress
import Cs238p.Logfs.Flushed
import Cs238p.Lib.Blocks
import Cs238p.Jit.Alloc
import Cs238p.Jit.AllocProofs
import Cs238p.Logfs.Machine
import Cs238p.Logfs.Interleaved
import Cs238p.Logfs.Completion
import Cs238p.Kvdb.Interleaved
