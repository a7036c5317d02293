import OsLab.Foundation.Loop
import OsLab.Foundation.CountedList
import OsLab.Foundation.Levels
import OsLab.Foundation.CInt
import OsLab.Foundation.CText
import OsLab.Foundation.CScan
import OsLab.Foundation.Timeline
import OsLab.Foundation.Makespan
import OsLab.Foundation.BackToBack
import OsLab.Foundation.Cpu
import OsLab.Foundation.Interleaving
import OsLab.Foundation.Turns
import OsLab.Foundation.Forecast
import OsLab.Foundation.Delay
import OsLab.Foundation.Ticks
import OsLab.Foundation.Descriptors
import OsLab.Foundation.Fifo
import OsLab.Foundation.Rotation
import OsLab.Foundation.Grouping
import OsLab.Foundation.SwapRemove
import OsLab.Foundation.Adjacent
import OsLab.Foundation.MinHeap
import OsLab.Foundation.LinkedQueue
import OsLab.Foundation.Blocks
import OsLab.Foundation.LinkedList
import OsLab.Foundation.StableSort
import OsLab.Foundation.Calls
import OsLab.Foundation.Rounding
import OsLab.Sched.Process
import OsLab.Sched.EventQueue
import OsLab.Sched.WorkloadLoader
import OsLab.Sched.MlfqConfig
import OsLab.Sched.MlfqConfigSound
import OsLab.Sched.ProcessQueues
import OsLab.Sched.MlfqPointers
import OsLab.Sched.RoundRobinPointers
import OsLab.Sched.SortedPointers
import OsLab.Sched.Policy
import OsLab.Sched.PolicySpec
import OsLab.Sched.Simulator
import OsLab.Sched.History
import OsLab.Sched.Refinement
import OsLab.Sched.Startup
import OsLab.Sched.Runs
import OsLab.Sched.Rounds
import OsLab.Sched.Accounting
import OsLab.Sched.StateMachine
import OsLab.Sched.BusyTimes
import OsLab.Sched.Boost
import OsLab.Sched.Sjf
import OsLab.Sched.MinimalWaiting
import OsLab.Sched.QueueingRecurrence
import OsLab.Sched.MlfqTermination
import OsLab.Sched.MlfqStuck
import OsLab.Sched.BoostReach
import OsLab.Sched.Horizon
import OsLab.Sched.IntTimes
import OsLab.Sched.BoostRuns
import OsLab.Sched.Stcf
import OsLab.Sched.EventOrder
import OsLab.Sched.EventPointers
import OsLab.Sched.MlfqRules
import OsLab.Sched.Allotment
import OsLab.Sched.Degenerate
import OsLab.Sched.RoundRobin
import OsLab.Sched.Kept
import OsLab.Sched.ContextSwitches
import OsLab.Sched.ConservationLaw
import OsLab.Sched.Compare
import OsLab.Sched.Main
import OsLab.Schedsim.Arrivals
import OsLab.Schedsim.Fcfs
import OsLab.Schedsim.Stcf
import OsLab.Schedsim.EventSim
import OsLab.Schedsim.Rr
import OsLab.Schedsim.Sjf
import OsLab.Schedsim.Ticking
import OsLab.Schedsim.Agreement
import OsLab.Schedsim.Chart
import OsLab.Schedsim.Algorithm
import OsLab.Schedsim.RoundRobin
import OsLab.Schedsim.ShortestJob
import OsLab.Bank.Data
import OsLab.Bank.Code
import OsLab.Bank.Machine
import OsLab.Bank.Ownership
import OsLab.Bank.Holding
import OsLab.Bank.Steps
import OsLab.Bank.Deadlock
import OsLab.Bank.Sequential
import OsLab.Bank.Commit
import OsLab.Bank.Linearization
import OsLab.Bank.Transactions
import OsLab.Bank.Conservation
import OsLab.Bank.LockOrder
import OsLab.Bank.Overdraft
import OsLab.Bank.PoolCount
import OsLab.Bank.Alone
import OsLab.Bank.Progress
import OsLab.Bank.Abort
import OsLab.Bank.BlockedLoads
import OsLab.Bank.Loader
import OsLab.Bank.Ticks
import OsLab.Bank.TraceGroups
import OsLab.Bank.ValidTraces
import OsLab.Bank.Wrapping
import OsLab.Bank.ExactRuns
import OsLab.Bank.Reports
import OsLab.Shell.Command
import OsLab.Shell.Jobs
import OsLab.Shell.MainLoop
import OsLab.Shell.Input
import OsLab.Shell.Background
import OsLab.Shell.Grammar
import OsLab.Shell.Argv
import OsLab.Shell.Memory
import OsLab.Shell.Process
import OsLab.Shell.Sessions
