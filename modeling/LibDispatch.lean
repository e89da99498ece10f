import LibDispatch.Library.Transition
import LibDispatch.Library.RingBuffer
import LibDispatch.Library.PointerChain
import LibDispatch.Library.Ownership
import LibDispatch.Library.Tally
import LibDispatch.Library.BitMask
import LibDispatch.Library.Resources
import LibDispatch.Library.WorkPool
import LibDispatch.Library.Rounds
import LibDispatch.Spinlock.Instructions
import LibDispatch.Spinlock.Exclusion
import LibDispatch.Spinlock.Timing
import LibDispatch.Metal.Threads
import LibDispatch.Metal.LockDiscipline
import LibDispatch.Metal.QueueContents
import LibDispatch.Metal.QueueRefinement
import LibDispatch.Metal.MachineArithmetic
import LibDispatch.Metal.CallDiscipline
import LibDispatch.Metal.Waiters
import LibDispatch.Metal.Progress
import LibDispatch.Metal.Messages
import LibDispatch.Metal.Traversal
import LibDispatch.Task
import LibDispatch.Program
import LibDispatch.ClientModel
import LibDispatch.Metal.DispatchQueue
import LibDispatch.Metal.DispatchSteps
import LibDispatch.Metal.SharedChanend
import LibDispatch.Metal.ClientProgress
import LibDispatch.Metal.Ledger
import LibDispatch.Metal.Barrier
import LibDispatch.Metal.Discipline
import LibDispatch.Metal.CallersThread
import LibDispatch.Metal.Client
import LibDispatch.Metal.Counters
import LibDispatch.Metal.CounterSteps
import LibDispatch.Metal.Waits
import LibDispatch.Metal.WaitDone
import LibDispatch.Metal.Lifetimes
import LibDispatch.Metal.GroupRun
import LibDispatch.Metal.GroupSizes
import LibDispatch.Metal.Shutdown
import LibDispatch.Metal.UpTo
import LibDispatch.Metal.Stacks
import LibDispatch.Metal.QueueBudget
import LibDispatch.Metal.Deadlock
import LibDispatch.Metal.Budget
import LibDispatch.Metal.Completion
import LibDispatch.Rtos.DispatchQueue
import LibDispatch.Rtos.DispatchSteps
import LibDispatch.Rtos.Barrier
import LibDispatch.Rtos.Client
import LibDispatch.Rtos.Releases
import LibDispatch.Rtos.Resources
import LibDispatch.Rtos.Cycles
import LibDispatch.Rtos.Counters
import LibDispatch.Rtos.Lifetimes
import LibDispatch.Rtos.Pool
import LibDispatch.Rtos.GroupRun
import LibDispatch.Rtos.Budget
import LibDispatch.Rtos.Completion
import LibDispatch.Host.DispatchQueue
import LibDispatch.Host.DispatchSteps
import LibDispatch.Host.LockDiscipline
import LibDispatch.Host.Barrier
import LibDispatch.Host.WakeUp
import LibDispatch.Host.Shutdown
import LibDispatch.Host.Client
import LibDispatch.Host.Tickets
import LibDispatch.Host.Clients
import LibDispatch.Host.Counts
import LibDispatch.Host.Capacity
import LibDispatch.Host.EventCounter
import LibDispatch.Host.Pool
import LibDispatch.Host.GroupRun
import LibDispatch.Host.Deadlock
import LibDispatch.Host.Budget
import LibDispatch.Host.Completion
import LibDispatch.GroupRelease
import LibDispatch.Spinlock.Uses
import LibDispatch.Meaning
import LibDispatch.Backends
import LibDispatch.ForkJoin
import LibDispatch.MatrixMultiply
