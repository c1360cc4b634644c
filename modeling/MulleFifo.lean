import MulleFifo.Lib.Runs
import MulleFifo.Lib.Events
import MulleFifo.Lib.Ring
import MulleFifo.Lib.BoundedQueue
import MulleFifo.Lib.StaleRegister
import MulleFifo.Lib.HappensBefore
import MulleFifo.Lib.ViewMemory
import MulleFifo.Lib.Fairness
import MulleFifo.Model.Pointerfifo
import MulleFifo.Model.Trace
import MulleFifo.Model.SeqCst
import MulleFifo.Model.FixedFamily
import MulleFifo.Model.Transfer
import MulleFifo.Model.Lifecycle
import MulleFifo.Model.ReleaseAcquire
import MulleFifo.Model.WeakCounts
import MulleFifo.Model.Payload
import MulleFifo.Model.Threads
import MulleFifo.Model.Sequential
import MulleFifo.Linearizability
import MulleFifo.Schedule
import MulleFifo.Ownership
import MulleFifo.Publication
import MulleFifo.Teardown
import MulleFifo.Reservation
import MulleFifo.MachineWords
import MulleFifo.Equivalence
import MulleFifo.Progress
import MulleFifo.Completion
import MulleFifo.Epochs
import MulleFifo.StaleCounts
import MulleFifo.StaleQueue
import MulleFifo.PastCounts
import MulleFifo.Relaxed
import MulleFifo.Newest
import MulleFifo.WeakWords
import MulleFifo.WaitFree
import MulleFifo.PayloadTests
import MulleFifo.PayloadCompletion
import MulleFifo.ThreadsProgram
import MulleFifo.ThreadsTermination
import MulleFifo.Sequential
