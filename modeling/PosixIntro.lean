import PosixIntro.Concurrency.Handover
import PosixIntro.RustSemaphore.Counting
import PosixIntro.RustSemaphore.Progress
import PosixIntro.Warehouse.CSafety
import PosixIntro.Warehouse.CppShutdown
import PosixIntro.Warehouse.CppSlots
import PosixIntro.Warehouse.RustSafety
import PosixIntro.OddEven.SameOutcome
import PosixIntro.OddEven.CppEnd
import PosixIntro.Warehouse.Simulation
import PosixIntro.SharedMemory.Bounds
import PosixIntro.Pipe.OrderlyEnd
import PosixIntro.Socket.Echo
import PosixIntro.Socket.ClientGone
import PosixIntro.MessageQueue.Delivery
import PosixIntro.MessageQueue.CtrlC
import PosixIntro.SharedMemory.Sessions
import PosixIntro.LockFreeMatrix.Addition
import PosixIntro.MyMalloc.Enough
import PosixIntro.MyMalloc.Failure
import PosixIntro.MyMalloc.Books
import PosixIntro.Monitor.Stranded
import PosixIntro.Monitor.FullRound
import PosixIntro.MessageQueue.SameTexts
import PosixIntro.MessageQueue.EndOfInput
import PosixIntro.Data.OneAnswer
import PosixIntro.Data.CModel
import PosixIntro.SharedMemory.FilePath
import PosixIntro.Socket.Segments
import PosixIntro.Socket.Terminated
import PosixIntro.Concurrency.Joining
import PosixIntro.SharedCounter.Output
import PosixIntro.TwoPrinters.Output
import PosixIntro.ControlTower.SemaphoreRs
import PosixIntro.MyMalloc.TestMalloc
import PosixIntro.MessageQueue.ManyTexts
import PosixIntro.LockFreeMatrix.Columns
import PosixIntro.Monitor.Budget
import PosixIntro.Socket.Replies
import PosixIntro.Data.Agreement
