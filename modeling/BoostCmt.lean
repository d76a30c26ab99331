import BoostCmt.Lib.Runs
import BoostCmt.Lib.Chain
import BoostCmt.Lib.Heap
import BoostCmt.Lib.Places
import BoostCmt.Lib.Simulation
import BoostCmt.Lib.Atomic
import BoostCmt.Types
import BoostCmt.Thread
import BoostCmt.World
import BoostCmt.Notify
import BoostCmt.Durability
import BoostCmt.Cancel
import BoostCmt.Shapes
import BoostCmt.Timeout
import BoostCmt.Handshake
import BoostCmt.Wakeups
import BoostCmt.Sole
import BoostCmt.Invocation
import BoostCmt.Delivery
import BoostCmt.SelfSwitch
import BoostCmt.Retainable
import BoostCmt.InQueue
import BoostCmt.SocketRead
import BoostCmt.SocketWrite
import BoostCmt.TaskOrder
import BoostCmt.Contention
import BoostCmt.Assertions
import BoostCmt.Expiry
import BoostCmt.Spinning
import BoostCmt.Fairness
import BoostCmt.Quit
import BoostCmt.Unfinished
import BoostCmt.Parking
import BoostCmt.Sync
import BoostCmt.ReadyList
import BoostCmt.Deadline
import BoostCmt.Acceptor
import BoostCmt.Priority
import BoostCmt.Slot
import BoostCmt.SignalWait
import BoostCmt.Streambuf
import BoostCmt.ActorSignal
import BoostCmt.StreamBytes
import BoostCmt.SocketErrors
import BoostCmt.SocketConnection
import BoostCmt.PromiseLock
import BoostCmt.ContextReuse
import BoostCmt.Progress
import BoostCmt.ActorCall
import BoostCmt.ActorObject
import BoostCmt.ActorFuture
import BoostCmt.TaskLife
