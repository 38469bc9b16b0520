import Loomlib.Core.Machine
import Loomlib.Core.Chain
import Loomlib.Core.History
import Loomlib.Core.Mutex
import Loomlib.AsyncList.Ndebug
import Loomlib.AsyncQueue.Wakeup
import Loomlib.AsyncQueue.Count
import Loomlib.AsyncQueue.Free
import Loomlib.AsyncQueue.Progress
import Loomlib.LinkedQueue.Wakeup
import Loomlib.LinkedQueue.Pair
import Loomlib.LinkedQueue.Drain
import Loomlib.LinkedQueue.Ndebug
import Loomlib.LinkedQueue.Free
import Loomlib.ThreadPool.Late
import Loomlib.ThreadPool.Progress
import Loomlib.ThreadPool.Rendezvous
import Loomlib.ThreadPool.Together
import Loomlib.Pipeline.Shutdown
import Loomlib.Pipeline.Lines
import Loomlib.Pipeline.Flight
import Loomlib.Pipeline.Inlet
import Loomlib.Pipeline.Pumps
import Loomlib.Pipeline.Single
import Loomlib.Pipeline.Delivery
import Loomlib.Pipeline.Terminate
import Loomlib.Pipeline.Map
import Loomlib.Tree.Passes
import Loomlib.Tree.Shutdown
import Loomlib.Tree.Drain
import Loomlib.Tree.Teardown
import Loomlib.Tree.Build
import Loomlib.Barrier.Rounds
import Loomlib.Cache.Moves
import Loomlib.Cache.Owners
import Loomlib.Cache.Fifo
import Loomlib.Cache.Concurrent
import Loomlib.Pipeline.Whole
import Loomlib.Pipeline.Finish
