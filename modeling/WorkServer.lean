import WorkServer.Connection.Ends
import WorkServer.Handler.Bounds
import WorkServer.Handler.Leftover
import WorkServer.Handler.Stream
import WorkServer.Pointers.InPlace
import WorkServer.Pointers.Verdicts
import WorkServer.Queue.Calls
import WorkServer.Queue.Served
import WorkServer.Threads.Capacity
import WorkServer.Pow.Digest
import WorkServer.Sha256.Collision
