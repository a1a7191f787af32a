import MiniRedis.Avl.Reachable
import MiniRedis.Avl.Naive
import MiniRedis.Avl.Sequence
import MiniRedis.Hashtable.Runs
import MiniRedis.Heap.Operations
import MiniRedis.ZSet.Reachable
import MiniRedis.Common.Resize
import MiniRedis.ThreadPool.Reachable
import MiniRedis.Server.Rank
import MiniRedis.Server.Errors
import MiniRedis.Server.Session
import MiniRedis.Server.NextTimer
import MiniRedis.Server.ParseReq
import MiniRedis.Client.PrintBounds
import MiniRedis.Client.SendReq
import MiniRedis.Server.NumericArgs
import MiniRedis.Client.Transaction
import MiniRedis.Client.EndToEnd
import MiniRedis.Server.Workers
import MiniRedis.Client.Dialogue
import MiniRedis.Server.Machine
import MiniRedis.Server.Locality
import MiniRedis.Avl.Height
import MiniRedis.Server.Leaks
import MiniRedis.Server.Scan
import MiniRedis.Server.Timely
import MiniRedis.Server.Backlog
import MiniRedis.Server.Deadlines
