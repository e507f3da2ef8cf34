import LatteC.Async.Completion
import LatteC.Cache.Lru
import LatteC.Config.AppendMap
import LatteC.Config.Argv
import LatteC.Config.Limits
import LatteC.Config.RoundTrip
import LatteC.Config.Save
import LatteC.Config.Stored
import LatteC.Coroutine.Basic
import LatteC.Coroutine.Runs
import LatteC.Coroutine.Deadlock
import LatteC.Dict.Basic
import LatteC.Dict.Compare
import LatteC.Dict.Fingerprint
import LatteC.Dict.Invariant
import LatteC.Dict.Plugins
import LatteC.Dict.Refinement
import LatteC.Foundation.Block
import LatteC.Foundation.Buckets
import LatteC.Foundation.CallMachine
import LatteC.Foundation.Decimal
import LatteC.Foundation.DoublyLinked
import LatteC.Foundation.KeyedList
import LatteC.Foundation.SortedAssoc
import LatteC.Fs.PosixFile
import LatteC.Fs.Writer
import LatteC.Fs.Env
import LatteC.Fs.Lock
import LatteC.Iterator.Contract
import LatteC.Json.DuplicateNames
import LatteC.Json.Literals
import LatteC.Json.RoundTrip
import LatteC.Json.Scalars
import LatteC.Json.Surrogates
import LatteC.List.Refinement
import LatteC.Listpack.Get
import LatteC.Listpack.Length
import LatteC.Listpack.Refinement
import LatteC.Listpack.Validate
import LatteC.Object.Manager
import LatteC.Lzf.Compress
import LatteC.Odb.Basic
import LatteC.Pool.Mem
import LatteC.Rdb.Stream
import LatteC.Sds.CatFmt
import LatteC.Sds.Fixed
import LatteC.Sds.PrefixedSlice
import LatteC.Sds.Refinement
import LatteC.Sds.SplitLaw
import LatteC.Sds.VarStream
import LatteC.Server.PendingWrite
import LatteC.Set.Basic
import LatteC.Set.IntSet.Refinement
import LatteC.Skiplist.Delete
import LatteC.Skiplist.Insert
import LatteC.Skiplist.Range
import LatteC.ThreadJob.ConsumerQueue
import LatteC.Tree.AvlIterator
import LatteC.Tree.AvlRemove
import LatteC.Tree.BPlusTree.Access
import LatteC.Tree.BPlusTree.Calls
import LatteC.Tree.BPlusTree.Distinct
import LatteC.Tree.BPlusTree.MapLaw
import LatteC.Tree.MapleIterator
import LatteC.Utils.Unsigned
import LatteC.Value.Binary
import LatteC.Value.Order
import LatteC.Ziplist.Delete
import LatteC.Bitmap.Search
import LatteC.Vector.Sort
import LatteC.Vector.Places
import LatteC.Ae.FileEvents
import LatteC.Ae.ProcessEvents
import LatteC.Time.LocalTime
import LatteC.Task.Submit
import LatteC.ThreadJob.Manager
import LatteC.ThreadPool.Lifetime
import LatteC.ThreadSingleObject.ObjectMap
import LatteC.Server.QueryBuffer
import LatteC.Server.AsyncReply
import LatteC.Server.Cron
