import PmemKv.Library.PersistentMemory
import PmemKv.Library.AtomicProg
import PmemKv.Library.LinkedChain
import PmemKv.SkipList.Memory
import PmemKv.SkipList.Insert
import PmemKv.SkipList.Search
import PmemKv.SkipList.Shape
import PmemKv.SkipList.SpliceSpec
import PmemKv.SkipList.SearchSpec
import PmemKv.SkipList.InsertSpec
import PmemKv.SkipList.Runs
import PmemKv.SkipList.Interference
import PmemKv.SkipList.ConcurrentInsert
import PmemKv.SkipList.ConcurrentSearch
import PmemKv.SkipList.Interleavings
import PmemKv.SkipList.Reachable
import PmemKv.SkipList.Predecessors
import PmemKv.SkipList.Iteration
import PmemKv.SkipList.Validation
import PmemKv.SkipList.Estimate
import PmemKv.SkipList.SpliceAccess
import PmemKv.SkipList.NodeSimulation
import PmemKv.SkipList.Traversals
import PmemKv.SkipList.Progress
import PmemKv.SkipList.ByteRuns
import PmemKv.Library.Buckets
import PmemKv.HandleTable.Table
import PmemKv.HandleTable.Layout
import PmemKv.HandleTable.TableRuns
import PmemKv.HandleTable.Resizing
import PmemKv.HandleTable.Growth
import PmemKv.LogStore.PowerFailures
import PmemKv.LogStore.Rewriting
import PmemKv.LogStore.Overflow
import PmemKv.LogStore.Concurrency
import PmemKv.ValueStore.Publishing
import PmemKv.ValueStore.Dumping
import PmemKv.ValueStore.Opening
import PmemKv.ValueStore.Probing
import PmemKv.ValueStore.Threads
import PmemKv.Iterator.Cleanup
