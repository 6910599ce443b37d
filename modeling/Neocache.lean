import Neocache.Infra.Lists
import Neocache.Infra.Table
import Neocache.Infra.TableMap
import Neocache.Infra.Loop
import Neocache.Infra.Lts
import Neocache.Infra.Amortized
import Neocache.Infra.Locking
import Neocache.Infra.Sections
import Neocache.Infra.SecondChance
import Neocache.Infra.Packed
import Neocache.Infra.Parking
import Neocache.Infra.LockedSections
import Neocache.Infra.LockedDrain
import Neocache.Shard.Data
import Neocache.Shard.Ops
import Neocache.Shard.Paths
import Neocache.Shard.Guards
import Neocache.Shard.Moves
import Neocache.Shard.Exec
import Neocache.Shard.Cost
import Neocache.Shard.Unwind
import Neocache.Shard.Values
import Neocache.Cache.Build
import Neocache.Cache.Ops
import Neocache.Cache.Iter
import Neocache.Cache.Serde
import Neocache.Cache.Sessions
import Neocache.Cache.Guards
import Neocache.Cache.Runs
import Neocache.Cache.Bulk
import Neocache.Lock.Word
import Neocache.Lock.Machine
import Neocache.Cache.Locked
import Neocache.Spec.EagerRemoval
import Neocache.Spec.LossyMap
import Neocache.Spec.S3Fifo
import Neocache.Spec.LockProtocol
import Neocache.Properties.Queues
import Neocache.Properties.QueueMemory
import Neocache.Properties.Eviction
import Neocache.Properties.Counters
import Neocache.Properties.LazyRemoval
import Neocache.Properties.SecondChance
import Neocache.Properties.RemovalFree
import Neocache.Properties.Capacity
import Neocache.Properties.Refinement
import Neocache.Properties.Routing
import Neocache.Properties.Interchange
import Neocache.Properties.Iteration
import Neocache.Properties.ExactlyOnce
import Neocache.Properties.Serde
import Neocache.Properties.Deadlock
import Neocache.Properties.Guards
import Neocache.Properties.Atomicity
import Neocache.Properties.LockRefinement
import Neocache.Properties.LockExclusion
import Neocache.Properties.LockWakeup
import Neocache.Properties.LockRelease
import Neocache.Properties.GhostSet
import Neocache.Properties.ScanResistance
import Neocache.Properties.Frequency
import Neocache.Properties.TryLock
import Neocache.Properties.IterationLocks
import Neocache.Properties.EvictionCost
import Neocache.Properties.Upheld
import Neocache.Properties.PanicSafety
import Neocache.Properties.Clone
import Neocache.Properties.LockProgress
import Neocache.Properties.Bulk
import Neocache.Properties.Residence
import Neocache.Properties.Comeback
import Neocache.Properties.Extend
import Neocache.Properties.LockedAtomicity
import Neocache.Properties.LockedDrain
