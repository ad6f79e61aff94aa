import JustKit.Avl.Represents
import JustKit.Avl.Rebalance
import JustKit.Avl.Insert
import JustKit.Avl.Remove
import JustKit.Avl.Invariant
import JustKit.Avl.Runs
import JustKit.Avl.EqualKeys
import JustKit.Avl.Frame
import JustKit.Timers.Accounts
import JustKit.Timers.Runs
import JustKit.Foundations.Buckets
import JustKit.Hash.Entries
import JustKit.Hash.Operations
import JustKit.Foundations.FiniteMap
import JustKit.Hash.Refinement
import JustKit.Hash.BucketIndex
import JustKit.Hash.TextKeys
import JustKit.Foundations.HeapOrder
import JustKit.Heaps.Block
import JustKit.Heaps.Runs
import JustKit.Foundations.LevelChain
import JustKit.Skip.Chains
import JustKit.Skip.Updates
import JustKit.Skip.Operations
import JustKit.Foundations.Multimap
import JustKit.Skip.Refinement
import JustKit.Foundations.Transition
import JustKit.Pool.Model
import JustKit.Pool.Invariant
import JustKit.Pool.ExactlyOnce
import JustKit.Aio.Model
import JustKit.Pool.Load
import JustKit.Foundations.LinkedList
import JustKit.Aio.Invariant
import JustKit.Aio.Steps
import JustKit.Aio.Conservation
import JustKit.Spinlock.Exclusion
import JustKit.Aio.EventLoop
import JustKit.Pool.Wakeups
import JustKit.Events.Epoll
import JustKit.Events.EpollDispatch
import JustKit.Bloom.Model
import JustKit.Bloom.Positions
import JustKit.Bloom.Answers
import JustKit.Bloom.SharedSalts
import JustKit.Hash.BinaryKeys
import JustKit.Hash.Ownership
import JustKit.Timers.Deadlines
import JustKit.Events.Backends
import JustKit.Foundations.LinkRing
import JustKit.Heaps.Capacity
import JustKit.Lists.Model
import JustKit.Lists.WellFormed
import JustKit.Skip.RandomLevel
import JustKit.Skip.Structure
import JustKit.Avl.PathStack
import JustKit.Avl.Stable
import JustKit.Aio.Calls
import JustKit.Timers.Firing
import JustKit.Timers.Lifetime
import JustKit.Pool.Startup
import JustKit.Events.Turns
import JustKit.Events.Coalescing
import JustKit.Events.KqueueMirror
import JustKit.Events.SelectMax
import JustKit.Bloom.IndexRange
import JustKit.Bloom.SaltDraws
import JustKit.Spinlock.BackOff
import JustKit.Heaps.Conservation
import JustKit.Aio.WaitCounts
import JustKit.Lists.SafeLoops
import JustKit.Foundations.Traced
import JustKit.Heaps.Indices
import JustKit.Pool.Order
import JustKit.Hash.LoadFactor
import JustKit.Pool.Progress
import JustKit.Aio.Results
import JustKit.Aio.Delivery
import JustKit.Aio.Order
import JustKit.Timers.Schedule
import JustKit.Foundations.Rotations
import JustKit.Avl.Rotations
import JustKit.Avl.Lookups
import JustKit.Heaps.Costs
import JustKit.Events.Dispatch
import JustKit.Hash.RehashCosts
import JustKit.Skip.Release
import JustKit.Spinlock.Progress
import JustKit.Pool.Renaming
import JustKit.Aio.Addresses
import JustKit.Aio.Naming
import JustKit.Aio.SystemCalls
import JustKit.Foundations.Blocks
import JustKit.Foundations.LinkedCells
import JustKit.Hash.Pointers
import JustKit.Hash.Linked
import JustKit.Hash.Tables
import JustKit.Pool.Settling
