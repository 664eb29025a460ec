import CroCOS.Proofs.SlabAllocator.Calls
import CroCOS.Proofs.MemorySpan.Calls
import CroCOS.Proofs.TLBFreshness
import CroCOS.Proofs.EpochDomain.GracePeriod
import CroCOS.Proofs.EpochDomain.BagProtocol
import CroCOS.Proofs.EpochDomain.Barrier
import CroCOS.Proofs.ChainedTreiberStack.Linearizable
import CroCOS.Proofs.ClockManager
import CroCOS.Proofs.AtomicBitPool.Schedules
import CroCOS.Proofs.RingBuffer.Batches
import CroCOS.Proofs.PageAllocator.LocalDomain
import CroCOS.Proofs.SelfMap
import CroCOS.Proofs.BroadcastRingBuffer.History
import CroCOS.Proofs.AtomicLinkedList.Sequential
import CroCOS.Proofs.RWSpinlock
import CroCOS.Proofs.GraphBuilder.ValidEdges
import CroCOS.Proofs.GraphBuilder.Faithful
import CroCOS.Proofs.InterruptRouting.TriggerTypes
import CroCOS.Proofs.InterruptRouting.Owners
import CroCOS.Proofs.InterruptRouting.Enumeration
import CroCOS.Proofs.Numa
import CroCOS.Proofs.HashTable.Cleared
import CroCOS.Proofs.SizeClass
import CroCOS.Proofs.InterruptManager.Dispatch
import CroCOS.Proofs.InterruptManager.Rerouting
import CroCOS.Proofs.InterruptManager.Chains
