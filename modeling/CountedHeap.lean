import CountedHeap.Main
import CountedHeap.Proofs.Action
import CountedHeap.Proofs.Arena.Chains
import CountedHeap.Proofs.Arena.Sound
import CountedHeap.Proofs.Heap.Balance
import CountedHeap.Proofs.Heap.Kept
import CountedHeap.Proofs.Collection
import CountedHeap.Proofs.Counting
import CountedHeap.Proofs.Rescue
import CountedHeap.Proofs.Acyclic
import CountedHeap.Proofs.Cascade
import CountedHeap.Proofs.Erasure
import CountedHeap.Proofs.Order
import CountedHeap.Proofs.Quiescence
import CountedHeap.Proofs.Lineage
import CountedHeap.Proofs.Heap.Aloof
import CountedHeap.Proofs.Finality.Recording
import CountedHeap.Proofs.Heap.Dwindles
import CountedHeap.Proofs.Sparing
import CountedHeap.Proofs.Finality.Runs
import CountedHeap.Proofs.Property.Ordered
import CountedHeap.Proofs.Canonical
import CountedHeap.Proofs.Making
import CountedHeap.Proofs.Representation
import CountedHeap.Proofs.Ancestry
import CountedHeap.Proofs.Failures
import CountedHeap.Proofs.Heap.Contents
import CountedHeap.Proofs.Heap.Proper
import CountedHeap.Proofs.Coroutines.Nesting
import CountedHeap.Proofs.Shell.Sessions
import CountedHeap.Proofs.Stacks
import CountedHeap.Proofs.Refusals
import CountedHeap.Proofs.Rollback
import CountedHeap.Proofs.Lookups
import CountedHeap.Proofs.Text.Offsets
import CountedHeap.Proofs.Memory
import CountedHeap.Proofs.Catchers
import CountedHeap.Proofs.Heap.Objects
import CountedHeap.Proofs.Depth
import CountedHeap.Proofs.Shadowing
import CountedHeap.Proofs.Pacing.Runs
import CountedHeap.Proofs.Tracing
