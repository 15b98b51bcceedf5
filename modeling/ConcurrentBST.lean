-- SUMMARY: Root of the development.
import ConcurrentBST.Library.Transition
import ConcurrentBST.Library.Ancestry
import ConcurrentBST.Library.Unfolding
import ConcurrentBST.Library.Linearizability
import ConcurrentBST.Library.Termination
import ConcurrentBST.Library.RelyGuarantee
import ConcurrentBST.Library.Alone
import ConcurrentBST.Library.SearchTree
import ConcurrentBST.Library.Insertion
import ConcurrentBST.Library.OrderedTree
import ConcurrentBST.Library.RingBuffer
import ConcurrentBST.Library.InfiniteRuns
import ConcurrentBST.Library.Clients
import ConcurrentBST.Library.Ranking
import ConcurrentBST.Library.Stuttering
import ConcurrentBST.LockFree.Memory
import ConcurrentBST.LockFree.Program
import ConcurrentBST.LockFree.Writes
import ConcurrentBST.LockFree.Ghost
import ConcurrentBST.LockFree.OpUpdates
import ConcurrentBST.LockFree.SlotUpdates
import ConcurrentBST.LockFree.RecordUpdates
import ConcurrentBST.LockFree.Changes
import ConcurrentBST.LockFree.Evolution
import ConcurrentBST.LockFree.Effects
import ConcurrentBST.LockFree.ThreadInv
import ConcurrentBST.LockFree.FindSteps
import ConcurrentBST.LockFree.CallSteps
import ConcurrentBST.LockFree.HelperSteps
import ConcurrentBST.LockFree.Invariant
import ConcurrentBST.LockFree.Linearization
import ConcurrentBST.LockFree.Shape
import ConcurrentBST.LockFree.Releases
import ConcurrentBST.LockFree.ChildCas
import ConcurrentBST.LockFree.Agreement
import ConcurrentBST.LockFree.Versions
import ConcurrentBST.LockFree.Deletion
import ConcurrentBST.LockFree.Reuse
import ConcurrentBST.LockFree.Successor
import ConcurrentBST.LockFree.Quiescence
import ConcurrentBST.LockFree.Solo
import ConcurrentBST.LockFree.SoloHelpers
import ConcurrentBST.LockFree.SoloCalls
import ConcurrentBST.LockFree.Sequential
import ConcurrentBST.LockFree.Tags
import ConcurrentBST.LockFree.References
import ConcurrentBST.LockFree.Reclamation
import ConcurrentBST.LockFree.Heap
import ConcurrentBST.LockFree.Retirement
import ConcurrentBST.LockFree.HazardRing
import ConcurrentBST.LockFree.Advances
import ConcurrentBST.LockFree.Acyclic
import ConcurrentBST.LockFree.Restarts
import ConcurrentBST.LockFree.Rounds
import ConcurrentBST.LockFree.Progress
import ConcurrentBST.LockFree.Clients
import ConcurrentBST.LockFree.Guarded
import ConcurrentBST.LockFree.Holders
import ConcurrentBST.LockFree.Unlinked
import ConcurrentBST.FineGrained.Memory
import ConcurrentBST.FineGrained.Program
import ConcurrentBST.FineGrained.Ghost
import ConcurrentBST.FineGrained.Guarantees
import ConcurrentBST.FineGrained.Regions
import ConcurrentBST.FineGrained.Commits
import ConcurrentBST.FineGrained.Searching
import ConcurrentBST.FineGrained.Removing
import ConcurrentBST.FineGrained.Linearization
import ConcurrentBST.FineGrained.Quiescence
import ConcurrentBST.FineGrained.Locking
import ConcurrentBST.FineGrained.Solo
import ConcurrentBST.FineGrained.Sequential
import ConcurrentBST.FineGrained.Insertion
import ConcurrentBST.FineGrained.Ages
import ConcurrentBST.FineGrained.Descent
import ConcurrentBST.FineGrained.Progress
import ConcurrentBST.FineGrained.Clients
import ConcurrentBST.Unlocked.Program
import ConcurrentBST.Unlocked.Trees
import ConcurrentBST.Unlocked.Removal
import ConcurrentBST.Unlocked.Runs
import ConcurrentBST.Tracegen.Program
import ConcurrentBST.Tracegen.LowContention
import ConcurrentBST.Tracegen.WellFormed
import ConcurrentBST.Tracegen.Balanced
import ConcurrentBST.Harness.WorkQueue
import ConcurrentBST.Harness.Verdict
import ConcurrentBST.Harness.Load
import ConcurrentBST.Harness.Collection
import ConcurrentBST.Harness.Threads
import ConcurrentBST.Harness.Outcome
import ConcurrentBST.Harness.Tests
import ConcurrentBST.Harness.Passes
import ConcurrentBST.Harness.Files
import ConcurrentBST.Harness.Generated
