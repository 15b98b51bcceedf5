-- SUMMARY: The lock-free tree is a set also when deleted addresses are handed out again, as long as line 314 is not executed.
import ConcurrentBST.LockFree.Deletion
import ConcurrentBST.LockFree.Linearization

/-!
# Addresses that are handed out again

Nodes and records that a failed CAS leaves behind are deleted at once, and the
allocator may return their addresses to the next call. This does no harm, because
nobody else has seen them. Only line 314 deletes what others have seen.
-/

namespace LockFree

variable {s s' : State} {l : Tid × Action} {n : Nat}

theorem careful_of_not_atLine314 (hnext : (system .reusing).next s l = some s')
    (hok : s.atLine314 l = false) : Careful .reusing s l := by
  rintro call pc ht ⟨-, f, r, rfl⟩
  cases steps_of_next hnext with
  | invoke ht' => cases ht.symm.trans ht'
  | access => simp [State.atLine314, State.at, ht] at hok
  | respond ht' => cases ht.symm.trans ht'

/-- A run that does not execute line 314 has a history of an atomic set, and the child
    pointers are those of a search tree all along. -/
theorem reusing_history_linearizable (e : (system .reusing).Exec n)
    (hok : ∀ i < n, (e.state i).atLine314 (e.label i) = false) :
    Linearizable setObject (e.history observe n) ∧ ∀ i ≤ n, ∃ t, (e.state i).mem.SearchTree t := by
  obtain ⟨H⟩ := exists_history rfl e fun i hi => careful_of_not_atLine314 (e.step i hi) (hok i hi)
  exact ⟨(H.atomic le_rfl).linearizable, fun i hi => (H.mem hi).searchTree⟩

/-- Thread 1 has its node at the address 24 when it loses to thread 0. It deletes the node, and
    then gets the address again for a record. -/
def runOfReuse : (system .reusing).Exec 36 :=
  .ofLabels (0, .respond) ((1, .invoke (.add 3)) :: accesses 1 20 6 ++ soloCall 0 (.add 5) 40 11 ++
    accesses 1 15 10 ++ accesses 1 25 5 ++ [(1, .respond)]) (by decide +kernel)

theorem reusing_history_linearizable_reuse :
    (runOfReuse.state 20).mem.cell 24 = .node ∧ (runOfReuse.state 21).mem.cell 24 = .deleted ∧
      (runOfReuse.state 30).mem.cell 24 = .childCasOp ∧
        Linearizable setObject (runOfReuse.history observe 36) ∧
          ∀ i ≤ 36, ∃ t, (runOfReuse.state i).mem.SearchTree t :=
  ⟨by decide +kernel, by decide +kernel, by decide +kernel,
    reusing_history_linearizable runOfReuse (by decide +kernel)⟩

end LockFree
