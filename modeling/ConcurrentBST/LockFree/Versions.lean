-- SUMMARY: No field of a node takes a value again, and marked nodes do not change.
import ConcurrentBST.LockFree.Invariant

/-!
# Fields as version stamps

Every CAS takes the word it has read for a version of the node. This is sound
because the past of an `op` or a child field and its present value are disjoint
in every state of a history. A marked node has no next version at all.
-/

namespace LockFree

variable {cfg : Config} {m m' : Mem} {g g' : Ghost} {x : Addr} {w : Word} {d : Bool} {n i j k : Nat}
  {spent : Addr → Prop}

/-- What a run does to the fields of each node. -/
structure NeverRepeats (e : (system cfg).Exec n) : Prop where
  key : ∀ i < n, ∀ x, (e.state i).mem.cell x ≠ .unused →
    (e.state (i + 1)).mem.key x ≠ (e.state i).mem.key x →
    (e.state i).mem.key x < (e.state (i + 1)).mem.key x
  op : ∀ i j k x, i ≤ j → j ≤ k → k ≤ n → (e.state j).mem.op x ≠ (e.state i).mem.op x →
    (e.state k).mem.op x ≠ (e.state i).mem.op x
  child : ∀ i j k x d, i ≤ j → j ≤ k → k ≤ n →
    (e.state j).mem.child x d ≠ (e.state i).mem.child x d →
    (e.state k).mem.child x d ≠ (e.state i).mem.child x d

/-- What a run does to marked nodes. -/
structure FreezesMarked (e : (system cfg).Exec n) : Prop where
  node : ∀ i j x, i ≤ j → j ≤ n → (e.state i).mem.marked x →
    (e.state j).mem.node x = (e.state i).mem.node x
  empty : ∀ i ≤ n, ∀ x, (e.state i).mem.marked x →
    isNull ((e.state i).mem.child x true) ∨ isNull ((e.state i).mem.child x false)
  /-- Two calls of `helpMarked` for one node agree on `new_ref`. -/
  agree : ∀ i j t u c c' a a' ref ref', i ≤ n → j ≤ n →
    (e.state i).thread t = .running c (.markedNew a ref) →
    (e.state j).thread u = .running c' (.markedNew a' ref') → a.curr = a'.curr → ref = ref'
  /-- What they put into their record is still right when the record is installed. -/
  update : ∀ i ≤ n, ∀ t c a r, (e.state i).thread t = .running c (.markedCas a r) →
    ((e.state i).mem.cas r).update = (e.state i).mem.replacement a.curr

-- ---------------------------------------------------------------------------
-- One step
-- ---------------------------------------------------------------------------

namespace Evolution

variable (h : Evolution cfg spent m g m' g')

include h

/-- The key of an allocated node only grows. -/
theorem key_lt (hx : Taken cfg m x) (hne : m'.key x ≠ m.key x) : m.key x < m'.key x := by
  by_cases hb : x ∈ g.born
  · exact lt_of_le_of_ne (h.key_le hb) (Ne.symm hne)
  · have hop := (h.before.unborn hb).1
    exact absurd (h.key_eq hx (by simp [hop])) hne

theorem node_of_marked (hm : m.marked x) : m'.node x = m.node x := by
  have hflag : (m.op x).flag = .mark := hm
  have hx : x ∈ g.born := h.before.born_of_flag (by simp [hflag])
  have hkey : m'.key x = m.key x := h.key_eq (h.before.taken (.node hx)) (by simp [hflag])
  have hop : m'.op x = m.op x := h.marked hm
  have hleft : m'.child x true = m.child x true := h.child_of_marked hm true
  have hright : m'.child x false = m.child x false := h.child_of_marked hm false
  unfold Mem.key at hkey
  unfold Mem.op at hop
  unfold Mem.child Node.child at hleft hright
  generalize m'.node x = a at *
  generalize m.node x = b at *
  cases a
  cases b
  simp_all

end Evolution

-- ---------------------------------------------------------------------------
-- Runs
-- ---------------------------------------------------------------------------

namespace History

variable {e : (system cfg).Exec n} (H : History e)

include H

theorem op_never (hij : i ≤ j) (hjk : j ≤ k) (hk : k ≤ n)
    (hne : (e.state j).mem.op x ≠ (e.state i).mem.op x) :
    (e.state k).mem.op x ≠ (e.state i).mem.op x := by
  intro heq
  have hpast := (H.ever hij (by omega) (.inl rfl)).resolve_left hne
  exact (H.mem hk).op_fresh x (heq ▸ H.pastOp hjk hk hpast)

theorem child_never (hij : i ≤ j) (hjk : j ≤ k) (hk : k ≤ n)
    (hne : (e.state j).mem.child x d ≠ (e.state i).mem.child x d) :
    (e.state k).mem.child x d ≠ (e.state i).mem.child x d := by
  intro heq
  have hever := H.preserved
    (P := fun m g => m.child x d = (e.state i).mem.child x d ∨
      (e.state i).mem.child x d ∈ g.pastChild x d)
    (fun m g m' g' spent hev h => ?_) hij (by omega) (.inl rfl)
  · have hpast := H.preserved (P := fun _ g => (e.state i).mem.child x d ∈ g.pastChild x d)
      (fun _ _ _ _ _ hev h => hev.pastChild x d h) hjk hk (hever.resolve_left hne)
    exact (H.mem hk).child_fresh x d (heq ▸ hpast)
  · rcases h with h | h
    · rcases hev.child x d with hc | ⟨_, _, hc, _⟩
      · exact .inl (hc.trans h)
      · exact .inr (h ▸ hc)
    · exact .inr (hev.pastChild x d h)

theorem node_of_marked (hij : i ≤ j) (hj : j ≤ n) (hm : (e.state i).mem.marked x) :
    (e.state j).mem.node x = (e.state i).mem.node x :=
  (H.preserved (P := fun m _ => m.marked x ∧ m.node x = (e.state i).mem.node x)
    (fun _ _ _ _ _ hev h => ⟨hev.marked_mono h.1, (hev.node_of_marked h.1).trans h.2⟩)
    hij hj ⟨hm, rfl⟩).2

end History

/-- The fields of a node never return to an old value. -/
theorem never_repeats (e : (system .plain).Exec n) : NeverRepeats e := by
  obtain ⟨H⟩ := exists_history rfl e fun i _ => careful_of_fresh rfl
  refine ⟨fun i hi x hx hne => ?_, fun i j k x => H.op_never, fun i j k x d => H.child_never⟩
  obtain ⟨spent, hev⟩ := H.evolution hi
  refine hev.key_lt ?_ hne
  simp [Taken, Mem.allocatable, Config.plain, hx]

/-- Marked nodes are frozen. -/
theorem freezes_marked (e : (system .plain).Exec n) : FreezesMarked e := by
  obtain ⟨H⟩ := exists_history rfl e fun i _ => careful_of_fresh rfl
  refine ⟨fun i j x => H.node_of_marked, fun i hi x hm => ?_,
    fun i j t u c c' a a' ref ref' hi hj ht hu ha => ?_, fun i hi t c a r ht => ?_⟩
  · obtain ⟨d, hd⟩ := (H.mem hi).marked_empty hm
    cases d
    · exact .inr hd
    · exact .inl hd
  · obtain ⟨hs, _, rfl⟩ := (H.inv i hi).pc ht
    obtain ⟨hs', _, rfl⟩ := (H.inv j hj).pc hu
    have hsame : (e.state i).mem.node a.curr = (e.state j).mem.node a.curr := by
      rcases Nat.le_total i j with hij | hij
      · exact (H.node_of_marked hij hj hs.marked).symm
      · exact H.node_of_marked hij hi (ha ▸ hs'.marked)
    unfold Mem.replacement Mem.child
    rw [← ha, hsame]
  · obtain ⟨_, _, _, _, hupd, _⟩ := (H.inv i hi).pc ht
    exact hupd

end LockFree
