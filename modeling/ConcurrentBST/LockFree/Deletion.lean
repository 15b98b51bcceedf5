-- SUMMARY: Without line 314 only unpublished records are deleted, and line 314 deletes a published one.
import ConcurrentBST.LockFree.Releases
import ConcurrentBST.LockFree.Shape
import ConcurrentBST.LockFree.Versions

/-!
# Deleted records

The invariant of the memory says that a published address is not handed out
again. This covers every field of a node in the tree and every argument of a
helper. The step it does not cover is line 314: the record has been in
`replace->op`, and its address stays there as a stamp.
-/

namespace LockFree

variable {cfg : Config} {m : Mem} {g : Ghost} {s : State} {l : Tid × Action} {x a r : Addr} {w : Word}
  {n i : Nat} {pc : PC} {t : Tid} {call : Call}

/-- The records that a helper still has to read or to CAS. -/
def PC.helped (m : Mem) : PC → List Addr
  | .hpChild _ _ next | .hpPut _ next => next.helped m
  | .childSlot op dest _ | .childScan _ _ _ op dest _ | .childOp op dest _ => [op, dest]
  | .markedLeft a | .markedRight a | .markedRef a _ | .markedNew a _ => [a.curr, a.pred]
  | .markedCas a casOp => [casOp, a.pred]
  | .relocState op a | .relocDest op a | .relocSucceed op a | .relocFail op a
  | .relocKey op a | .relocClear op a | .relocCurr op a _ =>
      [op, (m.reloc op).dest, a.curr, a.pred]
  | _ => []

/-- The step executes line 314. -/
def State.atLine314 (s : State) (l : Tid × Action) : Bool :=
  match s.at l with
  | some (.removeDelete _ _) => true
  | _ => false

/-- Nothing in the tree and no helper refers to a deleted address, and no `op`
    field returns to an old word. -/
structure DeletesPrivately (e : (system cfg).Exec n) : Prop where
  fields : ∀ i ≤ n, ∀ a x, a ≠ 0 → (e.state i).mem.cell a = .deleted → (e.state i).mem.reaches x →
    ((e.state i).mem.op x).addr ≠ a ∧ ∀ d, ((e.state i).mem.child x d).addr ≠ a
  helpers : ∀ i ≤ n, ∀ a t call pc, a ≠ 0 → (e.state i).mem.cell a = .deleted →
    (e.state i).thread t = .running call pc → a ∉ pc.helped (e.state i).mem
  fresh : ∀ i j k x, i ≤ j → j ≤ k → k ≤ n → (e.state j).mem.op x ≠ (e.state i).mem.op x →
    (e.state k).mem.op x ≠ (e.state i).mem.op x

-- ---------------------------------------------------------------------------
-- What is still referred to
-- ---------------------------------------------------------------------------

theorem MemInv.taken_child (h : MemInv cfg m g) {d : Bool} : Taken cfg m (m.child x d).addr := by
  rcases h.child_flag x d with hf | hf
  · exact h.taken (.node (h.child_born (Word.ext rfl hf)))
  · rcases h.null_spliced (x := x) (d := d) (.inl (Word.ext rfl hf)) with h0 | ⟨hb, _⟩
    · rw [show (m.child x d).addr = 0 from h0]
      exact taken_zero
    · exact h.taken (.node hb)

theorem MemInv.taken_op (h : MemInv cfg m g) : Taken cfg m (m.op x).addr := by
  by_cases h0 : (m.op x).addr = 0
  · rw [h0]
    exact taken_zero
  · exact h.taken (.op (.inl rfl) h0)

theorem Helping.taken {op : Addr} {args : HelpArgs} (hh : Helping m g op args)
    (h : MemInv cfg m g) :
    ∀ a ∈ [op, (m.reloc op).dest, args.curr, args.pred], Taken cfg m a := by
  simp only [List.mem_cons, List.not_mem_nil, or_false]
  rintro a (rfl | rfl | rfl | rfl)
  · exact h.taken (h.rel_public hh.installed)
  · exact h.taken (.node (h.record hh.installed).dest_born)
  · exact h.taken (.node hh.link.born)
  · exact h.taken (.node hh.link.seen.born)

theorem Splice.taken {args : HelpArgs} (hs : Splice m g args) (h : MemInv cfg m g) :
    ∀ a ∈ [args.curr, args.pred], Taken cfg m a := by
  simp only [List.mem_cons, List.not_mem_nil, or_false]
  rintro a (rfl | rfl)
  · exact h.taken (.node hs.link.born)
  · exact h.taken (.node hs.link.seen.born)

/-- The arguments of a helper are not handed out. The hypothesis on the history
    says that only nodes of the tree have had another word in `op`. -/
theorem PcInv.taken_helped (h : MemInv cfg m g) (hborn : ∀ x w, w ∈ g.pastOp x → x ∈ g.born)
    (hp : PcInv cfg m g t call pc) : ∀ a ∈ pc.helped m, Taken cfg m a := by
  have hcas : ∀ {op dest}, everOp m g dest (.cas op) → ∀ a ∈ [op, dest], Taken cfg m a := by
    intro op dest he
    simp only [List.mem_cons, List.not_mem_nil, or_false]
    rintro a (rfl | rfl)
    · exact h.taken_cas he
    · refine h.taken (.node ?_)
      rcases he with hop | hpast
      · exact h.born_of_flag (by simp [hop])
      · exact hborn _ _ hpast
  induction pc with
  | hpChild _ _ next ih => exact ih hp
  | hpPut _ next ih => exact ih hp
  | childSlot op dest ret => exact hcas hp.1
  | childScan => exact hp.elim
  | childOp op dest ret => exact hcas hp.1
  | markedLeft | markedRight | markedRef | markedNew => exact hp.1.taken h
  | markedCas args casOp =>
    simp only [PC.helped, List.mem_cons, List.not_mem_nil, or_false]
    rintro a (rfl | rfl)
    · exact hp.2.2.1.taken
    · exact h.taken (.node hp.1.link.seen.born)
  | relocState | relocDest | relocSucceed | relocFail | relocKey | relocClear | relocCurr =>
    exact hp.1.taken h
  | _ => simp [PC.helped]

/-- Only the `op` fields of nodes of the tree change. -/
theorem History.born_of_pastOp {e : (system cfg).Exec n} (H : History e) (hi : i ≤ n)
    (hw : w ∈ (H.ghost i).pastOp x) : x ∈ (H.ghost i).born := by
  induction i with
  | zero =>
    rw [H.start] at hw
    exact hw.elim
  | succ i ih =>
    by_contra hx
    obtain ⟨spent, hev⟩ := H.evolution hi
    have hold : x ∉ (H.ghost i).born := fun hb => hx (hev.born hb)
    obtain ⟨_, _, g', status, hc, hg⟩ := (H.traces i hi).change
    rw [hg] at hw
    change w ∈ g'.pastOp x at hw
    rcases hc.pastOp_cases hw with hop | hpast
    · have heq : (e.state (i + 1)).mem.op x = w := by
        rw [(hev.after.unborn hx).1, ← hop, (hev.before.unborn hold).1]
      exact hev.after.op_fresh x (by rw [heq, hg]; exact hw)
    · exact hold (ih (by omega) hpast)

/-- As long as line 314 is not executed, only unpublished records are deleted. -/
theorem deletes_privately (e : (system .reusing).Exec n)
    (hok : ∀ i < n, (e.state i).atLine314 (e.label i) = false) : DeletesPrivately e := by
  have hcareful : ∀ i < n, Careful .reusing (e.state i) (e.label i) := by
    rintro i hi call pc ht ⟨-, f, r, rfl⟩
    have hline := hok i hi
    have hstep := steps_of_next (e.step i hi)
    generalize e.label i = l at hstep ht hline
    generalize e.state (i + 1) = s' at hstep
    cases hstep with
    | invoke ht' => cases ht.symm.trans ht'
    | access => simp [State.atLine314, State.at, ht] at hline
    | respond ht' => cases ht.symm.trans ht'
  obtain ⟨H⟩ := exists_history rfl e hcareful
  have hgone : ∀ {i a}, i ≤ n → a ≠ 0 → (e.state i).mem.cell a = .deleted →
      ¬ Taken .reusing (e.state i).mem a := by
    intro i a _ h0 hcell
    simp [Taken, Mem.allocatable, h0, hcell, Config.reusing]
  refine ⟨fun i hi a x h0 hcell _ => ⟨?_, fun d => ?_⟩, fun i hi a t call pc h0 hcell ht hmem => ?_,
    fun i j k x => H.op_never⟩
  · rintro rfl
    exact hgone hi h0 hcell (H.mem hi).taken_op
  · rintro rfl
    exact hgone hi h0 hcell (H.mem hi).taken_child
  · refine hgone hi h0 hcell (((H.inv i hi).pc ht).taken_helped (H.mem hi) ?_ a hmem)
    exact fun x w => H.born_of_pastOp hi

theorem deletes_privately_add :
    DeletesPrivately (.ofLabels (0, .respond) (soloCall 0 (.add 5) 2 11) (by decide) :
      (system .reusing).Exec 13) :=
  deletes_privately _ (by decide +kernel)

-- ---------------------------------------------------------------------------
-- Line 314
-- ---------------------------------------------------------------------------

/-- While one thread removes 5, another one removes 3, and the relocation fails. -/
def runOfFailure : (system .reusing).Exec 92 :=
  .ofLabels (0, .respond) (soloCall 0 (.add 5) 2 11 ++ soloCall 0 (.add 3) 13 14 ++
    soloCall 0 (.add 8) 27 14 ++ (0, .invoke (.remove 5)) :: accesses 0 41 17 ++
    soloCall 1 (.remove 3) 60 20 ++ accesses 0 90 7) (by decide +kernel)

/-- The address of the deleted record stays in the `op` field of a node of the tree. -/
theorem not_deletes_privately :
    ¬ ∀ (n : Nat) (e : (system .reusing).Exec n), DeletesPrivately e := by
  intro h
  have hcell : (runOfFailure.state 92).mem.cell 90 = .deleted := by decide +kernel
  have hreach : (runOfFailure.state 92).mem.reaches 34 := ⟨[false, false], by decide +kernel⟩
  have hop : ((runOfFailure.state 92).mem.op 34).addr = 90 := by decide +kernel
  exact ((h 92 runOfFailure).fields 92 (by decide) 90 34 (by decide) hcell hreach).1 hop

end LockFree
