-- SUMMARY: Every test comes to its end, whatever the interleaving, and what the tree holds then.
import ConcurrentBST.FineGrained.Clients
import ConcurrentBST.FineGrained.Quiescence
import ConcurrentBST.Harness.Outcome
import ConcurrentBST.LockFree.Clients

/-!
# Tests

A test is one of the trees together with the threads of the harness. It cannot go
on for ever and it does not get stuck, so in the end all workers have left their
loops. What the tree holds then is what the operations of the trace come to in some
order, after the keys of the create file.
-/

open Filter

namespace Harness

open Lts

variable {C R σ ι : Type} {n : Nat} {S : Set Int} {k : Int} {create keys : List Int}
  {ops log : List (OperationType × Int)} {works : List Work} {q : WorkQueue Work}

-- ---------------------------------------------------------------------------
-- Items
-- ---------------------------------------------------------------------------

namespace WorkQueue

/-- What the queue is when items have been put into it. -/
theorem eq_of_foldlM {q' : WorkQueue Work} (h : works.foldlM putWork q = some q') :
    q' = ⟨q.storage ++ works, q.currQSize + works.length⟩ := by
  induction works generalizing q with
  | nil =>
    cases h
    simp
  | cons item works ih =>
    rw [List.foldlM_cons] at h
    obtain ⟨q₁, hq₁, hrest⟩ := Option.bind_eq_some_iff.mp h
    unfold putWork at hq₁
    split at hq₁ <;> cases hq₁
    rw [ih hrest]
    simp [add_comm, add_left_comm]

theorem eq_of_fill (h : fill works = some q) : q = ⟨works, works.length⟩ := by
  simpa [new] using eq_of_foldlM h

end WorkQueue

/-- A worker performs an item that it has got from the queue. -/
theorem mem_of_perform {loop : State Work n} {w : Fin n} {work : Work}
    (h : (Harness.system q n).Reachable loop) (hw : loop.worker w = .perform work) :
    work ∈ loop.handed.map Prod.snd := by
  refine h.invariant (P := fun s => ∀ w work, s.worker w = .perform work →
    work ∈ s.handed.map Prod.snd) (fun _ _ h => by cases h) (fun s v s' ih hnext w work hw => ?_) w
    work hw
  have hloops : Loops s v s' := loops_of_next hnext
  by_cases hwv : w = v
  · subst hwv
    cases hloops with
    | test =>
      simp only [Function.update_self] at hw
      split at hw <;> cases hw
    | get =>
      simp only [Function.update_self, Worker.perform.injEq] at hw
      simp [hw]
    | perform => simp at hw
  · have hmem := ih w work (hloops.worker hwv ▸ hw)
    cases hloops with
    | get =>
      rw [List.map_append]
      exact List.mem_append_left _ hmem
    | test | perform => exact hmem

/-- The queue and the workers keep what they keep alone. -/
theorem inv_of_reachable {loop : State Work n} (hq : WorkQueue.fill works = some q)
    (h : (Harness.system q n).Reachable loop) : Inv works loop := by
  rw [WorkQueue.eq_of_fill hq] at h
  exact h.invariant (P := Inv works) (.init works) fun _ _ _ h hnext => h.step hnext

-- ---------------------------------------------------------------------------
-- What a tree has to do
-- ---------------------------------------------------------------------------

/-- What tests rely on. If `Asserts` holds then a thread may be stuck in an insert of
    a key that is there. -/
structure Testable (L : Lts σ ι) (obs : σ → ι → Option (Event Nat C R)) (I : TreeCalls C R)
    (O : Object (Set Int) C R) (Rel : σ → Set Int → (Nat → Phase C R) → Prop) (Asserts : Prop) :
    Prop where
  changes : I.Changes O
  accepts : ∀ {S c r S'}, O.step S c r S' → I.accepts r = true
  simulates : L.Simulates obs O Rel
  invoke : ∀ {x S phase t} (c : C), Rel x S phase → phase t = .idle →
    ∃ l y, L.next x l = some y ∧ obs x l = some (.invoke t c)
  goes_on : ∀ {x S phase t} (T : Finset Nat), L.Reachable x → Rel x S phase →
    (∀ u, phase u ≠ .idle → u ∈ T) → phase t ≠ .idle →
    (∃ l y, L.next x l = some y ∧ (obs x l = none ∨ ∃ u r, obs x l = some (.respond u r))) ∨
      Asserts ∧ ∃ u k, phase u = .pending (I.call .insert k) ∧ k ∈ S
  insert_inj : ∀ {op k k'}, I.call op k = I.call .insert k' → op = .insert ∧ k = k'
  ends : ∀ (T : Finset Nat) (r : L.Run), r.Shows obs (fun ev => ev.thread ∈ (T : Set Nat)) →
    ¬ ∀ᶠ i in atTop, obs (r.state i) (r.label i) = none

/-- All keys of the create file are in the tree, and all workers have left. -/
def Test.Finished (s : Test n) : Prop :=
  s.create = [] ∧ ∀ w, s.loop.worker w = .left

theorem finished_of_hasLeft {s : Test n} (hnil : s.create = [])
    (hleft : ∀ w, (s.loop.worker w).hasLeft = true) : s.Finished := by
  refine ⟨hnil, fun w => ?_⟩
  have hw := hleft w
  cases hworker : s.loop.worker w with
  | left => rfl
  | _ => simp [hworker, Worker.hasLeft] at hw

theorem mem_of_lastChange {change : OperationType} (h : lastChange k ops = some change) :
    (change, k) ∈ ops := by
  induction ops with
  | nil => cases h
  | cons op ops ih =>
    unfold lastChange at h
    split at h
    · next hlast =>
      cases h
      exact List.mem_cons_of_mem _ (ih hlast)
    · split at h
      · next hop =>
        cases h
        exact hop.1 ▸ List.mem_cons_self ..
      · cases h

/-- No key is inserted twice. -/
def InsertsOnce (create : List Int) (ops : List (OperationType × Int)) : Prop :=
  ∀ k, create.count k + ops.count (.insert, k) ≤ 1

namespace Testable

variable [DecidableEq C] {L : Lts σ ι} {obs : σ → ι → Option (Event Nat C R)} {I : TreeCalls C R}
  {O : Object (Set Int) C R} {Rel : σ → Set Int → (Nat → Phase C R) → Prop} {Asserts : Prop}
  {p : σ × Test n}

/-- The threads of a test. -/
def threads (I : TreeCalls C R) (n : Nat) : Finset Nat :=
  Insert.insert I.main (Finset.range n)

omit [DecidableEq C] in
theorem mem_threads {s : Test n} {t : Nat} (h : (s.due I t).isSome) : t ∈ threads I n := by
  unfold threads
  rw [Finset.mem_insert, Finset.mem_range]
  cases hcreate : s.create with
  | nil =>
    obtain ⟨w, rfl, -⟩ := Test.exists_of_due hcreate h
    exact .inr w.isLt
  | cons k rest =>
    rw [Test.due_create hcreate] at h
    split at h
    · next hmain => exact .inl hmain
    · cases h

/-- A test does not go on for ever. -/
theorem not_run (h : Testable L obs I O Rel Asserts)
    (r : (L.serve obs (Test.system I create q n)).Run) : False := by
  refine not_run_serve (μ := Test.remaining I) (P := fun ev => ev.thread ∈ (threads I n : Set Nat))
    (fun s l s' hnext => Test.remaining_lt (Test.steps_of_next hnext)) (fun s ev s' hnext => ?_)
    (h.ends (threads I n)) r
  have hmain : I.main ∈ threads I n := Finset.mem_insert_self ..
  have hworker : ∀ w : Fin n, (w : Nat) ∈ threads I n := fun w =>
    Finset.mem_insert_of_mem (Finset.mem_range.mpr w.isLt)
  cases Test.steps_of_next hnext with
  | invoke _ hdue => exact mem_threads (Option.isSome_of_eq_some hdue)
  | created => exact hmain
  | performed => exact hworker _

omit [DecidableEq C] in
/-- A key that is to be inserted and is there has been inserted before. -/
theorem not_once {s : Test n} {phase : Nat → Phase C R} {t : Nat}
    (h : Testable L obs I O Rel Asserts) (hcall : ∀ t, s.InCall I t (phase t))
    (hbooks : s.Books I create S phase keys log) (hinv : Inv works s.loop)
    (ht : phase t = .pending (I.call .insert k)) (hk : k ∈ S) :
    ¬ InsertsOnce create (works.flatMap Work.ops) := by
  intro honce
  have hdue := (hcall t).due_pending ht
  have hset : k ∈ setAfter keys.toFinset log := by
    rw [hbooks.set] at hk
    exact hk
  have hle := honce k
  cases hcreate : s.create with
  | cons k' rest =>
    rw [Test.due_create hcreate] at hdue
    split at hdue
    · next hmain =>
      -- The main thread still has the key in front of it.
      subst hmain
      obtain ⟨-, rfl⟩ := h.insert_inj (Option.some.inj hdue)
      obtain ⟨rfl, -⟩ := hbooks.early (by simp [hcreate])
      have hkeys : k' ∈ keys := by simpa [setAfter] using hset
      have hmissing : s.missing I phase = k' :: rest := by simp [Test.missing, ht, hcreate]
      have hpos := List.count_pos_iff.mpr hkeys
      rw [← hbooks.created, hmissing, List.count_append, List.count_cons_self] at hle
      omega
    · cases hdue
  | nil =>
    obtain ⟨w, rfl, work, hw⟩ := Test.exists_of_due hcreate (Option.isSome_of_eq_some hdue)
    rw [Test.due_perform hcreate hw] at hdue
    obtain ⟨op, hop, hcall⟩ := Option.map_eq_some_iff.mp hdue
    obtain ⟨rfl, hvalue⟩ := h.insert_inj hcall
    -- The item of the worker and the one that has put the key there are two.
    have hwaiting : s.waiting phase w = [(.insert, k)] := by
      simp [Test.waiting, hw, ht, Work.ops, hop, hvalue]
    have hsub : (log ++ [(OperationType.insert, k)]).Subperm ((s.loop.handed.map Prod.snd).flatMap Work.ops) := by
      rw [← Multiset.coe_le, ← Multiset.coe_add, ← hbooks.logged, ← hwaiting]
      exact add_le_add_right (Finset.single_le_sum
        (f := fun v => (s.waiting phase v : Multiset (OperationType × Int)))
        (fun _ _ => Multiset.zero_le _) (Finset.mem_univ w)) _
    have hcount := hsub.count_le (.insert, k)
    rw [List.count_append, List.count_singleton_self] at hcount
    rw [← hinv.order, List.flatMap_append, List.count_append] at hle
    have hkeys := hbooks.created
    rw [Test.missing_nil hcreate, List.append_nil] at hkeys
    rcases mem_setAfter.mp hset with hlast | ⟨-, hmem⟩
    · have hpos := List.count_pos_iff.mpr (mem_of_lastChange hlast)
      omega
    · have hpos := List.count_pos_iff.mpr (List.mem_toFinset.mp hmem)
      rw [hkeys] at hpos
      omega

/-- A test is not stuck before its end. -/
theorem not_stuck (h : Testable L obs I O Rel Asserts) (hn : n ≤ 2 ^ 31)
    (hq : WorkQueue.fill works = some q) (htyped : ∀ work ∈ works, work.opType ≠ none)
    (honce : Asserts → InsertsOnce create (works.flatMap Work.ops))
    (hp : (L.serve obs (Test.system I create q n)).Reachable p) :
    p.2.Finished ∨ ∃ l p', (L.serve obs (Test.system I create q n)).next p l = some p' := by
  obtain ⟨S, phase, hrel, hserved⟩ := h.simulates.served hp
  obtain ⟨hcall, keys, log, hbooks⟩ := Test.accounted h.changes hserved
  have hinv := inv_of_reachable hq (Test.reachable_loop (Reachable.client hp))
  -- A call that is due is made.
  have hinvoke : ∀ {t c}, phase t = .idle → p.2.due I t = some c →
      ∃ l p', (L.serve obs (Test.system I create q n)).next p l = some p' := by
    intro t c ht hdue
    obtain ⟨l, y, hy, hobs⟩ := h.invoke c hrel ht
    obtain ⟨s', hs'⟩ := Option.isSome_iff_exists.mp
      (Test.isSome_invoke ((hcall t).calling_iff.mpr ht) hdue)
    exact ⟨_, _, next_of_serves (.event hy hobs hs')⟩
  by_cases hidle : ∀ t, phase t = .idle
  · cases hcreate : p.2.create with
    | cons k rest =>
      have hdue : p.2.due I I.main = some (I.call .insert k) := by
        rw [Test.due_create hcreate, if_pos rfl]
      exact .inr (hinvoke (hidle I.main) hdue)
    | nil =>
      by_cases hleft : ∀ w, p.2.loop.worker w = .left
      · exact .inl ⟨hcreate, hleft⟩
      obtain ⟨w, hw⟩ := not_forall.mp hleft
      right
      by_cases hperform : ∃ work, p.2.loop.worker w = .perform work
      · obtain ⟨work, hwork⟩ := hperform
        have hmem := mem_of_perform (Test.reachable_loop (Reachable.client hp)) hwork
        have hop := htyped work (hinv.order ▸ List.mem_append_left _ hmem)
        obtain ⟨op, hop⟩ := Option.ne_none_iff_exists'.mp hop
        have hdue : p.2.due I w = some (I.call op work.value) := by
          rw [Test.due_perform hcreate hwork, hop]
          rfl
        exact hinvoke (hidle w) hdue
      · obtain ⟨s', hs'⟩ := Option.isSome_iff_exists.mp (Test.isSome_queue (I := I) hcreate
          (not_exists.mp hperform) (hinv.enabled hn hw))
        exact ⟨_, _, next_of_serves (.own hs')⟩
  · obtain ⟨t, ht⟩ := not_forall.mp hidle
    have hmem : ∀ u, phase u ≠ .idle → u ∈ threads I n := fun u hu =>
      mem_threads ((hcall u).due hu)
    right
    rcases h.goes_on _ (Reachable.server hp) hrel hmem ht with
      ⟨l, y, hy, hsilent | ⟨u, r, hret⟩⟩ | ⟨hasserts, u, k, hu, hk⟩
    · exact ⟨_, _, next_of_serves (.silent hy hsilent)⟩
    · obtain ⟨S', phase', hmoves, -⟩ := h.simulates.step hrel hy
      rw [hret] at hmoves
      obtain ⟨-, hdone⟩ := hmoves.respond_cases
      obtain ⟨_, _, _, hstep⟩ := hserved.result hdone
      have hne : phase u ≠ .idle := by simp [hdone]
      have hcalling : p.2.calling u = true := by
        by_contra hfalse
        exact hne ((hcall u).calling_iff.mp (Bool.not_eq_true _ ▸ hfalse))
      obtain ⟨s', hs'⟩ := Option.isSome_iff_exists.mp
        (Test.isSome_respond hcalling ((hcall u).due hne) (h.accepts hstep))
      exact ⟨_, _, next_of_serves (.event hy hret hs')⟩
    · exact absurd (honce hasserts) (h.not_once hcall hbooks hinv hu hk)

/-- At the end of a test no call is running, and the set is what the operations of the
    queue make in some order of the set of the keys of the create file. -/
theorem outcome (h : Testable L obs I O Rel Asserts) (hn : 0 < n)
    (hq : WorkQueue.fill works = some q)
    (hp : (L.serve obs (Test.system I create q n)).Reachable p) (hfin : p.2.Finished) :
    ∃ S phase, Rel p.1 S phase ∧ (∀ t, phase t = .idle) ∧
      ∃ log, log.Perm (works.flatMap Work.ops) ∧ S = setAfter create.toFinset log := by
  obtain ⟨S, phase, hrel, hserved⟩ := h.simulates.served hp
  obtain ⟨hcall, keys, log, hbooks⟩ := Test.accounted h.changes hserved
  have hinv := inv_of_reachable hq (Test.reachable_loop (Reachable.client hp))
  obtain ⟨hnil, hleft⟩ := hfin
  have hperform : ∀ w work, p.2.loop.worker w ≠ .perform work := fun w work hw => by
    cases (hleft w).symm.trans hw
  refine ⟨S, phase, hrel, fun t => ?_, log, ?_, ?_⟩
  · by_contra hne
    obtain ⟨w, -, work, hw⟩ := Test.exists_of_due hnil ((hcall t).due hne)
    exact hperform w work hw
  · have hlog := hbooks.logged
    simp only [Test.waiting_nil (hperform _)] at hlog
    rw [hinv.complete hn hleft] at hlog
    exact Multiset.coe_eq_coe.mp (by simpa using hlog)
  · have hkeys := hbooks.created
    rw [Test.missing_nil hnil, List.append_nil] at hkeys
    rw [hbooks.set, hkeys]

end Testable

-- ---------------------------------------------------------------------------
-- Both trees
-- ---------------------------------------------------------------------------

/-- A test of the fine-grained tree with `n` workers. -/
def testFG (create : List Int) (q : WorkQueue Work) (n : Nat) : Lts (FineGrained.State × Test n)
    ((FineGrained.Tid × Threads.Action FineGrained.Call FineGrained.Addr) ⊕ Fin n) :=
  FineGrained.system.serve Threads.Lang.observe (Test.system (callsFG n) create q n)

theorem testable_FG : Testable FineGrained.system Threads.Lang.observe (callsFG n)
    FineGrained.setObject FineGrained.Serves True where
  changes := changes_FG
  accepts := fun _ => rfl
  simulates := FineGrained.serves
  invoke := fun {x S phase t} c hrel ht => by
    obtain ⟨y, hy⟩ := hrel.invoke ht c
    exact ⟨_, y, hy, rfl⟩
  goes_on := fun T hx hrel hT ht => by
    rcases hrel.goes_on hx hT ht with hstep | ⟨u, k, hu, hk⟩
    · exact .inl hstep
    · exact .inr ⟨trivial, u, k, hu, hk⟩
  insert_inj := fun {op k k'} h => by
    cases op with
    | insert => exact ⟨rfl, by simpa [callsFG] using h⟩
    | search | delete => cases h
  ends := FineGrained.not_forever_silent

/-- No test of the fine-grained tree goes on for ever, and none gets stuck before its
    end, unless a key is inserted twice. -/
theorem test_ends_FG (hn : n ≤ 2 ^ 31) (hq : WorkQueue.fill works = some q)
    (htyped : ∀ work ∈ works, work.opType ≠ none)
    (honce : InsertsOnce create (works.flatMap Work.ops)) :
    IsEmpty (testFG create q n).Run ∧ ∀ p, (testFG create q n).Reachable p →
      p.2.Finished ∨ ∃ l p', (testFG create q n).next p l = some p' :=
  ⟨⟨testable_FG.not_run⟩, fun _ => testable_FG.not_stuck hn hq htyped fun _ => honce⟩

/-- 5 and 3 are created, and then 5 is deleted while 7 is inserted. -/
def worksOfTest : List Work := [⟨5, some .delete⟩, ⟨7, some .insert⟩]

def queueOfTest : WorkQueue Work := ⟨worksOfTest, 2⟩

theorem fill_worksOfTest : WorkQueue.fill worksOfTest = some queueOfTest := rfl

theorem test_ends_FG_two : IsEmpty (testFG [5, 3] queueOfTest 2).Run ∧
    ∀ p, (testFG [5, 3] queueOfTest 2).Reachable p →
      p.2.Finished ∨ ∃ l p', (testFG [5, 3] queueOfTest 2).next p l = some p' := by
  refine test_ends_FG (by decide) fill_worksOfTest (by decide) fun k => ?_
  by_cases hk : k = 7
  · subst hk
    decide
  · have hops : (worksOfTest.flatMap Work.ops).count (.insert, k) = 0 := by
      simp [worksOfTest, Work.ops, Ne.symm hk]
    have hkeys : [5, 3].count k ≤ 1 := List.nodup_iff_count_le_one.mp (by decide) k
    omega

/-- At the end of a test the fine-grained tree is a search tree with parent pointers in
    which nothing is locked, and it holds what the operations of the queue come to in
    some order. Every other node has been freed. -/
theorem test_outcome_FG {p : FineGrained.State × Test n} (hn : 0 < n)
    (hq : WorkQueue.fill works = some q) (hp : (testFG create q n).Reachable p)
    (hfin : p.2.Finished) : ∃ log tree, log.Perm (works.flatMap Work.ops) ∧
      (∀ t, p.1.thread t = .idle) ∧
      p.1.mem.Represents (setAfter create.toFinset log) tree := by
  obtain ⟨S, phase, ⟨⟨g, hg, rfl, rfl⟩, hthread⟩, hidle, log, hperm, hS⟩ :=
    testable_FG.outcome hn hq hp hfin
  have hthread : ∀ t, p.1.thread t = .idle := fun t => (hthread t).mpr (hidle t)
  obtain ⟨tree, htree⟩ := FineGrained.Explains.represents hg hthread
  exact ⟨log, tree, hperm, hthread, hS ▸ htree⟩

/-- Thread 1 waits for thread 0 to unlock the node from which the key 5 is removed. -/
def runOfTestFG : (testFG [5, 3] queueOfTest 2).Exec 69 :=
  .ofLabels (.inr 0) ((FineGrained.soloCall 2 (.insert 5) 5 1 ++
      FineGrained.soloCall 2 (.insert 3) 12 2).map .inl ++
    [.inr 0, .inr 1, .inr 0, .inr 1, .inl (0, .invoke (.remove 5)), .inl (1, .invoke (.insert 7))] ++
    (FineGrained.accesses 0 12 0 ++ FineGrained.accesses 1 3 3 ++ FineGrained.accesses 0 13 0).map .inl ++
    [.inl (0, .respond), .inr 0] ++ (FineGrained.accesses 1 10 3).map .inl ++
    [.inl (1, .respond), .inr 1]) (by decide +kernel)

theorem test_outcome_FG_two : ∃ log tree, log.Perm [(.delete, 5), (.insert, 7)] ∧
    (∀ t, (runOfTestFG.state 69).1.thread t = .idle) ∧
    (runOfTestFG.state 69).1.mem.Represents (setAfter [5, 3].toFinset log) tree :=
  test_outcome_FG (by decide) fill_worksOfTest (runOfTestFG.reachable (by decide))
    (finished_of_hasLeft (by decide +kernel) (by decide +kernel))

end Harness
