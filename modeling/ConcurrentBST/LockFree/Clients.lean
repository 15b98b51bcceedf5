-- SUMMARY: The lock-free tree as its clients see it: which calls can go on, and that some call returns.
import ConcurrentBST.Library.Clients
import ConcurrentBST.LockFree.Linearization
import ConcurrentBST.LockFree.Progress
import ConcurrentBST.LockFree.Quiescence
import ConcurrentBST.LockFree.SoloCalls

/-!
# Clients of the lock-free tree

No thread ever waits for another one: until its call returns a thread can always
take a step. And as long as no new threads keep turning up, the tree does not work
for ever without a call that begins or returns.
-/

open Filter

namespace LockFree

variable {cfg : Config} {s s' : State} {l : Tid × Action} {m : Mem} {t : Tid} {call : Call} {pc : PC}
  {fresh : Addr} {S : Set Int} {phase : Tid → Phase Call Result}

/-- A state of the system, the state of the set, and the threads that are in no call. -/
def Serves (s : State) (S : Set Int) (phase : Tid → Phase Call Result) : Prop :=
  Represents .plain s S phase ∧ ∀ t, s.thread t = .idle ↔ phase t = .idle

theorem turns_of_next (h : (system cfg).next s l = some s') :
    Lts.Turns (fun t => s.thread t = .idle) (fun t => s'.thread t = .idle) (observe s l) := by
  cases steps_of_next h with
  | @invoke t =>
    intro u
    by_cases hut : u = t <;> simp [hut]
  | @access t call pc pc' m' fresh ht =>
    intro u
    by_cases hut : u = t
    · subst hut
      simp [ht]
    · simp [hut]
  | @respond t call r ht =>
    simp only [observe, ht]
    intro u
    by_cases hut : u = t <;> simp [hut]

theorem serves : (system .plain).Simulates observe setObject Serves :=
  (simulates rfl rfl).and_idle (fun _ => rfl) turns_of_next

theorem Serves.invoke (h : Serves s S phase) (ht : phase t = .idle) (call : Call) :
    ∃ s', (system .plain).next s (t, .invoke call) = some s' := by
  simp only [system, State.next, (h.2 t).mpr ht]
  exact ⟨_, rfl⟩

/-- A program point can be executed if the allocator has an address for it. -/
theorem isSome_exec (hpc : ∀ r, pc ≠ .ret r) (ha : m.allocatable cfg fresh = true) :
    (exec cfg t call fresh m pc).isSome := by
  cases pc with
  | ret r => exact absurd rfl (hpc r)
  | _ =>
    simp only [exec, ha, if_true]
    repeat' split
    all_goals rfl

/-- A thread in a call can take a step, whatever the others do. -/
theorem Serves.goes_on (h : Serves s S phase) (hs : (system .plain).Reachable s)
    (ht : phase t ≠ .idle) : ∃ l s', (system .plain).next s l = some s' ∧
      (observe s l = none ∨ ∃ r, observe s l = some (.respond t r)) := by
  cases hrun : s.thread t with
  | idle => exact absurd ((h.2 t).mp hrun) ht
  | running call pc =>
    by_cases hret : ∃ r, pc = .ret r
    · obtain ⟨r, rfl⟩ := hret
      refine ⟨(t, .respond), ⟨s.mem, Function.update s.thread t .idle⟩, ?_, .inr ⟨r, ?_⟩⟩
      · simp only [system, State.next, hrun]
      · simp only [observe, hrun]
    · obtain ⟨-, hfin⟩ := finite_of_reachable rfl rfl hs
      obtain ⟨fresh, ha⟩ : ∃ a, s.mem.allocatable .plain a = true := exists_allocatable hfin
      have hsome : (exec .plain t call fresh s.mem pc).isSome := isSome_exec (not_exists.mp hret) ha
      obtain ⟨⟨m, pc'⟩, he⟩ := Option.isSome_iff_exists.mp hsome
      refine ⟨(t, .access fresh), ⟨m, Function.update s.thread t (.running call pc')⟩, ?_, .inl rfl⟩
      simp only [system, State.next, hrun, he, Option.map_some]

/-- Finitely many threads do not work for ever without a call that begins or returns. -/
theorem not_forever_silent (T : Finset Tid) (r : (system .plain).Run)
    (hT : r.Shows observe fun ev => ev.thread ∈ (T : Set Tid)) :
    ¬ ∀ᶠ i in atTop, observe (r.state i) (r.label i) = none := by
  intro hsilent
  obtain ⟨H⟩ := exists_endless r
  refine H.not_quiet (T := T) (hT.mem (f := Prod.fst) (D := fun s t => s.thread t = .idle)
    (fun _ => rfl) (fun hnext hne ht => ?_) fun {s l s'} hnext hidle => ?_) ?_
  · rw [thread_of_next hnext hne]
    exact ht
  · cases steps_of_next hnext with
    | invoke => exact ⟨_, rfl, rfl⟩
    | access ht => cases hidle.symm.trans ht
    | respond ht => cases hidle.symm.trans ht
  · filter_upwards [hsilent] with i hi t hl
    have hstep := steps_of_next (r.step i)
    rw [hl] at hstep hi
    generalize r.state (i + 1) = s' at hstep
    cases hstep with
    | respond ht =>
      simp only [observe, ht] at hi
      cases hi

/-- When no call is running, the set consists of the keys of the nodes without a mark. -/
theorem Serves.keys (h : Serves s S phase) (hs : (system .plain).Reachable s)
    (hidle : ∀ t, phase t = .idle) :
    (∀ x, (s.mem.op x).flag = .none ∨ (s.mem.op x).flag = .mark) ∧
      ∀ k, k ∈ S ↔ ∃ x, s.mem.reaches x ∧ x ≠ baseRoot ∧ ¬ s.mem.marked x ∧ s.mem.key x = k := by
  obtain ⟨⟨g, hg, rfl, -⟩, hthread⟩ := h
  obtain ⟨n, e, rfl⟩ := Lts.Exec.exists_of_reachable (0, .respond) hs
  obtain ⟨H⟩ := exists_history rfl e fun _ _ => careful_of_fresh rfl
  have hflag : ∀ x, ((e.state n).mem.op x).flag = .none ∨ ((e.state n).mem.op x).flag = .mark :=
    fun x => H.flag_of_idle le_rfl fun t => (hthread t).mpr (hidle t)
  have hpresent : ∀ x, present (e.state n).mem g x ↔ ¬ (e.state n).mem.marked x := by
    intro x
    refine ⟨fun hp hm => not_present_of_marked hm hp, fun hm => present_of_flag (.inl ?_)⟩
    exact (hflag x).resolve_right hm
  refine ⟨hflag, fun k => exists_congr fun x => ?_⟩
  rw [hg.mem.reaches_iff, hpresent]

/-- When no call is running, the keys of the nodes without a mark are what some order of
    all the calls makes of the empty set. -/
theorem quiescent_keys {n i : Nat} (e : (system .plain).Exec n) (hi : i ≤ n)
    (hidle : ∀ t, (e.state i).thread t = .idle) : ∃ order S,
      Linearization setObject (e.history observe i) order ∧
        setObject.Runs setObject.init (order.map Prod.snd) S ∧
          ∀ k, k ∈ S ↔ ∃ x, (e.state i).mem.reaches x ∧ x ≠ baseRoot ∧ ¬ (e.state i).mem.marked x ∧
            (e.state i).mem.key x = k := by
  obtain ⟨order, S, phase, hlin, hruns, hserves⟩ := serves.exists_order e hi
  exact ⟨order, S, hlin, hruns,
    (hserves.keys (e.reachable hi) fun t => (hserves.2 t).mp (hidle t)).2⟩

theorem quiescent_keys_relocation : ∃ order S,
    Linearization setObject (runOfRelocation.history observe 80) order ∧
      setObject.Runs setObject.init (order.map Prod.snd) S ∧
        ∀ k, k ∈ S ↔ ∃ x, (runOfRelocation.state 80).mem.reaches x ∧ x ≠ baseRoot ∧
          ¬ (runOfRelocation.state 80).mem.marked x ∧ (runOfRelocation.state 80).mem.key x = k := by
  refine quiescent_keys runOfRelocation (by decide) fun t => ?_
  by_cases ht : t = 0
  · rw [ht]
    decide +kernel
  · have hlabel : ∀ j < 80, (runOfRelocation.label j).1 = 0 := by decide +kernel
    exact idle_of_labels runOfRelocation (by decide) fun j hj heq => ht (heq ▸ hlabel j hj)

end LockFree
