-- SUMMARY: The fine-grained tree as its clients see it: when a call can go on, and that some call returns.
import ConcurrentBST.FineGrained.Progress
import ConcurrentBST.Library.Clients

/-!
# Clients of the fine-grained tree

A thread may wait for another one, but never all of them wait. A thread that is
stuck for good inserts a key that is there.
-/

open Filter

namespace FineGrained

open Threads

variable {s s' : State} {l : Tid × Action Call Addr} {t : Tid} {S : Set Int}
  {phase : Tid → Phase Call Result}

/-- A state of the system, the state of the set, and the threads that are in no call. -/
def Serves (s : State) (S : Set Int) (phase : Tid → Phase Call Result) : Prop :=
  (∃ g, Explains s g ∧ S = g.keys ∧ phase = g.phase) ∧ ∀ t, s.thread t = .idle ↔ phase t = .idle

theorem turns_of_next (h : system.next s l = some s') :
    Lts.Turns (fun t => s.thread t = .idle) (fun t => s'.thread t = .idle) (Lang.observe s l) := by
  obtain ⟨t, act⟩ := l
  cases act with
  | invoke c =>
    obtain ⟨ht, rfl⟩ := Lang.invoke_of_next h
    intro u
    by_cases hut : u = t <;> simp [hut]
  | access i =>
    obtain ⟨c, p, m, p', ht, _, rfl⟩ := Lang.access_of_next h
    intro u
    by_cases hut : u = t
    · subst hut
      simp [ht]
    · simp [hut]
  | respond =>
    obtain ⟨c, r, ht, rfl⟩ := Lang.respond_of_next h
    simp only [Lang.observe, ht]
    intro u
    by_cases hut : u = t <;> simp [hut]

theorem serves : system.Simulates Lang.observe setObject Serves :=
  sound.simulates.and_idle (fun _ => rfl) turns_of_next

theorem Serves.invoke (h : Serves s S phase) (ht : phase t = .idle) (call : Call) :
    ∃ s', system.next s (t, .invoke call) = some s' := by
  simp only [Lang.system, Lang.next, (h.2 t).mpr ht]
  exact ⟨_, rfl⟩

/-- Some call can go on, or a thread inserts a key that is there. -/
theorem Serves.goes_on (h : Serves s S phase) (hs : system.Reachable s) {T : Finset Tid}
    (hT : ∀ u, phase u ≠ .idle → u ∈ T) (ht : phase t ≠ .idle) :
    (∃ l s', system.next s l = some s' ∧
      (Lang.observe s l = none ∨ ∃ u r, Lang.observe s l = some (.respond u r))) ∨
      ∃ u k, phase u = .pending (.insert k) ∧ k ∈ S := by
  obtain ⟨⟨g, hg, rfl, rfl⟩, hidle⟩ := h
  obtain ⟨u, hu, (⟨i, hstep⟩ | hstep) | hfail⟩ := hg.exists_canStep (allocated_finite hs)
    (fun u hu => hT u ((hidle u).not.mp hu)) ((hidle t).not.mpr ht)
  · obtain ⟨s', hs'⟩ := Option.isSome_iff_exists.mp hstep
    exact .inl ⟨_, s', hs', .inl rfl⟩
  · obtain ⟨s', hs'⟩ := Option.isSome_iff_exists.mp hstep
    obtain ⟨c, r, hrun, -⟩ := Lang.respond_of_next hs'
    exact .inl ⟨_, s', hs', .inr ⟨u, r, by simp only [Lang.observe, hrun]⟩⟩
  · obtain ⟨k, hphase, hk⟩ := hg.ok_at hfail
    exact .inr ⟨u, k, hphase, hk⟩

/-- Finitely many threads do not work for ever without a call that begins or returns. -/
theorem not_forever_silent (T : Finset Tid) (r : system.Run)
    (hT : r.Shows Lang.observe fun ev => ev.thread ∈ (T : Set Tid)) :
    ¬ ∀ᶠ i in atTop, Lang.observe (r.state i) (r.label i) = none := by
  intro hsilent
  have hmem : ∀ i, (r.label i).1 ∈ (T : Set Tid) := by
    refine hT.mem (D := fun s t => s.thread t = .idle) (fun _ => rfl)
      (fun hnext hne ht => by rw [Lang.next_thread hnext (Ne.symm hne), ht])
      fun {s l s'} hnext hidle => ?_
    obtain ⟨t, act⟩ := l
    cases act with
    | invoke c => exact ⟨_, rfl, rfl⟩
    | access i =>
      obtain ⟨c, p, m, p', hrun, _⟩ := Lang.access_of_next hnext
      cases hidle.symm.trans hrun
    | respond =>
      obtain ⟨c, res, hrun, -⟩ := Lang.respond_of_next hnext
      cases hidle.symm.trans hrun
  obtain ⟨n, hn⟩ := eventually_atTop.mp hsilent
  obtain ⟨i, hi, t, hl⟩ := ranking_sound.returns sound r T hmem n
  have hnext := r.step i
  have hobs := hn i hi
  rw [hl] at hnext hobs
  obtain ⟨c, res, hrun, -⟩ := Lang.respond_of_next hnext
  simp only [Lang.observe, hrun] at hobs
  cases hobs

/-- When no call is running, the memory is a search tree for what some order of all the
    calls makes of the empty set. -/
theorem quiescent_tree {n i : Nat} (e : system.Exec n) (hi : i ≤ n)
    (hidle : ∀ t, (e.state i).thread t = .idle) : ∃ order S tree,
      Linearization setObject (e.history Lang.observe i) order ∧
        setObject.Runs setObject.init (order.map Prod.snd) S ∧ (e.state i).mem.Represents S tree := by
  obtain ⟨order, S, phase, hlin, hruns, ⟨g, hg, rfl, -⟩, -⟩ := serves.exists_order e hi
  obtain ⟨tree, htree⟩ := hg.represents hidle
  exact ⟨order, _, tree, hlin, hruns, htree⟩

theorem quiescent_tree_removal : ∃ order S tree,
    Linearization setObject (runOfRemoval.history Lang.observe 102) order ∧
      setObject.Runs setObject.init (order.map Prod.snd) S ∧
        (runOfRemoval.state 102).mem.Represents S tree := by
  refine quiescent_tree runOfRemoval le_rfl fun t => ?_
  by_cases ht : t = 0 ∨ t = 1
  · rcases ht with rfl | rfl <;> rfl
  · have hlabel : ∀ j < 102, (runOfRemoval.label j).1 = 0 ∨ (runOfRemoval.label j).1 = 1 := by
      decide +kernel
    exact Lang.idle_of_labels runOfRemoval le_rfl fun j hj heq => ht (heq ▸ hlabel j hj)

end FineGrained
