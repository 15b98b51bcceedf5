-- SUMMARY: The threads of a test: the main thread that builds the tree, and the workers that take operations from the queue.
import ConcurrentBST.Harness.Load
import ConcurrentBST.Library.Clients
import ConcurrentBST.LockFree.Program

/-!
# The threads of a test

`init_harness` inserts the keys of the create file one after the other, fills the
queue and starts the workers, whose loops are `perform_ops_FG` and
`perform_ops_LF`. To the tree all of them are clients: what is modelled here is
when they make which calls and what they do when these return.
-/

namespace Harness

open Lts

variable {C R : Type} {n : Nat}

-- ---------------------------------------------------------------------------
-- Calls
-- ---------------------------------------------------------------------------

/-- The calls that the harness makes on one of the trees. -/
structure TreeCalls (C R : Type) where
  call : OperationType → Int → C
  /-- No assertion of the harness fails when a call returns this. -/
  accepts : R → Bool
  /-- The number of the main thread. -/
  main : Nat

/-- The main thread calls `insert` with the thread number -1, which only the messages
    of the tree make use of. Here it has the number after those of the workers. -/
def callsFG (n : Nat) : TreeCalls FineGrained.Call FineGrained.Result where
  call
    | .insert, k => .insert k
    | .search, k => .search k
    | .delete, k => .remove k
  accepts := fun _ => true
  main := n

/-- What there is to do for an item of the queue. -/
def Work.ops (work : Work) : List (OperationType × Int) :=
  match work.opType with
  | some op => [(op, work.value)]
  | none => []

-- ---------------------------------------------------------------------------
-- The loop of a worker
-- ---------------------------------------------------------------------------

/-- The steps of a worker with the queue. -/
inductive Loops (s : State Work n) (w : Fin n) : State Work n → Prop where
  | test : s.worker w = .test → Loops s w
      { s with
        queue := { s.queue with currQSize := s.queue.currQSize - 1 }
        worker := Function.update s.worker w (if s.queue.currQSize > 0 then .get else .left) }
  | get {item rest} : s.worker w = .get → s.queue.storage = item :: rest → Loops s w
      { queue := { s.queue with storage := rest }
        worker := Function.update s.worker w (.perform item)
        handed := s.handed ++ [(w, item)] }
  | perform {item} : s.worker w = .perform item → Loops s w
      { s with worker := Function.update s.worker w .test }

theorem loops_of_next {s s' : State Work n} {w : Fin n} (h : s.next w = some s') : Loops s w s' := by
  unfold State.next at h
  split at h
  · next ht =>
    obtain ⟨⟨size, q⟩, hsize, rfl⟩ := Option.map_eq_some_iff.mp h
    unfold WorkQueue.getQueueSize at hsize
    split at hsize <;> cases hsize
    exact .test ht
  · next ht =>
    obtain ⟨⟨item, q⟩, hitem, rfl⟩ := Option.map_eq_some_iff.mp h
    unfold WorkQueue.getWork at hitem
    split at hitem <;> cases hitem
    next hstorage => exact .get ht hstorage
  · next item ht =>
    cases h
    exact .perform ht
  · cases h

/-- A worker does not move the others. -/
theorem Loops.worker {s s' : State Work n} {v w : Fin n} (h : Loops s w s') (hv : v ≠ w) :
    s'.worker v = s.worker v := by
  cases h with
  | test | get | perform => exact Function.update_of_ne hv ..

-- ---------------------------------------------------------------------------
-- The state of a test
-- ---------------------------------------------------------------------------

/-- The main thread and the workers. -/
structure Test (n : Nat) where
  /-- The keys of the create file that are not in the tree yet. -/
  create : List Int
  /-- The threads that wait for a call to return. -/
  calling : Nat → Bool
  loop : State Work n

namespace Test

variable (I : TreeCalls C R)

/-- The call that a thread has to make. The workers begin when the tree has been built.
    There is none for an item whose `op_type` was never set. -/
def due (s : Test n) (t : Nat) : Option C :=
  match s.create with
  | k :: _ => if t = I.main then some (I.call .insert k) else none
  | [] =>
      if ht : t < n then
        match s.loop.worker ⟨t, ht⟩ with
        | .perform work => work.opType.map fun op => I.call op work.value
        | _ => none
      else none

/-- The call of a thread has returned. -/
def returned (s : Test n) (t : Nat) : Option (Test n) :=
  match s.create with
  | _ :: rest =>
      if t = I.main then
        some { s with create := rest, calling := Function.update s.calling t false }
      else none
  | [] =>
      if ht : t < n then
        match s.loop.worker ⟨t, ht⟩ with
        | .perform _ => (s.loop.next ⟨t, ht⟩).map fun loop =>
            { s with loop := loop, calling := Function.update s.calling t false }
        | _ => none
      else none

section Due

variable {I} {s : Test n} {t : Nat} {w : Fin n} {work : Work}

/-- The worker that performs an item has a call to make. -/
theorem due_perform (hnil : s.create = []) (hw : s.loop.worker w = .perform work) :
    s.due I w = work.opType.map fun op => I.call op work.value := by
  simp only [due, hnil, w.isLt, dif_pos, Fin.eta, hw]

/-- Only the main thread has a call to make while the tree is built. -/
theorem due_create {k : Int} {rest : List Int} (hcons : s.create = k :: rest) :
    s.due I t = if t = I.main then some (I.call .insert k) else none := by
  simp only [due, hcons]

theorem exists_of_due (hnil : s.create = []) (hdue : (s.due I t).isSome) :
    ∃ w : Fin n, t = w ∧ ∃ work, s.loop.worker w = .perform work := by
  simp only [due, hnil] at hdue
  split at hdue
  · next hn =>
    split at hdue
    · next work hw => exact ⟨⟨t, hn⟩, rfl, work, hw⟩
    · cases hdue
  · cases hdue

end Due

variable [DecidableEq C]

/-- The threads call the tree, or a worker calls a method of the queue. -/
def next (s : Test n) : Fin n ⊕ Event Nat C R → Option (Test n)
  | .inl w =>
      match s.create, s.loop.worker w with
      | [], .perform _ => none
      | [], _ => (s.loop.next w).map fun loop => { s with loop := loop }
      | _ :: _, _ => none
  | .inr (.invoke t c) =>
      if s.calling t = false ∧ s.due I t = some c then
        some { s with calling := Function.update s.calling t true }
      else none
  | .inr (.respond t r) => if s.calling t && I.accepts r then s.returned I t else none

/-- The threads of `init_harness` for the keys of the create file and a queue. -/
def system (create : List Int) (q : WorkQueue Work) (n : Nat) :
    Lts (Test n) (Fin n ⊕ Event Nat C R) where
  init := ⟨create, fun _ => false, (Harness.system q n).init⟩
  next := fun s l => s.next I l

/-- The steps of the threads. -/
inductive Steps : Test n → Fin n ⊕ Event Nat C R → Test n → Prop where
  | queue {s : Test n} {w loop} : s.create = [] → (∀ work, s.loop.worker w ≠ .perform work) →
      s.loop.next w = some loop → Steps s (.inl w) { s with loop := loop }
  | invoke {s : Test n} {t c} : s.calling t = false → s.due I t = some c →
      Steps s (.inr (.invoke t c)) { s with calling := Function.update s.calling t true }
  | created {s : Test n} {k rest r} : s.create = k :: rest → s.calling I.main = true →
      I.accepts r = true → Steps s (.inr (.respond I.main r))
        { s with create := rest, calling := Function.update s.calling I.main false }
  | performed {s : Test n} {w : Fin n} {work r} : s.create = [] → s.loop.worker w = .perform work →
      s.calling w = true → I.accepts r = true → Steps s (.inr (.respond w r))
        { s with
          loop := { s.loop with worker := Function.update s.loop.worker w .test }
          calling := Function.update s.calling w false }

variable {I} {s s' : Test n} {l : Fin n ⊕ Event Nat C R} {create : List Int} {q : WorkQueue Work}
  {w : Fin n} {t : Nat} {work : Work}

theorem steps_of_next (h : (system I create q n).next s l = some s') : Steps I s l s' := by
  replace h : s.next I l = some s' := h
  rcases l with w | ⟨t, c⟩ | ⟨t, r⟩
  · simp only [next] at h
    split at h
    · cases h
    · next hnil hw =>
      obtain ⟨loop, hloop, rfl⟩ := Option.map_eq_some_iff.mp h
      exact .queue hnil (fun work hp => hw work hp) hloop
    · cases h
  · simp only [next] at h
    split at h
    · next hcond =>
      cases h
      exact .invoke hcond.1 hcond.2
    · cases h
  · simp only [next] at h
    split at h
    · next hcond =>
      obtain ⟨hcall, hacc⟩ := Bool.and_eq_true_iff.mp hcond
      unfold returned at h
      split at h
      · next hcons =>
        split at h
        · next ht =>
          cases h
          subst ht
          exact .created hcons hcall hacc
        · cases h
      · next hnil =>
        split at h
        · next ht =>
          split at h
          · next work hw =>
            obtain ⟨loop, hloop, rfl⟩ := Option.map_eq_some_iff.mp h
            simp only [State.next, hw, Option.some.injEq] at hloop
            subst hloop
            exact .performed (w := ⟨t, ht⟩) hnil hw hcall hacc
          · cases h
        · cases h
    · cases h

/-- A call that is due can be made. -/
theorem isSome_invoke {c : C} (ht : s.calling t = false) (hdue : s.due I t = some c) :
    (s.next I (.inr (.invoke t c))).isSome := by
  rw [next, if_pos ⟨ht, hdue⟩]
  rfl

/-- A call that was due can return, if no assertion fails. -/
theorem isSome_respond {r : R} (ht : s.calling t = true) (hdue : (s.due I t).isSome)
    (hr : I.accepts r = true) : (s.next I (.inr (.respond t r))).isSome := by
  rw [next, if_pos (Bool.and_eq_true_iff.mpr ⟨ht, hr⟩)]
  unfold due at hdue
  unfold returned
  split at hdue
  · split at hdue
    · next hmain =>
      rw [if_pos hmain]
      rfl
    · cases hdue
  · split at hdue
    · next hn =>
      rw [dif_pos hn]
      split at hdue
      · next hw =>
        simp only [hw, State.next]
        rfl
      · cases hdue
    · cases hdue

theorem isSome_queue (hnil : s.create = []) (hw : ∀ work, s.loop.worker w ≠ .perform work)
    (hloop : (s.loop.next w).isSome) : (s.next I (.inl w)).isSome := by
  simp only [next, hnil]
  exact (Option.isSome_map).trans hloop

-- ---------------------------------------------------------------------------
-- The queue
-- ---------------------------------------------------------------------------

/-- The workers do with the queue what they do alone. -/
theorem reachable_loop (h : (system I create q n).Reachable s) :
    (Harness.system q n).Reachable s.loop := by
  refine h.invariant (P := fun s => (Harness.system q n).Reachable s.loop) .init
    fun s l s' hs hnext => ?_
  cases steps_of_next hnext with
  | queue _ _ hloop => exact hs.step _ hloop
  | invoke | created => exact hs
  | @performed w _ _ _ hw =>
    refine hs.step w ?_
    simp only [Harness.system, State.next, hw]

-- ---------------------------------------------------------------------------
-- The end
-- ---------------------------------------------------------------------------

/-- What a worker still does with its item, and the test after that. An item that has
    not been taken is counted with the test by which it is reserved. -/
def weight (calling : Bool) : Worker Work → Nat
  | .test => 1
  | .get => 4
  | .perform _ => 3 - calling.toNat
  | .left => 0

def weights (calling : Nat → Bool) (worker : Fin n → Worker Work) : Nat :=
  ∑ v : Fin n, weight (calling v) (worker v)

/-- A bound on the steps the threads still take. -/
def remaining (I : TreeCalls C R) (s : Test n) : Nat :=
  (3 * s.create.length - (s.calling I.main).toNat) + 4 * s.loop.queue.currQSize.toNat +
    weights s.calling s.loop.worker

end Test

/-- Two sums that differ at one place. -/
theorem sum_add_of_ne {M : Type} [AddCommMonoid M] {f g : Fin n → M} {w : Fin n}
    (h : ∀ v, v ≠ w → f v = g v) : ∑ v, f v + g w = ∑ v, g v + f w := by
  rw [← Finset.add_sum_erase Finset.univ f (Finset.mem_univ w),
    ← Finset.add_sum_erase Finset.univ g (Finset.mem_univ w),
    Finset.sum_congr rfl fun v hv => h v (Finset.ne_of_mem_erase hv), add_right_comm,
    add_comm (f w) (g w), add_right_comm]

namespace Test

section Weights

variable {c : Nat → Bool} {f : Fin n → Worker Work} {w : Fin n} {a : Worker Work}

theorem weights_worker : weights c (Function.update f w a) + weight (c w) (f w) =
    weights c f + weight (c w) a := by
  have hsum := sum_add_of_ne (f := fun v => weight (c v) (Function.update f w a v))
    (g := fun v => weight (c v) (f v)) (w := w) fun v hv => by simp only [Function.update_of_ne hv]
  simp only [Function.update_self] at hsum
  exact hsum

theorem weights_caller {b : Bool} : weights (Function.update c w b) f + weight (c w) (f w) =
    weights c f + weight b (f w) := by
  have hsum := sum_add_of_ne (f := fun v : Fin n => weight (Function.update c w b v) (f v))
    (g := fun v => weight (c v) (f v)) (w := w)
    fun v hv => by simp only [Function.update_of_ne (Fin.val_ne_of_ne hv)]
  simp only [Function.update_self] at hsum
  exact hsum

/-- A thread that waits for its call weighs less, but only by one. -/
theorem weights_calling {t : Nat} {b : Bool} :
    weights (Function.update c t b) f ≤ weights c f + 1 ∧
      (b = true → weights (Function.update c t b) f ≤ weights c f) := by
  have hone : ∀ a b (v : Worker Work), weight a v ≤ weight b v + 1 := by
    rintro (_ | _) (_ | _) (_ | _ | _ | _) <;> simp [weight]
  have hless : ∀ a (v : Worker Work), weight true v ≤ weight a v := by
    rintro (_ | _) (_ | _ | _ | _) <;> simp [weight]
  by_cases ht : t < n
  · obtain ⟨w, rfl⟩ : ∃ w : Fin n, t = w := ⟨⟨t, ht⟩, rfl⟩
    have hsum := weights_caller (c := c) (f := f) (w := w) (b := b)
    refine ⟨?_, ?_⟩
    · have := hone b (c w) (f w)
      omega
    · rintro rfl
      have := hless (c w) (f w)
      omega
  · have hsame : weights (Function.update c t b) f = weights c f :=
      Finset.sum_congr rfl fun v _ => by
        rw [Function.update_of_ne fun heq : (v : Nat) = t => ht (heq ▸ v.isLt)]
    omega

end Weights

/-- Every step of the threads brings the end nearer. -/
theorem remaining_lt (h : Steps I s l s') : s'.remaining I < s.remaining I := by
  cases h with
  | @queue w loop hnil hw hloop =>
    cases loops_of_next hloop with
    | test ht =>
      have hsum := weights_worker (c := s.calling) (f := s.loop.worker) (w := w)
        (a := if s.loop.queue.currQSize > 0 then .get else .left)
      rw [ht] at hsum
      simp only [remaining]
      by_cases hpos : s.loop.queue.currQSize > 0
      · simp only [hpos, if_true, weight] at hsum ⊢
        omega
      · simp only [hpos, if_false, weight] at hsum ⊢
        omega
    | @get item rest ht =>
      have hsum := weights_worker (c := s.calling) (f := s.loop.worker) (w := w)
        (a := .perform item)
      rw [ht] at hsum
      simp only [remaining, weight] at hsum ⊢
      omega
    | perform ht => exact absurd ht (hw _)
  | @invoke t c ht hdue =>
    have hle := (weights_calling (c := s.calling) (f := s.loop.worker) (t := t) (b := true)).2 rfl
    cases hcreate : s.create with
    | nil =>
      obtain ⟨w, rfl, work, hw⟩ := exists_of_due hcreate (Option.isSome_of_eq_some hdue)
      have hsum := weights_caller (c := s.calling) (f := s.loop.worker) (w := w) (b := true)
      simp only [hw, ht, weight, Bool.toNat_true, Bool.toNat_false] at hsum
      simp only [remaining, hcreate, List.length_nil]
      omega
    | cons k rest =>
      rw [due_create hcreate] at hdue
      split at hdue
      · next hmain =>
        subst hmain
        simp only [remaining, hcreate, ht, Function.update_self, List.length_cons,
          Bool.toNat_true, Bool.toNat_false]
        omega
      · cases hdue
  | @created k rest r hcons ht hr =>
    have hsum := weights_calling (c := s.calling) (f := s.loop.worker) (t := I.main)
      (b := false)
    simp only [remaining, hcons, ht, Function.update_self, List.length_cons, Bool.toNat_true,
      Bool.toNat_false]
    omega
  | @performed w work r hnil hw ht hr =>
    have hsum := weights_worker (c := Function.update s.calling w false) (f := s.loop.worker)
      (w := w) (a := .test)
    have hle := (weights_calling (c := s.calling) (f := s.loop.worker) (t := w) (b := false)).1
    simp only [hw, Function.update_self, weight, Bool.toNat_false] at hsum
    simp only [remaining, hnil, List.length_nil]
    omega

end Test

end Harness
