-- SUMMARY: The work queue hands out every item exactly once and in order.
import ConcurrentBST.Library.Transition
import Mathlib.Algebra.BigOperators.Fin
import Mathlib.Algebra.Order.BigOperators.Group.Finset

/-!
# The work queue

`work_queue.h` and the loop in which the threads of the harness take items from
it. Each call of a method of the queue is one step, since its mutex is held
from the first to the last line. The size test and the removal are two calls:
the counter is decremented by the test, so that it counts the items that no
worker has reserved yet, and below zero it counts the workers that have left.
-/

namespace Harness

universe u

variable {T : Type u} {n : Nat}

def intMax : Int := 2 ^ 31 - 1
def intMin : Int := -2 ^ 31

-- ---------------------------------------------------------------------------
-- The queue
-- ---------------------------------------------------------------------------

/-- `WorkQueue`. -/
structure WorkQueue (T : Type u) where
  storage : List T
  currQSize : Int

namespace WorkQueue

def new : WorkQueue T := ⟨[], 0⟩

/-- There is no next state when the increment overflows. -/
def putWork (q : WorkQueue T) (item : T) : Option (WorkQueue T) :=
  if q.currQSize < intMax then some ⟨q.storage ++ [item], q.currQSize + 1⟩ else none

/-- There is no next state when the decrement overflows. -/
def getQueueSize (q : WorkQueue T) : Option (Int × WorkQueue T) :=
  if intMin < q.currQSize then some (q.currQSize, { q with currQSize := q.currQSize - 1 }) else none

/-- There is no next state when `storage` is empty. -/
def getWork (q : WorkQueue T) : Option (T × WorkQueue T) :=
  match q.storage with
  | [] => none
  | item :: rest => some (item, { q with storage := rest })

/-- The queue after the trace has been read. -/
def fill (items : List T) : Option (WorkQueue T) :=
  items.foldlM putWork new

theorem foldlM_putWork (items : List T) (q : WorkQueue T)
    (h : q.currQSize + items.length ≤ intMax) :
    items.foldlM putWork q = some ⟨q.storage ++ items, q.currQSize + items.length⟩ := by
  induction items generalizing q with
  | nil => simp
  | cons item items ih =>
    simp only [List.length_cons, Nat.cast_add, Nat.cast_one] at h ⊢
    have hlt : q.currQSize < intMax := by omega
    rw [List.foldlM_cons, putWork, if_pos hlt, Option.bind_eq_bind, Option.bind_some, ih]
    · simp [add_comm, add_left_comm]
    · simp only
      omega

theorem fill_eq {items : List T} (h : items.length ≤ intMax) :
    fill items = some ⟨items, items.length⟩ := by
  rw [fill, foldlM_putWork] <;> simp [new, h]

end WorkQueue

-- ---------------------------------------------------------------------------
-- The workers
-- ---------------------------------------------------------------------------

/-- Where a thread is in the loop of `perform_ops_FG` or `perform_ops_LF`. -/
inductive Worker (T : Type u) where
  /-- `wq->get_queue_size() > 0`. -/
  | test
  /-- `work = wq->get_work()`. -/
  | get
  /-- The operation on the tree. -/
  | perform (item : T)
  /-- The loop has ended. -/
  | left

/-- The queue, the workers, and which worker has got which item so far. -/
structure State (T : Type u) (n : Nat) where
  queue : WorkQueue T
  worker : Fin n → Worker T
  handed : List (Fin n × T)

def State.next (s : State T n) (w : Fin n) : Option (State T n) :=
  match s.worker w with
  | .test => s.queue.getQueueSize.map fun (size, q) => { s with
      queue := q
      worker := Function.update s.worker w (if size > 0 then .get else .left) }
  | .get => s.queue.getWork.map fun (item, q) =>
      { queue := q
        worker := Function.update s.worker w (.perform item)
        handed := s.handed ++ [(w, item)] }
  | .perform _ => some { s with worker := Function.update s.worker w .test }
  | .left => none

/-- `n` workers on a queue. -/
def system (q : WorkQueue T) (n : Nat) : Lts (State T n) (Fin n) where
  init := ⟨q, fun _ => .test, []⟩
  next := State.next

/-- What holds in every state while `n` workers hand out `items`. -/
structure HandsOut (items : List T) (s : State T n) : Prop where
  /-- `get_work` is never called on an empty vector. -/
  nonempty : ∀ w, s.worker w = .get → s.queue.storage ≠ []
  /-- The items leave the queue in order, each once. -/
  order : s.handed.map Prod.snd ++ s.queue.storage = items
  complete : 0 < n → (∀ w, s.worker w = .left) → s.handed.map Prod.snd = items
  /-- Every worker in the loop can go on, as long as the counter does not overflow. -/
  enabled : n ≤ 2 ^ 31 → ∀ w, s.worker w ≠ .left → (s.next w).isSome

-- ---------------------------------------------------------------------------
-- Counting
-- ---------------------------------------------------------------------------

/-- How many workers satisfy `p`. -/
def State.tally (s : State T n) (p : Worker T → Bool) : Nat :=
  ∑ w, (p (s.worker w)).toNat

/-- The worker has reserved an item. -/
def Worker.reserves : Worker T → Bool
  | .get => true
  | _ => false

def Worker.hasLeft : Worker T → Bool
  | .left => true
  | _ => false

variable {s s' : State T n} {w : Fin n} {p : Worker T → Bool} {a : Worker T}

/-- One worker moves. -/
theorem tally_update (h : s'.worker = Function.update s.worker w a) :
    s'.tally p + (p (s.worker w)).toNat = s.tally p + (p a).toNat := by
  have hfun : (fun v => (p (s'.worker v)).toNat) =
      Function.update (fun v => (p (s.worker v)).toNat) w (p a).toNat := by
    rw [h]
    funext v
    by_cases hvw : v = w
    · subst hvw
      simp
    · simp [hvw]
  have hsplit := Finset.add_sum_erase Finset.univ (fun v => (p (s.worker v)).toNat)
    (Finset.mem_univ w)
  unfold State.tally
  rw [hfun, Finset.sum_update_of_mem (Finset.mem_univ w), ← hsplit, Finset.sdiff_singleton_eq_erase]
  omega

theorem tally_pos (h : p (s.worker w) = true) : 0 < s.tally p := by
  have hle := Finset.single_le_sum (f := fun v => (p (s.worker v)).toNat)
    (fun _ _ => Nat.zero_le _) (Finset.mem_univ w)
  simp only [h, Bool.toNat_true] at hle
  exact hle

theorem tally_le : s.tally p ≤ n := by
  have hle := Finset.sum_le_card_nsmul Finset.univ (fun v => (p (s.worker v)).toNat) 1
    fun v _ => Bool.toNat_le _
  simpa [State.tally] using hle

-- ---------------------------------------------------------------------------
-- The invariant
-- ---------------------------------------------------------------------------

/-- The counter is the number of items nobody has reserved, or counts below zero
    the workers that have found none. -/
structure Inv (items : List T) (s : State T n) : Prop where
  order : s.handed.map Prod.snd ++ s.queue.storage = items
  counter : 0 ≤ s.queue.currQSize ∧ s.tally Worker.hasLeft = 0 ∧
      (s.queue.storage.length : Int) = s.queue.currQSize + s.tally Worker.reserves ∨
    s.queue.currQSize = -s.tally Worker.hasLeft ∧ 0 < s.tally Worker.hasLeft ∧
      s.queue.storage.length = s.tally Worker.reserves

theorem Inv.init (items : List T) : Inv items (system ⟨items, items.length⟩ n).init where
  order := rfl
  counter := .inl (by simp [system, State.tally, Worker.reserves, Worker.hasLeft])

/-- The test reserves an item or finds that there is none left to reserve. -/
theorem Inv.test {items : List T} (h : Inv items s) (ht : s.worker w = .test)
    (hqueue : s'.queue = { s.queue with currQSize := s.queue.currQSize - 1 })
    (hworker : s'.worker =
      Function.update s.worker w (if s.queue.currQSize > 0 then .get else .left))
    (hhanded : s'.handed = s.handed) : Inv items s' where
  order := by
    rw [hhanded, hqueue]
    exact h.order
  counter := by
    have hcounter := h.counter
    have hres := tally_update (p := Worker.reserves) hworker
    have hleft := tally_update (p := Worker.hasLeft) hworker
    rw [ht] at hres hleft
    rw [hqueue]
    by_cases hpos : s.queue.currQSize > 0
    · simp only [hpos, if_true, Worker.reserves, Worker.hasLeft, Bool.toNat_true,
        Bool.toNat_false] at hres hleft ⊢
      omega
    · simp only [hpos, if_false, Worker.reserves, Worker.hasLeft, Bool.toNat_true,
        Bool.toNat_false] at hres hleft ⊢
      omega

/-- The removal takes the item that has been reserved. -/
theorem Inv.get {items rest : List T} {item : T} (h : Inv items s) (ht : s.worker w = .get)
    (hstorage : s.queue.storage = item :: rest) (hqueue : s'.queue = { s.queue with storage := rest })
    (hworker : s'.worker = Function.update s.worker w (.perform item))
    (hhanded : s'.handed = s.handed ++ [(w, item)]) : Inv items s' where
  order := by
    rw [hhanded, hqueue, ← h.order, hstorage]
    simp
  counter := by
    have hcounter := h.counter
    have hres := tally_update (p := Worker.reserves) hworker
    have hleft := tally_update (p := Worker.hasLeft) hworker
    rw [ht] at hres hleft
    rw [hstorage] at hcounter
    rw [hqueue]
    simp only [Worker.reserves, Worker.hasLeft, Bool.toNat_true, Bool.toNat_false,
      List.length_cons] at hres hleft hcounter ⊢
    omega

theorem Inv.perform {items : List T} {item : T} (h : Inv items s) (ht : s.worker w = .perform item)
    (hqueue : s'.queue = s.queue) (hworker : s'.worker = Function.update s.worker w .test)
    (hhanded : s'.handed = s.handed) : Inv items s' where
  order := by
    rw [hhanded, hqueue]
    exact h.order
  counter := by
    have hres := tally_update (p := Worker.reserves) hworker
    have hleft := tally_update (p := Worker.hasLeft) hworker
    rw [ht] at hres hleft
    simp only [Worker.reserves, Worker.hasLeft, Bool.toNat_false, Nat.add_zero] at hres hleft
    rw [hqueue, hres, hleft]
    exact h.counter

theorem Inv.step {items : List T} (h : Inv items s) (hnext : s.next w = some s') :
    Inv items s' := by
  unfold State.next at hnext
  split at hnext
  · next ht =>
    obtain ⟨⟨size, q⟩, hsize, rfl⟩ := Option.map_eq_some_iff.mp hnext
    unfold WorkQueue.getQueueSize at hsize
    split at hsize <;> cases hsize
    exact h.test ht rfl rfl rfl
  · next ht =>
    obtain ⟨⟨item, q⟩, hitem, rfl⟩ := Option.map_eq_some_iff.mp hnext
    unfold WorkQueue.getWork at hitem
    split at hitem <;> cases hitem
    next hstorage => exact h.get ht hstorage rfl rfl rfl
  · next item ht =>
    cases hnext
    exact h.perform ht rfl rfl rfl
  · cases hnext

-- ---------------------------------------------------------------------------
-- Runs
-- ---------------------------------------------------------------------------

theorem Inv.nonempty {items : List T} (h : Inv items s) (hw : s.worker w = .get) :
    s.queue.storage ≠ [] := by
  have hres : 0 < s.tally Worker.reserves := tally_pos (w := w) (by rw [hw]; rfl)
  have hcounter := h.counter
  intro hnil
  rw [hnil, List.length_nil] at hcounter
  omega

/-- While a worker is in the loop, fewer than `n` have left. -/
theorem tally_hasLeft_lt (hw : s.worker w ≠ .left) : s.tally Worker.hasLeft < n := by
  let s' : State T n := { s with worker := Function.update s.worker w .left }
  have hworker : s'.worker = Function.update s.worker w .left := rfl
  have hupd := tally_update (p := Worker.hasLeft) hworker
  have hle := tally_le (s := s') (p := Worker.hasLeft)
  have hnot : Worker.hasLeft (s.worker w) = false := by
    cases hv : s.worker w with
    | left => contradiction
    | _ => rfl
  rw [hnot] at hupd
  simp only [Worker.hasLeft, Bool.toNat_false, Bool.toNat_true] at hupd
  omega

theorem Inv.complete {items : List T} (h : Inv items s) (hn : 0 < n)
    (hall : ∀ w, s.worker w = .left) : s.handed.map Prod.snd = items := by
  have hleft : 0 < s.tally Worker.hasLeft := tally_pos (w := ⟨0, hn⟩) (by rw [hall]; rfl)
  have hres : s.tally Worker.reserves = 0 := by simp [State.tally, hall, Worker.reserves]
  have hnil : s.queue.storage = [] := by
    have hcounter := h.counter
    apply List.length_eq_zero_iff.mp
    omega
  have horder := h.order
  rw [hnil, List.append_nil] at horder
  exact horder

theorem Inv.enabled {items : List T} (h : Inv items s) (hn : n ≤ 2 ^ 31)
    (hw : s.worker w ≠ .left) : (s.next w).isSome := by
  unfold State.next
  split
  · have hlt := tally_hasLeft_lt hw
    have hcounter := h.counter
    have hlow : intMin < s.queue.currQSize := by
      unfold intMin
      omega
    rw [WorkQueue.getQueueSize, if_pos hlow]
    rfl
  · next ht =>
    have hne := h.nonempty ht
    unfold WorkQueue.getWork
    split
    · contradiction
    · rfl
  · rfl
  · contradiction

theorem Inv.handsOut {items : List T} (h : Inv items s) : HandsOut items s :=
  ⟨fun _ => h.nonempty, h.order, h.complete, fun hn _ => h.enabled hn⟩

/-- Whatever the interleaving, the queue hands out all items, in order and each once. -/
theorem hands_out {items : List T} (hitems : items.length ≤ intMax) : ∃ q,
    WorkQueue.fill items = some q ∧ ∀ s : State T n, (system q n).Reachable s → HandsOut items s := by
  refine ⟨_, WorkQueue.fill_eq hitems, fun s hs => ?_⟩
  exact (hs.invariant (P := Inv items) (.init items) fun _ _ _ h hnext => h.step hnext).handsOut

theorem hands_out_two : ∃ q, WorkQueue.fill [5, 3] = some q ∧
    ∀ s : State Nat 2, (system q 2).Reachable s → HandsOut [5, 3] s :=
  hands_out (by decide)

end Harness
