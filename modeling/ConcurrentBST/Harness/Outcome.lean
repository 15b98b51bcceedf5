-- SUMMARY: What a test comes to when the calls of its threads take effect one at a time.
import ConcurrentBST.Harness.Threads
import ConcurrentBST.LockFree.Effects

/-!
# What a test comes to

The calls of the threads are served by an atomic set. Each key of the create file
and each item of the queue is then accounted for: it has taken effect, or somebody
still has to see to it.
-/

namespace Harness

variable {C R : Type} {n : Nat} {S S' : Set Int} {k : Int} {ops : List (OperationType × Int)}

-- ---------------------------------------------------------------------------
-- The operations
-- ---------------------------------------------------------------------------

/-- What an operation does to the keys. -/
def OperationType.change : OperationType → Int → Set Int → Set Int
  | .insert, k, S => Insert.insert k S
  | .search, _, S => S
  | .delete, k, S => S \ {k}

/-- The calls of the harness do to the object what the operations do to the keys. -/
structure TreeCalls.Changes (I : TreeCalls C R) (O : Object (Set Int) C R) : Prop where
  init : O.init = ∅
  step : ∀ {S op k r S'}, O.step S (I.call op k) r S' → S' = op.change k S

theorem changes_FG : (callsFG n).Changes FineGrained.setObject where
  init := rfl
  step := by
    intro S op k r S' h
    cases op with
    | insert | search => cases h <;> rfl
    | delete =>
      cases h with
      | removed => rfl
      | empty => exact (Set.empty_sdiff _).symm

theorem setAfter_append {A : Finset Int} {ops' : List (OperationType × Int)} :
    setAfter A (ops ++ ops') = setAfter (setAfter A ops) ops' := by
  induction ops generalizing A with
  | nil => rfl
  | cons op ops ih =>
    obtain ⟨type, k⟩ := op
    cases type <;> exact ih

theorem coe_setAfter {A : Finset Int} {op : OperationType} :
    (setAfter A [(op, k)] : Set Int) = op.change k A := by
  cases op with
  | insert => exact Finset.coe_insert k A
  | search => rfl
  | delete => exact Finset.coe_erase k A

-- ---------------------------------------------------------------------------
-- The threads and their calls
-- ---------------------------------------------------------------------------

namespace Test

variable {I : TreeCalls C R} {O : Object (Set Int) C R} {phase : Nat → Phase C R} {s s' : Test n}
  {l : Fin n ⊕ Event Nat C R} {create keys : List Int} {log : List (OperationType × Int)}
  {q : WorkQueue Work} {w : Fin n} {t : Nat} {c : C} {r : R} {work : Work}

/-- Where a thread is in its call. -/
inductive InCall (I : TreeCalls C R) (s : Test n) (t : Nat) : Phase C R → Prop where
  | idle : s.calling t = false → InCall I s t .idle
  | pending {c : C} : s.calling t = true → s.due I t = some c → InCall I s t (.pending c)
  | done {c : C} {r : R} : s.calling t = true → s.due I t = some c → InCall I s t (.done r)

theorem InCall.calling_iff (h : InCall I s t (phase t)) : s.calling t = false ↔ phase t = .idle := by
  generalize phase t = ph at h
  cases h <;> simp_all

theorem InCall.due (h : InCall I s t (phase t)) (hne : phase t ≠ .idle) : (s.due I t).isSome := by
  generalize phase t = ph at h hne
  cases h with
  | idle => exact absurd rfl hne
  | pending _ hdue | done _ hdue => exact Option.isSome_of_eq_some hdue

theorem InCall.due_pending (h : InCall I s t (phase t)) (ht : phase t = .pending c) :
    s.due I t = some c := by
  rw [ht] at h
  cases h with
  | pending _ hdue => exact hdue

theorem InCall.congr {ph : Phase C R} (h : InCall I s t ph) (hcall : s'.calling t = s.calling t)
    (hdue : ph ≠ .idle → s'.due I t = s.due I t) : InCall I s' t ph := by
  cases h with
  | idle hc => exact .idle (hcall.trans hc)
  | pending hc hd => exact .pending (hcall.trans hc) ((hdue (by simp)).trans hd)
  | done hc hd => exact .done (hcall.trans hc) ((hdue (by simp)).trans hd)

/-- A worker that calls the queue is in no call of the tree. -/
theorem InCall.idle_worker (h : InCall I s w (phase w)) (hnil : s.create = [])
    (hw : ∀ work, s.loop.worker w ≠ .perform work) : phase w = .idle := by
  by_contra hne
  obtain ⟨v, hv, work, hwork⟩ := exists_of_due hnil (h.due hne)
  rw [← Fin.ext hv] at hwork
  exact hw work hwork

/-- So are the workers while the tree is built. -/
theorem InCall.idle_create {rest : List Int} (h : InCall I s t (phase t))
    (hcons : s.create = k :: rest) (ht : t ≠ I.main) : phase t = .idle := by
  by_contra hne
  have hdue := h.due hne
  rw [due_create hcons, if_neg ht] at hdue
  cases hdue

/-- What the other workers do does not matter to a call. -/
theorem due_congr (hcreate : s'.create = s.create)
    (hworker : ∀ v : Fin n, t = v → s'.loop.worker v = s.loop.worker v) :
    s'.due I t = s.due I t := by
  unfold due
  rw [hcreate]
  split
  · rfl
  · split
    · next ht => rw [hworker ⟨t, ht⟩ rfl]
    · rfl

theorem InCall.queue {loop : State Work n} (h : ∀ t, InCall I s t (phase t)) (hnil : s.create = [])
    (hw : ∀ work, s.loop.worker w ≠ .perform work)
    (hloop : ∀ v, v ≠ w → loop.worker v = s.loop.worker v) :
    ∀ t, InCall I { s with loop := loop } t (phase t) := by
  intro t
  refine (h t).congr rfl fun hne => due_congr rfl fun v htv => hloop v ?_
  rintro rfl
  exact hne (htv ▸ (htv ▸ h t).idle_worker hnil hw)

theorem InCall.invoke (h : ∀ t, InCall I s t (phase t)) (hdue : s.due I t = some c) :
    ∀ u, InCall I { s with calling := Function.update s.calling t true } u
      (Function.update phase t (.pending c) u) := by
  intro u
  by_cases hu : u = t
  · subst hu
    rw [Function.update_self]
    exact .pending (Function.update_self ..) hdue
  · rw [Function.update_of_ne hu]
    exact (h u).congr (Function.update_of_ne hu ..) fun _ => rfl

theorem InCall.effect (h : ∀ t, InCall I s t (phase t)) (ht : phase t = .pending c) :
    ∀ u, InCall I s u (Function.update phase t (.done r) u) := by
  intro u
  by_cases hu : u = t
  · subst hu
    rw [Function.update_self]
    have hu := h u
    rw [ht] at hu
    cases hu with
    | pending hcall hdue => exact .done hcall hdue
  · rw [Function.update_of_ne hu]
    exact h u

theorem InCall.respond (h : ∀ t, InCall I s t (phase t)) (ht : s'.calling t = false)
    (hcall : ∀ u, u ≠ t → s'.calling u = s.calling u)
    (hdue : ∀ u, u ≠ t → phase u ≠ .idle → s'.due I u = s.due I u) :
    ∀ u, InCall I s' u (Function.update phase t .idle u) := by
  intro u
  by_cases hu : u = t
  · subst hu
    rw [Function.update_self]
    exact .idle ht
  · rw [Function.update_of_ne hu]
    exact (h u).congr (hcall u hu) (hdue u hu)

-- ---------------------------------------------------------------------------
-- The books
-- ---------------------------------------------------------------------------

/-- What a worker still has to do to its item. -/
def waiting (phase : Nat → Phase C R) (s : Test n) (w : Fin n) : List (OperationType × Int) :=
  match s.loop.worker w, phase w with
  | .perform _, .done _ => []
  | .perform work, _ => work.ops
  | _, _ => []

/-- The keys that the main thread has not put into the set yet. -/
def missing (I : TreeCalls C R) (phase : Nat → Phase C R) (s : Test n) : List Int :=
  match phase I.main with
  | .done _ => s.create.tail
  | _ => s.create

/-- The keys of the create file come first, and then the items in the order in which
    they have taken effect. -/
structure Books (I : TreeCalls C R) (create : List Int) (S : Set Int) (phase : Nat → Phase C R)
    (s : Test n) (keys : List Int) (log : List (OperationType × Int)) : Prop where
  set : S = setAfter keys.toFinset log
  created : keys ++ s.missing I phase = create
  logged : (log : Multiset (OperationType × Int)) +
      ∑ w : Fin n, (s.waiting phase w : Multiset (OperationType × Int)) =
    ((s.loop.handed.map Prod.snd).flatMap Work.ops : List (OperationType × Int))
  early : s.create ≠ [] → log = [] ∧ ∀ w work, s.loop.worker w ≠ .perform work

theorem Books.init [DecidableEq C] :
    Books I create ∅ (fun _ => .idle) (system I create q n).init [] [] where
  set := by simp [setAfter]
  created := rfl
  logged := by simp [system, Harness.system, waiting]
  early := fun _ => ⟨rfl, fun _ _ h => by cases h⟩

/-- What is in the books when only the worker `w` has moved. -/
theorem Books.balance {phase' : Nat → Phase C R} {log' a : List (OperationType × Int)}
    (h : Books I create S phase s keys log)
    (hother : ∀ v, v ≠ w → s'.waiting phase' v = s.waiting phase v)
    (hhanded : (s'.loop.handed.map Prod.snd).flatMap Work.ops =
      (s.loop.handed.map Prod.snd).flatMap Work.ops ++ a)
    (hself : (log' : Multiset (OperationType × Int)) + (s'.waiting phase' w : List _) =
      (log : Multiset (OperationType × Int)) + (s.waiting phase w : List _) + (a : List _)) :
    (log' : Multiset (OperationType × Int)) +
        ∑ w : Fin n, (s'.waiting phase' w : Multiset (OperationType × Int)) =
      ((s'.loop.handed.map Prod.snd).flatMap Work.ops : List (OperationType × Int)) := by
  have hsum := sum_add_of_ne (w := w)
    (f := fun v => (s'.waiting phase' v : Multiset (OperationType × Int)))
    (g := fun v => (s.waiting phase v : Multiset (OperationType × Int)))
    fun v hv => by rw [hother v hv]
  refine add_right_cancel (b := (s.waiting phase w : Multiset (OperationType × Int))) ?_
  rw [add_assoc, hsum, add_left_comm, hself, hhanded, ← Multiset.coe_add, ← h.logged]
  ac_rfl

theorem waiting_nil (h : ∀ work, s.loop.worker w ≠ .perform work) : s.waiting phase w = [] := by
  unfold waiting
  split
  · rfl
  · next work hw _ => exact absurd hw (h work)
  · rfl

theorem waiting_congr {phase' : Nat → Phase C R} (hworker : s'.loop.worker w = s.loop.worker w)
    (hphase : phase' w = phase w) : s'.waiting phase' w = s.waiting phase w := by
  unfold waiting
  rw [hworker, hphase]

theorem missing_congr {phase' : Nat → Phase C R} (hcreate : s'.create = s.create)
    (hphase : phase' I.main = phase I.main) : s'.missing I phase' = s.missing I phase := by
  unfold missing
  rw [hcreate, hphase]

theorem missing_nil (h : s.create = []) : s.missing I phase = [] := by
  unfold missing
  split <;> simp [h]

/-- A worker calls the queue. -/
theorem Books.queue {loop : State Work n} (h : Books I create S phase s keys log)
    (hidle : phase w = .idle) (hnil : s.create = [])
    (hw : ∀ work, s.loop.worker w ≠ .perform work) (hloop : s.loop.next w = some loop) :
    Books I create S phase { s with loop := loop } keys log := by
  refine ⟨h.set, h.created, ?_, fun hcons => absurd hnil hcons⟩
  have hold : s.waiting phase w = [] := waiting_nil hw
  cases loops_of_next hloop with
  | test =>
    have hnew : ∀ {s' : Test n}, s'.loop.worker w =
        (if s.loop.queue.currQSize > 0 then .get else .left) → s'.waiting phase w = [] := by
      intro s' hs'
      refine waiting_nil fun work hp => ?_
      rw [hs'] at hp
      split at hp <;> cases hp
    refine h.balance (a := []) (fun v hv => waiting_congr (Function.update_of_ne hv ..) rfl)
      (List.append_nil _).symm ?_
    rw [hold, hnew (Function.update_self ..), Multiset.coe_nil, add_zero, add_zero]
  | @get item rest =>
    refine h.balance (a := item.ops)
      (fun v hv => waiting_congr (Function.update_of_ne hv ..) rfl) (by simp) ?_
    rw [hold, Multiset.coe_nil, add_zero]
    simp only [waiting, Function.update_self, hidle]
  | perform hp => exact absurd hp (hw _)

/-- A call begins. -/
theorem Books.invoke (h : Books I create S phase s keys log) (ht : phase t = .idle)
    (hloop : s'.loop = s.loop) (hcreate : s'.create = s.create) :
    Books I create S (Function.update phase t (.pending c)) s' keys log := by
  have hwaiting : ∀ v, s'.waiting (Function.update phase t (.pending c)) v = s.waiting phase v := by
    intro v
    by_cases hv : (v : Nat) = t
    · unfold waiting
      rw [hloop, hv, Function.update_self, ht]
      cases s.loop.worker v <;> rfl
    · exact waiting_congr (by rw [hloop]) (Function.update_of_ne hv ..)
  refine ⟨h.set, ?_, ?_, ?_⟩
  · rw [← h.created]
    congr 1
    by_cases hmain : I.main = t
    · unfold missing
      rw [hcreate, hmain, Function.update_self, ht]
    · exact missing_congr hcreate (Function.update_of_ne hmain ..)
  · simp only [hwaiting, hloop]
    exact h.logged
  · rw [hcreate, hloop]
    exact h.early

/-- The main thread puts a key into the set. -/
theorem Books.effect_create {rest : List Int} (h : Books I create S phase s keys log)
    (hcons : s.create = k :: rest) (ht : phase I.main = .pending c) :
    Books I create (Insert.insert k S) (Function.update phase I.main (.done r)) s (keys ++ [k])
      log := by
  obtain ⟨rfl, hearly⟩ := h.early (by simp [hcons])
  refine ⟨?_, ?_, ?_, h.early⟩
  · rw [h.set]
    simp [setAfter, Set.insert_def]
  · rw [← h.created]
    simp [missing, hcons, ht]
  · rw [← h.logged]
    simp only [waiting_nil (hearly _)]

/-- The operation of a worker takes effect. -/
theorem Books.effect_work {op : OperationType} (h : Books I create S phase s keys log)
    (hnil : s.create = []) (hw : s.loop.worker w = .perform work) (hop : work.opType = some op)
    (ht : phase w = .pending c) :
    Books I create (op.change work.value S) (Function.update phase w (.done r)) s keys
      (log ++ [(op, work.value)]) := by
  refine ⟨?_, ?_, ?_, fun hcons => absurd hnil hcons⟩
  · rw [h.set, setAfter_append, coe_setAfter]
  · rw [← h.created, missing_nil hnil, missing_nil hnil]
  · refine h.balance (w := w) (a := [])
      (fun v hv => waiting_congr rfl (Function.update_of_ne (Fin.val_ne_of_ne hv) ..))
      (List.append_nil _).symm ?_
    simp only [waiting, hw, ht, Function.update_self, Work.ops, hop]
    rfl

/-- The main thread goes on to the next key. -/
theorem Books.respond_create {rest : List Int} (h : Books I create S phase s keys log)
    (hcons : s.create = k :: rest) (ht : phase I.main = .done r)
    (hloop : s'.loop = s.loop) (hrest : s'.create = rest) :
    Books I create S (Function.update phase I.main .idle) s' keys log := by
  obtain ⟨rfl, hearly⟩ := h.early (by simp [hcons])
  refine ⟨h.set, ?_, ?_, fun _ => ⟨rfl, hloop ▸ hearly⟩⟩
  · rw [← h.created]
    simp [missing, hcons, hrest, ht]
  · have hnil : ∀ {phase' : Nat → Phase C R} v, s'.waiting phase' v = [] := fun v =>
      waiting_nil (hloop ▸ hearly v)
    rw [hloop, ← h.logged]
    simp only [hnil, waiting_nil (hearly _)]

/-- A worker goes on to the next item. -/
theorem Books.respond_work (h : Books I create S phase s keys log) (hnil : s.create = [])
    (hw : s.loop.worker w = .perform work) (ht : phase w = .done r) (hcreate : s'.create = [])
    (hworker : s'.loop.worker = Function.update s.loop.worker w .test)
    (hhanded : s'.loop.handed = s.loop.handed) :
    Books I create S (Function.update phase w .idle) s' keys log := by
  refine ⟨h.set, ?_, ?_, fun hcons => absurd hcreate hcons⟩
  · rw [← h.created, missing_nil hnil, missing_nil hcreate]
  · refine h.balance (w := w) (a := []) (fun v hv => ?_) ?_ ?_
    · exact waiting_congr (by rw [hworker, Function.update_of_ne hv])
        (Function.update_of_ne (Fin.val_ne_of_ne hv) ..)
    · rw [hhanded, List.append_nil]
    · rw [waiting_nil (s := s') (w := w) (by simp [hworker])]
      simp [waiting, hw, ht]

-- ---------------------------------------------------------------------------
-- Runs
-- ---------------------------------------------------------------------------

/-- Everything is accounted for, whatever the threads do. By induction on what they do. -/
theorem accounted [DecidableEq C] (hI : I.Changes O)
    (h : Lts.Served O (system I create q n) S phase s) :
    (∀ t, InCall I s t (phase t)) ∧ ∃ keys log, Books I create S phase s keys log := by
  induction h with
  | init => exact ⟨fun _ => .idle rfl, [], [], hI.init ▸ .init⟩
  | own _ hnext ih =>
    obtain ⟨hcall, keys, log, hbooks⟩ := ih
    cases steps_of_next hnext with
    | queue hnil hw hloop =>
      exact ⟨InCall.queue hcall hnil hw fun v => (loops_of_next hloop).worker, keys, log,
        hbooks.queue ((hcall _).idle_worker hnil hw) hnil hw hloop⟩
  | @invoke S phase s t c s' _ ht hnext ih =>
    obtain ⟨hcall, keys, log, hbooks⟩ := ih
    cases steps_of_next hnext with
    | invoke _ hdue => exact ⟨InCall.invoke hcall hdue, keys, log, hbooks.invoke ht rfl rfl⟩
  | @effect S S' phase s t c r _ ht hstep ih =>
    obtain ⟨hcall, keys, log, hbooks⟩ := ih
    refine ⟨InCall.effect hcall ht, ?_⟩
    have hdue := (hcall t).due_pending ht
    cases hcreate : s.create with
    | nil =>
      obtain ⟨w, rfl, work, hw⟩ := exists_of_due hcreate (Option.isSome_of_eq_some hdue)
      rw [due_perform hcreate hw] at hdue
      obtain ⟨op, hop, rfl⟩ := Option.map_eq_some_iff.mp hdue
      rw [hI.step hstep]
      exact ⟨_, _, hbooks.effect_work hcreate hw hop ht⟩
    | cons k rest =>
      rw [due_create hcreate] at hdue
      split at hdue
      · next hmain =>
        cases hdue
        subst hmain
        rw [hI.step hstep]
        exact ⟨_, _, hbooks.effect_create hcreate ht⟩
      · cases hdue
  | @respond S phase s t r s' _ ht hnext ih =>
    obtain ⟨hcall, keys, log, hbooks⟩ := ih
    cases steps_of_next hnext with
    | created hcons =>
      refine ⟨InCall.respond hcall (Function.update_self ..)
        (fun u hu => Function.update_of_ne hu ..) fun u hu hne => ?_, keys, log,
        hbooks.respond_create hcons ht rfl rfl⟩
      exact absurd ((hcall u).idle_create hcons hu) hne
    | performed hnil hw =>
      refine ⟨InCall.respond hcall (Function.update_self ..)
        (fun u hu => Function.update_of_ne hu ..) fun u hu hne => ?_, keys, log,
        hbooks.respond_work hnil hw ht hnil rfl rfl⟩
      refine due_congr rfl fun v hv => Function.update_of_ne ?_ ..
      rintro rfl
      exact hu hv

end Test

end Harness
