-- SUMMARY: One thread alone: every call returns, leaves nothing behind, and does what it does to a set.
import ConcurrentBST.LockFree.Linearization
import ConcurrentBST.LockFree.SoloCalls

/-!
# One thread

When a single thread makes all the calls, no flag is left in the tree between
two of them. Then every node counts, and the tree is the set.
-/

namespace LockFree

variable {cfg : Config} {n i : Nat} {m : Mem} {g : Ghost} {s s' : State} {t : Tid}
  {l : Tid × Action} {call : Call}

/-- Nothing is left to do in the tree. -/
def Mem.Settled (m : Mem) : Prop := ∀ x, m.reaches x → (m.op x).flag = .none

theorem TreeInv.settled_iff (h : TreeInv m g) : m.Settled ↔ pending m g = 0 := by
  rw [h.pending_eq_zero]
  exact forall_congr' fun x => imp_congr_left h.reaches_iff

-- ---------------------------------------------------------------------------
-- Calls
-- ---------------------------------------------------------------------------

/-- The call of `t` comes to its return, and the tree is settled then. -/
def Completes (cfg : Config) (t : Tid) (call : Call) : State → Prop :=
  Until (stepOf cfg t) (fun s => ∀ fresh, Careful cfg s (t, .access fresh))
    fun s => (∃ r, s.thread t = .running call (.ret r)) ∧ s.mem.Settled

/-- What holds of the states of a run in which `t` makes all the calls. -/
structure Orderly (cfg : Config) (t : Tid) (s : State) : Prop where
  inv : ∃ g, Inv cfg s g
  finite : {a | s.mem.cell a ≠ .unused}.Finite
  idle : s.thread t = .idle → s.mem.Settled
  running : ∀ call pc, s.thread t = .running call pc → Completes cfg t call s

theorem Orderly.initial : Orderly cfg t .initial where
  inv := ⟨_, .initial⟩
  finite := by
    refine (Set.finite_singleton baseRoot).subset fun a ha => ?_
    by_contra hne
    exact ha (if_neg hne)
  idle := fun _ _ _ => rfl
  running := fun _ _ h => by cases h

/-- A call that starts in a settled tree completes. -/
theorem Orderly.invoke (hcfg : cfg.hazardPointers = false) (h : Orderly cfg t s)
    (hnext : (system cfg).next s (t, .invoke call) = some s') : Completes cfg t call s' := by
  obtain ⟨g, hg⟩ := h.inv
  cases steps_of_next hnext with
  | invoke ht =>
    obtain ⟨g', hg', htrace⟩ := hg.step hcfg (fun c pc hc => by cases ht.symm.trans hc) hnext
    have hrun := Function.update_self t (Thread.running call (callStart cfg .initial)) s.thread
    have hready : Ready cfg t call s.mem g' (callStart cfg .initial) :=
      ⟨hg'.mem, hg'.status, hg'.pc hrun, h.finite⟩
    have hp : pending s.mem g' ≤ 0 := (hg'.mem.settled_iff.mp (h.idle ht)).le
    have hends := (hready.ends_call hcfg hp).system
      (s := ⟨s.mem, Function.update s.thread t (.running call (callStart cfg .initial))⟩) rfl hrun
    refine hends.imp (fun _ => id) ?_
    rintro s₁ ⟨_, hpc, ⟨r, rfl⟩, g₁, h₁, hp₁⟩
    exact ⟨⟨r, hpc⟩, h₁.mem.settled_iff.mpr (Nat.le_zero.mp hp₁)⟩

theorem Orderly.careful (h : Orderly cfg t s) (hl : l.1 = t) : Careful cfg s l := by
  intro call pc ht
  rw [hl] at ht
  rintro hr
  have hret : ¬ ((∃ r, s.thread t = .running call (.ret r)) ∧ s.mem.Settled) := by
    rintro ⟨⟨r, hret⟩, _⟩
    obtain ⟨_, f, r', rfl⟩ := hr
    cases ht.symm.trans hret
  exact ((h.running call pc ht).before hret).1 0 call pc ht hr

theorem Orderly.step (hcfg : cfg.hazardPointers = false) (h : Orderly cfg t s) (hl : l.1 = t)
    (hnext : (system cfg).next s l = some s') : Orderly cfg t s' := by
  obtain ⟨g, hg⟩ := h.inv
  obtain ⟨g', hg', htrace⟩ := hg.step hcfg (h.careful hl) hnext
  obtain ⟨_, _, _, _, hc, _⟩ := htrace.change
  obtain ⟨u, act⟩ := l
  obtain rfl : u = t := hl
  refine ⟨⟨g', hg'⟩, hc.finite h.finite, fun hidle => ?_, fun call pc hrun => ?_⟩
  · cases steps_of_next hnext with
    | invoke ht | access ht he => simp at hidle
    | @respond _ c r ht =>
      have hstuck : ∀ fresh, stepOf cfg u s fresh = none := fun fresh => by
        rw [stepOf_eq ht]
        rfl
      exact ((h.running _ _ ht).of_stuck hstuck).2
  · cases steps_of_next hnext with
    | invoke ht =>
      simp only [Function.update_self, Thread.running.injEq] at hrun
      exact hrun.1 ▸ h.invoke hcfg hnext
    | access ht he =>
      simp only [Function.update_self, Thread.running.injEq] at hrun
      obtain ⟨rfl, rfl⟩ := hrun
      refine (h.running _ _ ht).after ?_ hnext
      rintro ⟨⟨r, hret⟩, _⟩
      rw [(Thread.running.inj (ht.symm.trans hret)).2] at he
      cases he
    | respond ht => simp at hrun

theorem orderly (hcfg : cfg.hazardPointers = false) (e : (system cfg).Exec n)
    (ht : ∀ j < n, (e.label j).1 = t) (hi : i ≤ n) : Orderly cfg t (e.state i) := by
  induction i with
  | zero => exact e.start ▸ .initial
  | succ i ih => exact (ih (by omega)).step hcfg (ht i hi) (e.step i hi)

-- ---------------------------------------------------------------------------
-- The set
-- ---------------------------------------------------------------------------

/-- In a settled tree every node counts. -/
theorem MemInv.sorted_of_settled (h : MemInv cfg m g) (hs : m.Settled) :
    ∃ tree, Unfolds m.childPtr (m.childPtr baseRoot false) tree ∧
      (tree.inorder.map m.key).Pairwise (· < ·) ∧
      ∀ k, k ∈ tree.inorder.map m.key ↔ k ∈ keys m g := by
  obtain ⟨tree, htree⟩ := h.searchTree
  have hnode : ∀ {x}, x ∈ tree.inorder ↔ x ∈ g.tree.nodes ∧ x ≠ baseRoot := by
    intro x
    rw [htree.unfolds.mem_inorder]
    constructor
    · intro hx
      have hmem := h.reaches_iff.mp (leads_some.mpr (.inr ⟨false, hx⟩) : m.reaches x)
      refine ⟨hmem, ?_⟩
      rintro rfl
      exact h.lawful.irrefl ((h.leads_child_iff hmem h.root).mp hx)
    · rintro ⟨hx, hne⟩
      exact (h.leads_child_iff hx h.root).mpr (h.right_of_root hx hne)
  have hflag : ∀ {x}, x ∈ g.tree.nodes → (m.op x).flag = .none := fun hx =>
    hs _ (h.reaches_iff.mpr hx)
  refine ⟨tree, htree.unfolds, ?_, fun k => ?_⟩
  · have hlive : tree.inorder.filter m.live = tree.inorder := by
      refine List.filter_eq_self.mpr fun x hx => ?_
      simp [Mem.live, hflag (hnode.mp hx).1]
    exact hlive ▸ htree.strict
  · rw [List.mem_map]
    constructor
    · rintro ⟨x, hx, rfl⟩
      obtain ⟨hmem, hne⟩ := hnode.mp hx
      exact ⟨x, hmem, hne, present_of_flag (.inl (hflag hmem)), rfl⟩
    · rintro ⟨x, hmem, hne, _, rfl⟩
      exact ⟨x, hnode.mpr ⟨hmem, hne⟩, rfl⟩

/-- Nothing hangs from the left of `base_root`. -/
theorem TreeInv.root_left (h : TreeInv m g) : m.childPtr baseRoot true = none := by
  cases hc : m.childPtr baseRoot true with
  | none => rfl
  | some c =>
    have hbelow := h.fits.child_below h.root hc
    have hne : c ≠ baseRoot := by
      rintro rfl
      exact h.lawful.irrefl hbelow
    simpa using h.lawful.unique hbelow (h.right_of_root (h.fits.child_mem h.root hc) hne)

/-- The key of `base_root` is never written. -/
theorem History.root_key {e : (system cfg).Exec n} (H : History e) (hi : i ≤ n) :
    (e.state i).mem.key baseRoot = -1 := by
  induction i with
  | zero =>
    rw [e.start]
    rfl
  | succ i ih =>
    have h := H.mem (Nat.le_of_succ_le hi)
    obtain ⟨_, _, _, _, hc, _⟩ := (H.traces i hi).change
    by_contra hne
    have hborn := h.born_of_mem h.root
    obtain ⟨r, hr, hw, _⟩ := hc.key_cases h hborn (by rwa [ih (by omega)])
    exact (hw.record h).dest_ne_root hr.symm

theorem thread_of_observe {ev : Event Tid Call Result} (h : observe s l = some ev) :
    ev.thread = l.1 := by
  obtain ⟨u, act⟩ := l
  cases act with
  | invoke c =>
    cases h
    rfl
  | access => cases h
  | respond =>
    simp only [observe] at h
    split at h <;> cases h
    rfl

/-- What a user sees who makes the calls of a run one after the other, between
    two of them: the results are those of a set, the tree is the set in order,
    nothing is left behind, and the next call returns. -/
structure ActsAsSet (cfg : Config) (t : Tid) (h : List (Event Tid Call Result)) (s : State) :
    Prop where
  results : ∃ l S, h = serial t l ∧ setObject.Runs ∅ l S ∧
    ∃ tree, Unfolds s.mem.childPtr (s.mem.childPtr baseRoot false) tree ∧
      (tree.inorder.map s.mem.key).Pairwise (· < ·) ∧
      ∀ k, k ∈ tree.inorder.map s.mem.key ↔ k ∈ S
  settled : ∀ x, s.mem.reaches x → (s.mem.op x).flag = .none
  returns : ∀ call s', (system cfg).next s (t, .invoke call) = some s' →
    Until (stepOf cfg t) (fun _ => True) (fun s => ∃ r, s.thread t = .running call (.ret r)) s'

/-- With one thread the tree is a set. -/
theorem acts_as_set (hcfg : cfg.hazardPointers = false) (e : (system cfg).Exec n)
    (ht : ∀ j < n, (e.label j).1 = t) (hi : i ≤ n) (hidle : (e.state i).thread t = .idle) :
    ActsAsSet cfg t (e.history observe i) (e.state i) := by
  have ho := orderly hcfg e ht hi
  obtain ⟨H⟩ := exists_history hcfg e fun j hj => (orderly hcfg e ht hj.le).careful (ht j hj)
  have hthread : ∀ ev ∈ e.history observe i, ev.thread = t := by
    intro ev hev
    obtain ⟨j, hj, hobs⟩ := List.mem_filterMap.mp hev
    exact (thread_of_observe hobs).trans (ht j ((List.mem_range.mp hj).trans_le hi))
  refine ⟨?_, ho.idle hidle, fun call s' hnext => ?_⟩
  · obtain ⟨ha, _⟩ := (H.atomic hi).alone hthread
    have hphase : (H.ghost i).phases t = .idle := congrArg Status.phase ((H.inv i hi).idle hidle)
    obtain ⟨l, hl, hruns⟩ := (hphase ▸ ha).serial
    exact ⟨l, _, hl, hruns, (H.mem hi).sorted_of_settled (ho.idle hidle)⟩
  · exact (ho.invoke hcfg hnext).imp (fun _ _ => trivial) fun _ h => h.1

theorem acts_as_set_relocation : ActsAsSet .plain 0 (runOfRelocation.history observe 80)
    (runOfRelocation.state 80) :=
  acts_as_set rfl runOfRelocation (by decide +kernel) (by decide) (by decide +kernel)

end LockFree
