-- SUMMARY: The fine-grained tree has no deadlock and no livelock: calls return as long as threads take steps.
import ConcurrentBST.FineGrained.Descent

/-!
# Progress

A thread that walks down comes to younger and younger nodes, and only so many
nodes are created before a call returns. So no thread walks for ever. And as the
waiting threads never form a circle, one of the threads that are in a call can go
on.
-/

namespace FineGrained

open Threads

variable {s : State} {g : Ghost} {t u : Tid} {x : Addr} {K : List Known} {T : Finset Tid}

-- ---------------------------------------------------------------------------
-- Livelock
-- ---------------------------------------------------------------------------

theorem Ages.Rely.refl {σ : Dated} : Ages.Rely t σ σ :=
  ⟨fun _ => id, fun _ _ => rfl, fun _ _ => rfl, fun _ => le_rfl⟩

theorem Ages.Rely.trans {σ σ' σ'' : Dated} (h : Ages.Rely t σ σ') (h' : Ages.Rely t σ' σ'') :
    Ages.Rely t σ σ'' where
  held := fun x hx => h'.held x (h.held x hx)
  born := fun x hx => (h'.born x (h.held x hx)).trans (h.born x hx)
  node := fun x hx => (h'.node x (h.held x hx)).trans (h.node x hx)
  younger := fun x => (h.younger x).trans (h'.younger x)

theorem Ages.Inv.initial : Ages.Inv ⟨.initial, .initial⟩ :=
  have hnone : ∀ x, Mem.initial.allocated x ≠ true := fun _ => Bool.false_ne_true
  ⟨fun x _ hx => absurd hx (hnone x), fun x hx => absurd hx (hnone x), fun _ => Nat.zero_lt_one,
    fun x hx => absurd hx (hnone x)⟩

theorem sinks_start (t : Tid) (c : Call) : Sinks t 0 K (lang.start c) := by
  cases c with
  | insert k => exact sinks_insert
  | search k => exact sinks_search
  | remove k => exact sinks_remove

theorem ranking_body {σ : Dated} {f : Fn} (hi : Ages.Inv σ)
    (hpre : ∃ g, Inv ⟨σ.mem, g⟩ ∧ Pre t f ⟨σ.mem, g⟩) :
    ranking.wp logic lang t (σ.ghost.born f.at) (lang.body f) σ := by
  have hsince : ∀ {x}, Knows t [.since (σ.ghost.born x) x] σ :=
    List.forall_mem_singleton.mpr fun _ => le_rfl
  cases f with
  | search k x => exact sinks_searchFrom σ hi hsince
  | insert k x => exact sinks_insertFrom σ hi hsince
  | delSearch k x => exact sinks_delSearch σ hi hsince
  | neighbour x p s d =>
    obtain ⟨g, hinv, ns, np, nx, hs, hp, hx, hslot, hparent, hat⟩ := hpre
    -- The parent of `s` is the node from which the thread has come.
    obtain ⟨hms, hns⟩ := hat.node_eq (i := 0) rfl hs
    obtain ⟨hmp, hnp⟩ := hat.node_eq (i := 1) rfl hp
    have hchild : (σ.mem.node p).child (!d) = s := by
      rw [← hslot]
      exact congrArg (Node.child · (!d)) hnp
    have hlt := hi.child p (!d) (hmp.allocated hp)
    rw [hchild] at hlt
    refine sinks_neighbourFrom σ hi (List.forall_mem_cons.mpr ⟨fun _ => le_rfl,
      List.forall_mem_cons.mpr ⟨⟨hms, ?_⟩, List.forall_mem_singleton.mpr ⟨hmp, hlt⟩⟩⟩)
    rw [← hparent]
    exact congrArg Node.parent hns

theorem ranking_sound : ranking.Sound logic lang .initial .initial where
  refl := fun _ _ => .refl
  trans := Ages.Rely.trans
  init := .initial
  rank_lt := fun f hi => hi.clock f.at
  start := fun t c σ hi _ => sinks_start t c (K := []) σ hi fun φ hφ => by cases hφ
  body := ranking_body

/-- As long as any of finitely many threads take steps, calls return. -/
theorem calls_return (r : system.Run) (T : Finset Tid) (hT : ∀ i, (r.label i).1 ∈ T) (n : Nat) :
    ∃ i, n ≤ i ∧ ∃ t, r.label i = (t, .respond) :=
  ranking_sound.returns sound r T hT n

/-- A `search` alone in the empty tree leaves the system as it was. -/
theorem runFrom_search : system.runFrom system.init (soloCall 0 (.search 5) 3 0) =
    some system.init := by
  obtain ⟨m, thread, hrun, hm, hthread⟩ : ∃ m thread, system.runFrom system.init
      (soloCall 0 (.search 5) 3 0) = some ⟨m, Function.update thread 0 .idle⟩ ∧
      m = .initial ∧ ∀ u, u ≠ 0 → thread u = .idle := by
    refine ⟨(Mem.initial.setLock treeLock (some 0)).setLock treeLock none, _, rfl, ?_,
      fun u hu => ?_⟩
    · simp only [Mem.setLock, Function.update_idem]
      exact congrArg (Mem.mk _ _ · _) (Function.update_eq_self treeLock _)
    · simp only [Function.update_of_ne hu]
      rfl
  have hidle : Function.update thread 0 .idle = fun _ => .idle :=
    Function.update_eq_iff.mpr ⟨rfl, hthread⟩
  rw [hrun, hidle, hm]
  rfl

/-- One thread that calls `search` over and over. -/
def runOfSearches : system.Run :=
  .cycle (0, .respond) (soloCall 0 (.search 5) 3 0) (by simp [soloCall]) runFrom_search

theorem calls_return_searches : ∃ i, 100 ≤ i ∧ ∃ t, runOfSearches.label i = (t, .respond) := by
  refine calls_return runOfSearches {0} (fun i => ?_) 100
  have hmem : runOfSearches.label i ∈ soloCall 0 (.search 5) 3 0 := Lts.Run.label_cycle i
  have hall : ∀ l ∈ soloCall 0 (.search 5) 3 0, l.1 ∈ ({0} : Finset Tid) := by decide
  exact hall _ hmem

-- ---------------------------------------------------------------------------
-- Deadlock
-- ---------------------------------------------------------------------------

/-- Thread `t` can go on in its call. -/
def CanStep (s : State) (t : Tid) : Prop :=
  (∃ i, (system.next s (t, .access i)).isSome) ∨ (system.next s (t, .respond)).isSome

/-- A thread that holds a lock of the tree is in a call. -/
theorem Explains.not_idle (h : Explains s g) (hl : s.mem.lock x = some t) (hx : s.mem.live x) :
    s.thread t ≠ .idle := by
  intro hidle
  have ht := h.thread t
  rw [hidle] at ht
  have hat : At t .idle [] .empty ⟨s.mem, g⟩ := ht
  simpa using (hat.mine x).mp ⟨hl, hx⟩

/-- A thread in a call can go on, waits for another one, or has failed its assertion. -/
theorem Explains.canStep_or (h : Explains s g) (hfin : {a | s.mem.allocated a = true}.Finite)
    (ht : s.thread t ≠ .idle) :
    CanStep s t ∨ (∃ u, WaitsFor s t u ∧ s.thread u ≠ .idle) ∨ AtAct s t .assertFail := by
  have hnext : ∀ {c p} (i : Addr), s.thread t = .running c p →
      (lang.perform t i s.mem p).isSome → CanStep s t := by
    intro c p i hrun hsome
    refine .inl ⟨i, ?_⟩
    simp only [Lang.system, Lang.next, hrun, Option.isSome_map]
    exact hsome
  cases hrun : s.thread t with
  | idle => exact absurd hrun ht
  | running c p =>
    cases p with
    | ret r => exact .inl (.inr (by simp [Lang.system, Lang.next, hrun]))
    | call f => exact .inl (hnext 0 hrun rfl)
    | act a k =>
      have hat : AtAct s t a := ⟨c, k, hrun⟩
      have hexec : ∀ i, (exec t a i s.mem).isSome → CanStep s t := fun i hi =>
        hnext i hrun ((Option.isSome_map).trans hi)
      cases a with
      | lock x =>
        cases hl : s.mem.lock x with
        | none => exact .inl (hexec 0 (by simp [exec, hl]))
        | some u => exact .inr (.inl ⟨u, ⟨x, hat, hl⟩, h.not_idle hl (h.inv.live x (h.ok_at hat).1)⟩)
      | create v q =>
        obtain ⟨a, ha⟩ := (hfin.insert 0).exists_notMem
        simp only [Set.mem_insert_iff, Set.mem_ofPred_eq, not_or, Bool.not_eq_true] at ha
        exact .inl (hexec a (by simp [exec, Mem.allocatable, ha.1, ha.2]))
      | assertFail => exact .inr (.inr hat)
      | _ => exact .inl (hexec 0 rfl)

/-- If threads are in calls, one of them can go on, unless one has failed its assertion:
    it inserts a key that is there. -/
theorem Explains.exists_canStep (h : Explains s g) (hfin : {a | s.mem.allocated a = true}.Finite)
    (hT : ∀ t, s.thread t ≠ .idle → t ∈ T) (ht : s.thread t ≠ .idle) :
    ∃ u, s.thread u ≠ .idle ∧ (CanStep s u ∨ AtAct s u .assertFail) := by
  by_contra hno
  push Not at hno
  have hwait : ∀ u, s.thread u ≠ .idle → ∃ v, WaitsFor s u v ∧ s.thread v ≠ .idle := fun u hu =>
    ((h.canStep_or hfin hu).resolve_left (hno u hu).1).resolve_right (hno u hu).2
  -- Along the threads that wait there would be no end.
  let above (u v : {u // u ∈ T}) : Prop := Relation.TransGen (WaitsFor s) v u
  have hirrefl : Std.Irrefl above := ⟨fun u hu => h.lockDiscipline.acyclic u hu⟩
  have htrans : IsTrans _ above := ⟨fun _ _ _ huv hvw => hvw.trans huv⟩
  have hwf : WellFounded above := Finite.wellFounded_of_trans_of_irrefl above
  obtain ⟨⟨u, hu⟩, hrun, hmin⟩ := hwf.has_min {u | s.thread u ≠ .idle} ⟨⟨t, hT t ht⟩, ht⟩
  obtain ⟨v, hv, hvrun⟩ := hwait u hrun
  exact hmin ⟨v, hT v hvrun⟩ hvrun (.single hv)

theorem allocated_finite (hs : system.Reachable s) : {a | s.mem.allocated a = true}.Finite := by
  refine hs.invariant (P := fun s => {a | s.mem.allocated a = true}.Finite) ?_
    fun s l s' h hnext => finite_allocated h hnext
  simp [Lang.system, Mem.initial]

/-- As long as finitely many threads are in calls, one of them can take a step. It need
    not be able to if a thread has found that the key it inserts is there. -/
theorem no_deadlock (hs : system.Reachable s) (hT : ∀ t, s.thread t ≠ .idle → t ∈ T)
    (ht : s.thread t ≠ .idle) :
    ∃ u, s.thread u ≠ .idle ∧ (CanStep s u ∨ AtAct s u .assertFail) := by
  obtain ⟨g, h⟩ := sound.exists_explains hs
  exact Explains.exists_canStep h (allocated_finite hs) hT ht

theorem no_deadlock_removal : ∃ u, (runOfRemoval.state 83).thread u ≠ .idle ∧
    (CanStep (runOfRemoval.state 83) u ∨ AtAct (runOfRemoval.state 83) u .assertFail) := by
  refine no_deadlock (runOfRemoval.reachable (by decide)) (T := {0, 1}) (t := 1) (fun t ht => ?_) ?_
  · by_contra hout
    refine ht (Lang.idle_of_labels runOfRemoval (by decide) fun j hj heq => hout ?_)
    have hlabel : ∀ j < 83, (runOfRemoval.label j).1 ∈ ({0, 1} : Finset Tid) := by decide +kernel
    exact heq ▸ hlabel j hj
  · have hrun : (match (runOfRemoval.state 83).thread 1 with
        | .idle => true
        | .running _ _ => false) = false := by decide +kernel
    intro hidle
    rw [hidle] at hrun
    cases hrun

end FineGrained
