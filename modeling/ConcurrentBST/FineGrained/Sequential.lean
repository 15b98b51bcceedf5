-- SUMMARY: One thread alone: the fine-grained tree is a set, and remove frees the node it takes out.
import ConcurrentBST.FineGrained.Solo
import Mathlib.Algebra.Notation.Indicator
import Mathlib.Data.Set.Card
import Mathlib.Tactic.IntervalCases

/-!
# One thread

When a single thread makes all the calls, the tree is settled between two of
them, and what the calls do to it is what they do to a set.
-/

namespace FineGrained

open Threads

variable {n i j : Nat} {s s' : State} {g : Ghost} {m : Mem} {t : Tid} {call : Call} {p : Prog}
  {l : Tid × Action Call Addr} {S : Set Int} {tree : BinaryTree Addr} {k : Int} {r : Result}

def Act.isFree : Act → Bool
  | .free _ => true
  | _ => false

/-- In this step a node is freed. -/
def isFree (s : State) : Tid × Action Call Addr → Bool
  | (t, .access _) =>
      match s.thread t with
      | .running _ (.act a _) => a.isFree
      | _ => false
  | _ => false

/-- How many nodes are freed in the steps from `i` to `j`, `j` not included. -/
def freesBetween (e : system.Exec n) (i j : Nat) : Nat :=
  (List.range' i (j - i)).countP fun k => isFree (e.state k) (e.label k)

/-- What is seen by one who makes the calls one after the other, between two of
    them: the results are those of a set, the tree is that set, and the next call
    returns, unless it inserts a key that is there. -/
structure ActsAsSet (t : Tid) (h : List (Event Tid Call Result)) (s : State) : Prop where
  results : ∃ l S tree, h = serial t l ∧ setObject.Runs ∅ l S ∧ s.mem.Represents S tree
  returns : ∀ call s', system.next s (t, .invoke call) = some s' →
    (∀ S tree k, s.mem.Represents S tree → call = .insert k → k ∉ S) → Completes t call s'

/-- The steps from `i` to `j` are those of a `remove` of `k` by the only thread. -/
structure RemoveCall (e : system.Exec n) (t : Tid) (i j : Nat) (k : Int) : Prop where
  lt : i < j
  le : j < n
  invoke : e.label i = (t, .invoke (.remove k))
  access : ∀ m, i < m → m < j → ∃ a, e.label m = (t, .access a)
  respond : e.label j = (t, .respond)

-- ---------------------------------------------------------------------------
-- Memory
-- ---------------------------------------------------------------------------

namespace Mem.Represents

theorem eq_image (h : m.Represents S tree) : S = m.key '' {a | m.allocated a = true} := by
  ext k
  rw [← h.keys, List.mem_map, Set.mem_image]
  simp only [Set.mem_ofPred_eq, h.allocated]

theorem ncard (h : m.Represents S tree) : {a | m.allocated a = true}.ncard = S.ncard := by
  rw [h.eq_image]
  refine (Set.InjOn.ncard_image fun x hx y hy hxy => ?_).symm
  have hnd : (tree.inorder.map m.key).Nodup := h.sorted.imp fun hlt => hlt.ne
  exact List.inj_on_of_nodup_map hnd ((h.allocated x).mp hx) ((h.allocated y).mp hy) hxy

end Mem.Represents

-- ---------------------------------------------------------------------------
-- Frees
-- ---------------------------------------------------------------------------

/-- No access of the program allocates. -/
def NeverCreates : Prog → Prop :=
  Prog.All (fun a => ∀ v q, a ≠ .create v q) fun
    | .delSearch _ _ | .neighbour _ _ _ _ => True
    | .search _ _ | .insert _ _ => False

/-- `remove` allocates nothing. -/
theorem neverCreates_of_reachable (hs : system.Reachable s)
    (hrun : s.thread t = .running (.remove k) p) : NeverCreates p := by
  refine Lang.all_of_reachable (V := fun call => ∃ k, call = .remove k) ?_ ?_ hs t _ p hrun ⟨k, rfl⟩
  · rintro _ ⟨k, rfl⟩
    simp [lang, remove, ifLeaf, freeRoot]
  · intro f hf
    cases f with
    | search | insert => exact hf.elim
    | delSearch k x =>
      simp [lang, delSearch, delSearchSide, removeNotFound, removeFound, ifLeaf, freeRoot, removeNode,
        removeLeaf, removeLeafSide, removeInner, removeSide, removeAdjacent, getInorderPredecessor,
        getInorderSuccessor, getInorderNeighbour]
    | neighbour => simp [lang, neighbourFrom, removeDeep]

theorem ncard_exec {a : Act} {v : a.Ret} {m' : Mem} {i : Addr} (hok : Ok t a ⟨m, g⟩)
    (hfin : {a | m.allocated a = true}.Finite) (hno : ∀ v q, a ≠ .create v q)
    (hexec : exec t a i m = some (v, m')) :
    {a | m.allocated a = true}.ncard = {a | m'.allocated a = true}.ncard +
      if a.isFree then 1 else 0 := by
  cases a with
  | free x =>
    cases hexec
    have hx : x ∈ {a | m.allocated a = true} := hok.1
    have hfree : {a | (m.free x).allocated a = true} = {a | m.allocated a = true} \ {x} := by
      ext y
      by_cases hyx : y = x
      · simp [Mem.free, hyx]
      · simp [Mem.free, hyx]
    rw [hfree]
    exact (Set.ncard_sdiff_singleton_add_one hx hfin).symm
  | create k q => exact absurd rfl (hno k q)
  | lock x =>
    simp only [exec] at hexec
    split at hexec <;> cases hexec
    rfl
  | assertFail => simp at hexec
  | _ =>
    cases hexec
    rfl

theorem ncard_access (h : Explains s g) (hfin : {a | s.mem.allocated a = true}.Finite)
    (hrun : s.thread t = .running call p) (hno : NeverCreates p) {a : Addr}
    (hnext : system.next s (t, .access a) = some s') :
    {a | s.mem.allocated a = true}.ncard = {a | s'.mem.allocated a = true}.ncard +
      if isFree s (t, .access a) then 1 else 0 := by
  simp only [Lang.system, Lang.next, hrun] at hnext
  obtain ⟨⟨m', p'⟩, hp, rfl⟩ := Option.map_eq_some_iff.mp hnext
  cases p with
  | act b kont =>
    obtain ⟨⟨v, _⟩, hexec, heq⟩ := Option.map_eq_some_iff.mp hp
    cases heq
    simp only [isFree, hrun]
    exact ncard_exec (h.ok_at ⟨call, kont, hrun⟩) hfin hno.1 hexec
  | call f =>
    cases hp
    simp [isFree, hrun]
  | ret r => cases hp

-- ---------------------------------------------------------------------------
-- A call of remove
-- ---------------------------------------------------------------------------

section Run

variable {e : system.Exec n} {ghost : Nat → Ghost}

/-- A run with a ghost state for each of its states. -/
structure History (e : system.Exec n) (ghost : Nat → Ghost) : Prop where
  start : ghost 0 = .initial
  explains : ∀ i ≤ n, Explains (e.state i) (ghost i)
  moves : ∀ i < n, Moves setObject (Lang.observe (e.state i) (e.label i)) (ghost i).keys
    (ghost i).phase (ghost (i + 1)).keys (ghost (i + 1)).phase

theorem exists_history (e : system.Exec n) : ∃ ghost, History e ghost := by
  obtain ⟨ghost, hstart, hexp, hmoves⟩ := sound.exists_history e
  exact ⟨ghost, hstart, hexp, hmoves⟩

theorem History.atomic (H : History e ghost) (hi : i ≤ n) :
    Atomic setObject (e.history Lang.observe i) (ghost i).keys (ghost i).phase := by
  induction i with
  | zero =>
    rw [H.start, keys_initial]
    exact .init
  | succ i ih =>
    rw [e.history_succ]
    exact (ih (by omega)).moves (H.moves i hi)

theorem finite_at (e : system.Exec n) (hi : i ≤ n) :
    {a | (e.state i).mem.allocated a = true}.Finite := by
  refine (e.reachable hi).invariant (P := fun s => {a | s.mem.allocated a = true}.Finite) ?_
    fun s l s' h hnext => finite_allocated h hnext
  simp [Lang.system, Mem.initial]

/-- The other threads do nothing. -/
theorem others_idle (ht : ∀ j < n, (e.label j).1 = t) (hi : i ≤ n) {u : Tid} (hu : u ≠ t) :
    (e.state i).thread u = .idle := by
  induction i with
  | zero =>
    rw [e.start]
    rfl
  | succ i ih =>
    have hut : u ≠ (e.label i).1 := (ht i hi).symm ▸ hu
    exact (Lang.next_thread (e.step i hi) hut).trans (ih (by omega))

theorem isFree_of_ne {l : Tid × Action Call Addr} (h : ∀ a, l.2 ≠ .access a) :
    isFree s l = false := by
  obtain ⟨u, act⟩ := l
  cases act with
  | access a => exact absurd rfl (h a)
  | invoke | respond => rfl

theorem freesBetween_succ (hij : i ≤ j) : freesBetween e i (j + 1) =
    freesBetween e i j + if isFree (e.state j) (e.label j) then 1 else 0 := by
  obtain ⟨d, rfl⟩ := Nat.exists_eq_add_of_le hij
  have hlen : i + d + 1 - i = d + 1 := by omega
  simp only [freesBetween, hlen, Nat.add_sub_cancel_left, List.range'_1_concat,
    List.countP_append, List.countP_singleton]

theorem SetStep.remove {S' : Set Int} (h : SetStep S (.remove k) r S') : S' = S \ {k} := by
  cases h with
  | removed => rfl
  | empty => exact (Set.empty_sdiff _).symm

/-- How far a call of `remove` is that began at `i`. -/
structure Removing (e : system.Exec n) (ghost : Nat → Ghost) (t : Tid) (k : Int) (i m : Nat) :
    Prop where
  running : ∃ p, (e.state m).thread t = .running (.remove k) p
  effect : (ghost m).phase t = .pending (.remove k) ∧ (ghost m).keys = (ghost i).keys ∨
    ∃ r, (ghost m).phase t = .done r ∧
      SetStep (ghost i).keys (.remove k) r (ghost m).keys
  frees : {a | (e.state i).mem.allocated a = true}.ncard =
    {a | (e.state m).mem.allocated a = true}.ncard + freesBetween e i m

theorem phase_of_idle (H : History e ghost) (hi : i ≤ n) (hidle : (e.state i).thread t = .idle) :
    (ghost i).phase t = .idle := by
  have hat := (H.explains i hi).thread t
  rw [hidle] at hat
  have hat : At t .idle [] .empty ⟨(e.state i).mem, ghost i⟩ := hat
  exact hat.phase

theorem Removing.access (H : History e ghost) (ht : ∀ j < n, (e.label j).1 = t) {m : Nat}
    (him : i ≤ m) (hm : m < n) (h : Removing e ghost t k i m) {a : Addr}
    (ha : e.label m = (t, .access a)) : Removing e ghost t k i (m + 1) := by
  obtain ⟨p, hrun⟩ := h.running
  have hnext := e.step m hm
  have hmoves := H.moves m hm
  rw [ha] at hnext hmoves
  refine ⟨?_, ?_, ?_⟩
  · have hstep : stepOf t (e.state m) a = some (e.state (m + 1)) := hnext
    simp only [stepOf, Lang.system, Lang.next, hrun] at hstep
    obtain ⟨⟨_, p'⟩, _, heq⟩ := Option.map_eq_some_iff.mp hstep
    exact ⟨p', by rw [← heq]; exact Function.update_self ..⟩
  · have hmoves : Moves setObject (none : Option (Event Tid Call Result)) (ghost m).keys
        (ghost m).phase (ghost (m + 1)).keys (ghost (m + 1)).phase := hmoves
    rcases hmoves.none_cases with ⟨hkeys, hphase⟩ | ⟨u, c, r, hu, hstep, hphase⟩
    · rw [hkeys, hphase]
      exact h.effect
    · have hut : u = t := by
        by_contra hne
        have hidle := phase_of_idle H hm.le (others_idle ht hm.le hne)
        exact absurd (hidle.symm.trans hu) (by simp)
      subst hut
      rcases h.effect with ⟨hpend, hkeys⟩ | ⟨r', hdone, _⟩
      · obtain rfl := Phase.pending.inj (hu.symm.trans hpend)
        refine .inr ⟨r, ?_, hkeys ▸ hstep⟩
        rw [hphase, Function.update_self]
      · exact absurd (hu.symm.trans hdone) (by simp)
  · have hcard := ncard_access (H.explains m hm.le) (finite_at e hm.le) hrun
      (neverCreates_of_reachable (e.reachable hm.le) hrun) hnext
    have hfrees := h.frees
    rw [freesBetween_succ him, ha]
    omega

theorem Removing.begin (H : History e ghost) (hi : i < n)
    (hl : e.label i = (t, .invoke (.remove k))) : Removing e ghost t k i (i + 1) := by
  have hnext := e.step i hi
  have hmoves := H.moves i hi
  rw [hl] at hnext hmoves
  simp only [Lang.system, Lang.next] at hnext
  split at hnext
  · have heq := Option.some.inj hnext
    obtain ⟨hkeys, hphase⟩ := hmoves.invoke_cases
    refine ⟨⟨lang.start (.remove k), ?_⟩, .inl ⟨?_, hkeys⟩, ?_⟩
    · rw [← heq]
      exact Function.update_self ..
    · rw [hphase, Function.update_self]
    · have hfree : isFree (e.state i) (e.label i) = false := isFree_of_ne (by simp [hl])
      have hzero : freesBetween e i i = 0 := by simp [freesBetween]
      rw [freesBetween_succ le_rfl, hfree, hzero, ← heq]
      rfl
  · cases hnext

/-- The whole call, by induction on its accesses. -/
theorem RemoveCall.removing (h : RemoveCall e t i j k) (H : History e ghost)
    (ht : ∀ j < n, (e.label j).1 = t) : Removing e ghost t k i j := by
  have hrun : ∀ m, i + 1 ≤ m → m ≤ j → Removing e ghost t k i m := by
    intro m him
    induction m, him using Nat.le_induction with
    | base => exact fun _ => .begin H (h.lt.trans h.le) h.invoke
    | succ m him ih =>
      intro hm
      obtain ⟨a, ha⟩ := h.access m him hm
      exact (ih (by omega)).access H ht (by omega) (lt_of_lt_of_le hm h.le.le) ha
  exact hrun j h.lt le_rfl

/-- When the call returns, its key has been taken out, and the nodes that are left
    are fewer by those it has freed. -/
theorem RemoveCall.effect (h : RemoveCall e t i j k) (H : History e ghost)
    (ht : ∀ j < n, (e.label j).1 = t) : (ghost (j + 1)).keys = (ghost i).keys \ {k} ∧
      {a | (e.state i).mem.allocated a = true}.ncard =
        {a | (e.state (j + 1)).mem.allocated a = true}.ncard + freesBetween e i (j + 1) ∧
      (e.state (j + 1)).thread t = .idle := by
  obtain ⟨⟨p, hrun⟩, heffect, hfrees⟩ := h.removing H ht
  have hnext := e.step j h.le
  have hmoves := H.moves j h.le
  rw [h.respond] at hnext hmoves
  simp only [Lang.system, Lang.next] at hnext
  simp only [Lang.observe] at hmoves
  split at hnext
  · next c r hret =>
    have heq := Option.some.inj hnext
    rw [hret] at hmoves
    obtain ⟨hkeys, hdone⟩ := hmoves.respond_cases
    refine ⟨?_, ?_, ?_⟩
    · rw [hkeys]
      rcases heffect with ⟨hpend, _⟩ | ⟨r', _, hstep⟩
      · exact absurd (hpend.symm.trans hdone) (by simp)
      · exact hstep.remove
    · have hfree : isFree (e.state j) (e.label j) = false := isFree_of_ne (by simp [h.respond])
      rw [freesBetween_succ h.lt.le, hfree, ← heq]
      simpa using hfrees
    · rw [← heq]
      exact Function.update_self ..
  · cases hnext

/-- With one thread the tree represents the abstract set between two calls. -/
theorem History.represents (H : History e ghost) (ht : ∀ j < n, (e.label j).1 = t) (hi : i ≤ n)
    (hidle : (e.state i).thread t = .idle) :
    ∃ tree, (e.state i).mem.Represents (ghost i).keys tree := by
  refine Explains.represents (H.explains i hi) fun u => ?_
  by_cases hu : u = t
  · rw [hu, hidle]
  · exact others_idle ht hi hu

theorem RemoveCall.idle (h : RemoveCall e t i j k) : (e.state i).thread t = .idle := by
  have hnext := e.step i (h.lt.trans h.le)
  rw [h.invoke] at hnext
  simp only [Lang.system, Lang.next] at hnext
  split at hnext
  · assumption
  · cases hnext

/-- `remove` frees one node if its key is there, and none otherwise. -/
theorem RemoveCall.frees (h : RemoveCall e t i j k) (H : History e ghost)
    (ht : ∀ j < n, (e.label j).1 = t) {S : Set Int} {tree : BinaryTree Addr}
    (hrep : (e.state i).mem.Represents S tree) :
    freesBetween e i (j + 1) = Set.indicator S 1 k := by
  have hi : i ≤ n := (h.lt.trans h.le).le
  obtain ⟨hkeys, hcard, hidle⟩ := h.effect H ht
  obtain ⟨_, hrep₀⟩ := H.represents ht hi h.idle
  obtain ⟨_, hrep₁⟩ := H.represents ht h.le hidle
  have hS : (ghost i).keys = S := hrep₀.eq_image.trans hrep.eq_image.symm
  rw [hrep.ncard, hrep₁.ncard, hkeys, hS] at hcard
  have hfin : S.Finite := hrep.eq_image ▸ (finite_at e hi).image _
  by_cases hk : k ∈ S
  · have hone := Set.ncard_sdiff_singleton_add_one hk hfin
    rw [Set.indicator_of_mem hk]
    show _ = 1
    omega
  · rw [Set.sdiff_singleton_eq_self hk] at hcard
    rw [Set.indicator_of_notMem hk]
    omega

end Run

-- ---------------------------------------------------------------------------
-- One call after the other
-- ---------------------------------------------------------------------------

theorem thread_of_observe {ev : Event Tid Call Result} (h : Lang.observe s l = some ev) :
    ev.thread = l.1 := by
  obtain ⟨u, act⟩ := l
  cases act with
  | invoke c =>
    cases h
    rfl
  | access => cases h
  | respond =>
    simp only [Lang.observe] at h
    split at h <;> cases h
    rfl

/-- A thread that is alone returns from the call it makes. -/
theorem Explains.completes (h : Explains s g) (hidle : ∀ u, s.thread u = .idle)
    (hfin : {a | s.mem.allocated a = true}.Finite) {S : Set Int} (hrep : s.mem.Represents S tree)
    (hkeys : g.keys = S) (hallow : ∀ k, call = .insert k → k ∉ S)
    (hnext : system.next s (t, .invoke call) = some s') : Completes t call s' := by
  obtain ⟨g', hg', hmoves⟩ := h.step sound hnext
  simp only [Lang.system, Lang.next, hidle t] at hnext
  cases hnext
  obtain ⟨hk, hphase⟩ := Moves.invoke_cases hmoves
  have hsolo : Solo t call (lang.start call)
      ⟨s.mem, Function.update s.thread t (.running call (lang.start call))⟩ g' := by
    refine ⟨hg', fun u hu => ?_, hfin, Function.update_self .., fun k hk' => ?_⟩
    · exact (Function.update_of_ne hu ..).trans (hidle u)
    · have hp : g'.phase t = .pending call := by
        rw [show g'.phase = _ from hphase, Function.update_self]
      have hkeys' : g'.keys = S := hk.trans hkeys
      rw [hkeys']
      exact hallow k (Phase.pending.inj (hp.symm.trans hk'))
  exact hsolo.completes_start hrep.unfolds

/-- With one thread the fine-grained tree is a set, and `remove` frees the node it
    takes out. -/
theorem locked_acts_as_set (e : system.Exec n) (ht : ∀ j < n, (e.label j).1 = t) :
    (∀ i ≤ n, (e.state i).thread t = .idle →
      ActsAsSet t (e.history Lang.observe i) (e.state i)) ∧
    ∀ i j k S tree, RemoveCall e t i j k → (e.state i).mem.Represents S tree →
      (k ∈ S → freesBetween e i (j + 1) = 1) ∧ (k ∉ S → freesBetween e i (j + 1) = 0) := by
  obtain ⟨ghost, H⟩ := exists_history e
  refine ⟨fun i hi hidle => ?_, fun i j k S tree hcall hrep => ?_⟩
  · have hthread : ∀ ev ∈ e.history Lang.observe i, ev.thread = t := by
      intro ev hev
      obtain ⟨j, hj, hobs⟩ := List.mem_filterMap.mp hev
      exact (thread_of_observe hobs).trans (ht j ((List.mem_range.mp hj).trans_le hi))
    obtain ⟨ha, _⟩ := (H.atomic hi).alone hthread
    obtain ⟨l, hl, hruns⟩ := (phase_of_idle H hi hidle ▸ ha).serial
    obtain ⟨tree, hrep⟩ := H.represents ht hi hidle
    refine ⟨⟨l, _, tree, hl, hruns, hrep⟩, fun call s' hnext hallow => ?_⟩
    have hall : ∀ u, (e.state i).thread u = .idle := fun u => by
      by_cases hu : u = t
      · rw [hu, hidle]
      · exact others_idle ht hi hu
    exact Explains.completes (H.explains i hi) hall (finite_at e hi) hrep rfl
      (fun k hk => hallow _ tree k hrep hk) hnext
  · have hfrees := hcall.frees H ht hrep
    exact ⟨fun hk => by rw [hfrees, Set.indicator_of_mem hk]; rfl,
      fun hk => by rw [hfrees, Set.indicator_of_notMem hk]⟩

/-- Thread 0 inserts 5, 3, 8 and 7, and removes 5. -/
def runOfCalls : system.Exec 90 :=
  .ofLabels (0, .respond) (soloCall 0 (.insert 5) 5 1 ++ soloCall 0 (.insert 3) 12 2 ++
    soloCall 0 (.insert 8) 13 3 ++ soloCall 0 (.insert 7) 20 4 ++ soloCall 0 (.remove 5) 30 0)
    (by decide +kernel)

theorem locked_acts_as_set_calls :
    ActsAsSet 0 (runOfCalls.history Lang.observe 90) (runOfCalls.state 90) ∧
      freesBetween runOfCalls 58 90 = 1 := by
  obtain ⟨hset, hfrees⟩ := locked_acts_as_set runOfCalls (t := 0) (by decide +kernel)
  obtain ⟨l, S, tree, _, _, hrep⟩ := (hset 58 (by decide) rfl).results
  have hcall : RemoveCall runOfCalls 0 58 89 5 := by
    refine ⟨by decide, by decide, rfl, fun m hm hm' => ⟨0, ?_⟩, rfl⟩
    interval_cases m <;> rfl
  have hmem : (5 : Int) ∈ S := by
    rw [hrep.eq_image]
    exact ⟨1, by decide +kernel, by decide +kernel⟩
  exact ⟨hset 90 le_rfl rfl, (hfrees 58 89 5 S tree hcall hrep).1 hmem⟩

end FineGrained
