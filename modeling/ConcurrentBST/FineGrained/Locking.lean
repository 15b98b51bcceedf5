-- SUMMARY: No deadlock, no write without a lock, and no access to a node that has been freed.
import ConcurrentBST.FineGrained.Quiescence
import Mathlib.Logic.Relation

/-!
# Locks and memory

What holds at each access says who waits for whom. A thread that waits holds only
nodes above the one it waits for, so the nodes along a chain of waiting threads
lie ever deeper in the tree.
-/

namespace FineGrained

open Threads

variable {s s' : State} {g : Ghost} {t u : Tid} {a : Act} {x y : Addr} {d : Bool} {n i j : Nat}

/-- The next thing that thread `t` does is `a`. -/
def AtAct (s : State) (t : Tid) (a : Act) : Prop :=
  ∃ call kont, s.thread t = .running call (.act a kont)

/-- The node, or the root pointer, to which an access writes. -/
def Act.writes : Act → Option Addr
  | .setRoot _ => some treeLock
  | .setValue x _ | .setChild x _ _ | .setParent x _ => some x
  | _ => none

/-- The node which an access uses, or whose lock it uses. -/
def Act.node : Act → Option Addr
  | .lock x | .unlock x => if x = treeLock then none else some x
  | .value x | .child x _ | .parent x | .setValue x _ | .setChild x _ _ | .setParent x _ => some x
  | .free x => some x
  | .root | .setRoot _ | .create _ _ | .assertFail => none

theorem Explains.ok_at (h : Explains s g) (hat : AtAct s t a) : Ok t a ⟨s.mem, g⟩ := by
  obtain ⟨call, kont, hrun⟩ := hat
  exact Logic.Explains.ok sound h hrun

-- ---------------------------------------------------------------------------
-- Deadlock and lock discipline
-- ---------------------------------------------------------------------------

/-- `t` waits for a lock that `u` holds. -/
def WaitsFor (s : State) (t u : Tid) : Prop :=
  ∃ x, AtAct s t (.lock x) ∧ s.mem.lock x = some u

/-- How the threads use the locks. -/
structure LockDiscipline (s : State) : Prop where
  acyclic : ∀ t, ¬ Relation.TransGen (WaitsFor s) t t
  notHeld : ∀ t x, AtAct s t (.lock x) → s.mem.lock x ≠ some t
  guarded : ∀ t a x, AtAct s t a → a.writes = some x → s.mem.lock x = some t
  /-- What a call leaves locked is neither the tree nor one of its nodes. -/
  released : ∀ t call res, s.thread t = .running call (.ret res) →
    ∀ x, s.mem.live x → s.mem.lock x ≠ some t

theorem AtAct.inj {b : Act} (h : AtAct s t a) (h' : AtAct s t b) : a = b := by
  obtain ⟨_, _, hrun⟩ := h
  obtain ⟨_, _, hrun'⟩ := h'
  exact (Prog.act.inj (Thread.running.inj (hrun.symm.trans hrun')).2).1

/-- What a thread waits for is below what it holds. -/
theorem Explains.below (h : Explains s g) (hat : AtAct s t (.lock x)) (hu : s.mem.lock x = some u)
    (hat' : AtAct s u (.lock y)) : ∃ d, g.Below x d y := by
  obtain ⟨hx, _⟩ := h.ok_at hat
  obtain ⟨_, _, _, hbelow⟩ := h.ok_at hat'
  exact hbelow x ⟨hu, h.inv.live x hx⟩

/-- Along a chain of waiting threads the locks that are asked for lie ever deeper. -/
theorem Explains.descends (h : Explains s g) (hchain : Relation.TransGen (WaitsFor s) t u)
    (hat : AtAct s t (.lock x)) : ∀ y, AtAct s u (.lock y) → ∃ d, g.Below x d y := by
  induction hchain with
  | single hw =>
    obtain ⟨x', hx', hu⟩ := hw
    cases hat.inj hx'
    exact fun y hy => h.below hat hu hy
  | tail _ hw ih =>
    obtain ⟨z, hz, hu⟩ := hw
    intro y hy
    obtain ⟨_, hxz⟩ := ih z hz
    obtain ⟨_, hzy⟩ := h.below hz hu hy
    exact ⟨_, h.inv.tree.lawful.trans hxz hzy⟩

theorem Explains.lockDiscipline (h : Explains s g) : LockDiscipline s where
  acyclic := by
    intro t hcycle
    obtain ⟨_, ⟨x, hx, _⟩, _⟩ := Relation.TransGen.head'_iff.mp hcycle
    obtain ⟨_, hxx⟩ := h.descends hcycle hx x hx
    exact h.inv.tree.lawful.irrefl hxx
  notHeld := fun t x hat => (h.ok_at hat).2.1
  guarded := by
    intro t a x hat hw
    have hok := h.ok_at hat
    cases a <;> cases hw
    · exact hok.1
    · exact hok.2.1
    · exact hok.2.1
    · exact hok.2.1
  released := by
    intro t call res hrun x hx hl
    have hpost : At t (.done res) [] .empty ⟨s.mem, g⟩ := Logic.Explains.post sound h hrun
    simpa using (hpost.mine x).mp ⟨hl, hx⟩

/-- There is no deadlock, and writes are made under locks. -/
theorem lock_discipline (hs : system.Reachable s) : LockDiscipline s := by
  obtain ⟨g, h⟩ := sound.exists_explains hs
  exact Explains.lockDiscipline h

/-- `k` accesses of thread `t`, in which `malloc` returns `a`. -/
def accesses (t : Tid) (k : Nat) (a : Addr) : List (Tid × Action Call Addr) :=
  List.replicate k (t, .access a)

def soloCall (t : Tid) (call : Call) (k : Nat) (a : Addr) : List (Tid × Action Call Addr) :=
  (t, .invoke call) :: accesses t k a ++ [(t, .respond)]

/-- Thread 0 removes the key 5 of the root, to which it moves the key 7 from two
    levels below. Meanwhile thread 1 looks for 7. -/
def runOfRemoval : system.Exec 102 :=
  .ofLabels (1, .respond) (soloCall 0 (.insert 5) 5 1 ++ soloCall 0 (.insert 3) 12 2 ++
    soloCall 0 (.insert 8) 13 3 ++ soloCall 0 (.insert 7) 20 4 ++
    (0, .invoke (.remove 5)) :: accesses 0 12 0 ++ (1, .invoke (.search 7)) :: accesses 1 3 0 ++
    accesses 0 18 0 ++ (0, .respond) :: accesses 1 7 0 ++ [(1, .respond)]) (by decide +kernel)

theorem lock_discipline_removal : LockDiscipline (runOfRemoval.state 83) :=
  lock_discipline (runOfRemoval.reachable (by decide))

-- ---------------------------------------------------------------------------
-- Freed nodes
-- ---------------------------------------------------------------------------

/-- How the threads use the nodes. -/
structure MemorySafe (s : State) : Prop where
  /-- Only nodes that are allocated are used or waited for. -/
  allocated : ∀ t a x, AtAct s t a → a.node = some x → s.mem.allocated x = true
  /-- The lock that a thread asks for is one a pointer that is held leads to. -/
  pointed : ∀ t x, AtAct s t (.lock x) → x ≠ treeLock →
    ∃ p d, s.mem.lock p = some t ∧ s.mem.live p ∧ (s.mem.view p).child d = x
  /-- Any other access is to a node that is held, or reads from the parent of one. -/
  held : ∀ t a x, AtAct s t a → a.node = some x → a ≠ .lock x → s.mem.lock x = some t ∨
    ∃ d, a = .child x d ∧ (s.mem.node x).child d ≠ 0 ∧
      s.mem.lock ((s.mem.node x).child d) = some t
  /-- A node is freed when no other thread holds it, waits for it, or uses it. -/
  unused : ∀ t x, AtAct s t (.free x) → ∀ u, u ≠ t →
    s.mem.lock x ≠ some u ∧ ∀ a, AtAct s u a → a.node ≠ some x

theorem Act.node_lock (h : (Act.lock y).node = some x) : y = x ∧ x ≠ treeLock := by
  simp only [Act.node] at h
  split at h
  · cases h
  · next hy =>
    cases h
    exact ⟨rfl, hy⟩

theorem Act.node_unlock (h : (Act.unlock y).node = some x) : y = x ∧ x ≠ treeLock :=
  Act.node_lock h

/-- A thread that uses a node holds it, or the node is in the tree. -/
theorem Ok.uses {σ : World} (h : Ok t a σ) (hi : Inv σ) (hx : a.node = some x) :
    σ.mem.allocated x = true ∧ (Mine t x σ ∨ x ∈ σ.ghost.tree.nodes) := by
  cases a with
  | lock y =>
    obtain ⟨rfl, hne⟩ := Act.node_lock hx
    exact ⟨(hi.live y h.1).resolve_left hne, .inr h.1⟩
  | unlock y =>
    obtain ⟨rfl, hne⟩ := Act.node_unlock hx
    exact ⟨Mine.allocated h hne, .inl h⟩
  | child y d =>
    cases hx
    exact ⟨h.1, h.2.imp_right And.left⟩
  | free y =>
    cases hx
    exact ⟨h.1, .inl h.2.1⟩
  | value y | parent y | setValue y | setChild y | setParent y =>
    cases hx
    exact ⟨h.1, .inl h.2⟩
  | root | setRoot | create | assertFail => cases hx

theorem Explains.memorySafe (h : Explains s g) : MemorySafe s where
  allocated := fun t a x hat hx => ((h.ok_at hat).uses h.inv hx).1
  pointed := by
    intro t x hat hx
    obtain ⟨_, _, hp, _⟩ := h.ok_at hat
    obtain ⟨p, d, hm, hc⟩ := hp hx
    exact ⟨p, d, hm.1, hm.2, hc⟩
  held := by
    intro t a x hat hx hne
    have hok := h.ok_at hat
    cases a with
    | lock y => exact absurd (congrArg Act.lock (Act.node_lock hx).1) hne
    | unlock y =>
      obtain ⟨rfl, _⟩ := Act.node_unlock hx
      exact .inl hok.1
    | child y d =>
      cases hx
      rcases hok.2 with hm | ⟨hmem, h0, hm⟩
      · exact .inl hm.1
      · have hyt : x ≠ treeLock := fun heq => by
          have hal : s.mem.allocated x = true := hok.1
          rw [heq, h.inv.null] at hal
          cases hal
        rw [view_of_ne hyt] at h0 hm
        exact .inr ⟨d, rfl, h0, hm.1⟩
    | free y =>
      cases hx
      exact .inl hok.2.1.1
    | value y | parent y | setValue y | setChild y | setParent y =>
      cases hx
      exact .inl hok.2.1
    | root | setRoot | create | assertFail => cases hx
  unused := by
    intro t x hat u hut
    obtain ⟨hal, hm, hout⟩ := h.ok_at hat
    have hnot : ¬ Mine u x ⟨s.mem, g⟩ := fun hu => hut (hm.unique hu)
    refine ⟨fun hl => hnot ⟨hl, .inr hal⟩, fun a hat' hx => ?_⟩
    exact ((h.ok_at hat').uses h.inv hx).2.elim hnot hout

/-- In this step a thread frees `x`. -/
def Frees (s : State) (l : Tid × Action Call Addr) (x : Addr) : Prop :=
  AtAct s l.1 (.free x) ∧ ∃ i, l.2 = .access i

/-- In this step `malloc` returns `x`. -/
def Mallocs (s s' : State) (x : Addr) : Prop :=
  s.mem.allocated x = false ∧ s'.mem.allocated x = true

theorem Frees.not_allocated {l : Tid × Action Call Addr} (h : Frees s l x)
    (hnext : system.next s l = some s') : s'.mem.allocated x = false := by
  obtain ⟨⟨call, kont, hrun⟩, i, hl⟩ := h
  obtain ⟨u, act⟩ := l
  obtain rfl : act = .access i := hl
  simp only [Lang.system, Lang.next] at hnext
  rw [hrun] at hnext
  cases hnext
  simp [Mem.free]

/-- No node is used after it has been freed, unless `malloc` has returned its
    address again, and no thread keeps a pointer to it in order to use it. -/
theorem freed_nodes_unused (e : system.Exec n) :
    (∀ i ≤ n, MemorySafe (e.state i)) ∧
    ∀ i j x t a, i < j → j ≤ n → Frees (e.state i) (e.label i) x → AtAct (e.state j) t a →
      a.node = some x → ∃ k, i < k ∧ k < j ∧ Mallocs (e.state k) (e.state (k + 1)) x := by
  have hsafe : ∀ i ≤ n, MemorySafe (e.state i) := by
    intro i hi
    obtain ⟨g, h⟩ := sound.exists_explains (e.reachable hi)
    exact Explains.memorySafe h
  refine ⟨hsafe, fun i j x t a hij hj hfree hat hx => ?_⟩
  have hdead := hfree.not_allocated (e.step i (by omega))
  have hlive := (hsafe j hj).allocated t a x hat hx
  obtain ⟨k, hik, hkj, hk, hk'⟩ := Lts.exists_step
    (P := fun k => (e.state k).mem.allocated x = true) (i := i + 1) hij (by simp [hdead]) hlive
  exact ⟨k, hik, hkj, by simpa using hk, hk'⟩

theorem freed_nodes_unused_removal : MemorySafe (runOfRemoval.state 90) :=
  (freed_nodes_unused runOfRemoval).1 90 (by decide)

end FineGrained
