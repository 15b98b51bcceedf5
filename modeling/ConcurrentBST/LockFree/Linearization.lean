-- SUMMARY: The lock-free tree is a linearizable set of integers.
import ConcurrentBST.LockFree.Invariant

/-!
# Linearizability of the lock-free tree

The abstraction of a state is the set of keys of the nodes that count, together
with the status of every thread. Both are functions of the memory and its
history, and by `Change.moves` every step of the program is a step of the
atomic set.
-/

namespace LockFree

variable {cfg : Config} {s s' : State} {g : Ghost} {l : Tid × Action}

/-- What the clients see of a step. -/
def observe (s : State) : Tid × Action → Option (Event Tid Call Result)
  | (t, .invoke call) => some (.invoke t call)
  | (_, .access _) => none
  | (t, .respond) =>
      match s.thread t with
      | .running _ (.ret r) => some (.respond t r)
      | _ => none

/-- A state of the system and the state of the atomic set it stands for. -/
def Represents (cfg : Config) (s : State) (keySet : Set Int) (phase : Tid → Phase Call Result) :
    Prop :=
  ∃ g, Inv cfg s g ∧ keySet = keys s.mem g ∧ phase = g.phases

theorem represents_initial : Represents cfg .initial setObject.init fun _ => .idle :=
  ⟨.initial, .initial, keys_initial.symm, rfl⟩

/-- A step of the system is one of the atomic set. -/
theorem Traces.moves {g' : Ghost} (htrace : Traces cfg s.mem g l s'.mem g') (h : Inv cfg s g)
    (hnext : (system cfg).next s l = some s') :
    Moves setObject (observe s l) (keys s.mem g) g.phases (keys s'.mem g') g'.phases := by
  cases steps_of_next hnext with
  | invoke ht =>
    cases htrace with
    | invoke hidle =>
      rw [keys_setStatus, phases_setStatus]
      exact .invoke (congrArg Status.phase hidle)
  | access ht he =>
    cases htrace with
    | access hc => exact hc.moves h.mem h.status
  | respond ht =>
    cases htrace with
    | respond hdone =>
      rw [keys_setStatus, phases_setStatus]
      obtain rfl := Status.done.inj ((h.pc ht).symm.trans hdone)
      simp only [observe, ht]
      exact .respond (congrArg Status.phase hdone)

theorem represents_step (hcfg : cfg.hazardPointers = false) (hre : cfg.reuse = false)
    (h : Inv cfg s g) (hnext : (system cfg).next s l = some s') :
    ∃ keySet phase, Moves setObject (observe s l) (keys s.mem g) g.phases keySet phase ∧
      Represents cfg s' keySet phase := by
  obtain ⟨g', hinv, htrace⟩ := h.step hcfg (careful_of_fresh hre) hnext
  exact ⟨keys s'.mem g', g'.phases, htrace.moves h hnext, g', hinv, rfl, rfl⟩

theorem simulates (hcfg : cfg.hazardPointers = false) (hre : cfg.reuse = false) :
    (system cfg).Simulates observe setObject (Represents cfg) where
  init := represents_initial
  step := by
    rintro s s' l _ _ ⟨g, h, rfl, rfl⟩ hnext
    exact represents_step hcfg hre h hnext

/-- Every history of `add`, `remove` and `find` is one of an atomic set. -/
theorem history_linearizable {n : Nat} (e : (system .plain).Exec n) :
    Linearizable setObject (e.history observe n) :=
  (simulates rfl rfl).linearizable e

/-- The same for a run with a given history. -/
theorem History.atomic {n : Nat} {e : (system cfg).Exec n} (H : History e) {i : Nat} (hi : i ≤ n) :
    Atomic setObject (e.history observe i) (keys (e.state i).mem (H.ghost i))
      (H.ghost i).phases := by
  induction i with
  | zero =>
    rw [H.start, e.start]
    exact keys_initial ▸ .init
  | succ i ih =>
    rw [e.history_succ]
    exact (ih (by omega)).moves ((H.traces i hi).moves (H.inv i (by omega)) (e.step i hi))

end LockFree
