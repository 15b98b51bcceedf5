-- SUMMARY: A system that does what another one does, with chores in between that the other does not know.
import ConcurrentBST.Library.Clients
import Mathlib.Algebra.Order.BigOperators.Group.Finset
import Mathlib.Data.Nat.Nth
import Mathlib.Order.Filter.Cofinite

/-!
# Refinement with chores

A system refines another one if each of its steps is a step of the other, or a
chore, which the other does not see. If no thread can go on for ever with chores,
then an infinite run has an infinite run of the other system in it.
-/

open Filter

universe u v

variable {S C R T σ τ : Type u} {ι : Type v}

namespace Lts

/-- What a step of the first system is to the second one, which is in state `p`: the
    same step, or a chore. There is only so much for a thread to do in a row. -/
inductive Follows (K : Lts τ ι) (obs : σ → ι → Option (Event T C R)) (obs' : τ → ι → Option (Event T C R))
    (thread : ι → T) (chores : σ → T → Nat) (x : σ) (p : τ) (l : ι) (y : σ) : τ → Prop where
  | same {p'} : K.next p l = some p' → obs' p l = obs x l → Follows K obs obs' thread chores x p l y p'
  | chore : obs x l = none → chores y (thread l) < chores x (thread l) →
      (∀ t, t ≠ thread l → chores y t = chores x t) → Follows K obs obs' thread chores x p l y p

/-- The system `L` does what `K` does. -/
structure Refines (L : Lts σ ι) (K : Lts τ ι) (obs : σ → ι → Option (Event T C R))
    (obs' : τ → ι → Option (Event T C R)) (thread : ι → T) (Rel : σ → τ → Prop)
    (chores : σ → T → Nat) : Prop where
  init : Rel L.init K.init
  step : ∀ {x p l y}, L.Reachable x → Rel x p → L.next x l = some y →
    ∃ p', Rel y p' ∧ Follows K obs obs' thread chores x p l y p'

variable {L : Lts σ ι} {K : Lts τ ι} {obs : σ → ι → Option (Event T C R)}
  {obs' : τ → ι → Option (Event T C R)} {thread : ι → T} {Rel : σ → τ → Prop} {chores : σ → T → Nat}

/-- What a client sees of a run and one more step. -/
theorem Exec.history_snoc {n : Nat} (e : L.Exec n) {l : ι} {y : σ}
    (h : L.next (e.state n) l = some y) :
    (e.snoc l y h).history obs (n + 1) = e.history obs n ++ (obs (e.state n) l).toList := by
  have hold : (e.snoc l y h).history obs n = e.history obs n := by
    refine List.filterMap_congr fun i hi => ?_
    have hi := List.mem_range.mp hi
    simp only [snoc, Function.update_of_ne hi.ne, Function.update_of_ne (show i ≠ n + 1 by omega)]
  rw [history_succ, hold]
  simp [snoc]

namespace Refines

-- ---------------------------------------------------------------------------
-- States and histories
-- ---------------------------------------------------------------------------

section Histories

variable (h : L.Refines K obs obs' thread Rel chores)

include h

/-- A run with what is left of it when the chores are taken out. -/
theorem exists_exec {n : Nat} (e : L.Exec n) (l₀ : ι) : ∃ m, ∃ e' : K.Exec m, m ≤ n ∧
    Rel (e.state n) (e'.state m) ∧ e'.history obs' m = e.history obs n := by
  suffices hall : ∀ k ≤ n, ∃ m, ∃ e' : K.Exec m, m ≤ k ∧ Rel (e.state k) (e'.state m) ∧
      e'.history obs' m = e.history obs k from hall n le_rfl
  intro k hk
  induction k with
  | zero =>
    refine ⟨0, ⟨fun _ => K.init, fun _ => l₀, rfl, by omega⟩, le_rfl, ?_, rfl⟩
    rw [e.start]
    exact h.init
  | succ k ih =>
    obtain ⟨m, e', hm, hrel, hhist⟩ := ih (by omega)
    obtain ⟨p', hrel', hfollows⟩ := h.step (e.reachable (by omega)) hrel (e.step k hk)
    cases hfollows with
    | same hnext hobs =>
      refine ⟨m + 1, e'.snoc _ p' hnext, by omega, ?_, ?_⟩
      · simp only [Exec.snoc, Function.update_self]
        exact hrel'
      · rw [e'.history_snoc, e.history_succ, hobs, hhist]
    | chore hobs =>
      refine ⟨m, e', by omega, hrel', ?_⟩
      rw [e.history_succ, hobs, Option.toList_none, List.append_nil, hhist]

/-- If `K` simulates an object then so does `L`. -/
theorem simulates [DecidableEq T] {O : Object S C R} {Rel' : τ → S → (T → Phase C R) → Prop}
    (hsim : K.Simulates obs' O Rel') : L.Simulates obs O fun x s phase =>
      L.Reachable x ∧ ∃ p, K.Reachable p ∧ Rel x p ∧ Rel' p s phase where
  init := ⟨.init, _, .init, h.init, hsim.init⟩
  step := by
    rintro x y l s phase ⟨hx, p, hp, hrel, hrel'⟩ hy
    obtain ⟨p', hrely, hfollows⟩ := h.step hx hrel hy
    cases hfollows with
    | same hnext hobs =>
      obtain ⟨s', phase', hmoves, hs⟩ := hsim.step hrel' hnext
      exact ⟨s', phase', hobs ▸ hmoves, hx.step _ hy, p', hp.step _ hnext, hrely, hs⟩
    | chore hobs =>
      exact ⟨s, phase, hobs ▸ .silent, hx.step _ hy, p, hp, hrely, hrel'⟩

end Histories

-- ---------------------------------------------------------------------------
-- Infinite runs
-- ---------------------------------------------------------------------------

/-- What changes only at certain positions is the same at two between which there is none. -/
theorem eq_of_between {α : Type u} {f : Nat → α} {P : Nat → Prop} (hstay : ∀ i, ¬ P i → f (i + 1) = f i)
    {i j : Nat} (hij : i ≤ j) (hnone : ∀ k, i ≤ k → k < j → ¬ P k) : f j = f i := by
  induction j, hij using Nat.le_induction with
  | base => rfl
  | succ j hij ih =>
    rw [hstay j (hnone j hij (Nat.lt_succ_self j))]
    exact ih fun k hik hkj => hnone k hik (hkj.trans (Nat.lt_succ_self j))

/-- An infinite run of finitely many threads has one of the other system in it: the steps
    `φ 0`, `φ 1` and so on. -/
theorem exists_run (h : L.Refines K obs obs' thread Rel chores) (r : L.Run) {F : Finset T}
    (hF : ∀ i, thread (r.label i) ∈ F) : ∃ (r' : K.Run) (φ : Nat → Nat), StrictMono φ ∧
      ∀ j, r'.label j = r.label (φ j) ∧ Rel (r.state (φ j)) (r'.state j) ∧
        obs' (r'.state j) (r'.label j) = obs (r.state (φ j)) (r.label (φ j)) := by
  classical
  obtain ⟨g, hg₀, hg, hfollows⟩ := r.annotate (I := fun x p => L.Reachable x ∧ Rel x p)
    (R := fun x p l y p' => Follows K obs obs' thread chores x p l y p') K.init ⟨.init, h.init⟩
    fun x p l y hx hy => by
      obtain ⟨p', hrel, hfollows⟩ := h.step hx.1 hx.2 hy
      exact ⟨p', ⟨hx.1.step _ hy, hrel⟩, hfollows⟩
  -- The steps that are no chores.
  let P (i : Nat) : Prop := K.next (g i) (r.label i) = some (g (i + 1)) ∧
    obs' (g i) (r.label i) = obs (r.state i) (r.label i)
  have hchore : ∀ i, ¬ P i → g (i + 1) = g i ∧
      chores (r.state (i + 1)) (thread (r.label i)) < chores (r.state i) (thread (r.label i)) ∧
      ∀ t, t ≠ thread (r.label i) → chores (r.state (i + 1)) t = chores (r.state i) t := by
    intro i hP
    have hi := hfollows i
    dsimp only [P] at hP
    generalize g (i + 1) = p' at hP hi
    cases hi with
    | same hnext hobs => exact absurd ⟨hnext, hobs⟩ hP
    | chore _ hlower hrest => exact ⟨rfl, hlower, hrest⟩
  have hinf : (Set.ofPred P).Infinite := by
    rw [← Nat.frequently_atTop_iff_infinite, Filter.Frequently]
    intro hever
    have hlower : ∀ᶠ i in atTop, ∑ t ∈ F, chores (r.state (i + 1)) t < ∑ t ∈ F, chores (r.state i) t := by
      filter_upwards [hever] with i hi
      obtain ⟨-, hlt, hrest⟩ := hchore i hi
      refine Finset.sum_lt_sum (fun t _ => ?_) ⟨_, hF i, hlt⟩
      by_cases ht : t = thread (r.label i)
      · exact ht ▸ hlt.le
      · exact (hrest t ht).le
    have hnot := eventually_not_of_lt (f := fun i => ∑ t ∈ F, chores (r.state i) t) (P := fun _ => True)
      (hlower.mono fun i hi => hi.le) (hlower.mono fun i hi _ => hi)
    obtain ⟨i, hi⟩ := hnot.exists
    exact hi trivial
  let φ : Nat → Nat := Nat.nth P
  have hφ : StrictMono φ := Nat.nth_strictMono hinf
  have hP : ∀ j, P (φ j) := Nat.nth_mem_of_infinite hinf
  have hindex : ∀ i, P i → ∃ j, φ j = i := fun i hi => ⟨_, Nat.nth_count hi⟩
  have hstart : g (φ 0) = g 0 := by
    refine eq_of_between (fun i hi => (hchore i hi).1) (Nat.zero_le _) fun i _ hlt hi => ?_
    obtain ⟨j, rfl⟩ := hindex i hi
    exact absurd (hφ.lt_iff_lt.mp hlt) (Nat.not_lt_zero j)
  have hnext : ∀ j, g (φ (j + 1)) = g (φ j + 1) := by
    intro j
    have hlt : φ j < φ (j + 1) := hφ (Nat.lt_succ_self j)
    refine eq_of_between (fun i hi => (hchore i hi).1) hlt fun i hle hi hPi => ?_
    obtain ⟨k, rfl⟩ := hindex i hPi
    have hlow := hφ.lt_iff_lt.mp hle
    have hhigh := hφ.lt_iff_lt.mp hi
    omega
  refine ⟨⟨fun j => g (φ j), fun j => r.label (φ j), ?_, fun j => ?_⟩, φ, hφ, fun j =>
    ⟨rfl, (hg _).2, (hP j).2⟩⟩
  · rw [hstart, hg₀]
  · rw [hnext, (hP j).1]

end Refines

end Lts
