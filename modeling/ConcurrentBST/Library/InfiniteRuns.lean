-- SUMMARY: Infinite runs of a transition system, and rules for what happens only finitely often in them.
import ConcurrentBST.Library.Transition
import Mathlib.Order.Filter.AtTopBot.Basic

/-!
# Infinite runs

What holds from some point of an infinite run on is `∀ᶠ i in atTop`. Two rules
show that something happens only finitely often: a number that does not grow
changes only finitely often, and a fact that no step takes away is true from
some point on or never again.
-/

open Filter

universe u v w

variable {σ : Type u} {ι : Type v} {L : Lts σ ι}

-- ---------------------------------------------------------------------------
-- Runs
-- ---------------------------------------------------------------------------

namespace Lts

/-- An infinite run with its states and labels. -/
structure Run (L : Lts σ ι) where
  state : Nat → σ
  label : Nat → ι
  start : state 0 = L.init
  step : ∀ i, L.next (state i) (label i) = some (state (i + 1))

namespace Run

variable (r : L.Run)

theorem reachable (i : Nat) : L.Reachable (r.state i) := by
  induction i with
  | zero => exact r.start ▸ .init
  | succ i ih => exact ih.step _ (r.step i)

/-- A history that every step can extend can be carried along an infinite run. -/
theorem annotate {γ : Type w} {I : σ → γ → Prop} {R : σ → γ → ι → σ → γ → Prop}
    (g₀ : γ) (hinit : I L.init g₀)
    (hstep : ∀ s g l s', I s g → L.next s l = some s' → ∃ g', I s' g' ∧ R s g l s' g') :
    ∃ g : Nat → γ, g 0 = g₀ ∧ (∀ i, I (r.state i) (g i)) ∧
      ∀ i, R (r.state i) (g i) (r.label i) (r.state (i + 1)) (g (i + 1)) := by
  have hext : ∀ i g, I (r.state i) g → ∃ g', I (r.state (i + 1)) g' ∧
      R (r.state i) g (r.label i) (r.state (i + 1)) g' := fun i g h => hstep _ _ _ _ h (r.step i)
  choose ext hI hR using hext
  let next (i : Nat) (p : { g // I (r.state i) g }) : { g // I (r.state (i + 1)) g } :=
    ⟨ext i p.1 p.2, hI i p.1 p.2⟩
  let hist (i : Nat) : { g // I (r.state i) g } := Nat.rec ⟨g₀, r.start ▸ hinit⟩ next i
  exact ⟨fun i => (hist i).1, rfl, fun i => (hist i).2, fun i => hR i _ (hist i).2⟩

/-- The position after `i` steps in a list of `n` labels that is gone through over and over. -/
def turn (n : Nat) : Nat → Nat
  | 0 => 0
  | i + 1 => if turn n i + 1 < n then turn n i + 1 else 0

theorem turn_lt {n : Nat} (hn : 0 < n) (i : Nat) : turn n i < n := by
  cases i with
  | zero => exact hn
  | succ i =>
    unfold turn
    split <;> assumption

/-- The run that goes through a list of labels over and over. `a` is one of them. -/
def cycle (a : ι) (as : List ι) (ha : a ∈ as) (h : L.runFrom L.init as = some L.init) : L.Run where
  state := fun i => (L.runFrom L.init (as.take (turn as.length i))).getD L.init
  label := fun i => as.getD (turn as.length i) a
  start := rfl
  step := by
    intro i
    have hlt := turn_lt (List.length_pos_of_mem ha) i
    have hsome : (L.runFrom L.init as).isSome := by rw [h]; rfl
    obtain ⟨s, hs⟩ := Option.isSome_iff_exists.mp (isSome_runFrom_take hsome (turn as.length i))
    obtain ⟨s', hs'⟩ :=
      Option.isSome_iff_exists.mp (isSome_runFrom_take hsome (turn as.length i + 1))
    have hnext : L.next s as[turn as.length i] = some s' := by
      rw [List.take_succ_eq_append_getElem hlt, runFrom_append, hs] at hs'
      simpa [runFrom] using hs'
    have hend : (L.runFrom L.init (as.take (turn as.length (i + 1)))).getD L.init = s' := by
      unfold turn
      split
      · rw [hs']
        rfl
      · next hge =>
        rw [List.take_of_length_le (by omega), h] at hs'
        exact Option.some.inj hs'
    rw [hend, hs, List.getD_eq_getElem?_getD, List.getElem?_eq_getElem hlt]
    exact hnext

theorem label_cycle {a : ι} {as : List ι} {ha : a ∈ as} {h : L.runFrom L.init as = some L.init}
    (i : Nat) : (cycle a as ha h).label i ∈ as := by
  have hlt := turn_lt (List.length_pos_of_mem ha) i
  simp only [cycle, List.getD_eq_getElem?_getD, List.getElem?_eq_getElem hlt, Option.getD_some]
  exact List.getElem_mem hlt

/-- The run with these labels. By the invariant each of them can be taken. -/
def ofInvariant (label : Nat → ι) (P : Nat → σ → Prop) (hinit : P 0 L.init)
    (hstep : ∀ i s, P i s → ∃ s', L.next s (label i) = some s' ∧ P (i + 1) s') : L.Run where
  state := fun i => Nat.rec L.init (fun i s => (L.next s (label i)).getD s) i
  label := label
  start := rfl
  step := by
    have hP : ∀ i, P i (Nat.rec L.init (fun i s => (L.next s (label i)).getD s) i) := by
      intro i
      induction i with
      | zero => exact hinit
      | succ i ih =>
        obtain ⟨s', hs', hP'⟩ := hstep i _ ih
        simp only [hs', Option.getD_some]
        exact hP'
    intro i
    obtain ⟨s', hs', -⟩ := hstep i _ (hP i)
    simp only [hs', Option.getD_some]

end Run

end Lts

-- ---------------------------------------------------------------------------
-- What happens only finitely often
-- ---------------------------------------------------------------------------

/-- A number that does not grow changes only finitely often. -/
theorem eventually_eq_of_le {f : Nat → Nat} (h : ∀ᶠ i in atTop, f (i + 1) ≤ f i) :
    ∀ᶠ i in atTop, f (i + 1) = f i := by
  obtain ⟨n, hn⟩ := eventually_atTop.mp h
  have hanti : ∀ i j, n ≤ i → i ≤ j → f j ≤ f i := by
    intro i j hi hij
    induction j, hij using Nat.le_induction with
    | base => exact le_rfl
    | succ j hij ih => exact (hn j (hi.trans hij)).trans ih
  -- From the place of the least value on there is nothing left to lose.
  obtain ⟨k, hk, hmin⟩ : ∃ k, n ≤ k ∧ ∀ j, n ≤ j → f k ≤ f j := by
    obtain ⟨_, ⟨k, hk, rfl⟩, hmin⟩ := WellFounded.has_min (wellFounded_lt (α := Nat))
      {a | ∃ k, n ≤ k ∧ f k = a} ⟨f n, n, le_rfl, rfl⟩
    exact ⟨k, hk, fun j hj => not_lt.mp (hmin _ ⟨j, hj, rfl⟩)⟩
  refine eventually_atTop.mpr ⟨k, fun i hi => ?_⟩
  have hni := hk.trans hi
  exact le_antisymm (hn i hni) ((hanti k i hk hi).trans (hmin (i + 1) (by omega)))

/-- What makes a number smaller that never grows happens only finitely often. -/
theorem eventually_not_of_lt {f : Nat → Nat} {P : Nat → Prop}
    (h : ∀ᶠ i in atTop, f (i + 1) ≤ f i) (hlt : ∀ᶠ i in atTop, P i → f (i + 1) < f i) :
    ∀ᶠ i in atTop, ¬ P i := by
  filter_upwards [eventually_eq_of_le h, hlt] with i heq hlt hP
  exact (hlt hP).ne heq

/-- The same for what goes down in a well-founded relation, or stays. -/
theorem eventually_not_of_wellFounded {α : Type w} {rel : α → α → Prop} (hwf : WellFounded rel)
    {f : Nat → α} {P : Nat → Prop} (h : ∀ᶠ i in atTop, f (i + 1) = f i ∨ rel (f (i + 1)) (f i))
    (hP : ∀ᶠ i in atTop, P i → rel (f (i + 1)) (f i)) : ∀ᶠ i in atTop, ¬ P i := by
  obtain ⟨n, hn⟩ := eventually_atTop.mp (h.and hP)
  obtain ⟨_, ⟨k, hk, rfl⟩, hmin⟩ := hwf.has_min {a | ∃ k, n ≤ k ∧ f k = a} ⟨f n, n, le_rfl, rfl⟩
  have hlast : ∀ i, k ≤ i → f i = f k := by
    intro i hi
    induction i, hi using Nat.le_induction with
    | base => rfl
    | succ i hi ih =>
      refine ((hn i (hk.trans hi)).1.resolve_right fun hlt => ?_).trans ih
      exact hmin _ ⟨i + 1, by omega, rfl⟩ (ih ▸ hlt)
  refine eventually_atTop.mpr ⟨k, fun i hi hPi => ?_⟩
  exact hmin _ ⟨i + 1, by omega, rfl⟩ (hlast i hi ▸ (hn i (hk.trans hi)).2 hPi)

/-- A fact that no step takes away is true from some point on or never again. -/
theorem eventually_iff_of_imp {P : Nat → Prop} (h : ∀ᶠ i in atTop, P i → P (i + 1)) :
    ∀ᶠ i in atTop, (P (i + 1) ↔ P i) := by
  obtain ⟨n, hn⟩ := eventually_atTop.mp h
  by_cases hP : ∃ k, n ≤ k ∧ P k
  · obtain ⟨k, hk, hP⟩ := hP
    have hall : ∀ i, k ≤ i → P i := by
      intro i hi
      induction i, hi using Nat.le_induction with
      | base => exact hP
      | succ i hi ih => exact hn i (hk.trans hi) ih
    exact eventually_atTop.mpr ⟨k, fun i hi => iff_of_true (hall _ (by omega)) (hall i hi)⟩
  · have hnot : ∀ i, n ≤ i → ¬ P i := fun i hi hPi => hP ⟨i, hi, hPi⟩
    exact eventually_atTop.mpr ⟨n, fun i hi => iff_of_false (hnot _ (by omega)) (hnot i hi)⟩

/-- What makes a fact true that no step takes away happens only finitely often. -/
theorem eventually_not_of_new {P Q : Nat → Prop} (h : ∀ᶠ i in atTop, P i → P (i + 1))
    (hnew : ∀ᶠ i in atTop, Q i → ¬ P i ∧ P (i + 1)) : ∀ᶠ i in atTop, ¬ Q i := by
  filter_upwards [eventually_iff_of_imp h, hnew] with i hiff hnew hQ
  exact (hnew hQ).1 (hiff.mp (hnew hQ).2)

/-- What changes only finitely often has a last value. -/
theorem exists_eventually_eq {α : Type w} {f : Nat → α} (h : ∀ᶠ i in atTop, f (i + 1) = f i) :
    ∃ a, ∀ᶠ i in atTop, f i = a := by
  obtain ⟨n, hn⟩ := eventually_atTop.mp h
  refine ⟨f n, eventually_atTop.mpr ⟨n, fun i hi => ?_⟩⟩
  induction i, hi using Nat.le_induction with
  | base => rfl
  | succ i hi ih => exact (hn i hi).trans ih
