-- SUMMARY: Deterministic labelled transition systems, their runs, and the induction rules for invariants.
import Mathlib.Data.Nat.Init

/-!
# Transition systems

A system is an initial state and a partial step function on labels. All
nondeterminism (the scheduler, the allocator, the clients) sits in the label, so
a run is determined by its labels and can be computed.
-/

universe u v w

/-- A labelled transition system whose step is a partial function. -/
structure Lts (σ : Type u) (ι : Type v) where
  init : σ
  next : σ → ι → Option σ

namespace Lts

variable {σ : Type u} {ι : Type v} {L : Lts σ ι}

/-- Run a list of labels from a state. -/
def runFrom (L : Lts σ ι) : σ → List ι → Option σ
  | s, [] => some s
  | s, a :: as => (L.next s a).bind fun s' => runFrom L s' as

/-- The states some run leads to. -/
inductive Reachable (L : Lts σ ι) : σ → Prop where
  | init : Reachable L L.init
  | step {s s' : σ} (a : ι) : Reachable L s → L.next s a = some s' → Reachable L s'

/-- A run of `n` steps with its states and labels. -/
structure Exec (L : Lts σ ι) (n : Nat) where
  state : Nat → σ
  label : Nat → ι
  start : state 0 = L.init
  step : ∀ i < n, L.next (state i) (label i) = some (state (i + 1))

/-! ## Runs -/

theorem runFrom_append {s : σ} {as bs : List ι} :
    L.runFrom s (as ++ bs) = (L.runFrom s as).bind fun s' => L.runFrom s' bs := by
  induction as generalizing s with
  | nil => rfl
  | cons a as ih =>
    simp only [List.cons_append, runFrom, Option.bind_assoc]
    congr 1
    funext s'
    exact ih

theorem Reachable.runFrom {s s' : σ} {as : List ι} (hs : L.Reachable s)
    (h : L.runFrom s as = some s') : L.Reachable s' := by
  induction as generalizing s with
  | nil =>
    cases h
    exact hs
  | cons a as ih =>
    obtain ⟨t, ht, hrest⟩ := Option.bind_eq_some_iff.mp h
    exact ih (hs.step a ht) hrest

theorem isSome_runFrom_take {s : σ} {as : List ι} (h : (L.runFrom s as).isSome) (i : Nat) :
    (L.runFrom s (as.take i)).isSome := by
  rw [← as.take_append_drop i, runFrom_append] at h
  exact Option.isSome_of_isSome_bind h

/-- What holds initially and is preserved by every step holds of every reachable state. -/
theorem Reachable.invariant {P : σ → Prop} (hinit : P L.init)
    (hstep : ∀ s a s', P s → L.next s a = some s' → P s') {s : σ} (h : L.Reachable s) : P s := by
  induction h with
  | init => exact hinit
  | step a _ hnext ih => exact hstep _ a _ ih hnext

/-- What does not hold at first and holds later becomes true in some step. -/
theorem exists_step {P : Nat → Prop} {i j : Nat} (hij : i ≤ j) (hi : ¬ P i) (hj : P j) :
    ∃ k, i ≤ k ∧ k < j ∧ ¬ P k ∧ P (k + 1) := by
  induction j, hij using Nat.le_induction with
  | base => exact absurd hj hi
  | succ j hij ih =>
    by_cases hP : P j
    · obtain ⟨k, hik, hkj, hk⟩ := ih hP
      exact ⟨k, hik, by omega, hk⟩
    · exact ⟨j, hij, by omega, hP, hj⟩

namespace Exec

/-- The run of a list of labels. `a` stands behind the end of the list. -/
def ofLabels (a : ι) (as : List ι) (h : (L.runFrom L.init as).isSome) : L.Exec as.length where
  state := fun i => (L.runFrom L.init (as.take i)).getD L.init
  label := fun i => as.getD i a
  start := rfl
  step := by
    intro i hi
    obtain ⟨s, hs⟩ := Option.isSome_iff_exists.mp (isSome_runFrom_take h i)
    obtain ⟨s', hs'⟩ := Option.isSome_iff_exists.mp (isSome_runFrom_take h (i + 1))
    rw [hs, hs', List.getD_eq_getElem?_getD, List.getElem?_eq_getElem hi]
    rw [List.take_succ_eq_append_getElem hi, runFrom_append, hs] at hs'
    simpa [runFrom] using hs'

theorem state_ofLabels {a : ι} {as : List ι} (h : (L.runFrom L.init as).isSome) {i : Nat} {s : σ}
    (hs : L.runFrom L.init (as.take i) = some s) : (ofLabels a as h).state i = s := by
  simp only [ofLabels, hs, Option.getD_some]

theorem label_ofLabels {a : ι} {as : List ι} (h : (L.runFrom L.init as).isSome) {i : Nat}
    (hi : i < as.length) : (ofLabels a as h).label i = as[i] := by
  simp only [ofLabels, List.getD_eq_getElem?_getD, List.getElem?_eq_getElem hi, Option.getD_some]

/-- A run that can be computed leads to a state from which one more step can be taken. -/
theorem exists_of_runFrom {p : σ → Bool} {as : List ι} {a : ι}
    (h : (L.runFrom L.init as).any p = true) (hnext : ∀ s, p s = true → (L.next s a).isSome) :
    ∃ e : L.Exec (as.length + 1), p (e.state as.length) = true ∧ e.label as.length = a ∧
      ∀ i < as.length, e.label i ∈ as := by
  obtain ⟨s, hs, hp⟩ := (Option.any_eq_true p _).mp h
  have hrun : (L.runFrom L.init (as ++ [a])).isSome := by
    obtain ⟨s', hs'⟩ := Option.isSome_iff_exists.mp (hnext s hp)
    simp [runFrom_append, hs, runFrom, hs']
  have hlen : (as ++ [a]).length = as.length + 1 := by simp
  have htake : L.runFrom L.init ((as ++ [a]).take as.length) = some s := by
    rw [List.take_left, hs]
  rw [← hlen]
  refine ⟨ofLabels a (as ++ [a]) hrun, ?_, ?_, fun i hi => ?_⟩
  · rw [state_ofLabels hrun htake]
    exact hp
  · rw [label_ofLabels hrun (by simp)]
    simp
  · rw [label_ofLabels hrun (by simp; omega), List.getElem_append_left hi]
    exact List.getElem_mem hi

variable {n : Nat} (e : L.Exec n)

theorem reachable {i : Nat} (hi : i ≤ n) : L.Reachable (e.state i) := by
  induction i with
  | zero => exact e.start ▸ .init
  | succ i ih => exact (ih (by omega)).step _ (e.step i (by omega))

/-- What every step preserves holds from the point where it first holds. -/
theorem preserved {P : σ → Prop} (hstep : ∀ s a s', L.Reachable s → P s →
    L.next s a = some s' → P s') {i j : Nat} (hij : i ≤ j) (hj : j ≤ n)
    (h : P (e.state i)) : P (e.state j) := by
  induction j, hij using Nat.le_induction with
  | base => exact h
  | succ j hij ih =>
    exact hstep _ _ _ (e.reachable (by omega)) (ih (by omega)) (e.step j (by omega))

/-- A history that every allowed step can extend can be carried along a whole run. -/
theorem annotate {γ : Type w} {I : σ → γ → Prop} {R : σ → γ → ι → σ → γ → Prop}
    {Ok : σ → ι → Prop} (g₀ : γ) (hinit : I L.init g₀)
    (hstep : ∀ s g l s', I s g → Ok s l → L.next s l = some s' → ∃ g', I s' g' ∧ R s g l s' g')
    (hok : ∀ i < n, Ok (e.state i) (e.label i)) :
    ∃ g : Nat → γ, g 0 = g₀ ∧ (∀ i ≤ n, I (e.state i) (g i)) ∧
      ∀ i < n, R (e.state i) (g i) (e.label i) (e.state (i + 1)) (g (i + 1)) := by
  suffices h : ∀ k ≤ n, ∃ g : Nat → γ, g 0 = g₀ ∧ (∀ i ≤ k, I (e.state i) (g i)) ∧
      ∀ i < k, R (e.state i) (g i) (e.label i) (e.state (i + 1)) (g (i + 1)) from
    h n (Nat.le_refl n)
  intro k hk
  induction k with
  | zero =>
    refine ⟨fun _ => g₀, rfl, fun i hi => ?_, fun i hi => absurd hi (Nat.not_lt_zero i)⟩
    obtain rfl : i = 0 := by omega
    exact e.start ▸ hinit
  | succ k ih =>
    obtain ⟨g, hg₀, hI, hR⟩ := ih (by omega)
    obtain ⟨g', hI', hR'⟩ :=
      hstep _ _ _ _ (hI k (Nat.le_refl k)) (hok k (by omega)) (e.step k (by omega))
    have hold : ∀ i, i ≤ k → (if i ≤ k then g i else g') = g i := fun i hi => if_pos hi
    have hnew : (if k + 1 ≤ k then g (k + 1) else g') = g' := if_neg (by omega)
    refine ⟨fun i => if i ≤ k then g i else g', by simpa using hg₀, fun i hi => ?_, fun i hi => ?_⟩
    · by_cases hik : i ≤ k
      · simpa only [hold i hik] using hI i hik
      · obtain rfl : i = k + 1 := by omega
        simpa only [hnew] using hI'
    · by_cases hik : i = k
      · subst hik
        simpa only [hold i (Nat.le_refl i), hnew] using hR'
      · have hlt : i < k := by omega
        simpa only [hold i (by omega), hold (i + 1) hlt] using hR i hlt

end Exec

end Lts
