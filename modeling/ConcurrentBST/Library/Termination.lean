-- SUMMARY: States that every run reaches, and what holds on the way.
import ConcurrentBST.Library.Transition
import Mathlib.Tactic.ByContra

/-!
# Termination

`Until` is the total-correctness counterpart of an invariant: no run from the
state goes on for ever or gets stuck before it reaches `Q`. The steps may be
nondeterministic, and there need not be a bound on their number that does not
depend on the choices made.
-/

universe u v

variable {σ : Type u} {ι : Type v}

/-- Every run from the state reaches `Q`, and `I` holds until then. -/
inductive Until (next : σ → ι → Option σ) (I Q : σ → Prop) : σ → Prop where
  | done {s : σ} : Q s → Until next I Q s
  | step {s : σ} : I s → (∃ a, (next s a).isSome) →
      (∀ a s', next s a = some s' → Until next I Q s') → Until next I Q s

namespace Until

variable {next : σ → ι → Option σ} {I Q R : σ → Prop} {s s' : σ} {a : ι}

theorem trans (h : Until next I Q s) (hQ : ∀ s, Q s → Until next I R s) : Until next I R s := by
  induction h with
  | done h => exact hQ _ h
  | step hI hex _ ih => exact .step hI hex ih

theorem imp {J : σ → Prop} (h : Until next I Q s) (hI : ∀ s, I s → J s) (hQ : ∀ s, Q s → R s) :
    Until next J R s := by
  induction h with
  | done h => exact .done (hQ _ h)
  | step h hex _ ih => exact .step (hI _ h) hex ih

/-- A step before `Q` is reached. -/
theorem after (h : Until next I Q s) (hQ : ¬ Q s) (hs : next s a = some s') : Until next I Q s' := by
  cases h with
  | done h => exact absurd h hQ
  | step _ _ h => exact h a s' hs

theorem before (h : Until next I Q s) (hQ : ¬ Q s) : I s ∧ ∃ a, (next s a).isSome := by
  cases h with
  | done h => exact absurd h hQ
  | step hI hex _ => exact ⟨hI, hex⟩

/-- A state without a next one satisfies `Q`. -/
theorem of_stuck (h : Until next I Q s) (hs : ∀ a, next s a = none) : Q s := by
  by_contra hQ
  obtain ⟨_, a, ha⟩ := h.before hQ
  rw [hs a] at ha
  cases ha

/-- No run goes on for ever without reaching `Q`. -/
theorem not_forever (h : Until next I Q s) : ¬ ∃ run : Nat → σ, run 0 = s ∧ (∀ i, ¬ Q (run i)) ∧
    ∀ i, ∃ a, next (run i) a = some (run (i + 1)) := by
  induction h with
  | done h =>
    rintro ⟨run, rfl, hQ, _⟩
    exact hQ 0 h
  | step _ _ _ ih =>
    rintro ⟨run, rfl, hQ, hrun⟩
    obtain ⟨a, ha⟩ := hrun 0
    exact ih a _ ha ⟨fun i => run (i + 1), rfl, fun i => hQ (i + 1), fun i => hrun (i + 1)⟩

end Until
