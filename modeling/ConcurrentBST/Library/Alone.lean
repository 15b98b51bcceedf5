-- SUMMARY: Partial correctness of calls that are made while no other thread does anything.
import ConcurrentBST.Library.RelyGuarantee

/-!
# Calls without interference

Where no other thread writes, a call is a sequential program. `wlp` is the
weakest liberal precondition of such a program, up to its next tail call. Loops
are dealt with by an invariant for each function.
-/

namespace Threads

namespace Lang

variable {T Act : Type} {Ret : Act → Type} {Fn C R M I : Type}

/-- The program makes only actions in `A`, calls only functions in `F`, and returns
    only in `Q`. -/
@[simp] def wlp (L : Lang T Act Ret Fn C R M I) (t : T) (A : Act → M → Prop) (F : Fn → M → Prop)
    (Q : R → M → Prop) : Prog Act Ret Fn R → M → Prop
  | .act a k, m => A a m ∧ ∀ i v m', L.exec t a i m = some (v, m') → wlp L t A F Q (k v) m'
  | .call f, m => F f m
  | .ret r, m => Q r m

variable {L : Lang T Act Ret Fn C R M I} {t : T} {A : Act → M → Prop} {F : Fn → M → Prop}
  {Q : R → M → Prop} {p p' q : Prog Act Ret Fn R} {m m' : M} {i : I}
  {s s' : State T Act Ret Fn C R M} {c : C}

@[simp] theorem wlp_ite {b : Prop} [Decidable b] :
    L.wlp t A F Q (if b then p else q) m ↔ if b then L.wlp t A F Q p m else L.wlp t A F Q q m := by
  split <;> rfl

theorem wlp_perform (hbody : ∀ f m, F f m → L.wlp t A F Q (L.body f) m) (h : L.wlp t A F Q p m)
    (hp : L.perform t i m p = some (m', p')) : L.wlp t A F Q p' m' := by
  cases p with
  | act a k =>
    obtain ⟨⟨v, m₁⟩, hexec, heq⟩ := Option.map_eq_some_iff.mp hp
    cases heq
    exact h.2 i v _ hexec
  | call f =>
    cases hp
    exact hbody f m h
  | ret r => cases hp

/-- A step of the thread that is alone. -/
theorem wlp_next [DecidableEq T] (hbody : ∀ f m, F f m → L.wlp t A F Q (L.body f) m)
    (hrun : s.thread t = .running c p) (h : L.wlp t A F Q p s.mem)
    (hnext : L.next s (t, .access i) = some s') :
    ∃ p', s'.thread t = .running c p' ∧ L.wlp t A F Q p' s'.mem := by
  simp only [next, hrun] at hnext
  obtain ⟨⟨m', p'⟩, hp, rfl⟩ := Option.map_eq_some_iff.mp hnext
  exact ⟨p', Function.update_self .., wlp_perform hbody h hp⟩

end Lang

end Threads
