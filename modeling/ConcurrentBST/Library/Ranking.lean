-- SUMMARY: Threads that run verified programs get on: in every infinite run of finitely many threads calls return over and over.
import ConcurrentBST.Library.InfiniteRuns
import ConcurrentBST.Library.RelyGuarantee
import Mathlib.Data.Finset.Card
import Mathlib.Order.Filter.Finite

/-!
# Ranks

A program without tail calls comes to its end, so a thread that takes steps for
ever without returning makes tail calls for ever. A ranking excludes this: every
tail call goes to a function of a greater rank, and the ranks are bounded by a size
that only finitely many actions increase. It is verified on top of a
rely-guarantee logic, whose assertions about actions and functions it may use.
-/

open Filter

namespace Threads

variable {T Act : Type} {Ret : Act → Type} {Fn C R M I S G H : Type} [DecidableEq T]

-- ---------------------------------------------------------------------------
-- Programs
-- ---------------------------------------------------------------------------

/-- What is left of a program after its first action. -/
inductive Prog.Rest : Prog Act Ret Fn R → Prog Act Ret Fn R → Prop where
  | act (a : Act) (k : Ret a → Prog Act Ret Fn R) (v : Ret a) : Rest (k v) (.act a k)

/-- What is left of a call. -/
inductive Thread.Rest :
    Thread C (Prog Act Ret Fn R) → Thread C (Prog Act Ret Fn R) → Prop where
  | running {c p q} : Prog.Rest q p → Rest (.running c q) (.running c p)

omit [DecidableEq T] in
theorem Thread.acc_running {c : C} {p : Prog Act Ret Fn R} : Acc Rest (Thread.running c p) := by
  induction p with
  | act a k ih =>
    refine ⟨_, fun th hth => ?_⟩
    cases hth with
    | running hq =>
      cases hq with
      | act _ _ v => exact ih v
  | call f => exact ⟨_, fun th hth => by cases hth with | running hq => cases hq⟩
  | ret r => exact ⟨_, fun th hth => by cases hth with | running hq => cases hq⟩

omit [DecidableEq T] in
theorem Thread.wellFounded_rest :
    WellFounded (Rest : Thread C (Prog Act Ret Fn R) → Thread C (Prog Act Ret Fn R) → Prop) := by
  refine ⟨fun th => ?_⟩
  cases th with
  | idle => exact ⟨_, fun th hth => by cases hth⟩
  | running c p => exact acc_running

-- ---------------------------------------------------------------------------
-- Steps
-- ---------------------------------------------------------------------------

namespace Lang

variable {L : Lang T Act Ret Fn C R M I} {m₀ : M} {s s' : State T Act Ret Fn C R M} {t u : T} {i : I}
  {l : T × Action C I}

/-- The step of a thread that is in a call. -/
theorem access_of_next (h : (L.system m₀).next s (t, .access i) = some s') : ∃ c p m p',
    s.thread t = .running c p ∧ L.perform t i s.mem p = some (m, p') ∧
    s' = ⟨m, Function.update s.thread t (.running c p')⟩ := by
  simp only [system, next] at h
  split at h
  · cases h
  · next c p hrun =>
    obtain ⟨⟨m, p'⟩, hp, rfl⟩ := Option.map_eq_some_iff.mp h
    exact ⟨c, p, m, p', hrun, hp, rfl⟩

theorem invoke_of_next {c : C} (h : (L.system m₀).next s (t, .invoke c) = some s') :
    s.thread t = .idle ∧ s' = ⟨s.mem, Function.update s.thread t (.running c (L.start c))⟩ := by
  simp only [system, next] at h
  split at h <;> cases h
  next hidle => exact ⟨hidle, rfl⟩

theorem respond_of_next (h : (L.system m₀).next s (t, .respond) = some s') :
    ∃ c r, s.thread t = .running c (.ret r) ∧ s' = ⟨s.mem, Function.update s.thread t .idle⟩ := by
  simp only [system, next] at h
  split at h <;> cases h
  next c r hrun => exact ⟨c, r, hrun, rfl⟩

/-- A thread stays in its call until it returns. -/
theorem running_of_next (h : (L.system m₀).next s l = some s') (hl : l ≠ (t, .respond))
    (ht : s.thread t ≠ .idle) : s'.thread t ≠ .idle := by
  obtain ⟨u, act⟩ := l
  by_cases hu : t = u
  swap
  · rwa [next_thread h hu]
  subst hu
  cases act with
  | invoke c => exact absurd (invoke_of_next h).1 ht
  | access i =>
    obtain ⟨c, p, m, p', _, _, rfl⟩ := access_of_next h
    simp
  | respond => exact absurd rfl hl

/-- A thread that takes no steps is in no call. -/
theorem idle_of_labels {n k : Nat} (e : (L.system m₀).Exec n) (hk : k ≤ n)
    (h : ∀ j < k, (e.label j).1 ≠ t) : (e.state k).thread t = .idle := by
  induction k with
  | zero => rw [e.start]; rfl
  | succ k ih =>
    rw [next_thread (e.step k hk) (h k (by omega)).symm]
    exact ih (by omega) fun j hj => h j (by omega)

section Runs

variable {r : (L.system m₀).Run} {F : Finset T}

/-- When no call returns any more, no call begins any more. -/
theorem eventually_access (hF : ∀ i, (r.label i).1 ∈ F)
    (hquiet : ∀ᶠ i in atTop, ∀ t, r.label i ≠ (t, .respond)) :
    ∀ᶠ i in atTop, ∃ t j, r.label i = (t, .access j) := by
  have hinvoke : ∀ t ∈ F, ∀ᶠ i in atTop, ¬ ∃ c, r.label i = (t, .invoke c) := by
    intro t _
    refine eventually_not_of_new (P := fun i => (r.state i).thread t ≠ .idle) ?_ (.of_forall ?_)
    · filter_upwards [hquiet] with i hq ht
      exact running_of_next (r.step i) (hq t) ht
    · rintro i ⟨c, hl⟩
      obtain ⟨hidle, hs'⟩ := invoke_of_next (hl ▸ r.step i)
      simp [hidle, hs']
  filter_upwards [F.eventually_all.mpr hinvoke, hquiet] with i hinvoke hq
  have hi := hF i
  generalize r.label i = l at *
  obtain ⟨t, act⟩ := l
  cases act with
  | invoke c => exact absurd ⟨c, rfl⟩ (hinvoke t hi)
  | access j => exact ⟨t, j, rfl⟩
  | respond => exact absurd rfl (hq t)

/-- A thread that makes no tail calls any more comes to a halt. -/
theorem eventually_ne {t : T} (hacc : ∀ᶠ i in atTop, ∃ t j, r.label i = (t, .access j))
    (hcall : ∀ᶠ i in atTop, (r.label i).1 = t → ∀ c f, (r.state i).thread t ≠ .running c (.call f)) :
    ∀ᶠ i in atTop, (r.label i).1 ≠ t := by
  have hrest : ∀ᶠ i in atTop, (r.label i).1 = t →
      ((r.state (i + 1)).thread t).Rest ((r.state i).thread t) := by
    filter_upwards [hacc, hcall] with i ⟨u, x, hl⟩ hcall ht
    obtain rfl : u = t := by rwa [hl] at ht
    obtain ⟨c, p, m, p', hrun, hperform, hs'⟩ := access_of_next (hl ▸ r.step i)
    simp only [hs', Function.update_self, hrun]
    cases p with
    | act a k =>
      obtain ⟨⟨v, _⟩, _, heq⟩ := Option.map_eq_some_iff.mp hperform
      cases heq
      exact .running (.act a k v)
    | call f => exact absurd hrun (hcall ht c f)
    | ret res => cases hperform
  refine eventually_not_of_wellFounded Thread.wellFounded_rest
    (f := fun i => (r.state i).thread t) ?_ hrest
  filter_upwards [hrest] with i hrest
  by_cases ht : (r.label i).1 = t
  · exact .inr (hrest ht)
  · exact .inl (next_thread (r.step i) (Ne.symm ht))

end Runs

end Lang

-- ---------------------------------------------------------------------------
-- Rankings
-- ---------------------------------------------------------------------------

/-- Ranks of functions, with a ghost state of their own. -/
structure Ranking (T Act Fn M H : Type) where
  Inv : World M H → Prop
  /-- What the other threads leave as it is. -/
  Rely : T → World M H → World M H → Prop
  rank : Fn → H → Nat
  /-- The ranks are below the size. -/
  size : H → Nat
  /-- The actions that may change the size. A call performs one of them at most. -/
  grows : Act → Prop

namespace Ranking

variable (Θ : Ranking T Act Fn M H) (Λ : Logic T Act Fn C R M S G) (L : Lang T Act Ret Fn C R M I)

/-- A step of `t` that performs `a`. -/
structure Allows (t : T) (a : Act) (σ σ' : World M H) : Prop where
  inv : Θ.Inv σ'
  guarantee : ∀ u, u ≠ t → Θ.Rely u σ σ'
  size : ¬ Θ.grows a → Θ.size σ'.ghost = Θ.size σ.ghost

/-- The tail calls of the program of `t` go to functions whose rank is above `b`, whatever
    the others do. -/
def wp (t : T) (b : Nat) : Prog Act Ret Fn R → World M H → Prop
  | .act a k, σ => ∀ σ', Θ.Rely t σ σ' → Θ.Inv σ' → (∃ g, Λ.Inv ⟨σ'.mem, g⟩ ∧ Λ.Ok t a ⟨σ'.mem, g⟩) →
      (Θ.grows a → ∀ v, (k v).All (fun a => ¬ Θ.grows a) fun _ => False) ∧
        ∀ i v m, L.exec t a i σ'.mem = some (v, m) →
          ∃ h, Θ.Allows t a σ' ⟨m, h⟩ ∧ wp t b (k v) ⟨m, h⟩
  | .call f, σ => ∀ σ', Θ.Rely t σ σ' → Θ.Inv σ' →
      (∃ g, Λ.Inv ⟨σ'.mem, g⟩ ∧ Λ.Pre t f ⟨σ'.mem, g⟩) → b < Θ.rank f σ'.ghost
  | .ret _, _ => True

/-- An assertion that the other threads keep. -/
def Stable (t : T) (A : World M H → Prop) : Prop :=
  ∀ {σ σ'}, A σ → Θ.Rely t σ σ' → A σ'

def Valid (t : T) (b : Nat) (A : World M H → Prop) (p : Prog Act Ret Fn R) : Prop :=
  ∀ σ, Θ.Inv σ → A σ → Θ.wp Λ L t b p σ

/-- The obligations under which the ranks can be carried along a run. -/
structure Sound (m : M) (h : H) : Prop where
  refl : ∀ t σ, Θ.Rely t σ σ
  trans : ∀ {t σ σ' σ''}, Θ.Rely t σ σ' → Θ.Rely t σ' σ'' → Θ.Rely t σ σ''
  init : Θ.Inv ⟨m, h⟩
  rank_lt : ∀ {σ} f, Θ.Inv σ → Θ.rank f σ.ghost < Θ.size σ.ghost
  start : ∀ t c, Θ.Valid Λ L t 0 (fun _ => True) (L.start c)
  body : ∀ {t f σ}, Θ.Inv σ → (∃ g, Λ.Inv ⟨σ.mem, g⟩ ∧ Λ.Pre t f ⟨σ.mem, g⟩) →
    Θ.wp Λ L t (Θ.rank f σ.ghost) (L.body f) σ

variable {Θ Λ L} {t : T} {b : Nat} {A : World M H → Prop} {σ σ' : World M H}
  {p : Prog Act Ret Fn R} {m₀ : M} {g₀ : G} {h₀ : H}

omit [DecidableEq T] in
theorem Valid.act {a : Act} {k : Ret a → Prog Act Ret Fn R} {B : Ret a → World M H → Prop}
    (hA : Θ.Stable t A) (hgrows : Θ.grows a → ∀ v, (k v).All (fun a => ¬ Θ.grows a) fun _ => False)
    (hstep : ∀ σ g i v m, Θ.Inv σ → A σ → Λ.Inv ⟨σ.mem, g⟩ → Λ.Ok t a ⟨σ.mem, g⟩ →
      L.exec t a i σ.mem = some (v, m) → ∃ h, Θ.Allows t a σ ⟨m, h⟩ ∧ B v ⟨m, h⟩)
    (hk : ∀ v, Θ.Valid Λ L t b (B v) (k v)) : Θ.Valid Λ L t b A (.act a k) := by
  rintro σ _ hAσ σ' hrely hinv ⟨g, hg, hok⟩
  refine ⟨hgrows, fun i v m hexec => ?_⟩
  obtain ⟨h, hallows, hB⟩ := hstep σ' g i v m hinv (hA hAσ hrely) hg hok hexec
  exact ⟨h, hallows, hk v _ hallows.inv hB⟩

omit [DecidableEq T] in
theorem Valid.call {f : Fn} (hA : Θ.Stable t A)
    (h : ∀ σ g, Θ.Inv σ → A σ → Λ.Inv ⟨σ.mem, g⟩ → Λ.Pre t f ⟨σ.mem, g⟩ → b < Θ.rank f σ.ghost) :
    Θ.Valid Λ L t b A (.call f) := by
  rintro σ _ hAσ σ' hrely hinv ⟨g, hg, hpre⟩
  exact h σ' g hinv (hA hAσ hrely) hg hpre

omit [DecidableEq T] in
theorem Valid.ret {r : R} : Θ.Valid Λ L t b A (.ret r) :=
  fun _ _ _ => trivial

omit [DecidableEq T] in
theorem wp_stable (hS : Θ.Sound Λ L m₀ h₀) (h : Θ.wp Λ L t b p σ) (hrely : Θ.Rely t σ σ') :
    Θ.wp Λ L t b p σ' := by
  cases p with
  | act a k => exact fun σ'' hr hi => h σ'' (hS.trans hrely hr) hi
  | call f => exact fun σ'' hr hi => h σ'' (hS.trans hrely hr) hi
  | ret r => trivial

-- ---------------------------------------------------------------------------
-- Ranks along a run
-- ---------------------------------------------------------------------------

/-- The ghost states that go with a state, and the rank of the last tail call of each
    thread. -/
structure Ranked (Θ : Ranking T Act Fn M H) (Λ : Logic T Act Fn C R M S G)
    (L : Lang T Act Ret Fn C R M I) (s : Lang.State T Act Ret Fn C R M) (h : H) (last : T → Nat) :
    Prop where
  explained : ∃ g, Λ.Explains L s g
  inv : Θ.Inv ⟨s.mem, h⟩
  thread : ∀ t c p, s.thread t = .running c p → Θ.wp Λ L t (last t) p ⟨s.mem, h⟩

/-- What an access does to the ranks. -/
inductive Raises (Θ : Ranking T Act Fn M H) (t : T) : Prog Act Ret Fn R → H → (T → Nat) → H →
    (T → Nat) → Prop where
  | act {a k h h' last} : (¬ Θ.grows a → Θ.size h' = Θ.size h) →
      (Θ.grows a → ∀ v, (k v).All (fun a => ¬ Θ.grows a) fun _ => False) →
      Raises Θ t (.act a k) h last h' last
  | call {f h last} {n : Nat} : last t < n → n < Θ.size h →
      Raises Θ t (.call f) h last h (Function.update last t n)

variable {s s' : Lang.State T Act Ret Fn C R M} {h : H} {last : T → Nat} {l : T × Action C I}

theorem Ranked.init (hΛ : Λ.Sound L m₀ g₀) (hS : Θ.Sound Λ L m₀ h₀) :
    Ranked Θ Λ L (L.system m₀).init h₀ fun _ => 0 :=
  ⟨⟨g₀, .init hΛ⟩, hS.init, fun t c p hrun => by cases hrun⟩

/-- One thread moves. -/
theorem Ranked.move (hS : Θ.Sound Λ L m₀ h₀) (hr : Ranked Θ Λ L s h last) {m : M} {h' : H}
    {n : Nat} {th : Thread C (Prog Act Ret Fn R)}
    (hex : ∃ g, Λ.Explains L ⟨m, Function.update s.thread t th⟩ g) (hinv : Θ.Inv ⟨m, h'⟩)
    (hrely : ∀ u, u ≠ t → Θ.Rely u ⟨s.mem, h⟩ ⟨m, h'⟩)
    (hth : ∀ c p, th = .running c p → Θ.wp Λ L t n p ⟨m, h'⟩) :
    Ranked Θ Λ L ⟨m, Function.update s.thread t th⟩ h' (Function.update last t n) := by
  refine ⟨hex, hinv, fun u c p hrun => ?_⟩
  by_cases hut : u = t
  · subst hut
    simp only [Function.update_self] at hrun ⊢
    exact hth c p hrun
  · simp only [Function.update_of_ne hut] at hrun ⊢
    exact wp_stable hS (hr.thread u c p hrun) (hrely u hut)

/-- Every step of the system carries the ranks along. -/
theorem Ranked.step (hΛ : Λ.Sound L m₀ g₀) (hS : Θ.Sound Λ L m₀ h₀) (hr : Ranked Θ Λ L s h last)
    (hnext : (L.system m₀).next s l = some s') : ∃ h' last', Ranked Θ Λ L s' h' last' ∧
      ∀ t i, l = (t, .access i) → ∃ c p, s.thread t = .running c p ∧
        Raises Θ t p h last h' last' := by
  obtain ⟨g, hg⟩ := hr.explained
  have hex : ∃ g', Λ.Explains L s' g' := by
    obtain ⟨g', hg', _⟩ := hg.step hΛ hnext
    exact ⟨g', hg'⟩
  obtain ⟨t, act⟩ := l
  cases act with
  | invoke c =>
    obtain ⟨_, rfl⟩ := Lang.invoke_of_next hnext
    refine ⟨h, _, hr.move hS (n := 0) hex hr.inv (fun u _ => hS.refl u _) fun c' p hp => ?_,
      fun u i heq => by cases heq⟩
    cases hp
    exact hS.start t c _ hr.inv trivial
  | access i =>
    obtain ⟨c, p, m, p', hrun, hperform, rfl⟩ := Lang.access_of_next hnext
    have hwp := hr.thread t c p hrun
    cases p with
    | act a k =>
      obtain ⟨⟨v, _⟩, hexec, heq⟩ := Option.map_eq_some_iff.mp hperform
      cases heq
      have hok : Λ.Ok t a ⟨s.mem, g⟩ := Logic.Explains.ok hΛ hg hrun
      obtain ⟨hgrows, hstep⟩ := hwp _ (hS.refl t _) hr.inv ⟨g, hg.inv, hok⟩
      obtain ⟨h', hallows, hwp'⟩ := hstep i v m hexec
      refine ⟨h', last, ?_, fun u j heq => ?_⟩
      · have hmove := hr.move hS (n := last t) hex hallows.inv hallows.guarantee
          fun c' p hp => by cases hp; exact hwp'
        rwa [Function.update_eq_self] at hmove
      · cases heq
        exact ⟨c, _, hrun, .act hallows.size hgrows⟩
    | call f =>
      cases hperform
      have hpre : Λ.Pre t f ⟨s.mem, g⟩ := by
        have ht := hg.thread t
        rw [hrun] at ht
        exact ht _ (hΛ.refl t _) hg.inv
      refine ⟨h, _, hr.move hS (n := Θ.rank f h) hex hr.inv (fun u _ => hS.refl u _)
        fun c' p hp => ?_, fun u j heq => ?_⟩
      · cases hp
        exact hS.body hr.inv ⟨g, hg.inv, hpre⟩
      · cases heq
        exact ⟨c, _, hrun, .call (hwp _ (hS.refl t _) hr.inv ⟨g, hg.inv, hpre⟩)
          (hS.rank_lt f hr.inv)⟩
    | ret r => cases hperform
  | respond =>
    obtain ⟨c, r, _, rfl⟩ := Lang.respond_of_next hnext
    refine ⟨h, _, hr.move hS (n := 0) hex hr.inv (fun u _ => hS.refl u _) fun c' p hp => ?_,
      fun u i heq => by cases heq⟩
    cases hp

/-- The thread may still perform an action that changes the size, or make a tail call. -/
def Active (Θ : Ranking T Act Fn M H) : Thread C (Prog Act Ret Fn R) → Prop
  | .idle => False
  | .running _ p => ¬ p.All (fun a => ¬ Θ.grows a) fun _ => False

/-- An access of a thread that is not active any more does not make it active again. -/
theorem active_of_next {i : I} (hnext : (L.system m₀).next s (t, .access i) = some s')
    (h : ¬ Θ.Active (s.thread t)) : ¬ Θ.Active (s'.thread t) := by
  obtain ⟨c, p, m, p', hrun, hperform, rfl⟩ := Lang.access_of_next hnext
  rw [hrun] at h
  simp only [Active, not_not, Function.update_self] at h ⊢
  cases p with
  | act a k =>
    obtain ⟨⟨v, _⟩, _, heq⟩ := Option.map_eq_some_iff.mp hperform
    cases heq
    exact h.2 v
  | call f => exact h.elim
  | ret r => cases hperform

/-- The ranks along an infinite run. -/
def Follows (Θ : Ranking T Act Fn M H) (r : (L.system m₀).Run) (ghost : Nat → H)
    (last : Nat → T → Nat) : Prop :=
  ∀ i t x, r.label i = (t, .access x) → ∃ c p, (r.state i).thread t = .running c p ∧
    Raises Θ t p (ghost i) (last i) (ghost (i + 1)) (last (i + 1))

section Runs

variable {r : (L.system m₀).Run} {ghost : Nat → H} {last : Nat → T → Nat} {F : Finset T}

theorem Sound.exists_follows (hΛ : Λ.Sound L m₀ g₀) (hS : Θ.Sound Λ L m₀ h₀)
    (r : (L.system m₀).Run) : ∃ ghost last, Θ.Follows r ghost last := by
  obtain ⟨w, -, -, hw⟩ := r.annotate (γ := H × (T → Nat))
    (I := fun s w => Ranked Θ Λ L s w.1 w.2)
    (R := fun s w l _ w' => ∀ t i, l = (t, .access i) → ∃ c p, s.thread t = .running c p ∧
      Raises Θ t p w.1 w.2 w'.1 w'.2)
    (h₀, fun _ => 0) (.init hΛ hS) fun s w l s' hr hnext => by
      obtain ⟨h', last', hr', hraise⟩ := hr.step hΛ hS hnext
      exact ⟨(h', last'), hr', hraise⟩
  exact ⟨fun i => (w i).1, fun i => (w i).2, hw⟩

variable (hacc : ∀ᶠ i in atTop, ∃ t j, r.label i = (t, .access j)) (hr : Θ.Follows r ghost last)

include hacc hr

/-- A thread performs an action that changes the size once at most. -/
theorem eventually_not_grows (t : T) : ∀ᶠ i in atTop, ¬ ((r.label i).1 = t ∧
    ∃ c a k, (r.state i).thread t = .running c (.act a k) ∧ Θ.grows a) := by
  refine eventually_not_of_new (P := fun i => ¬ Θ.Active ((r.state i).thread t)) ?_ ?_
  · filter_upwards [hacc] with i ⟨u, x, hl⟩ hidle
    by_cases hu : (r.label i).1 = t
    · obtain rfl : u = t := by rwa [hl] at hu
      exact active_of_next (hl ▸ r.step i) hidle
    · rwa [Lang.next_thread (r.step i) (Ne.symm hu)]
  · filter_upwards [hacc] with i ⟨u, x, hl⟩ ⟨ht, c, a, k, hrun, hg⟩
    obtain rfl : u = t := by rwa [hl] at ht
    obtain ⟨c', p, m, p', hrun', hperform, hs'⟩ := Lang.access_of_next (hl ▸ r.step i)
    cases hrun.symm.trans hrun'
    obtain ⟨⟨v, _⟩, _, heq⟩ := Option.map_eq_some_iff.mp hperform
    cases heq
    refine ⟨fun hall => hall ?_, ?_⟩
    · rw [hrun]
      exact fun hall => hall.1 hg
    · obtain ⟨c'', p'', hrun'', hraise⟩ := hr i u x hl
      cases hrun.symm.trans hrun''
      generalize ghost (i + 1) = h', last (i + 1) = last' at hraise
      cases hraise with
      | act _ hdone =>
        simp only [hs', Function.update_self, Active, not_not]
        exact hdone hg v

theorem eventually_size (hF : ∀ i, (r.label i).1 ∈ F) :
    ∀ᶠ i in atTop, Θ.size (ghost (i + 1)) = Θ.size (ghost i) := by
  have hgrow := F.eventually_all.mpr fun t _ => eventually_not_grows hacc hr t
  filter_upwards [hacc, hgrow] with i ⟨u, x, hl⟩ hgrow
  obtain ⟨c, p, hrun, hraise⟩ := hr i u x hl
  have hu : (r.label i).1 = u := by rw [hl]
  generalize ghost (i + 1) = h', last (i + 1) = last' at hraise
  cases hraise with
  | act hsame => exact hsame fun hg => hgrow u (hu ▸ hF i) ⟨hu, _, _, _, hrun, hg⟩
  | call => rfl

/-- When the size does not change any more, the tail calls come to an end. -/
theorem eventually_not_call {n : Nat} (hsize : ∀ᶠ i in atTop, Θ.size (ghost i) = n) (t : T) :
    ∀ᶠ i in atTop, (r.label i).1 = t → ∀ c f, (r.state i).thread t ≠ .running c (.call f) := by
  have hup : ∀ᶠ i in atTop,
      (last (i + 1) t = last i t ∨ last i t < last (i + 1) t ∧ last (i + 1) t < n) ∧
        ((r.label i).1 = t ∧ (∃ c f, (r.state i).thread t = .running c (.call f)) →
          last i t < last (i + 1) t ∧ last (i + 1) t < n) := by
    filter_upwards [hacc, hsize] with i ⟨u, x, hl⟩ hsize
    obtain ⟨c, p, hrun, hraise⟩ := hr i u x hl
    have hu : (r.label i).1 = u := by rw [hl]
    rw [hu]
    generalize ghost (i + 1) = h', last (i + 1) = last', last i = last₀ at hraise ⊢
    cases hraise with
    | act =>
      refine ⟨.inl rfl, fun ⟨ht, c', f, hrun'⟩ => ?_⟩
      subst ht
      cases hrun.symm.trans hrun'
    | @call f _ _ m hlt hm =>
      have hboth : u = t → last₀ t < Function.update last₀ u m t ∧
          Function.update last₀ u m t < n := by
        rintro rfl
        rw [Function.update_self]
        exact ⟨hlt, hsize ▸ hm⟩
      refine ⟨?_, fun ht => hboth ht.1⟩
      by_cases hut : t = u
      · exact .inr (hboth hut.symm)
      · exact .inl (Function.update_of_ne hut ..)
  have hnot : ∀ᶠ i in atTop, ¬ ((r.label i).1 = t ∧
      ∃ c f, (r.state i).thread t = .running c (.call f)) := by
    refine eventually_not_of_lt (f := fun i => n - last i t) ?_ ?_
    · filter_upwards [hup] with i hup
      have := hup.1
      omega
    · filter_upwards [hup] with i hup hP
      have := hup.2 hP
      omega
  filter_upwards [hnot] with i hnot ht c f hrun
  exact hnot ⟨ht, c, f, hrun⟩

end Runs

/-- In a run of finitely many threads calls return over and over. -/
theorem Sound.returns (hΛ : Λ.Sound L m₀ g₀) (hS : Θ.Sound Λ L m₀ h₀) (r : (L.system m₀).Run)
    (F : Finset T) (hF : ∀ i, (r.label i).1 ∈ F) (n : Nat) :
    ∃ i, n ≤ i ∧ ∃ t, r.label i = (t, .respond) := by
  by_contra hno
  have hquiet : ∀ᶠ i in atTop, ∀ t, r.label i ≠ (t, .respond) :=
    eventually_atTop.mpr ⟨n, fun i hi t hl => hno ⟨i, hi, t, hl⟩⟩
  have hacc := Lang.eventually_access hF hquiet
  obtain ⟨ghost, last, hr⟩ := hS.exists_follows hΛ r
  obtain ⟨m, hm⟩ := exists_eventually_eq (f := fun i => Θ.size (ghost i)) (eventually_size hacc hr hF)
  have hhalt : ∀ t ∈ F, ∀ᶠ i in atTop, (r.label i).1 ≠ t := fun t _ =>
    Lang.eventually_ne hacc (eventually_not_call hacc hr hm t)
  obtain ⟨i, hi⟩ := (F.eventually_all.mpr hhalt).exists
  exact hi _ (hF i) rfl

end Ranking

end Threads
