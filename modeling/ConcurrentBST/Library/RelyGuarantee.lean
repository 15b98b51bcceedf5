-- SUMMARY: Threads that run programs of atomic actions, and a rely-guarantee logic for them.
import ConcurrentBST.Library.Linearizability

/-!
# Rely-guarantee reasoning

A program is a tree of atomic actions whose branches depend on what the actions
return. Loops and recursion are tail calls of named functions. Threads execute
calls of such programs on a shared memory, one action at a time.

The logic adds a ghost state to the memory. `Rely t` is what the other threads may
do while `t` does nothing. A program is verified against a precondition for each
function, one action at a time, from assertions that `Rely` keeps.
-/

namespace Threads

/-- Atomic actions, tail calls, and returns. -/
inductive Prog (Act : Type) (Ret : Act → Type) (Fn R : Type) where
  | act (a : Act) (k : Ret a → Prog Act Ret Fn R)
  | call (f : Fn)
  | ret (r : R)

/-- Every action of the program satisfies `P`, and every tail call `Q`, whatever the
    actions return. -/
@[simp] def Prog.All {Act : Type} {Ret : Act → Type} {Fn R : Type} (P : Act → Prop) (Q : Fn → Prop) :
    Prog Act Ret Fn R → Prop
  | .act a k => P a ∧ ∀ v, (k v).All P Q
  | .call f => Q f
  | .ret _ => True

@[simp] theorem Prog.all_ite {Act : Type} {Ret : Act → Type} {Fn R : Type} {P : Act → Prop}
    {Q : Fn → Prop} {c : Prop} [Decidable c] {p q : Prog Act Ret Fn R} :
    (if c then p else q).All P Q ↔ if c then p.All P Q else q.All P Q := by
  split <;> rfl

/-- What a thread does in one step. `access` performs an action or a call. -/
inductive Action (C I : Type) where
  | invoke (c : C)
  | access (i : I)
  | respond

/-- A thread executes one call at a time. -/
inductive Thread (C P : Type) where
  | idle
  | running (c : C) (p : P)

/-- The meaning of actions on a memory `M`, with inputs `I` for what they leave
    open, and the programs of functions and calls. -/
structure Lang (T Act : Type) (Ret : Act → Type) (Fn C R M I : Type) where
  exec : T → (a : Act) → I → M → Option (Ret a × M)
  body : Fn → Prog Act Ret Fn R
  start : C → Prog Act Ret Fn R

namespace Lang

variable {T Act : Type} {Ret : Act → Type} {Fn C R M I : Type} [DecidableEq T]

/-- The shared memory and what each thread has to do. -/
structure State (T Act : Type) (Ret : Act → Type) (Fn C R M : Type) where
  mem : M
  thread : T → Thread C (Prog Act Ret Fn R)

variable (L : Lang T Act Ret Fn C R M I)

/-- One action or tail call of `t`. -/
def perform (t : T) (i : I) (m : M) : Prog Act Ret Fn R → Option (M × Prog Act Ret Fn R)
  | .act a k => (L.exec t a i m).map fun (v, m) => (m, k v)
  | .call f => some (m, L.body f)
  | .ret _ => none

def next (s : State T Act Ret Fn C R M) : T × Action C I → Option (State T Act Ret Fn C R M)
  | (t, .invoke c) =>
      match s.thread t with
      | .idle => some ⟨s.mem, Function.update s.thread t (.running c (L.start c))⟩
      | .running _ _ => none
  | (t, .access i) =>
      match s.thread t with
      | .idle => none
      | .running c p => (L.perform t i s.mem p).map fun (m, p) =>
          ⟨m, Function.update s.thread t (.running c p)⟩
  | (t, .respond) =>
      match s.thread t with
      | .running _ (.ret _) => some ⟨s.mem, Function.update s.thread t .idle⟩
      | _ => none

/-- Any number of threads, each making any calls. -/
def system (m : M) : Lts (State T Act Ret Fn C R M) (T × Action C I) where
  init := ⟨m, fun _ => .idle⟩
  next := L.next

/-- What a client sees of a step. -/
def observe (s : State T Act Ret Fn C R M) : T × Action C I → Option (Event T C R)
  | (t, .invoke c) => some (.invoke t c)
  | (_, .access _) => none
  | (t, .respond) =>
      match s.thread t with
      | .running _ (.ret r) => some (.respond t r)
      | _ => none

variable {L} {s s' : State T Act Ret Fn C R M} {t u : T} {l : T × Action C I} {c : C} {m : M}
  {p : Prog Act Ret Fn R} {P : Act → Prop} {Q : Fn → Prop} {V : C → Prop}

/-- A step of one thread does not move the others. -/
theorem next_thread (h : L.next s l = some s') (hu : u ≠ l.1) : s'.thread u = s.thread u := by
  obtain ⟨t, act⟩ := l
  cases act <;> simp only [next] at h <;> split at h <;> try cases h
  · exact Function.update_of_ne hu ..
  · obtain ⟨_, _, rfl⟩ := Option.map_eq_some_iff.mp h
    exact Function.update_of_ne hu ..
  · exact Function.update_of_ne hu ..

/-- What is in the programs of calls and functions is all that threads do in such calls. -/
theorem all_of_reachable (hstart : ∀ c, V c → (L.start c).All P Q)
    (hbody : ∀ f, Q f → (L.body f).All P Q) (hs : (L.system m).Reachable s) :
    ∀ t c p, s.thread t = .running c p → V c → p.All P Q := by
  refine hs.invariant (P := fun s => ∀ t c p, s.thread t = .running c p → V c → p.All P Q)
    (fun t c p h => by cases h) fun s l s' ih hnext t c p hrun hc => ?_
  by_cases ht : t ≠ l.1
  · exact ih t c p (next_thread hnext ht ▸ hrun) hc
  obtain ⟨u, act⟩ := l
  obtain rfl : t = u := Classical.not_not.mp ht
  cases act with
  | invoke c' =>
    simp only [system, next] at hnext
    split at hnext <;> cases hnext
    simp only [Function.update_self, Thread.running.injEq] at hrun
    obtain ⟨rfl, rfl⟩ := hrun
    exact hstart _ hc
  | access i =>
    simp only [system, next] at hnext
    split at hnext
    · cases hnext
    next c' p' hrun' =>
    obtain ⟨⟨m', p''⟩, hperform, rfl⟩ := Option.map_eq_some_iff.mp hnext
    simp only [Function.update_self, Thread.running.injEq] at hrun
    obtain ⟨rfl, rfl⟩ := hrun
    have hall := ih t _ _ hrun' hc
    cases p' with
    | act a k =>
      obtain ⟨⟨v, _⟩, _, heq⟩ := Option.map_eq_some_iff.mp hperform
      cases heq
      exact hall.2 v
    | call f =>
      cases hperform
      exact hbody f hall
    | ret r => cases hperform
  | respond =>
    simp only [system, next] at hnext
    split at hnext <;> cases hnext
    simp at hrun

end Lang

-- ---------------------------------------------------------------------------
-- The logic
-- ---------------------------------------------------------------------------

/-- A memory together with its ghost state. -/
structure World (M G : Type) where
  mem : M
  ghost : G

section

variable {T Act : Type} {Ret : Act → Type} {Fn C R M I S G : Type} [DecidableEq T]

/-- What the programs are verified with, and the object they implement. -/
structure Logic (T Act : Type) (Fn C R M S G : Type) where
  /-- What always holds. -/
  Inv : World M G → Prop
  /-- What the other threads may do. -/
  Rely : T → World M G → World M G → Prop
  /-- What holds whenever a thread is at an action. -/
  Ok : T → Act → World M G → Prop
  Pre : T → Fn → World M G → Prop
  Post : T → R → World M G → Prop
  Idle : T → World M G → Prop
  object : Object S C R
  abs : G → S
  phase : G → T → Phase C R

namespace Logic

variable (Λ : Logic T Act Fn C R M S G) (L : Lang T Act Ret Fn C R M I)

/-- A step of `t` that the client sees as `ev`, and that keeps what the others rely on. -/
structure Allows (t : T) (ev : Option (Event T C R)) (σ σ' : World M G) : Prop where
  moves : Moves Λ.object ev (Λ.abs σ.ghost) (Λ.phase σ.ghost) (Λ.abs σ'.ghost) (Λ.phase σ'.ghost)
  inv : Λ.Inv σ'
  guarantee : ∀ u, u ≠ t → Λ.Rely u σ σ'

/-- The program of `t` can be executed from a world, whatever the others do. -/
def wp (t : T) : Prog Act Ret Fn R → World M G → Prop
  | .act a k, σ => ∀ σ', Λ.Rely t σ σ' → Λ.Inv σ' → Λ.Ok t a σ' ∧
      ∀ i v m, L.exec t a i σ'.mem = some (v, m) →
        ∃ g, Λ.Allows t none σ' ⟨m, g⟩ ∧ wp t (k v) ⟨m, g⟩
  | .call f, σ => ∀ σ', Λ.Rely t σ σ' → Λ.Inv σ' → Λ.Pre t f σ'
  | .ret r, σ => ∀ σ', Λ.Rely t σ σ' → Λ.Inv σ' → Λ.Post t r σ'

/-- An assertion that the other threads keep. -/
def Stable (t : T) (A : World M G → Prop) : Prop :=
  ∀ {σ σ'}, A σ → Λ.Rely t σ σ' → Λ.Inv σ' → A σ'

/-- The program may be executed wherever `A` holds. -/
def Valid (t : T) (A : World M G → Prop) (p : Prog Act Ret Fn R) : Prop :=
  ∀ σ, Λ.Inv σ → A σ → Λ.wp L t p σ

/-- The obligations under which every run of the language can be carried along. -/
structure Sound (m : M) (g : G) : Prop where
  refl : ∀ t σ, Λ.Rely t σ σ
  trans : ∀ {t σ σ' σ''}, Λ.Rely t σ σ' → Λ.Rely t σ' σ'' → Λ.Rely t σ σ''
  idle_stable : ∀ t, Λ.Stable t (Λ.Idle t)
  init : Λ.Inv ⟨m, g⟩ ∧ ∀ t, Λ.Idle t ⟨m, g⟩
  init_abs : Λ.abs g = Λ.object.init ∧ Λ.phase g = fun _ => .idle
  start : ∀ {t c σ}, Λ.Inv σ → Λ.Idle t σ →
    ∃ g, Λ.Allows t (some (.invoke t c)) σ ⟨σ.mem, g⟩ ∧ Λ.wp L t (L.start c) ⟨σ.mem, g⟩
  body : ∀ t f, Λ.Valid L t (Λ.Pre t f) (L.body f)
  finish : ∀ {t r σ}, Λ.Inv σ → Λ.Post t r σ →
    ∃ g, Λ.Allows t (some (.respond t r)) σ ⟨σ.mem, g⟩ ∧ Λ.Idle t ⟨σ.mem, g⟩

variable {Λ L} {t : T} {A B : World M G → Prop} {σ σ' : World M G} {p : Prog Act Ret Fn R}
  {m₀ : M} {g₀ : G}

-- ---------------------------------------------------------------------------
-- Rules
-- ---------------------------------------------------------------------------

/-- An action takes one stable assertion to another. -/
theorem Valid.act {a : Act} {k : Ret a → Prog Act Ret Fn R} {B : Ret a → World M G → Prop}
    (hA : Λ.Stable t A) (hok : ∀ σ, Λ.Inv σ → A σ → Λ.Ok t a σ)
    (hstep : ∀ σ i v m, Λ.Inv σ → A σ → L.exec t a i σ.mem = some (v, m) →
      ∃ g, Λ.Allows t none σ ⟨m, g⟩ ∧ B v ⟨m, g⟩)
    (hk : ∀ v, Λ.Valid L t (B v) (k v)) : Λ.Valid L t A (.act a k) := by
  intro σ _ hAσ σ' hrely hinv
  have hAσ' := hA hAσ hrely hinv
  refine ⟨hok σ' hinv hAσ', fun i v m hexec => ?_⟩
  obtain ⟨g, hallows, hB⟩ := hstep σ' i v m hinv hAσ' hexec
  exact ⟨g, hallows, hk v _ hallows.inv hB⟩

theorem Valid.call {f : Fn} (hA : Λ.Stable t A) (h : ∀ σ, Λ.Inv σ → A σ → Λ.Pre t f σ) :
    Λ.Valid L t A (.call f) :=
  fun _ _ hAσ σ' hrely hinv => h σ' hinv (hA hAσ hrely hinv)

theorem Valid.ret {r : R} (hA : Λ.Stable t A) (h : ∀ σ, Λ.Inv σ → A σ → Λ.Post t r σ) :
    Λ.Valid L t A (.ret r) :=
  fun _ _ hAσ σ' hrely hinv => h σ' hinv (hA hAσ hrely hinv)

theorem Valid.mono (hB : Λ.Valid L t B p) (h : ∀ σ, Λ.Inv σ → A σ → B σ) : Λ.Valid L t A p :=
  fun σ hinv hAσ => hB σ hinv (h σ hinv hAσ)

-- ---------------------------------------------------------------------------
-- Soundness
-- ---------------------------------------------------------------------------

theorem wp_stable (hS : Λ.Sound L m₀ g₀) (h : Λ.wp L t p σ) (hrely : Λ.Rely t σ σ') :
    Λ.wp L t p σ' := by
  cases p with
  | act a k => exact fun σ'' hr hi => h σ'' (hS.trans hrely hr) hi
  | call f => exact fun σ'' hr hi => h σ'' (hS.trans hrely hr) hi
  | ret r => exact fun σ'' hr hi => h σ'' (hS.trans hrely hr) hi

/-- Where a thread stands in its call. -/
def Follows (Λ : Logic T Act Fn C R M S G) (L : Lang T Act Ret Fn C R M I) (t : T)
    (σ : World M G) : Thread C (Prog Act Ret Fn R) → Prop
  | .idle => Λ.Idle t σ
  | .running _ p => Λ.wp L t p σ

/-- The ghost state explains the state of the system. -/
structure Explains (Λ : Logic T Act Fn C R M S G) (L : Lang T Act Ret Fn C R M I)
    (s : Lang.State T Act Ret Fn C R M) (g : G) : Prop where
  inv : Λ.Inv ⟨s.mem, g⟩
  thread : ∀ t, Λ.Follows L t ⟨s.mem, g⟩ (s.thread t)

variable {s s' : Lang.State T Act Ret Fn C R M} {g : G} {l : T × Action C I}

theorem Follows.stable (hS : Λ.Sound L m₀ g₀) {th : Thread C (Prog Act Ret Fn R)}
    (h : Λ.Follows L t σ th) (hrely : Λ.Rely t σ σ') (hinv : Λ.Inv σ') : Λ.Follows L t σ' th := by
  cases th with
  | idle => exact hS.idle_stable t h hrely hinv
  | running c p => exact wp_stable hS h hrely

/-- A step of `t` that the logic allows keeps the explanation. -/
theorem Explains.allows (hS : Λ.Sound L m₀ g₀) (h : Λ.Explains L s g) {m : M} {g' : G}
    {ev : Option (Event T C R)} {th : Thread C (Prog Act Ret Fn R)}
    (ha : Λ.Allows t ev ⟨s.mem, g⟩ ⟨m, g'⟩) (hth : Λ.Follows L t ⟨m, g'⟩ th) :
    Λ.Explains L ⟨m, Function.update s.thread t th⟩ g' := by
  refine ⟨ha.inv, fun u => ?_⟩
  by_cases hut : u = t
  · subst hut
    simpa using hth
  · simpa [hut] using (h.thread u).stable hS (ha.guarantee u hut) ha.inv

theorem Explains.init (hS : Λ.Sound L m₀ g₀) : Λ.Explains L (L.system m₀).init g₀ :=
  ⟨hS.init.1, hS.init.2⟩

/-- Every step of the system is one of the object. -/
theorem Explains.step (hS : Λ.Sound L m₀ g₀) (h : Λ.Explains L s g)
    (hnext : (L.system m₀).next s l = some s') :
    ∃ g', Λ.Explains L s' g' ∧
      Moves Λ.object (Lang.observe s l) (Λ.abs g) (Λ.phase g) (Λ.abs g') (Λ.phase g') := by
  obtain ⟨t, act⟩ := l
  have ht := h.thread t
  cases act with
  | invoke c =>
    simp only [Lang.system, Lang.next] at hnext
    split at hnext
    · next hidle =>
      cases hnext
      rw [hidle] at ht
      obtain ⟨g', ha, hwp⟩ := hS.start (c := c) h.inv ht
      exact ⟨g', h.allows hS ha hwp, ha.moves⟩
    · cases hnext
  | access i =>
    simp only [Lang.system, Lang.next] at hnext
    split at hnext
    · cases hnext
    · next c p hrun =>
      rw [hrun] at ht
      cases p with
      | act a k =>
        simp only [Lang.perform, Option.map_map, Option.map_eq_some_iff] at hnext
        obtain ⟨⟨v, m⟩, hexec, rfl⟩ := hnext
        obtain ⟨g', ha, hwp⟩ := (ht _ (hS.refl t _) h.inv).2 i v m hexec
        exact ⟨g', h.allows hS ha hwp, ha.moves⟩
      | call f =>
        cases hnext
        have hwp := hS.body t f _ h.inv (ht _ (hS.refl t _) h.inv)
        have ha : Λ.Allows t none ⟨s.mem, g⟩ ⟨s.mem, g⟩ := ⟨.silent, h.inv, fun u _ => hS.refl u _⟩
        exact ⟨g, h.allows hS ha hwp, .silent⟩
      | ret r => cases hnext
  | respond =>
    simp only [Lang.system, Lang.next] at hnext
    split at hnext
    · next c r hrun =>
      cases hnext
      rw [hrun] at ht
      obtain ⟨g', ha, hidle⟩ := hS.finish h.inv (ht _ (hS.refl t _) h.inv)
      refine ⟨g', h.allows hS ha hidle, ?_⟩
      simpa only [Lang.observe, hrun] using ha.moves
    · cases hnext

theorem Sound.exists_explains (hS : Λ.Sound L m₀ g₀) (hs : (L.system m₀).Reachable s) :
    ∃ g, Λ.Explains L s g := by
  refine hs.invariant (P := fun s => ∃ g, Λ.Explains L s g) ⟨g₀, .init hS⟩ ?_
  rintro s l s' ⟨g, h⟩ hnext
  obtain ⟨g', h', _⟩ := h.step hS hnext
  exact ⟨g', h'⟩

/-- A run of a verified system with a ghost state for each of its states. -/
theorem Sound.exists_history (hS : Λ.Sound L m₀ g₀) {n : Nat} (e : (L.system m₀).Exec n) :
    ∃ ghost : Nat → G, ghost 0 = g₀ ∧ (∀ i ≤ n, Λ.Explains L (e.state i) (ghost i)) ∧
      ∀ i < n, Moves Λ.object (Lang.observe (e.state i) (e.label i)) (Λ.abs (ghost i))
        (Λ.phase (ghost i)) (Λ.abs (ghost (i + 1))) (Λ.phase (ghost (i + 1))) :=
  e.annotate (I := Λ.Explains L) (R := fun s g l _ g' =>
      Moves Λ.object (Lang.observe s l) (Λ.abs g) (Λ.phase g) (Λ.abs g') (Λ.phase g')) g₀
    (.init hS) (fun _ _ _ _ h (_ : True) hnext => h.step hS hnext) fun _ _ => trivial

/-- A verified system does what the atomic object can do. -/
theorem Sound.simulates (hS : Λ.Sound L m₀ g₀) :
    (L.system m₀).Simulates Lang.observe Λ.object
      fun s a phase => ∃ g, Λ.Explains L s g ∧ a = Λ.abs g ∧ phase = Λ.phase g where
  init := ⟨g₀, .init hS, hS.init_abs.1.symm, hS.init_abs.2.symm⟩
  step := by
    rintro s s' l _ _ ⟨g, h, rfl, rfl⟩ hnext
    obtain ⟨g', h', hmoves⟩ := h.step hS hnext
    exact ⟨_, _, hmoves, g', h', rfl, rfl⟩

/-- What holds whenever a thread is at an action. -/
theorem Explains.ok (hS : Λ.Sound L m₀ g₀) (h : Λ.Explains L s g) {c : C} {a : Act}
    {k : Ret a → Prog Act Ret Fn R} (hrun : s.thread t = .running c (.act a k)) :
    Λ.Ok t a ⟨s.mem, g⟩ := by
  have ht := h.thread t
  rw [hrun] at ht
  exact (ht _ (hS.refl t _) h.inv).1

/-- What holds when a call returns. -/
theorem Explains.post (hS : Λ.Sound L m₀ g₀) (h : Λ.Explains L s g) {c : C} {r : R}
    (hrun : s.thread t = .running c (.ret r)) : Λ.Post t r ⟨s.mem, g⟩ := by
  have ht := h.thread t
  rw [hrun] at ht
  exact ht _ (hS.refl t _) h.inv

end Logic

end

end Threads
