-- SUMMARY: Sequential objects, concurrent histories, linearizability, and its proof by simulation.
import ConcurrentBST.Library.Transition
import Mathlib.Data.List.Pairwise
import Mathlib.Logic.Function.Basic

/-!
# Linearizability

A history is linearizable if its calls can be put in an order that the
sequential object allows and that never turns around two calls one of which
returned before the other began. A call is named by the position of its
invocation in the history.
-/

universe u v

/-- An object as its calls see it when they come one after the other. -/
structure Object (S C R : Type u) where
  init : S
  step : S → C → R → S → Prop

/-- What a client observes. -/
inductive Event (T C R : Type u) where
  | invoke (t : T) (c : C)
  | respond (t : T) (r : R)

variable {S C R T : Type u}

def Event.thread : Event T C R → T
  | .invoke t _ | .respond t _ => t

@[simp] theorem Event.thread_invoke (t : T) (c : C) :
    (Event.invoke t c : Event T C R).thread = t := rfl

@[simp] theorem Event.thread_respond (t : T) (r : R) :
    (Event.respond t r : Event T C R).thread = t := rfl

namespace Object

/-- The object can perform the calls with these results. -/
inductive Runs (O : Object S C R) : S → List (C × R) → S → Prop where
  | nil {s : S} : Runs O s [] s
  | snoc {s s' s'' : S} {l : List (C × R)} {c : C} {r : R} :
      Runs O s l s' → O.step s' c r s'' → Runs O s (l ++ [(c, r)]) s''

end Object

-- ---------------------------------------------------------------------------
-- Histories
-- ---------------------------------------------------------------------------

/-- The call invoked at position `i` returns `r` at position `j`. -/
def Returns (h : List (Event T C R)) (i j : Nat) (r : R) : Prop :=
  ∃ t c, h[i]? = some (.invoke t c) ∧ i < j ∧ h[j]? = some (.respond t r) ∧
    ∀ k e, i < k → k < j → h[k]? = some e → e.thread ≠ t

/-- The call of `t` invoked at position `i` has not returned. -/
def Open (h : List (Event T C R)) (t : T) (i : Nat) (c : C) : Prop :=
  h[i]? = some (.invoke t c) ∧ ∀ k e, i < k → h[k]? = some e → e.thread ≠ t

/-- `order` lists calls of the history with their results, in an order that
    explains the history. Calls that have not returned may be left out. -/
structure Linearization (O : Object S C R) (h : List (Event T C R))
    (order : List (Nat × C × R)) : Prop where
  calls : ∀ p ∈ order, ∃ t, h[p.1]? = some (.invoke t p.2.1)
  nodup : (order.map Prod.fst).Nodup
  complete : ∀ i j r, Returns h i j r → ∃ c, (i, c, r) ∈ order
  realTime : order.Pairwise fun p q => ¬ ∃ j r, Returns h q.1 j r ∧ j < p.1
  legal : ∃ s, O.Runs O.init (order.map Prod.snd) s

def Linearizable (O : Object S C R) (h : List (Event T C R)) : Prop :=
  ∃ order, Linearization O h order

variable {h : List (Event T C R)} {t : T} {i j k : Nat} {c c' : C} {r r' : R} {e : Event T C R}

theorem lt_of_getElem? (hi : h[i]? = some e) : i < h.length := by
  by_contra hlt
  rw [List.getElem?_eq_none (by omega)] at hi
  cases hi

theorem Open.unique (h₁ : Open h t i c) (h₂ : Open h t j c') : i = j ∧ c = c' := by
  have hij : i = j := by
    rcases Nat.lt_trichotomy i j with hlt | heq | hlt
    · exact absurd rfl (h₁.2 _ _ hlt h₂.1)
    · exact heq
    · exact absurd rfl (h₂.2 _ _ hlt h₁.1)
  subst hij
  have := h₁.1.symm.trans h₂.1
  exact ⟨rfl, by simpa using this⟩

theorem Open.not_returns (ho : Open h t i c) : ¬ Returns h i j r := by
  rintro ⟨t', c', hi, hij, hj, _⟩
  obtain ⟨rfl, rfl⟩ : t = t' ∧ c = c' := by simpa using ho.1.symm.trans hi
  exact ho.2 _ _ hij hj rfl

/-- Appending an event does not change what is at an earlier position. -/
theorem getElem?_snoc {a : Event T C R} :
    (h ++ [a])[i]? = some e ↔ h[i]? = some e ∨ i = h.length ∧ e = a := by
  rcases Nat.lt_trichotomy i h.length with hlt | heq | hlt
  · rw [List.getElem?_append_left hlt]
    exact ⟨.inl, fun h => h.resolve_right fun h => absurd h.1 (by omega)⟩
  · subst heq
    simp [eq_comm]
  · rw [List.getElem?_eq_none (by simp; omega), List.getElem?_eq_none (by omega)]
    simp
    omega

theorem returns_invoke : Returns (h ++ [.invoke t c]) i j r ↔ Returns h i j r := by
  constructor
  · rintro ⟨t', c', hi, hij, hj, hbetween⟩
    simp only [getElem?_snoc, reduceCtorEq, and_false, or_false] at hi hj
    have hlt := lt_of_getElem? hj
    refine ⟨t', c', hi.resolve_right (fun h => by omega), hij, hj, fun k e h₁ h₂ hk => ?_⟩
    exact hbetween k e h₁ h₂ (getElem?_snoc.mpr (.inl hk))
  · rintro ⟨t', c', hi, hij, hj, hbetween⟩
    have hlt := lt_of_getElem? hj
    refine ⟨t', c', getElem?_snoc.mpr (.inl hi), hij, getElem?_snoc.mpr (.inl hj), ?_⟩
    intro k e h₁ h₂ hk
    exact hbetween k e h₁ h₂ ((getElem?_snoc.mp hk).resolve_right fun h => by omega)

theorem returns_respond : Returns (h ++ [.respond t r]) i j r' ↔
    Returns h i j r' ∨ j = h.length ∧ r' = r ∧ ∃ c, Open h t i c := by
  constructor
  · rintro ⟨t', c', hi, hij, hj, hbetween⟩
    simp only [getElem?_snoc, reduceCtorEq, and_false, or_false] at hi
    rcases getElem?_snoc.mp hj with hj | ⟨rfl, hj⟩
    · refine .inl ⟨t', c', hi, hij, hj, fun k e h₁ h₂ hk => ?_⟩
      exact hbetween k e h₁ h₂ (getElem?_snoc.mpr (.inl hk))
    · obtain ⟨rfl, rfl⟩ : t' = t ∧ r' = r := by simpa [eq_comm] using hj
      refine .inr ⟨rfl, rfl, c', hi, fun k e h₁ hk => ?_⟩
      exact hbetween k e h₁ (lt_of_getElem? hk) (getElem?_snoc.mpr (.inl hk))
  · rintro (⟨t', c', hi, hij, hj, hbetween⟩ | ⟨rfl, rfl, c', hi, hafter⟩)
    · have hlt := lt_of_getElem? hj
      refine ⟨t', c', getElem?_snoc.mpr (.inl hi), hij, getElem?_snoc.mpr (.inl hj), ?_⟩
      intro k e h₁ h₂ hk
      exact hbetween k e h₁ h₂ ((getElem?_snoc.mp hk).resolve_right fun h => by omega)
    · refine ⟨t, c', getElem?_snoc.mpr (.inl hi), lt_of_getElem? hi,
        getElem?_snoc.mpr (.inr ⟨rfl, rfl⟩), fun k e h₁ h₂ hk => ?_⟩
      exact hafter k e h₁ ((getElem?_snoc.mp hk).resolve_right fun h => by omega)

/-- An event closes the calls of its thread and leaves those of the others open. -/
theorem open_snoc {a : Event T C R} (ho : Open (h ++ [a]) t i c) :
    Open h t i c ∧ a.thread ≠ t ∨ i = h.length ∧ a = .invoke t c := by
  rcases getElem?_snoc.mp ho.1 with hi | ⟨rfl, ha⟩
  · refine .inl ⟨⟨hi, fun k e h₁ hk => ho.2 k e h₁ (getElem?_snoc.mpr (.inl hk))⟩, ?_⟩
    exact ho.2 h.length a (lt_of_getElem? hi) (getElem?_snoc.mpr (.inr ⟨rfl, rfl⟩))
  · exact .inr ⟨rfl, ha.symm⟩

theorem Open.snoc {a : Event T C R} (ho : Open h t i c) (ha : a.thread ≠ t) :
    Open (h ++ [a]) t i c := by
  refine ⟨getElem?_snoc.mpr (.inl ho.1), fun k e h₁ hk => ?_⟩
  rcases getElem?_snoc.mp hk with hk | ⟨_, rfl⟩
  · exact ho.2 k e h₁ hk
  · exact ha

theorem open_invoke : Open (h ++ [.invoke t c]) t h.length c := by
  refine ⟨getElem?_snoc.mpr (.inr ⟨rfl, rfl⟩), fun k e h₁ hk => ?_⟩
  rcases getElem?_snoc.mp hk with hk | ⟨rfl, _⟩
  · exact absurd (lt_of_getElem? hk) (by omega)
  · omega

-- ---------------------------------------------------------------------------
-- Atomic calls
-- ---------------------------------------------------------------------------

/-- Where a thread is when calls take effect at one instant. -/
inductive Phase (C R : Type u) where
  | idle
  | pending (c : C)
  | done (r : R)

section Atomic

variable [DecidableEq T]

/-- The object served atomically: a call is invoked, takes effect, and returns. -/
inductive Atomic (O : Object S C R) : List (Event T C R) → S → (T → Phase C R) → Prop where
  | init : Atomic O [] O.init fun _ => .idle
  | invoke {h s phase t c} : Atomic O h s phase → phase t = .idle →
      Atomic O (h ++ [.invoke t c]) s (Function.update phase t (.pending c))
  | effect {h s s' phase t c r} : Atomic O h s phase → phase t = .pending c → O.step s c r s' →
      Atomic O h s' (Function.update phase t (.done r))
  | respond {h s phase t r} : Atomic O h s phase → phase t = .done r →
      Atomic O (h ++ [.respond t r]) s (Function.update phase t .idle)

/-- What is true of the calls so far. -/
structure Explained (O : Object S C R) (h : List (Event T C R)) (s : S) (phase : T → Phase C R)
    (order : List (Nat × C × R)) : Prop where
  calls : ∀ p ∈ order, ∃ t, h[p.1]? = some (.invoke t p.2.1)
  nodup : (order.map Prod.fst).Nodup
  complete : ∀ i j r, Returns h i j r → ∃ c, (i, c, r) ∈ order
  realTime : order.Pairwise fun p q => ¬ ∃ j r, Returns h q.1 j r ∧ j < p.1
  runs : O.Runs O.init (order.map Prod.snd) s
  idle : ∀ t, phase t = .idle → ∀ i c, ¬ Open h t i c
  pending : ∀ t c, phase t = .pending c → ∃ i, Open h t i c ∧ i ∉ order.map Prod.fst
  done : ∀ t r, phase t = .done r → ∃ i c, Open h t i c ∧ (i, c, r) ∈ order

namespace Explained

variable {O : Object S C R} {s s' : S} {phase : T → Phase C R} {order : List (Nat × C × R)}

omit [DecidableEq T] in
theorem init : Explained (T := T) O [] O.init (fun _ => .idle) [] where
  calls := by simp
  nodup := by simp
  complete := by
    rintro i j r ⟨t, c, hi, _⟩
    simp at hi
  realTime := by simp
  runs := .nil
  idle := by
    rintro t _ i c ⟨hi, _⟩
    simp at hi
  pending := by simp
  done := by simp

omit [DecidableEq T] in
theorem position_lt (he : Explained O h s phase order) {p : Nat × C × R} (hp : p ∈ order) :
    p.1 < h.length := by
  obtain ⟨t, ht⟩ := he.calls p hp
  exact lt_of_getElem? ht

theorem invoke (he : Explained O h s phase order) (ht : phase t = .idle) :
    Explained O (h ++ [.invoke t c]) s (Function.update phase t (.pending c)) order where
  calls := fun p hp => (he.calls p hp).imp fun _ h => getElem?_snoc.mpr (.inl h)
  nodup := he.nodup
  complete := fun i j r hr => he.complete i j r (returns_invoke.mp hr)
  realTime := by
    simp only [returns_invoke]
    exact he.realTime
  runs := he.runs
  idle := by
    intro u hu i c' ho
    have hut : u ≠ t := by
      rintro rfl
      simp at hu
    rcases open_snoc ho with ⟨ho, _⟩ | ⟨_, ho⟩
    · rw [Function.update_of_ne hut] at hu
      exact he.idle u hu i c' ho
    · obtain ⟨rfl, _⟩ : t = u ∧ c = c' := by simpa using ho
      exact hut rfl
  pending := by
    intro u c' hu
    by_cases hut : u = t
    · subst hut
      obtain rfl : c = c' := by simpa using hu
      refine ⟨h.length, open_invoke, fun hmem => ?_⟩
      obtain ⟨p, hp, heq⟩ := List.mem_map.mp hmem
      have := he.position_lt hp
      omega
    · rw [Function.update_of_ne hut] at hu
      obtain ⟨i, ho, hi⟩ := he.pending u c' hu
      exact ⟨i, ho.snoc (Ne.symm hut), hi⟩
  done := by
    intro u r hu
    have hut : u ≠ t := by
      rintro rfl
      simp at hu
    rw [Function.update_of_ne hut] at hu
    obtain ⟨i, c', ho, hi⟩ := he.done u r hu
    exact ⟨i, c', ho.snoc (Ne.symm hut), hi⟩

/-- The call that takes effect has not returned, so it may come last. -/
theorem effect (he : Explained O h s phase order) (ht : phase t = .pending c)
    (hstep : O.step s c r s') :
    ∃ order', Explained O h s' (Function.update phase t (.done r)) order' := by
  obtain ⟨i, ho, hi⟩ := he.pending t c ht
  refine ⟨order ++ [(i, c, r)], ?_, ?_, ?_, ?_, ?_, ?_, ?_, ?_⟩
  · intro p hp
    rcases List.mem_append.mp hp with hp | hp
    · exact he.calls p hp
    · obtain rfl : p = (i, c, r) := by simpa using hp
      exact ⟨t, ho.1⟩
  · rw [List.map_append, List.nodup_append]
    refine ⟨he.nodup, by simp, fun a ha b hb hab => ?_⟩
    obtain rfl : b = i := by simpa using hb
    exact hi (hab ▸ ha)
  · intro i' j r' hr
    exact (he.complete i' j r' hr).imp fun _ h => List.mem_append_left _ h
  · rw [List.pairwise_append]
    refine ⟨he.realTime, by simp, fun p _ q hq => ?_⟩
    obtain rfl : q = (i, c, r) := by simpa using hq
    rintro ⟨j, r', hr, _⟩
    exact ho.not_returns hr
  · rw [List.map_append]
    exact .snoc he.runs hstep
  · intro u hu
    have hut : u ≠ t := by
      rintro rfl
      simp at hu
    rw [Function.update_of_ne hut] at hu
    exact he.idle u hu
  · intro u c' hu
    have hut : u ≠ t := by
      rintro rfl
      simp at hu
    rw [Function.update_of_ne hut] at hu
    obtain ⟨k, hk, hmem⟩ := he.pending u c' hu
    refine ⟨k, hk, ?_⟩
    rw [List.map_append, List.mem_append]
    rintro (hm | hm)
    · exact hmem hm
    · -- Two open calls at one position belong to one thread.
      obtain rfl : k = i := by simpa using hm
      obtain ⟨rfl, _⟩ : u = t ∧ c' = c := by simpa using hk.1.symm.trans ho.1
      exact hut rfl
  · intro u r' hu
    by_cases hut : u = t
    · subst hut
      obtain rfl : r = r' := by simpa using hu
      exact ⟨i, c, ho, by simp⟩
    · rw [Function.update_of_ne hut] at hu
      obtain ⟨k, c', hk, hmem⟩ := he.done u r' hu
      exact ⟨k, c', hk, List.mem_append_left _ hmem⟩

theorem respond (he : Explained O h s phase order) (ht : phase t = .done r) :
    Explained O (h ++ [.respond t r]) s (Function.update phase t .idle) order where
  calls := fun p hp => (he.calls p hp).imp fun _ h => getElem?_snoc.mpr (.inl h)
  nodup := he.nodup
  complete := by
    intro i j r' hr
    rcases returns_respond.mp hr with hr | ⟨_, rfl, c', ho⟩
    · exact he.complete i j r' hr
    · obtain ⟨k, c, hk, hmem⟩ := he.done t r' ht
      obtain ⟨rfl, rfl⟩ := hk.unique ho
      exact ⟨c, hmem⟩
  realTime := by
    refine he.realTime.imp_of_mem fun {p q} hp _ hpq => ?_
    rintro ⟨j, r', hr, hj⟩
    rcases returns_respond.mp hr with hr | ⟨rfl, _⟩
    · exact hpq ⟨j, r', hr, hj⟩
    · have := he.position_lt hp
      omega
  runs := he.runs
  idle := by
    intro u hu i c' ho
    rcases open_snoc ho with ⟨ho, hne⟩ | ⟨_, ho⟩
    · rw [Event.thread_respond] at hne
      rw [Function.update_of_ne (Ne.symm hne)] at hu
      exact he.idle u hu i c' ho
    · cases ho
  pending := by
    intro u c' hu
    have hut : u ≠ t := by
      rintro rfl
      simp at hu
    rw [Function.update_of_ne hut] at hu
    obtain ⟨i, ho, hi⟩ := he.pending u c' hu
    exact ⟨i, ho.snoc (Ne.symm hut), hi⟩
  done := by
    intro u r' hu
    have hut : u ≠ t := by
      rintro rfl
      simp at hu
    rw [Function.update_of_ne hut] at hu
    obtain ⟨i, c', ho, hi⟩ := he.done u r' hu
    exact ⟨i, c', ho.snoc (Ne.symm hut), hi⟩

end Explained

theorem Atomic.explained {O : Object S C R} {s : S} {phase : T → Phase C R}
    (ha : Atomic O h s phase) : ∃ order, Explained O h s phase order := by
  induction ha with
  | init => exact ⟨[], .init⟩
  | invoke _ ht ih =>
    obtain ⟨order, he⟩ := ih
    exact ⟨order, he.invoke ht⟩
  | effect _ ht hstep ih =>
    obtain ⟨order, he⟩ := ih
    exact he.effect ht hstep
  | respond _ ht ih =>
    obtain ⟨order, he⟩ := ih
    exact ⟨order, he.respond ht⟩

/-- Histories of an atomically served object are linearizable. -/
theorem Atomic.linearizable {O : Object S C R} {s : S} {phase : T → Phase C R}
    (ha : Atomic O h s phase) : Linearizable O h := by
  obtain ⟨order, he⟩ := ha.explained
  exact ⟨order, he.calls, he.nodup, he.complete, he.realTime, s, he.runs⟩

end Atomic

-- ---------------------------------------------------------------------------
-- One thread
-- ---------------------------------------------------------------------------

/-- The history of a thread that makes one call after the other. -/
def serial (t : T) (l : List (C × R)) : List (Event T C R) :=
  l.flatMap fun p => [.invoke t p.1, .respond t p.2]

theorem serial_snoc (t : T) (l : List (C × R)) (c : C) (r : R) :
    serial t (l ++ [(c, r)]) = serial t l ++ [.invoke t c] ++ [.respond t r] := by
  simp [serial]

/-- How far a thread is that nobody else interferes with. -/
inductive Alone (O : Object S C R) (t : T) : List (Event T C R) → S → Phase C R → Prop where
  | idle {l s} : O.Runs O.init l s → Alone O t (serial t l) s .idle
  | pending {l s c} : O.Runs O.init l s → Alone O t (serial t l ++ [.invoke t c]) s (.pending c)
  | done {l s s' c r} : O.Runs O.init l s → O.step s c r s' →
      Alone O t (serial t l ++ [.invoke t c]) s' (.done r)

theorem Alone.invoke {O : Object S C R} {s : S} (ha : Alone O t h s .idle) (c : C) :
    Alone O t (h ++ [.invoke t c]) s (.pending c) := by
  cases ha with
  | idle hr => exact .pending hr

theorem Alone.effect {O : Object S C R} {s s' : S} (ha : Alone O t h s (.pending c))
    (hstep : O.step s c r s') : Alone O t h s' (.done r) := by
  cases ha with
  | pending hr => exact .done hr hstep

theorem Alone.respond {O : Object S C R} {s : S} (ha : Alone O t h s (.done r)) :
    Alone O t (h ++ [.respond t r]) s .idle := by
  cases ha with
  | done hr hstep =>
    rw [← serial_snoc]
    exact .idle (hr.snoc hstep)

/-- An atomically served object that one thread uses does the calls one after the other. -/
theorem Atomic.alone [DecidableEq T] {O : Object S C R} {s : S} {phase : T → Phase C R}
    (ha : Atomic O h s phase) (ht : ∀ e ∈ h, e.thread = t) :
    Alone O t h s (phase t) ∧ ∀ u, u ≠ t → phase u = .idle := by
  induction ha with
  | init => exact ⟨.idle .nil, fun _ _ => rfl⟩
  | @invoke h s phase u c _ hu ih =>
    obtain ⟨ha, hother⟩ := ih fun e he => ht e (List.mem_append_left _ he)
    obtain rfl : u = t := ht _ (List.mem_append_right _ (.head _))
    refine ⟨?_, fun v hv => by rw [Function.update_of_ne hv, hother v hv]⟩
    rw [Function.update_self]
    exact (hu ▸ ha).invoke c
  | @effect h s s' phase u c r _ hu hstep ih =>
    obtain ⟨ha, hother⟩ := ih ht
    obtain rfl : u = t := by
      by_contra hne
      cases (hother u hne).symm.trans hu
    refine ⟨?_, fun v hv => by rw [Function.update_of_ne hv, hother v hv]⟩
    rw [Function.update_self]
    exact (hu ▸ ha).effect hstep
  | @respond h s phase u r _ hu ih =>
    obtain ⟨ha, hother⟩ := ih fun e he => ht e (List.mem_append_left _ he)
    obtain rfl : u = t := ht _ (List.mem_append_right _ (.head _))
    refine ⟨?_, fun v hv => by rw [Function.update_of_ne hv, hother v hv]⟩
    rw [Function.update_self]
    exact (hu ▸ ha).respond

/-- A thread between two calls has got the results the object gives one after the other. -/
theorem Alone.serial {O : Object S C R} {s : S} (ha : Alone O t h s .idle) :
    ∃ l, h = serial t l ∧ O.Runs O.init l s := by
  cases ha with
  | idle hr => exact ⟨_, rfl, hr⟩

-- ---------------------------------------------------------------------------
-- Simulation
-- ---------------------------------------------------------------------------

/-- What a concrete step does to the object: what the client sees of it, and
    besides that at most one call takes effect. -/
inductive Moves [DecidableEq T] (O : Object S C R) :
    Option (Event T C R) → S → (T → Phase C R) → S → (T → Phase C R) → Prop where
  | silent {s phase} : Moves O none s phase s phase
  | effect {s s' phase t c r} : phase t = .pending c → O.step s c r s' →
      Moves O none s phase s' (Function.update phase t (.done r))
  | invoke {s phase t c} : phase t = .idle →
      Moves O (some (.invoke t c)) s phase s (Function.update phase t (.pending c))
  | respond {s phase t r} : phase t = .done r →
      Moves O (some (.respond t r)) s phase s (Function.update phase t .idle)

theorem Moves.none_cases [DecidableEq T] {O : Object S C R} {s s' : S}
    {phase phase' : T → Phase C R}
    (hm : Moves O (none : Option (Event T C R)) s phase s' phase') :
    s' = s ∧ phase' = phase ∨ ∃ t c r, phase t = .pending c ∧ O.step s c r s' ∧
      phase' = Function.update phase t (.done r) := by
  cases hm with
  | silent => exact .inl ⟨rfl, rfl⟩
  | effect ht hstep => exact .inr ⟨_, _, _, ht, hstep, rfl⟩

theorem Moves.invoke_cases [DecidableEq T] {O : Object S C R} {s s' : S}
    {phase phase' : T → Phase C R} (hm : Moves O (some (.invoke t c)) s phase s' phase') :
    s' = s ∧ phase' = Function.update phase t (.pending c) := by
  cases hm with
  | invoke => exact ⟨rfl, rfl⟩

theorem Moves.respond_cases [DecidableEq T] {O : Object S C R} {s s' : S}
    {phase phase' : T → Phase C R} (hm : Moves O (some (.respond t r)) s phase s' phase') :
    s' = s ∧ phase t = .done r := by
  cases hm with
  | respond ht => exact ⟨rfl, ht⟩

theorem Atomic.moves [DecidableEq T] {O : Object S C R} {o : Option (Event T C R)} {s s' : S}
    {phase phase' : T → Phase C R} (ha : Atomic O h s phase) (hm : Moves O o s phase s' phase') :
    Atomic O (h ++ o.toList) s' phase' := by
  cases hm with
  | silent => simpa using ha
  | effect ht hstep => simpa using ha.effect ht hstep
  | invoke ht => exact ha.invoke ht
  | respond ht => exact ha.respond ht

namespace Lts

variable {σ : Type u} {ι : Type v} {L : Lts σ ι}

/-- The part of a run a client sees. -/
def Exec.history {n : Nat} (e : L.Exec n) (obs : σ → ι → Option (Event T C R)) (k : Nat) :
    List (Event T C R) :=
  (List.range k).filterMap fun i => obs (e.state i) (e.label i)

theorem Exec.history_succ {n : Nat} (e : L.Exec n) (obs : σ → ι → Option (Event T C R)) (k : Nat) :
    e.history obs (k + 1) = e.history obs k ++ (obs (e.state k) (e.label k)).toList := by
  unfold Exec.history
  rw [List.range_succ, List.filterMap_append]
  cases h : obs (e.state k) (e.label k) <;> simp [h]

/-- The system does what an atomically served object can do. -/
structure Simulates [DecidableEq T] (L : Lts σ ι) (obs : σ → ι → Option (Event T C R)) (O : Object S C R)
    (Rel : σ → S → (T → Phase C R) → Prop) : Prop where
  init : Rel L.init O.init fun _ => .idle
  step : ∀ {x y : σ} {l : ι} {s : S} {phase : T → Phase C R}, Rel x s phase → L.next x l = some y →
    ∃ s' phase', Moves O (obs x l) s phase s' phase' ∧ Rel y s' phase'

variable [DecidableEq T] {obs : σ → ι → Option (Event T C R)} {O : Object S C R}
  {Rel : σ → S → (T → Phase C R) → Prop}

theorem Simulates.atomic (hsim : L.Simulates obs O Rel) {n : Nat} (e : L.Exec n) {k : Nat}
    (hk : k ≤ n) : ∃ s phase, Atomic O (e.history obs k) s phase ∧ Rel (e.state k) s phase := by
  induction k with
  | zero => exact ⟨_, _, .init, e.start ▸ hsim.init⟩
  | succ k ih =>
    obtain ⟨s, phase, ha, hrel⟩ := ih (by omega)
    obtain ⟨s', phase', hmove, hrel'⟩ := hsim.step hrel (e.step k (by omega))
    exact ⟨s', phase', e.history_succ obs k ▸ ha.moves hmove, hrel'⟩

/-- The calls so far can be put in an order that leads to what the state stands for. -/
theorem Simulates.exists_order (hsim : L.Simulates obs O Rel) {n : Nat} (e : L.Exec n) {k : Nat}
    (hk : k ≤ n) : ∃ order s phase, Linearization O (e.history obs k) order ∧
      O.Runs O.init (order.map Prod.snd) s ∧ Rel (e.state k) s phase := by
  obtain ⟨s, phase, ha, hrel⟩ := hsim.atomic e hk
  obtain ⟨order, he⟩ := ha.explained
  exact ⟨order, s, phase, ⟨he.calls, he.nodup, he.complete, he.realTime, s, he.runs⟩, he.runs, hrel⟩

/-- Every history of the system is linearizable. -/
theorem Simulates.linearizable (hsim : L.Simulates obs O Rel) {n : Nat} (e : L.Exec n) :
    Linearizable O (e.history obs n) := by
  obtain ⟨s, phase, ha, _⟩ := hsim.atomic e (Nat.le_refl n)
  exact ha.linearizable

end Lts
