-- SUMMARY: A system next to the clients that make its calls: what they can come to, and when they come to an end.
import ConcurrentBST.Library.InfiniteRuns
import ConcurrentBST.Library.Linearizability

/-!
# Clients

A system whose calls are made by clients that have a state of their own. A step
that the clients can see is a step of both. If the system simulates an atomic
object, then the clients come to nothing they could not come to with that object.
If their own steps, calls and returns come to an end and the system cannot go on
for ever without one of these, then the whole has no infinite run.
-/

open Filter

universe u v

variable {S C R T κ σ : Type u} {ι J : Type v}

namespace Lts

-- ---------------------------------------------------------------------------
-- A system and its clients
-- ---------------------------------------------------------------------------

/-- The system `L` with the clients `K`. What `obs` sees of a step of `L` is a step of
    `K`, and on the labels of type `J` the clients move alone. -/
def serve (L : Lts σ ι) (obs : σ → ι → Option (Event T C R)) (K : Lts κ (J ⊕ Event T C R)) :
    Lts (σ × κ) (ι ⊕ J) where
  init := (L.init, K.init)
  next := fun (x, k) l =>
    match l with
    | .inl l => (L.next x l).bind fun y =>
        match obs x l with
        | none => some (y, k)
        | some ev => (K.next k (.inr ev)).map fun k' => (y, k')
    | .inr j => (K.next k (.inl j)).map fun k' => (x, k')

/-- The steps of a system with clients. -/
inductive Serves (L : Lts σ ι) (obs : σ → ι → Option (Event T C R)) (K : Lts κ (J ⊕ Event T C R)) :
    σ × κ → ι ⊕ J → σ × κ → Prop where
  | silent {x y k l} : L.next x l = some y → obs x l = none → Serves L obs K (x, k) (.inl l) (y, k)
  | event {x y k k' l ev} : L.next x l = some y → obs x l = some ev →
      K.next k (.inr ev) = some k' → Serves L obs K (x, k) (.inl l) (y, k')
  | own {x k k' j} : K.next k (.inl j) = some k' → Serves L obs K (x, k) (.inr j) (x, k')

variable {L : Lts σ ι} {obs : σ → ι → Option (Event T C R)} {K : Lts κ (J ⊕ Event T C R)}
  {p p' : σ × κ} {a : ι ⊕ J} {n : Nat}

theorem serves_of_next (h : (L.serve obs K).next p a = some p') : Serves L obs K p a p' := by
  obtain ⟨x, k⟩ := p
  cases a with
  | inl l =>
    obtain ⟨y, hy, hp⟩ := Option.bind_eq_some_iff.mp h
    split at hp
    · next hobs =>
      cases hp
      exact .silent hy hobs
    · next ev hobs =>
      obtain ⟨k', hk, rfl⟩ := Option.map_eq_some_iff.mp hp
      exact .event hy hobs hk
  | inr j =>
    obtain ⟨k', hk, rfl⟩ := Option.map_eq_some_iff.mp h
    exact .own hk

theorem next_of_serves (h : Serves L obs K p a p') : (L.serve obs K).next p a = some p' := by
  cases h with
  | silent hy hobs => simp [serve, hy, hobs]
  | event hy hobs hk => simp [serve, hy, hobs, hk]
  | own hk => simp [serve, hk]

theorem Reachable.server (h : (L.serve obs K).Reachable p) : L.Reachable p.1 := by
  refine h.invariant (P := fun p => L.Reachable p.1) .init fun p a p' hp hnext => ?_
  cases serves_of_next hnext with
  | silent hy | event hy => exact hp.step _ hy
  | own => exact hp

theorem Reachable.client (h : (L.serve obs K).Reachable p) : K.Reachable p.2 := by
  refine h.invariant (P := fun p => K.Reachable p.2) .init fun p a p' hp hnext => ?_
  cases serves_of_next hnext with
  | silent => exact hp
  | event _ _ hk | own hk => exact hp.step _ hk

-- ---------------------------------------------------------------------------
-- The clients of an atomic object
-- ---------------------------------------------------------------------------

/-- What the clients can come to when an atomic object serves their calls. -/
inductive Served [DecidableEq T] (O : Object S C R) (K : Lts κ (J ⊕ Event T C R)) :
    S → (T → Phase C R) → κ → Prop where
  | init : Served O K O.init (fun _ => .idle) K.init
  | own {s phase k j k'} : Served O K s phase k → K.next k (.inl j) = some k' →
      Served O K s phase k'
  | invoke {s phase k t c k'} : Served O K s phase k → phase t = .idle →
      K.next k (.inr (.invoke t c)) = some k' →
      Served O K s (Function.update phase t (.pending c)) k'
  | effect {s s' phase k t c r} : Served O K s phase k → phase t = .pending c →
      O.step s c r s' → Served O K s' (Function.update phase t (.done r)) k
  | respond {s phase k t r k'} : Served O K s phase k → phase t = .done r →
      K.next k (.inr (.respond t r)) = some k' → Served O K s (Function.update phase t .idle) k'

/-- The clients of a system that simulates the object come to nothing else. -/
theorem Simulates.served [DecidableEq T] {O : Object S C R} {Rel : σ → S → (T → Phase C R) → Prop}
    (hsim : L.Simulates obs O Rel) (h : (L.serve obs K).Reachable p) :
    ∃ s phase, Rel p.1 s phase ∧ Served O K s phase p.2 := by
  refine h.invariant (P := fun p => ∃ s phase, Rel p.1 s phase ∧ Served O K s phase p.2)
    ⟨_, _, hsim.init, .init⟩ ?_
  rintro p a p' ⟨s, phase, hrel, hs⟩ hnext
  cases serves_of_next hnext with
  | silent hy hobs =>
    obtain ⟨s', phase', hmoves, hrel'⟩ := hsim.step hrel hy
    rw [hobs] at hmoves
    rcases hmoves.none_cases with ⟨rfl, rfl⟩ | ⟨t, c, r, ht, hstep, rfl⟩
    · exact ⟨_, _, hrel', hs⟩
    · exact ⟨s', _, hrel', hs.effect ht hstep⟩
  | event hy hobs hk =>
    obtain ⟨s', phase', hmoves, hrel'⟩ := hsim.step hrel hy
    rw [hobs] at hmoves
    cases hmoves with
    | invoke ht => exact ⟨_, _, hrel', hs.invoke ht hk⟩
    | respond ht => exact ⟨_, _, hrel', hs.respond ht hk⟩
  | own hk => exact ⟨s, phase, hrel, hs.own hk⟩

/-- What an event does to the set of the threads that are in no call. -/
def Turns (Idle Idle' : T → Prop) : Option (Event T C R) → Prop
  | none => ∀ t, Idle' t ↔ Idle t
  | some (.invoke t _) => ∀ u, Idle' u ↔ u ≠ t ∧ Idle u
  | some (.respond t _) => ∀ u, Idle' u ↔ u = t ∨ Idle u

/-- The threads that are in no call are the same to the system and to the object. -/
theorem Simulates.and_idle [DecidableEq T] {O : Object S C R} {Rel : σ → S → (T → Phase C R) → Prop}
    (hsim : L.Simulates obs O Rel) {Idle : σ → T → Prop} (hinit : ∀ t, Idle L.init t)
    (hstep : ∀ {x l y}, L.next x l = some y → Turns (Idle x) (Idle y) (obs x l)) :
    L.Simulates obs O fun x s phase => Rel x s phase ∧ ∀ t, Idle x t ↔ phase t = .idle where
  init := ⟨hsim.init, fun t => iff_of_true (hinit t) rfl⟩
  step := by
    rintro x y l s phase ⟨hrel, hidle⟩ hy
    obtain ⟨s', phase', hmoves, hrel'⟩ := hsim.step hrel hy
    refine ⟨s', phase', hmoves, hrel', fun u => ?_⟩
    have hturn := hstep hy
    have hupd : ∀ {t ph}, Function.update phase t ph u = .idle ↔
        u = t ∧ ph = .idle ∨ u ≠ t ∧ phase u = .idle := by
      intro t ph
      by_cases hut : u = t
      · subst hut
        simp
      · simp [hut]
    generalize obs x l = ev at hmoves hturn
    cases hmoves with
    | silent => exact (hturn u).trans (hidle u)
    | @effect _ _ _ t c r ht =>
      rw [hturn u, hidle u, hupd]
      by_cases hut : u = t
      · subst hut
        simp [ht]
      · simp [hut]
    | @invoke _ _ t c ht =>
      rw [hturn u, hidle u, hupd]
      simp
    | @respond _ _ t r ht =>
      rw [hturn u, hidle u, hupd]
      by_cases hut : u = t <;> simp [hut]

/-- A result that is there has come from the object. -/
theorem Served.result [DecidableEq T] {O : Object S C R} {s : S} {phase : T → Phase C R} {k : κ}
    {t : T} {r : R} (h : Served O K s phase k) (ht : phase t = .done r) :
    ∃ s c s', O.step s c r s' := by
  have hother : ∀ {f : T → Phase C R} {u ph}, (f t = .done r → ∃ s c s', O.step s c r s') →
      (ph = .done r → ∃ s c s', O.step s c r s') → Function.update f u ph t = .done r →
      ∃ s c s', O.step s c r s' := by
    intro f u ph hold hnew hupd
    by_cases htu : t = u
    · subst htu
      rw [Function.update_self] at hupd
      exact hnew hupd
    · rw [Function.update_of_ne htu] at hupd
      exact hold hupd
  induction h with
  | init => cases ht
  | own _ _ ih => exact ih ht
  | invoke _ _ _ ih => exact hother ih (fun h => by cases h) ht
  | effect _ _ hstep ih =>
    refine hother ih (fun h => ?_) ht
    cases h
    exact ⟨_, _, _, hstep⟩
  | respond _ _ _ ih => exact hother ih (fun h => by cases h) ht

-- ---------------------------------------------------------------------------
-- Ends
-- ---------------------------------------------------------------------------

namespace Exec

/-- A run and one more step. -/
def snoc (e : L.Exec n) (l : ι) (y : σ) (h : L.next (e.state n) l = some y) : L.Exec (n + 1) where
  state := Function.update e.state (n + 1) y
  label := Function.update e.label n l
  start := by rw [Function.update_of_ne (by omega), e.start]
  step := by
    intro i hi
    rw [Function.update_of_ne (by omega)]
    by_cases hin : i = n
    · subst hin
      rw [Function.update_self, Function.update_self, h]
    · rw [Function.update_of_ne hin, Function.update_of_ne (by omega), e.step i (by omega)]

/-- There is a run to every state that can be reached. -/
theorem exists_of_reachable {x : σ} (l₀ : ι) (h : L.Reachable x) :
    ∃ n, ∃ e : L.Exec n, e.state n = x := by
  induction h with
  | init => exact ⟨0, ⟨fun _ => L.init, fun _ => l₀, rfl, by omega⟩, rfl⟩
  | step l _ hnext ih =>
    obtain ⟨n, e, rfl⟩ := ih
    exact ⟨n + 1, e.snoc l _ hnext, Function.update_self ..⟩

/-- A run followed by an infinite one. -/
def forever (e : L.Exec n) (state : Nat → σ) (label : Nat → ι) (hstart : state 0 = e.state n)
    (hstep : ∀ i, L.next (state i) (label i) = some (state (i + 1))) : L.Run where
  state := fun i => if i < n then e.state i else state (i - n)
  label := fun i => if i < n then e.label i else label (i - n)
  start := by
    by_cases hn : 0 < n
    · rw [if_pos hn, e.start]
    · obtain rfl : n = 0 := by omega
      rw [if_neg hn, hstart, e.start]
  step := by
    intro i
    rcases Nat.lt_trichotomy (i + 1) n with hlt | heq | hlt
    · rw [if_pos (by omega), if_pos (by omega), if_pos hlt, e.step i (by omega)]
    · rw [if_pos (by omega), if_pos (by omega), if_neg (by omega), e.step i (by omega), heq,
        Nat.sub_self, hstart]
    · rw [if_neg (by omega), if_neg (by omega), if_neg (by omega), hstep, Nat.sub_add_comm (by omega)]

end Exec

/-- All that the clients see of the run satisfies `P`. -/
def Run.Shows (r : L.Run) (obs : σ → ι → Option (Event T C R)) (P : Event T C R → Prop) : Prop :=
  ∀ i ev, obs (r.state i) (r.label i) = some ev → P ev

variable {P : Event T C R → Prop}

/-- If the threads that are seen to begin a call are among those of `F`, no others
    take steps. `D` says which threads are in no call. -/
theorem Run.Shows.mem {r : L.Run} {F : Set T} (h : r.Shows obs fun ev => ev.thread ∈ F)
    {f : ι → T} {D : σ → T → Prop} (hinit : ∀ t, D L.init t)
    (hkeep : ∀ {x l y t}, L.next x l = some y → f l ≠ t → D x t → D y t)
    (hbegin : ∀ {x l y}, L.next x l = some y → D x (f l) →
      ∃ ev, obs x l = some ev ∧ ev.thread = f l) (i : Nat) : f (r.label i) ∈ F := by
  have hidle : ∀ i t, t ∉ F → D (r.state i) t := by
    intro i
    induction i with
    | zero => exact fun t _ => r.start ▸ hinit t
    | succ i ih =>
      intro t ht
      refine hkeep (r.step i) ?_ (ih t ht)
      rintro rfl
      obtain ⟨ev, hev, hthread⟩ := hbegin (r.step i) (ih _ ht)
      exact ht (hthread ▸ h i ev hev)
  by_contra hout
  obtain ⟨ev, hev, hthread⟩ := hbegin (r.step i) (hidle i _ hout)
  exact hout (hthread ▸ h i ev hev)

/-- The part of the system in a run with clients. -/
theorem Reachable.exists_exec (hP : ∀ k ev k', K.next k (.inr ev) = some k' → P ev) (l₀ : ι)
    (h : (L.serve obs K).Reachable p) : ∃ n, ∃ e : L.Exec n, e.state n = p.1 ∧
      ∀ i < n, ∀ ev, obs (e.state i) (e.label i) = some ev → P ev := by
  have hsnoc : ∀ {n x l y}, (∃ e : L.Exec n, e.state n = x ∧
      ∀ i < n, ∀ ev, obs (e.state i) (e.label i) = some ev → P ev) → L.next x l = some y →
      (∀ ev, obs x l = some ev → P ev) → ∃ n, ∃ e : L.Exec n, e.state n = y ∧
        ∀ i < n, ∀ ev, obs (e.state i) (e.label i) = some ev → P ev := by
    rintro n x l y ⟨e, rfl, he⟩ hy hobs
    refine ⟨n + 1, e.snoc l y hy, Function.update_self .., fun i hi ev hev => ?_⟩
    simp only [Exec.snoc, Function.update_of_ne (show i ≠ n + 1 by omega)] at hev
    by_cases hin : i = n
    · subst hin
      rw [Function.update_self] at hev
      exact hobs ev hev
    · rw [Function.update_of_ne hin] at hev
      exact he i (by omega) ev hev
  refine h.invariant (P := fun p => ∃ n, ∃ e : L.Exec n, e.state n = p.1 ∧
    ∀ i < n, ∀ ev, obs (e.state i) (e.label i) = some ev → P ev) ?_ ?_
  · exact ⟨0, ⟨fun _ => L.init, fun _ => l₀, rfl, by omega⟩, rfl, by omega⟩
  · rintro p a p' ⟨n, he⟩ hnext
    cases serves_of_next hnext with
    | silent hy hobs => exact hsnoc he hy fun ev hev => by simp [hobs] at hev
    | event hy hobs hk =>
      refine hsnoc he hy fun ev hev => ?_
      rw [← Option.some.inj (hobs.symm.trans hev)]
      exact hP _ _ _ hk
    | own => exact ⟨n, he⟩

/-- A system with clients comes to an end if the clients do, and if the system does
    not go on for ever without a call or a return that they see. -/
theorem not_run_serve {μ : κ → Nat} (hμ : ∀ k a k', K.next k a = some k' → μ k' < μ k)
    (hP : ∀ k ev k', K.next k (.inr ev) = some k' → P ev)
    (hL : ∀ r : L.Run, r.Shows obs P → ¬ ∀ᶠ i in atTop, obs (r.state i) (r.label i) = none)
    (r : (L.serve obs K).Run) : False := by
  have hserves : ∀ i, Serves L obs K (r.state i) (r.label i) (r.state (i + 1)) := fun i =>
    serves_of_next (r.step i)
  -- From some point on the clients do not move.
  have hquiet : ∀ᶠ i in atTop, ∃ l, r.label i = .inl l ∧ obs (r.state i).1 l = none ∧
      L.next (r.state i).1 l = some (r.state (i + 1)).1 := by
    have hle : ∀ i, μ (r.state (i + 1)).2 ≤ μ (r.state i).2 := by
      intro i
      have hi := hserves i
      generalize r.state (i + 1) = p', r.label i = a, r.state i = p at hi
      cases hi with
      | silent => exact le_rfl
      | event _ _ hk | own hk => exact (hμ _ _ _ hk).le
    filter_upwards [eventually_eq_of_le (f := fun i => μ (r.state i).2) (.of_forall hle)] with i heq
    have hi := hserves i
    generalize r.state (i + 1) = p', r.label i = a, r.state i = p at hi heq
    cases hi with
    | silent hy hobs => exact ⟨_, rfl, hobs, hy⟩
    | event _ _ hk | own hk => exact absurd heq (hμ _ _ _ hk).ne
  obtain ⟨n, hn⟩ := eventually_atTop.mp hquiet
  choose label hlabel using fun i => hn (n + i) (Nat.le_add_right n i)
  obtain ⟨m, e, he, hshows⟩ := (r.reachable n).exists_exec hP (label 0)
  let tail := e.forever (fun i => (r.state (n + i)).1) label he.symm fun i => (hlabel i).2.2
  have htail : ∀ i, obs (tail.state (m + i)) (tail.label (m + i)) = none := by
    intro i
    have hst : tail.state (m + i) = (r.state (n + i)).1 := by
      simp [tail, Exec.forever]
    have hlab : tail.label (m + i) = label i := by
      simp [tail, Exec.forever]
    rw [hst, hlab]
    exact (hlabel i).2.1
  refine hL tail (fun i ev hev => ?_) (eventually_atTop.mpr ⟨m, fun i hi => ?_⟩)
  · by_cases him : i < m
    · refine hshows i him ev ?_
      simpa [tail, Exec.forever, him] using hev
    · obtain ⟨d, rfl⟩ := Nat.exists_eq_add_of_le (not_lt.mp him)
      rw [htail] at hev
      cases hev
  · obtain ⟨d, rfl⟩ := Nat.exists_eq_add_of_le hi
    exact htail d

end Lts
