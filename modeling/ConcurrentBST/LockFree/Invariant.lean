-- SUMMARY: The invariant of the lock-free system over all runs.
import ConcurrentBST.LockFree.HelperSteps

/-!
# The invariant of the system

The memory invariant, what every thread knows, and that no two threads know the
same unpublished address. A step extends the history and keeps all of it. The
one exception is line 314 under an allocator that hands out deleted addresses.
-/

namespace LockFree

variable {cfg : Config} {m m' : Mem} {g g' : Ghost} {t u : Tid} {spent : Addr → Prop}
  {call : Call} {pc pc' : PC} {s s' : State} {l : Tid × Action}

-- ---------------------------------------------------------------------------
-- The initial history
-- ---------------------------------------------------------------------------

def Ghost.initial : Ghost where
  tree := ⟨{baseRoot}, fun _ => ∅⟩
  born := {baseRoot}
  pastOp := fun _ => ∅
  pastChild := fun _ _ => ∅
  rewritten := ∅
  owner := fun _ => 0
  replace := fun _ => 0
  status := fun _ => .idle

theorem not_below_initial {x y : Addr} {d : Bool} : ¬ Ghost.initial.tree.Below x d y :=
  fun h => h.2

theorem childPtr_initial {x : Addr} {d : Bool} : Mem.initial.childPtr x d = none := by
  cases d <;> rfl

theorem everOp_initial {x : Addr} {w : Word} (h : everOp .initial .initial x w) : w = .ptr 0 :=
  h.elim Eq.symm False.elim

theorem MemInv.initial : MemInv cfg .initial .initial where
  lawful := by
    refine ⟨fun h => absurd h not_below_initial, fun h => absurd h not_below_initial,
      fun h => absurd h not_below_initial, ?_⟩
    rintro x y rfl rfl
    exact .inl rfl
  fits := by
    constructor <;> intros <;> simp_all [childPtr_initial]
    exact not_below_initial
  finite := Set.finite_singleton _
  root := rfl
  right_of_root := fun hx hne => absurd hx hne
  born_of_mem := id
  born_of_anc := fun h => h.elim
  zero_unborn := by
    intro h
    cases h
  unborn := fun _ => ⟨rfl, fun d => by cases d <;> rfl⟩
  child_flag := fun x d => .inr (by cases d <;> rfl)
  child_born := by
    intro x d c hc
    cases d <;> cases congrArg Word.flag hc
  null_spliced := by
    rintro x d a (ha | ha)
    · left
      cases d <;> exact (congrArg Word.addr ha).symm
    · exact ha.elim
  past_spliced := fun h => h.elim
  mem_of_unmarked := fun h _ => h
  marked_empty := by
    intro x hx
    cases hx
  root_unmarked := by
    intro h
    cases h
  op_fresh := fun _ h => h
  child_fresh := fun _ _ h => h
  past_unmarked := fun h => h.elim
  installed_first := fun _ h => h
  stamp := fun h => .inl (congrArg Word.addr (everOp_initial h))
  typed := fun h => by cases everOp_initial h
  root_op := .inl rfl
  sorted := fun hx _ hxr => absurd hx hxr
  slot := fun h => by cases h
  done := fun h => h.elim
  unique := fun h => by cases everOp_initial h
  update_unique := fun h => by cases h
  place := fun h => by cases everOp_initial h
  rewritten_installed := fun h => h.elim
  record := fun h => by cases everOp_initial h
  taken := by
    intro a ha
    cases ha with
    | node h =>
      obtain rfl : a = baseRoot := h
      simp [Taken, Mem.allocatable, Mem.initial]
    | op he hf => exact absurd (congrArg Word.addr (everOp_initial he)) hf
    | update he _ => cases everOp_initial he

theorem StatusInv.initial : StatusInv .initial .initial := by
  intro t c r
  constructor
  · intro h
    cases h
  · rintro ⟨_, h | h⟩
    · next h _ _ _ => cases h
    · next h _ _ => cases everOp_initial h

theorem keys_initial : keys .initial .initial = ∅ := by
  ext k
  simp only [Set.mem_empty_iff_false, iff_false]
  rintro ⟨x, hx, hne, _⟩
  exact hne hx

-- ---------------------------------------------------------------------------
-- The invariant
-- ---------------------------------------------------------------------------

/-- What holds of every state of a run and its history. -/
structure Inv (cfg : Config) (s : State) (g : Ghost) : Prop where
  mem : MemInv cfg s.mem g
  status : StatusInv s.mem g
  idle : ∀ {t}, s.thread t = .idle → g.status t = .idle
  pc : ∀ {t call pc}, s.thread t = .running call pc → PcInv cfg s.mem g t call pc
  apart : ∀ {t u call call' pc pc'}, t ≠ u → s.thread t = .running call pc →
    s.thread u = .running call' pc' → ∀ a ∈ pc.owns, a ∉ pc'.owns

theorem Inv.initial : Inv cfg .initial .initial where
  mem := MemInv.initial
  status := StatusInv.initial
  idle := fun _ => rfl
  pc := fun h => by cases h
  apart := fun _ h => by cases h

theorem PcInv.private (h : PcInv cfg m g t call pc) : ∀ a ∈ pc.owns, Private cfg m g a := by
  induction pc with
  | hpChild n d next ih => exact ih h
  | hpPut w next ih => exact ih h
  | addOld f d n => simpa [PC.owns] using h.2.2.2.1
  | addCas f n r => simpa [PC.owns] using ⟨h.2.2.2.1, h.2.2.2.2.2.1⟩
  | removeInstall f r => simpa [PC.owns] using h.2.2.2.2.1
  | markedCas a r => simpa [PC.owns] using h.2.2.1
  | _ => simp [PC.owns]

/-- A new status of a thread between two calls. -/
theorem Inv.setStatus (h : Inv cfg s g) {st : Status} {th : Thread}
    (hold : ∀ c r, g.status t ≠ .published c r) (hst : ∀ c r, st ≠ .published c r)
    (hth : th = .idle ∧ st = .idle ∨
      ∃ c f, th = .running c (callStart cfg f) ∧ st = .waiting c) :
    Inv cfg { s with thread := Function.update s.thread t th } (g.setStatus t st) := by
  have hmem := h.mem.setStatus (Function.update g.status t st)
  have hev : Evolution cfg (fun _ => False) s.mem g s.mem (g.setStatus t st) :=
    { (Change.evolves (t := t) .read h.mem).setStatus with before := h.mem, after := hmem }
  have howns : ∀ c pc, th = .running c pc → pc.owns = [] := by
    rintro c pc rfl
    rcases hth with ⟨hth, _⟩ | ⟨c', f, hth, _⟩
    · cases hth
    · cases hth
      exact owns_callStart
  refine ⟨hmem, h.status.setStatus hold hst, fun {u} hu => ?_, fun {u c pc} hu => ?_,
    fun {u v c c' pc pc'} huv hu hv => ?_⟩
  · by_cases hut : u = t
    · subst hut
      rw [status_setStatus]
      simp only [Function.update_self] at hu
      rcases hth with ⟨_, hst⟩ | ⟨c, f, hth, _⟩
      · exact hst
      · rw [hth] at hu
        cases hu
    · simp only [Function.update_of_ne hut] at hu
      exact (Function.update_of_ne hut ..).trans (h.idle hu)
  · by_cases hut : u = t
    · subst hut
      simp only [Function.update_self] at hu
      rcases hth with ⟨hth, _⟩ | ⟨c', f, hth, hst⟩
      · rw [hth] at hu
        cases hu
      · rw [hth] at hu
        cases hu
        exact pcInv_callStart (by rw [status_setStatus, hst])
    · simp only [Function.update_of_ne hut] at hu
      refine hev.pcInv ?_ (fun _ _ => id) (h.pc hu)
      exact (Function.update_of_ne hut st g.status).symm ▸ .same
  · intro a ha ha'
    by_cases hut : u = t
    · subst hut
      simp only [Function.update_self] at hu
      simp [howns _ _ hu] at ha
    · by_cases hvt : v = t
      · subst hvt
        simp only [Function.update_self] at hv
        simp [howns _ _ hv] at ha'
      · simp only [Function.update_of_ne hut, Function.update_of_ne hvt] at hu hv
        exact h.apart huv hu hv a ha ha'

/-- One shared access. -/
theorem Inv.access (hcfg : cfg.hazardPointers = false) (h : Inv cfg s g) {fresh : Addr}
    (ht : s.thread t = .running call pc) (hok : ¬ Reckless cfg pc)
    (he : exec cfg t call fresh s.mem pc = some (m', pc')) :
    ∃ g' spent, Change cfg t spent s.mem g m' g' ∧
      Inv cfg ⟨m', Function.update s.thread t (.running call pc')⟩ g' := by
  obtain ⟨g', spent, hc, hspent, hpc, hown⟩ := sound_exec hcfg h.mem h.status (h.pc ht) hok he
  have hev := h.mem.evolution hc
  refine ⟨g', spent, hc, hev.after, hc.statusInv h.mem h.status, fun {u} hu => ?_,
    fun {u c p} hu => ?_, fun {u v c c' p p'} huv hu hv a ha ha' => ?_⟩
  · by_cases hut : u = t
    · subst hut
      simp at hu
    · simp only [Function.update_of_ne hut] at hu
      have hres := hc.resolves h.mem h.status hut
      rw [h.idle hu] at hres
      generalize g'.status u = st at hres
      cases hres
      rfl
  · by_cases hut : u = t
    · subst hut
      simp only [Function.update_self, Thread.running.injEq] at hu
      obtain ⟨rfl, rfl⟩ := hu
      exact hpc
    · simp only [Function.update_of_ne hut] at hu
      refine hev.pcInv (hc.resolves h.mem h.status hut) (fun a ha hs => ?_) (h.pc hu)
      exact h.apart (Ne.symm hut) ht hu a (hspent a hs) ha
  · -- A new address was not taken, and what another thread owns is taken.
    have hnew : ∀ {u c p}, u ≠ t → s.thread u = .running c p → ∀ a ∈ p.owns, a ∉ pc'.owns := by
      intro u c p hut hu a ha ha'
      rcases hown a ha' with ha' | hnt
      · exact h.apart hut hu ht a ha ha'
      · exact hnt ((h.pc hu).private a ha).taken
    by_cases hut : u = t
    · subst hut
      have hvt := Ne.symm huv
      simp only [Function.update_self, Thread.running.injEq, Function.update_of_ne hvt] at hu hv
      obtain ⟨rfl, rfl⟩ := hu
      exact hnew hvt hv a ha' ha
    · by_cases hvt : v = t
      · subst hvt
        simp only [Function.update_self, Thread.running.injEq, Function.update_of_ne hut] at hu hv
        obtain ⟨rfl, rfl⟩ := hv
        exact hnew hut hu a ha ha'
      · simp only [Function.update_of_ne hut, Function.update_of_ne hvt] at hu hv
        exact h.apart huv hu hv a ha ha'

/-- What a step of the system does to the history. -/
inductive Traces (cfg : Config) (m : Mem) (g : Ghost) : Tid × Action → Mem → Ghost → Prop where
  | invoke {t : Tid} {c : Call} : g.status t = .idle →
      Traces cfg m g (t, .invoke c) m (g.setStatus t (.waiting c))
  | access {t : Tid} {fresh : Addr} {spent : Addr → Prop} {m' : Mem} {g' : Ghost} :
      Change cfg t spent m g m' g' → Traces cfg m g (t, .access fresh) m' g'
  | respond {t : Tid} {r : Result} : g.status t = .done r →
      Traces cfg m g (t, .respond) m (g.setStatus t .idle)

/-- A step that does not delete a published record while deleted addresses are
    handed out again. -/
def Careful (cfg : Config) (s : State) (l : Tid × Action) : Prop :=
  ∀ call pc, s.thread l.1 = .running call pc → ¬ Reckless cfg pc

theorem careful_of_fresh (h : cfg.reuse = false) : Careful cfg s l := by
  rintro call pc _ ⟨hre, _⟩
  rw [h] at hre
  cases hre

theorem Inv.step (hcfg : cfg.hazardPointers = false) (h : Inv cfg s g) (hok : Careful cfg s l)
    (hnext : (system cfg).next s l = some s') :
    ∃ g', Inv cfg s' g' ∧ Traces cfg s.mem g l s'.mem g' := by
  cases steps_of_next hnext with
  | @invoke t c ht =>
    have hidle := h.idle ht
    exact ⟨_, h.setStatus (by simp [hidle]) (by simp) (.inr ⟨c, .initial, rfl, rfl⟩), .invoke hidle⟩
  | access ht he =>
    obtain ⟨g', spent, hc, hinv⟩ := h.access hcfg ht (hok _ _ ht) he
    exact ⟨g', hinv, .access hc⟩
  | @respond t c r ht =>
    have hdone : g.status t = .done r := h.pc ht
    exact ⟨_, h.setStatus (by simp [hdone]) (by simp) (.inl ⟨rfl, rfl⟩), .respond hdone⟩

/-- A run together with the history of each of its states. -/
structure History {n : Nat} (e : (system cfg).Exec n) where
  ghost : Nat → Ghost
  start : ghost 0 = .initial
  inv : ∀ i ≤ n, Inv cfg (e.state i) (ghost i)
  traces : ∀ i < n,
    Traces cfg (e.state i).mem (ghost i) (e.label i) (e.state (i + 1)).mem (ghost (i + 1))

/-- The history can be carried along every run. -/
theorem exists_history (hcfg : cfg.hazardPointers = false) {n : Nat} (e : (system cfg).Exec n)
    (hok : ∀ i < n, Careful cfg (e.state i) (e.label i)) : Nonempty (History e) := by
  obtain ⟨ghost, start, inv, traces⟩ :=
    e.annotate (I := Inv cfg) (R := fun s g l s' g' => Traces cfg s.mem g l s'.mem g')
      .initial Inv.initial (fun _ _ _ _ h hok hnext => h.step hcfg hok hnext) hok
  exact ⟨ghost, start, inv, traces⟩

theorem exists_inv (hcfg : cfg.hazardPointers = false) (hre : cfg.reuse = false)
    (hs : (system cfg).Reachable s) : ∃ g, Inv cfg s g :=
  hs.invariant (P := fun s => ∃ g, Inv cfg s g) ⟨_, Inv.initial⟩ fun _ _ _ ⟨_, h⟩ hnext =>
    (h.step hcfg (careful_of_fresh hre) hnext).imp fun _ h => h.1

/-- A step between two calls changes the status of a thread only. -/
theorem Traces.change (h : Traces cfg m g l m' g') : ∃ u spent g₀ status,
    Change cfg u spent m g m' g₀ ∧ g' = { g₀ with status := status } := by
  cases h with
  | invoke => exact ⟨0, fun _ => False, g, _, .read, rfl⟩
  | access hc => exact ⟨_, _, _, _, hc, rfl⟩
  | respond => exact ⟨0, fun _ => False, g, _, .read, rfl⟩

theorem Traces.evolves (h : Traces cfg m g l m' g') (hm : MemInv cfg m g) :
    ∃ spent, Evolves cfg spent m g m' g' := by
  have hread : Evolves cfg (fun _ => False) m g m g := (Change.read (t := 0)).evolves hm
  cases h with
  | invoke => exact ⟨_, hread.setStatus⟩
  | access hc => exact ⟨_, hc.evolves hm⟩
  | respond => exact ⟨_, hread.setStatus⟩

namespace History

variable {n : Nat} {e : (system cfg).Exec n} (H : History e) {x : Addr} {w : Word} {i j : Nat}

include H

theorem mem (hi : i ≤ n) : MemInv cfg (e.state i).mem (H.ghost i) := (H.inv i hi).mem

theorem evolution (hi : i < n) : ∃ spent,
    Evolution cfg spent (e.state i).mem (H.ghost i) (e.state (i + 1)).mem (H.ghost (i + 1)) := by
  obtain ⟨spent, hev⟩ := (H.traces i hi).evolves (H.mem hi.le)
  exact ⟨spent, { hev with before := H.mem hi.le, after := H.mem hi }⟩

/-- What every step of a history keeps holds from the point where it first holds. -/
theorem preserved {P : Mem → Ghost → Prop}
    (hstep : ∀ m g m' g' spent, Evolution cfg spent m g m' g' → P m g → P m' g')
    (hij : i ≤ j) (hj : j ≤ n) (h : P (e.state i).mem (H.ghost i)) :
    P (e.state j).mem (H.ghost j) := by
  induction j, hij using Nat.le_induction with
  | base => exact h
  | succ j hij ih =>
    obtain ⟨spent, hev⟩ := H.evolution hj
    exact hstep _ _ _ _ _ hev (ih (by omega))

theorem ever (hij : i ≤ j) (hj : j ≤ n) (h : everOp (e.state i).mem (H.ghost i) x w) :
    everOp (e.state j).mem (H.ghost j) x w :=
  H.preserved (P := fun m g => everOp m g x w) (fun _ _ _ _ _ hev => hev.ever) hij hj h

theorem pastOp (hij : i ≤ j) (hj : j ≤ n) (h : w ∈ (H.ghost i).pastOp x) :
    w ∈ (H.ghost j).pastOp x :=
  H.preserved (P := fun _ g => w ∈ g.pastOp x) (fun _ _ _ _ _ hev h => hev.pastOp x h) hij hj h

end History

end LockFree
