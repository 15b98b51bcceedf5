-- SUMMARY: Lock-freedom: as long as any of finitely many threads take steps, calls return.
import ConcurrentBST.Library.InfiniteRuns
import ConcurrentBST.LockFree.Restarts
import ConcurrentBST.LockFree.Rounds
import Mathlib.Data.Set.Card
import Mathlib.Order.Filter.Finite

/-!
# Lock-freedom

Suppose that in an infinite run of finitely many threads no call returns any
more. Then one thing after the other stops happening: calls begin and take
effect, nodes are spliced out, `op` fields come to rest, relocations go round.
In the end no step changes anything another thread can see, and each thread
runs into the end of its call.
-/

open Filter

namespace LockFree

variable {cfg : Config} {s s' : State} {l : Tid × Action} {r : (system .plain).Run}
  {T : Finset Tid} {t u : Tid} {i : Nat} {fresh x : Addr} {A : Ancestry Addr}

-- ---------------------------------------------------------------------------
-- Infinite runs with their history
-- ---------------------------------------------------------------------------

/-- An infinite run together with the history of each of its states. -/
structure Endless (r : (system .plain).Run) where
  ghost : Nat → Ghost
  inv : ∀ i, Inv .plain (r.state i) (ghost i)
  traces : ∀ i, Traces .plain (r.state i).mem (ghost i) (r.label i) (r.state (i + 1)).mem
    (ghost (i + 1))

theorem exists_endless (r : (system .plain).Run) : Nonempty (Endless r) := by
  obtain ⟨ghost, -, inv, traces⟩ :=
    r.annotate (I := Inv .plain) (R := fun s g l s' g' => Traces .plain s.mem g l s'.mem g')
      .initial Inv.initial fun _ _ _ _ h hnext => h.step rfl (careful_of_fresh rfl) hnext
  exact ⟨ghost, inv, traces⟩

/-- A thread stays in its call until it returns. -/
theorem running_of_next (hnext : (system cfg).next s l = some s') (hl : l ≠ (t, .respond))
    (ht : s.thread t ≠ .idle) : s'.thread t ≠ .idle := by
  by_cases hlt : l.1 = t
  · subst hlt
    cases steps_of_next hnext with
    | invoke hidle => exact absurd hidle ht
    | access => simp
    | respond => exact absurd rfl hl
  · rwa [thread_of_next hnext hlt]

namespace Endless

variable (H : Endless r)

theorem idle (hT : ∀ i, (r.label i).1 ∈ T) (ht : t ∉ T) (i : Nat) :
    (r.state i).thread t = .idle := by
  induction i with
  | zero =>
    rw [r.start]
    rfl
  | succ i ih =>
    rw [thread_of_next (r.step i) fun heq : (r.label i).1 = t => ht (heq ▸ hT i)]
    exact ih

theorem evolution (i : Nat) : ∃ spent, Evolution .plain spent (r.state i).mem (H.ghost i)
    (r.state (i + 1)).mem (H.ghost (i + 1)) := by
  obtain ⟨spent, hev⟩ := (H.traces i).evolves (H.inv i).mem
  exact ⟨spent, { hev with before := (H.inv i).mem, after := (H.inv (i + 1)).mem }⟩

/-- The step of a thread that is in a call. -/
theorem access (hl : r.label i = (t, .access fresh)) : ∃ call pc pc' spent,
    (r.state i).thread t = .running call pc ∧
    exec .plain t call fresh (r.state i).mem pc = some ((r.state (i + 1)).mem, pc') ∧
    (r.state (i + 1)).thread t = .running call pc' ∧
    Change .plain t spent (r.state i).mem (H.ghost i) (r.state (i + 1)).mem (H.ghost (i + 1)) := by
  have hstep := steps_of_next (r.step i)
  have htrace := H.traces i
  rw [hl] at hstep htrace
  generalize r.state (i + 1) = s' at *
  cases hstep with
  | @access _ call pc pc' m' _ ht he =>
    cases htrace with
    | access hc => exact ⟨call, pc, pc', _, ht, he, by simp, hc⟩

-- ---------------------------------------------------------------------------
-- Calls
-- ---------------------------------------------------------------------------

section Quiet

variable (hT : ∀ i, (r.label i).1 ∈ T) (hquiet : ∀ᶠ i in atTop, ∀ t, r.label i ≠ (t, .respond))

include hT hquiet

theorem eventually_access : ∀ᶠ i in atTop, ∃ t fresh, r.label i = (t, .access fresh) := by
  have hinvoke : ∀ t ∈ T, ∀ᶠ i in atTop, ¬ ∃ call, r.label i = (t, .invoke call) := by
    intro t _
    refine eventually_not_of_new (P := fun i => (r.state i).thread t ≠ .idle) ?_ (.of_forall ?_)
    · filter_upwards [hquiet] with i hq ht
      exact running_of_next (r.step i) (hq t) ht
    · rintro i ⟨call, hl⟩
      have hstep := steps_of_next (r.step i)
      rw [hl] at hstep
      generalize r.state (i + 1) = s' at *
      cases hstep with
      | invoke ht => simp [ht]
  filter_upwards [T.eventually_all.mpr hinvoke, hquiet] with i hinvoke hq
  have hi := hT i
  generalize r.label i = l at *
  obtain ⟨t, act⟩ := l
  cases act with
  | invoke call => exact absurd ⟨call, rfl⟩ (hinvoke t hi)
  | access fresh => exact ⟨t, fresh, rfl⟩
  | respond => exact absurd rfl (hq t)

theorem eventually_advance : ∀ᶠ i in atTop, Advance .plain (r.state i).mem (H.ghost i)
    (r.state (i + 1)).mem (H.ghost (i + 1)) := by
  filter_upwards [eventually_access hT hquiet] with i ⟨t, fresh, hl⟩
  obtain ⟨_, _, _, _, _, _, _, hc⟩ := H.access hl
  exact hc.advance (H.inv i).mem (H.inv i).status

/-- From some point on no call takes effect. -/
theorem eventually_unfinished : ∀ᶠ i in atTop, ∀ u,
    ((H.ghost (i + 1)).status u).Finished → ((H.ghost i).status u).Finished := by
  have hmem : ∀ u ∈ T, ∀ᶠ i in atTop,
      (((H.ghost (i + 1)).status u).Finished ↔ ((H.ghost i).status u).Finished) := by
    intro u _
    refine eventually_iff_of_imp (P := fun i => ((H.ghost i).status u).Finished) ?_
    filter_upwards [eventually_access hT hquiet] with i ⟨t, fresh, hl⟩ hu
    obtain ⟨_, _, _, _, _, _, _, hc⟩ := H.access hl
    exact hc.finished (H.inv i).mem (H.inv i).status hu
  filter_upwards [T.eventually_all.mpr hmem] with i hi u hu
  by_cases huT : u ∈ T
  · exact (hi u huT).mp hu
  · rw [(H.inv (i + 1)).idle (idle hT huT (i + 1))] at hu
    exact hu.elim

-- ---------------------------------------------------------------------------
-- The tree
-- ---------------------------------------------------------------------------

/-- From some point on the tree stays as it is, and no `op` field gets less settled. -/
theorem eventually_calm : ∀ᶠ i in atTop, Calm (r.state i).mem (H.ghost i)
    (r.state (i + 1)).mem (H.ghost (i + 1)) := by
  have hkinds : ∀ᶠ i in atTop,
      (∃ c ∈ (H.ghost i).tree.nodes, (H.ghost (i + 1)).tree = (H.ghost i).tree.remove c) ∨
      Calm (r.state i).mem (H.ghost i) (r.state (i + 1)).mem (H.ghost (i + 1)) := by
    filter_upwards [H.eventually_advance hT hquiet, H.eventually_unfinished hT hquiet] with i hi hun
    cases hi with
    | finish hn hu => exact absurd (hun _ hu) hn
    | splice hc htree => exact .inl ⟨_, hc, htree⟩
    | settle hcalm _ _ => exact .inr hcalm
    | round hcalm _ => exact .inr hcalm
  -- The nodes get fewer whenever the tree changes.
  have hfin : ∀ i, (H.ghost i).tree.nodes.Finite := fun i => (H.inv i).mem.finite
  have hsplice := eventually_not_of_lt (f := fun i => (H.ghost i).tree.nodes.ncard)
    (P := fun i => ∃ c ∈ (H.ghost i).tree.nodes, (H.ghost (i + 1)).tree = (H.ghost i).tree.remove c)
    ?_ (.of_forall ?_)
  · filter_upwards [hkinds, hsplice] with i hi hns
    exact hi.resolve_left hns
  · filter_upwards [hkinds] with i hi
    refine Set.ncard_le_ncard ?_ (hfin i)
    rcases hi with ⟨c, _, htree⟩ | hcalm
    · rw [htree]
      exact fun y hy => hy.1
    · rw [hcalm.tree]
  · rintro i ⟨c, hc, htree⟩
    refine Set.ncard_lt_ncard ⟨?_, fun hsub => ?_⟩ (hfin i)
    · rw [htree]
      exact fun y hy => hy.1
    · have hc' := hsub hc
      rw [htree] at hc'
      exact hc'.2 rfl

/-- From some point on there are only rounds of relocations in one and the same tree. -/
theorem exists_rounds : ∃ A : Ancestry Addr, ∀ᶠ i in atTop, (H.ghost i).tree = A ∧
    (r.state (i + 1)).mem.child = (r.state i).mem.child ∧
    Round .plain (r.state i).mem (H.ghost i) (r.state (i + 1)).mem := by
  have hcalm := H.eventually_calm hT hquiet
  obtain ⟨A, hA⟩ := exists_eventually_eq (f := fun i => (H.ghost i).tree) (hcalm.mono fun i h => h.tree)
  refine ⟨A, ?_⟩
  obtain ⟨n, hn⟩ := eventually_atTop.mp hA
  have hfin : A.nodes.Finite := hn n le_rfl ▸ (H.inv n).mem.finite
  have hunrest : ∀ x ∈ A.nodes, ∀ᶠ i in atTop, unrest (r.state (i + 1)).mem (H.ghost (i + 1)) x =
      unrest (r.state i).mem (H.ghost i) x := fun x _ =>
    eventually_eq_of_le (f := fun i => unrest (r.state i).mem (H.ghost i) x)
      (hcalm.mono fun i h => h.unrest_le x)
  filter_upwards [hA, hcalm, hfin.eventually_all.mpr hunrest, H.eventually_advance hT hquiet,
    H.eventually_unfinished hT hquiet] with i hA hcalm hunrest hadv hun
  refine ⟨hA, hcalm.child, ?_⟩
  cases hadv with
  | finish hn hu => exact absurd (hun _ hu) hn
  | splice hc htree =>
    rw [← htree.symm.trans hcalm.tree] at hc
    exact absurd rfl hc.2
  | settle _ hx hlt => exact absurd (hunrest _ (hA ▸ hx)) hlt.ne
  | round _ hround => exact hround

-- ---------------------------------------------------------------------------
-- Rounds
-- ---------------------------------------------------------------------------

section Rounds

variable (hround : ∀ᶠ i in atTop, (H.ghost i).tree = A ∧
  (r.state (i + 1)).mem.child = (r.state i).mem.child ∧
  Round .plain (r.state i).mem (H.ghost i) (r.state (i + 1)).mem)

include hround

/-- Once the fields above `x` have settled, no relocation is installed on `x` any more. -/
theorem eventually_not_install
    (habove : ∀ᶠ i in atTop, ∀ y d, A.Below y d x →
      (r.state (i + 1)).mem.op y = (r.state i).mem.op y) :
    ∀ᶠ i in atTop, ¬ ∃ rel, Relocating .plain (r.state i).mem (H.ghost i) x rel ∧
      (r.state (i + 1)).mem = (r.state i).mem.setOp x (.rel rel) := by
  -- A thread that has come past line 283 once more has a candidate that lasts.
  have hvetted : ∀ t ∈ T, ∀ᶠ i in atTop,
      ((∀ call pc, (r.state (i + 1)).thread t = .running call pc →
          Vetted A x (r.state (i + 1)).mem pc) ↔
        ∀ call pc, (r.state i).thread t = .running call pc → Vetted A x (r.state i).mem pc) := by
    intro t _
    refine eventually_iff_of_imp (P := fun i => ∀ call pc,
      (r.state i).thread t = .running call pc → Vetted A x (r.state i).mem pc) ?_
    filter_upwards [eventually_access hT hquiet, hround, habove]
      with i ⟨u, fresh, hl⟩ ⟨hA, _, _⟩ habove hv call' pc' ht'
    by_cases hut : u = t
    · subst hut
      obtain ⟨call, pc, pc₁, _, ht, he, ht₁, _⟩ := H.access hl
      rw [ht₁] at ht'
      cases ht'
      subst hA
      exact vetted_exec ((H.inv i).pc ht) (hv _ _ ht) he
    · rw [thread_of_next (r.step i) (by rw [hl]; exact hut)] at ht'
      obtain ⟨spent, hev⟩ := H.evolution i
      exact (hv call' pc' ht').other hev ((H.inv i).pc ht') habove
  -- A relocation installed after that stays for good.
  have hsecure : ∀ᶠ i in atTop,
      (Secure A x (r.state (i + 1)).mem ↔ Secure A x (r.state i).mem) := by
    refine eventually_iff_of_imp (P := fun i => Secure A x (r.state i).mem) ?_
    filter_upwards [hround, habove] with i ⟨_, _, hround⟩ habove hs
    obtain ⟨spent, hev⟩ := H.evolution i
    exact hs.round hev hround habove
  filter_upwards [eventually_access hT hquiet, T.eventually_all.mpr hvetted, hsecure]
    with i ⟨t, fresh, hl⟩ hvetted hsecure ⟨rel, hrel, hm⟩
  obtain ⟨call, pc, pc', _, ht, he, ht', _⟩ := H.access hl
  have htT : t ∈ T := by simpa [hl] using hT i
  have hp := (H.inv i).pc ht
  have hafter : ∀ call pc, (r.state (i + 1)).thread t = .running call pc →
      Vetted A x (r.state (i + 1)).mem pc := by
    intro call₁ pc₁ ht₁
    obtain ⟨f, -, -, -, rfl⟩ := installs_at hp he hrel hm
    rw [ht'] at ht₁
    cases ht₁
    trivial
  have hv := (hvetted t htT).mp hafter call pc ht
  obtain ⟨rel', hop, _⟩ := hsecure.mp (hv.secure hp he hrel hm)
  simpa [hop] using hrel.flag

theorem eventually_op_of_above
    (habove : ∀ᶠ i in atTop, ∀ y d, A.Below y d x →
      (r.state (i + 1)).mem.op y = (r.state i).mem.op y) :
    ∀ᶠ i in atTop, (r.state (i + 1)).mem.op x = (r.state i).mem.op x := by
  have hinstall := H.eventually_not_install hT hquiet hround habove
  have hflag := eventually_iff_of_imp (P := fun i => ((r.state i).mem.op x).flag ≠ .relocate) ?_
  · filter_upwards [hround, hinstall, hflag] with i ⟨_, _, hround⟩ hinstall hflag
    rcases hround.op_cases (x := x) with heq | hins | ⟨rel, hop, -, -, hop'⟩
    · exact heq
    · exact absurd hins hinstall
    · exact absurd (by rw [hop]) (hflag.mp (by simp [hop']))
  · filter_upwards [hround, hinstall] with i ⟨_, _, hround⟩ hinstall hf
    rcases hround.op_cases (x := x) with heq | hins | ⟨rel, hop, -, -, -⟩
    · rwa [heq]
    · exact absurd hins hinstall
    · exact absurd (by rw [hop]) hf

/-- The `op` fields of the tree come to rest, from the top downwards. -/
theorem eventually_op : ∀ᶠ i in atTop, ∀ x ∈ A.nodes,
    (r.state (i + 1)).mem.op x = (r.state i).mem.op x := by
  obtain ⟨n, hn⟩ := eventually_atTop.mp hround
  have hA := (hn n le_rfl).1
  have hlaw : A.Lawful := hA ▸ (H.inv n).mem.lawful
  have hfin : A.nodes.Finite := hA ▸ (H.inv n).mem.finite
  have hup : ∀ x, {y | ∃ d, A.Below y d x}.Finite := fun x =>
    hfin.subset fun y ⟨_, hd⟩ => hd.mem
  suffices h : ∀ k x, {y | ∃ d, A.Below y d x}.ncard = k →
      ∀ᶠ i in atTop, (r.state (i + 1)).mem.op x = (r.state i).mem.op x from
    hfin.eventually_all.mpr fun x _ => h _ x rfl
  intro k
  induction k using Nat.strong_induction_on with
  | _ k ih =>
    rintro x rfl
    have hall : ∀ y ∈ {y | ∃ d, A.Below y d x},
        ∀ᶠ i in atTop, (r.state (i + 1)).mem.op y = (r.state i).mem.op y := by
      rintro y ⟨d, hd⟩
      refine ih _ (Set.ncard_lt_ncard ⟨?_, fun hsub => ?_⟩ (hup x)) y rfl
      · exact fun z ⟨e, he⟩ => ⟨e, hlaw.trans he hd⟩
      · obtain ⟨e, he⟩ := hsub ⟨d, hd⟩
        exact hlaw.irrefl he
    refine H.eventually_op_of_above hT hquiet hround ?_
    filter_upwards [(hup x).eventually_all.mpr hall] with i hi y d hd
    exact hi y ⟨d, hd⟩

/-- From some point on no step changes anything the other threads can see. -/
theorem eventually_still : ∀ᶠ i in atTop,
    Still (r.state i).mem (H.ghost i) (r.state (i + 1)).mem := by
  obtain ⟨n, hn⟩ := eventually_atTop.mp hround
  have hfin : A.nodes.Finite := (hn n le_rfl).1 ▸ (H.inv n).mem.finite
  have hop := H.eventually_op hT hquiet hround
  -- A relocation fails once, and no new ones come.
  have hfail : ∀ x ∈ A.nodes, ∀ᶠ i in atTop, ¬ ∃ rel, (r.state i).mem.op x = .rel rel ∧
      (r.state i).mem.state rel = .ongoing ∧
      (r.state (i + 1)).mem = (r.state i).mem.setState rel .failed := by
    intro x hx
    refine eventually_not_of_new (P := fun i => ¬ ∃ rel, (r.state i).mem.op x = .rel rel ∧
      (r.state i).mem.state rel = .ongoing) ?_ (.of_forall ?_)
    · filter_upwards [hround, hop] with i ⟨_, _, hround⟩ hop hno ⟨rel, hrel, hst⟩
      rw [hop x hx] at hrel
      refine hno ⟨rel, hrel, ?_⟩
      cases hround with
      | install _ hm => rwa [hm] at hst
      | fail _ _ hm =>
        rw [hm, Mem.setState_state] at hst
        split at hst
        · cases hst
        · exact hst
      | release _ _ hm => rwa [hm] at hst
      | rest _ hrest => rwa [hrest rel ((H.inv i).mem.place (.inl hrel)).1] at hst
    · rintro i ⟨rel, hrel, hst, hm⟩
      refine ⟨fun hno => hno ⟨rel, hrel, hst⟩, ?_⟩
      rintro ⟨rel', hrel', hst'⟩
      rw [hm] at hrel' hst'
      obtain rfl : rel = rel' := by simpa [hrel] using hrel'
      simp at hst'
  filter_upwards [hround, hop, hfin.eventually_all.mpr hfail] with i ⟨hA, _, hround⟩ hop hfail
  have h := (H.inv i).mem
  cases hround with
  | @install x rel hr hm =>
    have hx : x ∈ A.nodes := hA ▸ h.mem_of_flag (by simp [hr.flag]) hr.born
    have heq := hop x hx
    rw [hm, Mem.setOp_op, if_pos rfl] at heq
    simpa [← heq] using hr.flag
  | @fail rel hr hst hm =>
    have hheld := (h.record hr).ongoing_held hst
    have hx := hA ▸ h.mem_of_flag (x := (H.ghost i).replace rel) (by simp [hheld])
      (h.born_of_flag (by simp [hheld]))
    exact absurd ⟨rel, hheld, hst, hm⟩ (hfail _ hx)
  | @release rel hrel hst hm =>
    have hx := hA ▸ h.mem_of_flag (x := (H.ghost i).replace rel) (by simp [hrel])
      (h.born_of_flag (by simp [hrel]))
    have heq := hop _ hx
    rw [hm, Mem.setOp_op, if_pos rfl, hrel] at heq
    cases congrArg Word.flag heq
  | rest hop hst => exact ⟨hop, hst⟩

omit hT hquiet in
/-- From some point on the child fields lead downwards in one and the same ranking. -/
theorem exists_ranking : ∃ rk, ∀ᶠ i in atTop, Ranked (r.state i).mem rk := by
  obtain ⟨child, hchild⟩ := exists_eventually_eq (f := fun i => (r.state i).mem.child)
    (hround.mono fun i h => h.2.1)
  obtain ⟨n, hn⟩ := eventually_atTop.mp hchild
  obtain ⟨rk, hrk⟩ := exists_ranked (r.reachable n)
  refine ⟨rk, hchild.mono fun i hi x d c hc => hrk x d c ?_⟩
  rwa [show (r.state n).mem.child = child from hn n le_rfl, ← hi]

end Rounds

end Quiet

-- ---------------------------------------------------------------------------
-- The end of a thread
-- ---------------------------------------------------------------------------

end Endless

/-- How many times the thread may still restart in its call. -/
noncomputable def Thread.level (m : Mem) : Thread → Nat
  | .idle => 0
  | .running _ pc => LockFree.level m pc

/-- A bound on the steps to the next restart or return. -/
def Thread.height (rk : Addr → Nat) : Thread → Nat
  | .idle => 0
  | .running _ pc => pc.height rk

namespace Endless

variable (H : Endless r)

/-- A thread whose steps nobody can see makes only finitely many of them. -/
theorem eventually_stops {rk : Addr → Nat}
    (haccess : ∀ᶠ i in atTop, ∃ t fresh, r.label i = (t, .access fresh))
    (hstill : ∀ᶠ i in atTop, Still (r.state i).mem (H.ghost i) (r.state (i + 1)).mem)
    (hrank : ∀ᶠ i in atTop, Ranked (r.state i).mem rk) (t : Tid) :
    ∀ᶠ i in atTop, (r.label i).1 ≠ t := by
  have hproceeds : ∀ᶠ i in atTop, (r.label i).1 = t →
      ((r.state (i + 1)).thread t).level (r.state (i + 1)).mem <
        ((r.state i).thread t).level (r.state i).mem ∨
      ((r.state (i + 1)).thread t).level (r.state (i + 1)).mem ≤
        ((r.state i).thread t).level (r.state i).mem ∧
      ((r.state (i + 1)).thread t).height rk < ((r.state i).thread t).height rk := by
    filter_upwards [haccess, hstill, hrank] with i ⟨u, fresh, hl⟩ hstill hrank hlt
    obtain rfl : u = t := by simpa [hl] using hlt
    obtain ⟨call, pc, pc', _, ht, he, ht', _⟩ := H.access hl
    have hi := H.inv i
    rw [ht, ht']
    exact (exec_proceeds rfl hi.mem hrank hstill (hi.pc ht) he).level rfl
  have hlevel : ∀ᶠ i in atTop, ((r.state (i + 1)).thread t).level (r.state (i + 1)).mem =
      ((r.state i).thread t).level (r.state i).mem := by
    refine eventually_eq_of_le (f := fun i => ((r.state i).thread t).level (r.state i).mem) ?_
    filter_upwards [hstill, hproceeds] with i hstill hproceeds
    by_cases hlt : (r.label i).1 = t
    · exact (hproceeds hlt).elim le_of_lt And.left
    · rw [thread_of_next (r.step i) hlt]
      cases ht : (r.state i).thread t with
      | idle => exact le_rfl
      | running call pc => exact hstill.level ((H.inv i).pc ht)
  have hlower : ∀ᶠ i in atTop, (r.label i).1 = t →
      ((r.state (i + 1)).thread t).height rk < ((r.state i).thread t).height rk := by
    filter_upwards [hlevel, hproceeds] with i hlevel hproceeds hlt
    exact ((hproceeds hlt).resolve_left hlevel.not_lt).2
  refine eventually_not_of_lt (f := fun i => ((r.state i).thread t).height rk) ?_ hlower
  filter_upwards [hlower] with i hlower
  by_cases hlt : (r.label i).1 = t
  · exact (hlower hlt).le
  · rw [thread_of_next (r.step i) hlt]

end Endless

-- ---------------------------------------------------------------------------
-- Lock-freedom
-- ---------------------------------------------------------------------------

/-- Finitely many threads cannot go on for ever when no call returns any more. -/
theorem Endless.not_quiet (H : Endless r) (hT : ∀ i, (r.label i).1 ∈ T)
    (hquiet : ∀ᶠ i in atTop, ∀ t, r.label i ≠ (t, .respond)) : False := by
  obtain ⟨A, hround⟩ := H.exists_rounds hT hquiet
  obtain ⟨rk, hrank⟩ := H.exists_ranking hround
  have hstop : ∀ t ∈ T, ∀ᶠ i in atTop, (r.label i).1 ≠ t := fun t _ =>
    H.eventually_stops (eventually_access hT hquiet) (H.eventually_still hT hquiet hround) hrank t
  obtain ⟨i, hi⟩ := (T.eventually_all.mpr hstop).exists
  exact hi _ (hT i) rfl

/-- As long as any of finitely many threads take steps, calls return. -/
theorem some_call_returns (r : (system .plain).Run) (T : Finset Tid) (hT : ∀ i, (r.label i).1 ∈ T)
    (n : Nat) : ∃ i, n ≤ i ∧ ∃ t, r.label i = (t, .respond) := by
  by_contra hno
  have hquiet : ∀ᶠ i in atTop, ∀ t, r.label i ≠ (t, .respond) :=
    eventually_atTop.mpr ⟨n, fun i hi t hl => hno ⟨i, hi, t, hl⟩⟩
  obtain ⟨H⟩ := exists_endless r
  exact H.not_quiet hT hquiet

/-- A `find` alone in the empty tree leaves the system as it was. -/
theorem runFrom_find : (system .plain).runFrom .initial (soloCall 0 (.find 5) 0 4) =
    some .initial := by
  obtain ⟨thread, hrun, hthread⟩ : ∃ thread, (system .plain).runFrom .initial
      (soloCall 0 (.find 5) 0 4) = some ⟨.initial, Function.update thread 0 .idle⟩ ∧
      ∀ u, u ≠ 0 → thread u = .idle := by
    refine ⟨_, rfl, fun u hu => ?_⟩
    simp only [Function.update_of_ne hu]
    rfl
  have hidle : Function.update thread 0 .idle = fun _ => .idle :=
    Function.update_eq_iff.mpr ⟨rfl, hthread⟩
  rw [hrun, hidle]
  rfl

/-- One thread that calls `find` over and over. -/
def runOfFinds : (system .plain).Run :=
  .cycle (0, .respond) (soloCall 0 (.find 5) 0 4) (by decide) runFrom_find

theorem some_call_returns_finds : ∃ i, 100 ≤ i ∧ ∃ t, runOfFinds.label i = (t, .respond) := by
  refine some_call_returns runOfFinds {0} (fun i => ?_) 100
  have hmem : runOfFinds.label i ∈ soloCall 0 (.find 5) 0 4 := Lts.Run.label_cycle i
  have hall : ∀ l ∈ soloCall 0 (.find 5) 0 4, l.1 ∈ ({0} : Finset Tid) := by decide
  exact hall _ hmem

end LockFree
