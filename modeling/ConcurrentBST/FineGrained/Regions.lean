-- SUMMARY: What a thread knows while it holds locks, the logic of the fine-grained tree, and a rule for each access.
import ConcurrentBST.FineGrained.Guarantees

/-!
# Regions

A thread knows the nodes it holds: what their fields are, and what they are in
the abstract tree. A rule says how an access changes this. Reads of fields of
nodes that are held are determined by it.
-/

namespace FineGrained

open Threads

/-- A node that is held: what is in memory, and what is in the abstract tree. -/
structure Cell where
  addr : Addr
  mem : Node
  tree : Option Node

/-- A node that is as the abstract tree has it. -/
abbrev Cell.settled (x : Addr) (n : Node) : Cell := ⟨x, n, some n⟩

/-- The world agrees with a cell. -/
structure Cell.Holds (c : Cell) (σ : World) : Prop where
  view : σ.mem.view c.addr = c.mem
  inside : ∀ n, c.tree = some n → σ.ghost.Record c.addr n
  outside : c.tree = none → c.addr ∉ σ.ghost.tree.nodes

/-- What a thread knows besides, as long as it holds the nodes it is about. -/
structure Fact (t : Tid) where
  on : List Addr
  holds : World → Prop
  kept : ∀ {σ σ'}, (∀ x ∈ on, Mine t x σ) → Rely t σ σ' → holds σ → holds σ'

variable {t u : Tid} {σ σ' : World} {x y z p q r s a : Addr} {d e : Bool} {k : Int} {n nq : Node}

namespace Fact

def empty : Fact t where
  on := []
  holds := fun _ => True
  kept := fun _ _ h => h

/-- The search for `k` comes by `x`. -/
def within (k : Int) (x : Addr) : Fact t where
  on := [x]
  holds := fun σ => x ∈ σ.ghost.tree.nodes ∧ σ.ghost.Within k x
  kept := fun hm hr ⟨hx, hw⟩ =>
    have hm := hm x (List.mem_singleton_self x)
    ⟨(hr.member x hm).mpr hx, hr.within x k hm hx hw⟩

/-- The search for `k` comes by `x`, which is the child of `r` on side `d`. -/
def followed (k : Int) (r : Addr) (d : Bool) (x : Addr) : Fact t where
  on := [x]
  holds := fun σ => (x ∈ σ.ghost.tree.nodes ∧ σ.ghost.Within k x) ∧ r ≠ treeLock ∧
    σ.ghost.slot r d = some x ∧ (σ.mem.view r).child d = x
  kept := fun hm hr ⟨hw, hrt, hs, hv⟩ =>
    have hm' := hm x (List.mem_singleton_self x)
    have hl := hr.link x r d hm' hs
    ⟨(within k x).kept hm hr hw, hrt, hl.1, hl.2 hv⟩

/-- The way from `x` to `p` on side `d`. -/
def spine (x : Addr) (d : Bool) (p : Addr) : Fact t where
  on := [x, p]
  holds := fun σ => σ.ghost.Below x d p ∧ Clear x d p σ
  kept := fun hm hr ⟨hb, hc⟩ =>
    have hx := hm x (by simp)
    have hp := hm p (by simp)
    ⟨hr.below p x d hp hx hb, hr.clear x p d hx hp hc⟩

end Fact

/-- The phase of the call of `t`, the nodes `t` holds, and what it knows besides. -/
structure At (t : Tid) (ph : Phase Call Result) (L : List Cell) (F : Fact t) (σ : World) :
    Prop where
  phase : σ.ghost.phase t = ph
  mine : ∀ x, Mine t x σ ↔ x ∈ L.map Cell.addr
  apart : (L.map Cell.addr).Nodup
  cell : ∀ c ∈ L, c.Holds σ
  support : F.on ⊆ L.map Cell.addr
  fact : F.holds σ

/-- What is known when a function is entered. -/
def Pre (t : Tid) : Fn → World → Prop
  | .search k x, σ => ∃ n, x ≠ treeLock ∧
      At t (.pending (.search k)) [.settled x n] (.within k x) σ
  | .insert k x, σ => ∃ n, x ≠ treeLock ∧
      At t (.pending (.insert k)) [.settled x n] (.within k x) σ
  | .delSearch k x, σ => ∃ n rt, x ≠ treeLock ∧
      (n.value = k → n.parent = 0 ∧ ¬ ∀ d, n.child d = 0) ∧
      At t (.pending (.remove k)) [.settled x n, .settled treeLock rt] (.within k x) σ
  | .neighbour x p s d, σ => ∃ ns np nx, s ≠ treeLock ∧ p ≠ treeLock ∧ x ≠ treeLock ∧
      np.child (!d) = s ∧ ns.parent = p ∧
      At t (.pending (.remove nx.value)) [.settled s ns, .settled p np, .settled x nx]
        (.spine x d p) σ

/-- The programs are verified with this logic. -/
def logic : Logic Tid Act Fn Call Result Mem (Set Int) Ghost where
  Inv := Inv
  Rely := Rely
  Ok := Ok
  Pre := Pre
  Post := fun t r => At t (.done r) [] .empty
  Idle := fun t => At t .idle [] .empty
  object := setObject
  abs := Ghost.keys
  phase := Ghost.phase

variable {ph ph' : Phase Call Result} {L L' : List Cell} {F G : Fact t} {c c' : Cell} {i : Nat}

/-- The program may be executed where this is known. -/
abbrev Runs (t : Tid) (ph : Phase Call Result) (L : List Cell) (F : Fact t) (p : Prog) : Prop :=
  logic.Valid lang t (At t ph L F) p

theorem Cell.Holds.kept (h : c.Holds σ) (hm : Mine t c.addr σ) (hr : Rely t σ σ') :
    c.Holds σ' where
  view := (hr.view _ hm).trans h.view
  inside := by
    intro n hn
    have hrec := h.inside n hn
    have hmem := hrec.mem
    refine ⟨(hr.member _ hm).mpr hmem, fun hx => ?_, fun f => ?_, fun hx => ?_⟩
    · exact (hr.key _ hm hmem).trans (hrec.key hx)
    · exact (congrFun (hr.slot _ hm hmem) f).trans (hrec.slot f)
    · obtain ⟨f, hf⟩ := hrec.parent hx
      exact ⟨f, (hr.link _ _ _ hm hf).1⟩
  outside := fun hn hin => h.outside hn ((hr.member _ hm).mp hin)

namespace At

theorem holds (h : At t ph L F σ) (hc : c ∈ L) : Mine t c.addr σ :=
  (h.mine _).mpr (List.mem_map_of_mem hc)

theorem stable : logic.Stable t (At t ph L F) := by
  intro σ σ' h (hr : Rely t σ σ') _
  have hmine : ∀ x, Mine t x σ' ↔ Mine t x σ := fun x => ⟨hr.only x, hr.mine x⟩
  exact ⟨hr.phase.trans h.phase, fun x => (hmine x).trans (h.mine x), h.apart,
    fun c hc => (h.cell c hc).kept (h.holds hc) hr, h.support,
    F.kept (fun x hx => (h.mine x).mpr (h.support hx)) hr h.fact⟩

/-- What is known besides may be given up. -/
theorem weaken (h : At t ph L F σ) (hon : G.on ⊆ F.on) (hF : G.holds σ) : At t ph L G σ :=
  { h with support := List.Subset.trans hon h.support, fact := hF }

end At

theorem Runs.mono {p : Prog} (hp : Runs t ph L G p) (hon : G.on ⊆ F.on)
    (hF : ∀ σ, Inv σ → At t ph L F σ → G.holds σ) : Runs t ph L F p :=
  Logic.Valid.mono hp fun σ hi h => h.weaken hon (hF σ hi h)

theorem Runs.forget {p : Prog} (hp : Runs t ph L .empty p) : Runs t ph L F p :=
  hp.mono (List.nil_subset _) fun _ _ _ => trivial

-- ---------------------------------------------------------------------------
-- Reads
-- ---------------------------------------------------------------------------

/-- What the region says about the result of a read. -/
inductive Reads (L : List Cell) : (a : Act) → a.Ret → Prop where
  | value {x : Addr} {n : Node} {r : Option Node} (i : Nat) : L[i]? = some ⟨x, n, r⟩ →
      x ≠ treeLock → Reads L (.value x) n.value
  | child {x : Addr} {n : Node} {r : Option Node} {d : Bool} (i : Nat) : L[i]? = some ⟨x, n, r⟩ →
      x ≠ treeLock → Reads L (.child x d) (n.child d)
  | parent {x : Addr} {n : Node} {r : Option Node} (i : Nat) : L[i]? = some ⟨x, n, r⟩ →
      x ≠ treeLock → Reads L (.parent x) n.parent
  | root {n : Node} {r : Option Node} (i : Nat) : L[i]? = some ⟨treeLock, n, r⟩ →
      Reads L .root (n.child true)

theorem Mine.allocated (h : Mine t x σ) (hx : x ≠ treeLock) : σ.mem.allocated x = true :=
  h.2.resolve_left hx

theorem view_of_ne {m : Mem} (hx : x ≠ treeLock) : m.view x = m.node x := if_neg hx

/-- A region says who holds its node and what is in it. -/
theorem At.node_eq (h : At t ph L F σ) {i : Nat} {n : Node} {r : Option Node}
    (hi : L[i]? = some ⟨x, n, r⟩) (hx : x ≠ treeLock) : Mine t x σ ∧ σ.mem.node x = n := by
  have hc := List.mem_of_getElem? hi
  have hview : σ.mem.view x = n := (h.cell _ hc).view
  exact ⟨h.holds hc, (view_of_ne hx).symm.trans hview⟩

/-- A read returns what the region says, and changes nothing. -/
theorem At.read (h : At t ph L F σ) {a : Act} {v : a.Ret} (hr : Reads L a v) :
    Ok t a σ ∧ ∀ i w m, exec t a i σ.mem = some (w, m) → w = v ∧ m = σ.mem := by
  cases hr with
  | value i hi hx | parent i hi hx =>
    obtain ⟨hm, hn⟩ := h.node_eq hi hx
    refine ⟨⟨hm.allocated hx, hm⟩, fun _ w m hexec => ?_⟩
    cases hexec
    exact ⟨by rw [hn], rfl⟩
  | child i hi hx =>
    obtain ⟨hm, hn⟩ := h.node_eq hi hx
    refine ⟨⟨hm.allocated hx, .inl hm⟩, fun _ w m hexec => ?_⟩
    cases hexec
    exact ⟨by rw [hn], rfl⟩
  | @root n _ i hi =>
    have hview : σ.mem.view treeLock = n := (h.cell _ (List.mem_of_getElem? hi)).view
    refine ⟨trivial, fun _ w m hexec => ?_⟩
    cases hexec
    exact ⟨congrArg (Node.child · true) hview, rfl⟩

/-- A call takes effect with a read. -/
theorem Runs.commit {a : Act} {v : a.Ret} {k : a.Ret → Prog} (hr : Reads L a v)
    (hc : ∀ σ, Inv σ → At t ph L F σ →
      ∃ g, logic.Allows t none σ ⟨σ.mem, g⟩ ∧ At t ph' L' G ⟨σ.mem, g⟩)
    (hk : Runs t ph' L' G (k v)) : Runs t ph L F (.act a k) := by
  refine Logic.Valid.act (B := fun w σ => w = v ∧ At t ph' L' G σ) At.stable
    (fun σ _ h => (h.read hr).1) (fun σ i w m hi h hexec => ?_) fun w σ hi hw => ?_
  · obtain ⟨rfl, rfl⟩ := (h.read hr).2 i w m hexec
    obtain ⟨g, ha, hat⟩ := hc σ hi h
    exact ⟨g, ha, rfl, hat⟩
  · obtain ⟨rfl, h⟩ := hw
    exact hk σ hi h

theorem Keeps.allows {m : Mem} (h : Keeps t σ ⟨m, σ.ghost⟩) : logic.Allows t none σ ⟨m, σ.ghost⟩ :=
  ⟨.silent, h.inv, h.rely⟩

theorem Keeps.refl (h : Inv σ) : Keeps t σ σ := ⟨h, fun _ _ => .refl⟩

theorem Runs.read {a : Act} {v : a.Ret} {k : a.Ret → Prog} (hr : Reads L a v)
    (hk : Runs t ph L F (k v)) : Runs t ph L F (.act a k) :=
  .commit hr (fun σ hi h => ⟨σ.ghost, (Keeps.refl hi).allows, h⟩) hk

/-- The pointer that was followed is read once more, when only the child is held. -/
theorem Runs.readLink {c : Addr} {kont : Addr → Prog} (hk : Runs t ph L (.within k c) (kont c))
    (hr : r ≠ treeLock) : Runs t ph L (.followed k r d c) (.act (.child r d) kont) := by
  refine Logic.Valid.act (B := fun w σ => w = c ∧ At t ph L (.within k c) σ) At.stable
    (fun σ hi h => ?_) (fun σ i w m hi h hexec => ?_) fun w σ hi hw => ?_
  · obtain ⟨_, _, hs, hv⟩ := h.fact
    have hm : Mine t c σ := (h.mine c).mpr (h.support (List.mem_singleton_self c))
    rw [← hv] at hm
    have hrm := hi.tree.mem_of_child hs
    refine ⟨(hi.live r hrm).resolve_left hr, .inr ⟨hrm, ?_, hm⟩⟩
    rw [hv]
    exact hi.ne_of_child hs
  · cases hexec
    obtain ⟨hw, _, _, hv⟩ := h.fact
    refine ⟨σ.ghost, (Keeps.refl hi).allows, ?_, h.weaken (List.Subset.refl _) hw⟩
    rw [← view_of_ne hr, hv]
  · obtain ⟨rfl, h⟩ := hw
    exact hk σ hi h

-- ---------------------------------------------------------------------------
-- Locks
-- ---------------------------------------------------------------------------

section Lists

variable {α β : Type} {f : α → β} {l : List α} {b b' w : α}

theorem mem_eraseIdx_iff (h : (l.map f).Nodup) (hi : l[i]? = some b) :
    w ∈ l.eraseIdx i ↔ w ∈ l ∧ f w ≠ f b := by
  induction l generalizing i with
  | nil => simp at hi
  | cons a l ih =>
    rw [List.map_cons, List.nodup_cons] at h
    cases i with
    | zero =>
      simp only [List.getElem?_cons_zero, Option.some.injEq] at hi
      subst hi
      grind
    | succ i =>
      simp only [List.getElem?_cons_succ] at hi
      have := ih h.2 hi
      have := List.mem_map_of_mem (f := f) (List.mem_of_getElem? hi)
      grind

theorem mem_set_iff (h : (l.map f).Nodup) (hi : l[i]? = some b) :
    w ∈ l.set i b' ↔ w = b' ∨ w ∈ l ∧ f w ≠ f b := by
  obtain ⟨hlt, _⟩ := List.getElem?_eq_some_iff.mp hi
  rw [← mem_eraseIdx_iff h hi, List.set_eq_take_append_cons_drop, if_pos hlt,
    List.eraseIdx_eq_take_drop_succ]
  simp only [List.mem_append, List.mem_cons]
  tauto

theorem map_set_eq (hi : l[i]? = some b) (hf : f b' = f b) : (l.set i b').map f = l.map f := by
  obtain ⟨hlt, rfl⟩ := List.getElem?_eq_some_iff.mp hi
  rw [List.map_set, hf, ← List.getElem_map f (h := by simpa using hlt), List.set_getElem_self]

end Lists

theorem Cell.Holds.of_view {m : Mem} (h : c.Holds σ) (hv : m.view c.addr = σ.mem.view c.addr) :
    c.Holds ⟨m, σ.ghost⟩ :=
  ⟨hv.trans h.view, h.inside, h.outside⟩

namespace At

/-- A thread takes the lock of a node that is not changing. -/
theorem lock (h : At t ph L F σ) (hx : σ.mem.live x) (hnot : x ∉ L.map Cell.addr)
    (hrec : σ.ghost.Record x (σ.mem.view x)) (hon : G.on ⊆ x :: L.map Cell.addr)
    (hF : G.holds ⟨σ.mem.setLock x (some t), σ.ghost⟩) :
    At t ph (.settled x (σ.mem.view x) :: L) G ⟨σ.mem.setLock x (some t), σ.ghost⟩ := by
  refine ⟨h.phase, fun y => ?_, List.nodup_cons.mpr ⟨hnot, h.apart⟩, fun c hc => ?_, hon, hF⟩
  · rw [List.map_cons, List.mem_cons, ← h.mine y]
    by_cases hyx : y = x
    · subst hyx
      exact iff_of_true ⟨Function.update_self .., hx⟩ (.inl rfl)
    · simp only [Mine, Mem.setLock, Function.update_of_ne hyx, hyx, false_or]
      exact Iff.rfl
  · rcases List.mem_cons.mp hc with rfl | hc
    · exact ⟨rfl, fun n hn => Option.some.inj hn ▸ hrec, fun hn => by cases hn⟩
    · exact (h.cell c hc).of_view rfl

/-- A thread gives up a lock, or a node that it has freed. -/
theorem drop (h : At t ph L F σ) (hi : L[i]? = some c) {m : Mem}
    (hmine : ∀ y, Mine t y ⟨m, σ.ghost⟩ ↔ Mine t y σ ∧ y ≠ c.addr)
    (hview : ∀ y, m.view y = σ.mem.view y) (hon : G.on ⊆ (L.eraseIdx i).map Cell.addr)
    (hF : G.holds ⟨m, σ.ghost⟩) : At t ph (L.eraseIdx i) G ⟨m, σ.ghost⟩ := by
  refine ⟨h.phase, fun y => ?_, ?_, fun c' hc' => ?_, hon, hF⟩
  · rw [hmine, h.mine y, List.mem_map, List.mem_map]
    constructor
    · rintro ⟨⟨c', hc', rfl⟩, hne⟩
      exact ⟨c', (mem_eraseIdx_iff h.apart hi).mpr ⟨hc', hne⟩, rfl⟩
    · rintro ⟨c', hc', rfl⟩
      obtain ⟨hmem, hne⟩ := (mem_eraseIdx_iff h.apart hi).mp hc'
      exact ⟨⟨c', hmem, rfl⟩, hne⟩
  · exact h.apart.sublist ((L.eraseIdx_sublist i).map _)
  · exact (h.cell c' ((mem_eraseIdx_iff h.apart hi).mp hc').1).of_view (hview _)

theorem unlock (h : At t ph L F σ) (hi : L[i]? = some c)
    (hon : G.on ⊆ (L.eraseIdx i).map Cell.addr)
    (hF : G.holds ⟨σ.mem.setLock c.addr none, σ.ghost⟩) :
    At t ph (L.eraseIdx i) G ⟨σ.mem.setLock c.addr none, σ.ghost⟩ := by
  refine h.drop hi (fun y => ?_) (fun _ => rfl) hon hF
  by_cases hy : y = c.addr
  · simp [Mine, Mem.setLock, hy]
  · simp only [Mine, Mem.setLock, Function.update_of_ne hy, ne_eq, hy, not_false_iff, and_true]
    exact Iff.rfl

theorem free (h : At t ph L F σ) (hi : L[i]? = some c) (hc : c.addr ≠ treeLock) :
    At t ph (L.eraseIdx i) .empty ⟨σ.mem.free c.addr, σ.ghost⟩ := by
  refine h.drop hi (fun y => ?_) (fun _ => rfl) (List.nil_subset _) trivial
  by_cases hy : y = c.addr
  · simp [Mine, Mem.live, Mem.free, hy, hc]
  · simp [Mine, Mem.live, Mem.free, hy]

theorem write (h : At t ph L F σ) (hi : L[i]? = some c) {m : Mem} {n : Node}
    (hlock : m.lock = σ.mem.lock) (halloc : m.allocated = σ.mem.allocated)
    (hview : ∀ y, y ≠ c.addr → m.view y = σ.mem.view y) (hn : m.view c.addr = n) :
    At t ph (L.set i ⟨c.addr, n, c.tree⟩) .empty ⟨m, σ.ghost⟩ := by
  have hc := h.cell c (List.mem_of_getElem? hi)
  have haddr : (L.set i ⟨c.addr, n, c.tree⟩).map Cell.addr = L.map Cell.addr := map_set_eq hi rfl
  refine ⟨h.phase, fun y => ?_, haddr ▸ h.apart, fun c' hc' => ?_, List.nil_subset _, trivial⟩
  · rw [haddr, ← h.mine y]
    simp only [Mine, Mem.live, hlock, halloc]
  · rcases (mem_set_iff h.apart hi).mp hc' with rfl | ⟨hmem, hne⟩
    · exact ⟨hn, hc.inside, hc.outside⟩
    · exact (h.cell c' hmem).of_view (hview _ hne)

end At

/-- The child of a node that is held may be locked, if all else that is held is above. -/
theorem Runs.lockChild {kont : Unit → Prog} (i : Nat) (hq : L[i]? = some (.settled q nq))
    (hx : nq.child d = x) (hx0 : x ≠ treeLock)
    (hup : ∀ σ, Inv σ → At t ph L F σ → ∀ c ∈ L, c.addr = q ∨ ∃ e, σ.ghost.Below c.addr e q)
    (hon : G.on ⊆ x :: L.map Cell.addr)
    (hF : ∀ σ, Inv σ → At t ph L F σ → σ.ghost.slot q d = some x →
      G.holds ⟨σ.mem.setLock x (some t), σ.ghost⟩)
    (hk : ∀ n, n.parent = q → Runs t ph (.settled x n :: L) G (kont ())) :
    Runs t ph L F (.act (.lock x) kont) := by
  have hslot : ∀ {σ}, At t ph L F σ → σ.ghost.slot q d = some x := by
    intro σ h
    rw [((h.cell _ (List.mem_of_getElem? hq)).inside nq rfl).slot d, hx]
    exact if_neg hx0
  have habove : ∀ {σ y}, Inv σ → At t ph L F σ → y ∈ L.map Cell.addr → ∃ e, σ.ghost.Below y e x := by
    intro σ y hi h hy
    obtain ⟨c, hc, rfl⟩ := List.mem_map.mp hy
    have hqx := hi.below_of_slot (hslot h)
    rcases hup σ hi h c hc with heq | ⟨e, he⟩
    · exact ⟨d, heq ▸ hqx⟩
    · exact ⟨e, hi.tree.lawful.trans he hqx⟩
  have hnot : ∀ {σ}, Inv σ → At t ph L F σ → x ∉ L.map Cell.addr := by
    intro σ hi h hin
    obtain ⟨e, he⟩ := habove hi h hin
    exact hi.tree.lawful.irrefl he
  refine Logic.Valid.act
    (B := fun _ σ => ∃ n, n.parent = q ∧ At t ph (.settled x n :: L) G σ) At.stable
    (fun σ hi h => ⟨hi.child_mem (hslot h), fun hl => ?_, fun _ => ?_, fun y hy => ?_⟩)
    (fun σ i v m hi h hexec => ?_) fun _ σ hi hB => ?_
  · exact hnot hi h ((h.mine x).mp ⟨hl, hi.live x (hi.child_mem (hslot h))⟩)
  · have hc := List.mem_of_getElem? hq
    exact ⟨q, d, h.holds hc, (congrArg (Node.child · d) (h.cell _ hc).view).trans hx⟩
  · exact habove hi h ((h.mine y).mp hy)
  · have hxm := hi.child_mem (hslot h)
    simp only [lang, exec] at hexec
    split at hexec
    · next hfree =>
      cases hexec
      have hrec := hi.record x hxm hfree
      have hat := h.lock (hi.live x hxm) (hnot hi h) hrec hon (hF σ hi h (hslot h))
      refine ⟨σ.ghost, (Keeps.lock hi hfree (.inr ⟨q, d, hslot h, ?_⟩)).allows, _, ?_, hat⟩
      · exact h.holds (List.mem_of_getElem? hq)
      · obtain ⟨e, he⟩ := hrec.parent hx0
        exact (hi.child_inj he (hslot h)).1
    · cases hexec
  · obtain ⟨n, hn, hat⟩ := hB
    exact hk n hn σ hi hat

/-- `tree_lock` is locked before everything else. -/
theorem Runs.lockTree {kont : Unit → Prog}
    (hk : ∀ n, Runs t ph [.settled treeLock n] .empty (kont ())) :
    Runs t ph [] F (.act (.lock treeLock) kont) := by
  refine Logic.Valid.act (B := fun _ σ => ∃ n, At t ph [.settled treeLock n] .empty σ) At.stable
    (fun σ hi h => ⟨hi.tree.top_mem, fun hl => ?_, absurd rfl, fun y hy => ?_⟩)
    (fun σ i v m hi h hexec => ?_) fun _ σ hi hB => ?_
  · simpa using (h.mine treeLock).mp ⟨hl, .inl rfl⟩
  · simpa using (h.mine y).mp hy
  · simp only [lang, exec] at hexec
    split at hexec
    · next hfree =>
      cases hexec
      have hrec := hi.record treeLock hi.tree.top_mem hfree
      exact ⟨σ.ghost, (Keeps.lock hi hfree (.inl rfl)).allows, _,
        h.lock (.inl rfl) (by simp) hrec (List.nil_subset _) trivial⟩
    · cases hexec
  · obtain ⟨n, hat⟩ := hB
    exact hk n σ hi hat

/-- A node may be unlocked when memory has caught up with the abstract tree. -/
theorem Runs.unlock {kont : Unit → Prog} (i : Nat) (hx : L[i]? = some (.settled x n))
    (hon : G.on ⊆ (L.eraseIdx i).map Cell.addr)
    (hF : ∀ σ, Inv σ → At t ph L F σ → G.holds ⟨σ.mem.setLock x none, σ.ghost⟩)
    (hk : Runs t ph (L.eraseIdx i) G (kont ())) : Runs t ph L F (.act (.unlock x) kont) := by
  refine Logic.Valid.act (B := fun _ => At t ph (L.eraseIdx i) G) At.stable
    (fun σ hi h => h.holds (List.mem_of_getElem? hx)) (fun σ _ v m hi h hexec => ?_) fun _ => hk
  cases hexec
  have hc := h.cell _ (List.mem_of_getElem? hx)
  have hrec : σ.ghost.Record x (σ.mem.view x) := (hc.view : σ.mem.view x = n) ▸ hc.inside n rfl
  exact ⟨σ.ghost, (Keeps.unlock hi (h.holds (List.mem_of_getElem? hx)) hrec).allows,
    h.unlock hx hon (hF σ hi h)⟩

theorem Runs.release {kont : Unit → Prog} (i : Nat) (hx : L[i]? = some (.settled x n))
    (hk : Runs t ph (L.eraseIdx i) .empty (kont ())) : Runs t ph L F (.act (.unlock x) kont) :=
  .unlock i hx (List.nil_subset _) (fun _ _ _ => trivial) hk

/-- A node that is not in the tree any more may be freed. -/
theorem Runs.free {kont : Unit → Prog} (i : Nat) (hx : L[i]? = some ⟨x, n, none⟩)
    (hk : Runs t ph (L.eraseIdx i) .empty (kont ())) : Runs t ph L F (.act (.free x) kont) := by
  have hout : ∀ {σ}, At t ph L F σ → x ∉ σ.ghost.tree.nodes := fun h =>
    (h.cell _ (List.mem_of_getElem? hx)).outside rfl
  have hxt : ∀ {σ}, Inv σ → At t ph L F σ → x ≠ treeLock := fun hi h heq =>
    hout h (heq ▸ hi.tree.top_mem)
  refine Logic.Valid.act (B := fun _ => At t ph (L.eraseIdx i) .empty) At.stable
    (fun σ hi h => ?_) (fun σ _ v m hi h hexec => ?_) fun _ => hk
  · have hm := h.holds (List.mem_of_getElem? hx)
    exact ⟨hm.allocated (hxt hi h), hm, hout h⟩
  · cases hexec
    exact ⟨σ.ghost, (Keeps.free hi (h.holds (List.mem_of_getElem? hx)) (hout h)).allows,
      h.free hx (hxt hi h)⟩

-- ---------------------------------------------------------------------------
-- Writes
-- ---------------------------------------------------------------------------

/-- A pointer may be written over if what it leads to is held, or if the abstract
    tree has something else there. -/
def Loose (L : List Cell) (n : Node) (r : Option Node) (d : Bool) : Prop :=
  n.child d ∈ L.map Cell.addr ∨ ∀ w, r = some w → w.child d ≠ n.child d

/-- A write to a node that is held, and what the region is after it. -/
inductive Writes (L : List Cell) : Act → List Cell → Prop where
  | value {x : Addr} {n : Node} {r : Option Node} {v : Int} (i : Nat) :
      L[i]? = some ⟨x, n, r⟩ → x ≠ treeLock →
      Writes L (.setValue x v) (L.set i ⟨x, { n with value := v }, r⟩)
  | child {x : Addr} {n : Node} {r : Option Node} {d : Bool} {a : Addr} (i : Nat) :
      L[i]? = some ⟨x, n, r⟩ → x ≠ treeLock → Loose L n r d →
      Writes L (.setChild x d a) (L.set i ⟨x, n.setChild d a, r⟩)
  | parent {x : Addr} {n : Node} {r : Option Node} {a : Addr} (i : Nat) :
      L[i]? = some ⟨x, n, r⟩ → x ≠ treeLock →
      Writes L (.setParent x a) (L.set i ⟨x, { n with parent := a }, r⟩)
  | root {n : Node} {r : Option Node} {a : Addr} (i : Nat) :
      L[i]? = some ⟨treeLock, n, r⟩ → Loose L n r true →
      Writes L (.setRoot a) (L.set i ⟨treeLock, n.setChild true a, r⟩)

theorem At.loose (h : At t ph L F σ) (hi : Inv σ) {r : Option Node} (hx : ⟨x, n, r⟩ ∈ L)
    (hl : Loose L n r d) : Mine t (n.child d) σ ∨ σ.ghost.slot x d ≠ some (n.child d) := by
  rcases hl with hmem | hne
  · exact .inl ((h.mine _).mpr hmem)
  refine .inr fun hs => ?_
  cases r with
  | none => exact (h.cell _ hx).outside rfl (hi.tree.mem_of_child hs)
  | some w =>
    rw [((h.cell _ hx).inside w rfl).slot d, ptr] at hs
    split at hs
    · cases hs
    · exact hne w rfl (Option.some.inj hs)

/-- A write of one node. -/
theorem At.keeps_setNode (h : At t ph L F σ) (hi : Inv σ) {r : Option Node} {n' : Node}
    (hx : L[i]? = some ⟨x, n, r⟩) (hxt : x ≠ treeLock)
    (hchild : ∀ d, n'.child d = n.child d ∨ Loose L n r d) :
    Keeps t σ ⟨σ.mem.setNode x n', σ.ghost⟩ ∧
      At t ph (L.set i ⟨x, n', r⟩) .empty ⟨σ.mem.setNode x n', σ.ghost⟩ := by
  have hc := List.mem_of_getElem? hx
  have hother : ∀ y, y ≠ x → (σ.mem.setNode x n').view y = σ.mem.view y := by
    intro y hy
    simp only [Mem.view, Mem.setNode, Function.update_of_ne hy]
  have hself : (σ.mem.setNode x n').view x = n' := by simp [Mem.view, Mem.setNode, hxt]
  have hview : σ.mem.view x = n := (h.cell _ hc).view
  refine ⟨.write hi (h.holds hc) rfl rfl hother fun d => ?_, h.write hx rfl rfl hother hself⟩
  rw [hself, hview]
  exact (hchild d).imp_right (h.loose hi hc)

theorem At.keeps_writes (h : At t ph L F σ) (hi : Inv σ) {a : Act} (hw : Writes L a L') :
    Ok t a σ ∧ ∀ i v m, exec t a i σ.mem = some (v, m) →
      Keeps t σ ⟨m, σ.ghost⟩ ∧ At t ph L' .empty ⟨m, σ.ghost⟩ := by
  cases hw with
  | value i hc hx =>
    obtain ⟨hm, rfl⟩ := h.node_eq hc hx
    refine ⟨⟨hm.allocated hx, hm⟩, fun _ v m hexec => ?_⟩
    cases hexec
    exact h.keeps_setNode hi hc hx fun d => .inl rfl
  | @child x n r d a i hc hx hold =>
    obtain ⟨hm, rfl⟩ := h.node_eq hc hx
    refine ⟨⟨hm.allocated hx, hm⟩, fun _ v m hexec => ?_⟩
    cases hexec
    refine h.keeps_setNode hi hc hx fun f => ?_
    rw [Node.setChild_child]
    by_cases hf : f = d
    · exact .inr (hf ▸ hold)
    · exact .inl (if_neg hf)
  | parent i hc hx =>
    obtain ⟨hm, rfl⟩ := h.node_eq hc hx
    refine ⟨⟨hm.allocated hx, hm⟩, fun _ v m hexec => ?_⟩
    cases hexec
    exact h.keeps_setNode hi hc hx fun d => .inl rfl
  | @root n r a i hc hold =>
    have hm := List.mem_of_getElem? hc
    have hview : σ.mem.view treeLock = n := (h.cell _ hm).view
    have hother : ∀ y, y ≠ treeLock → { σ.mem with gRoot := a }.view y = σ.mem.view y := by
      intro y hy
      simp only [Mem.view, if_neg hy]
    have hself : { σ.mem with gRoot := a }.view treeLock = n.setChild true a := hview ▸ rfl
    refine ⟨h.holds hm, fun _ v m hexec => ?_⟩
    cases hexec
    refine ⟨.write hi (h.holds hm) rfl rfl hother fun d => ?_, h.write hc rfl rfl hother hself⟩
    rw [hself, hview, Node.setChild_child]
    by_cases hd : d = true
    · exact .inr (h.loose hi hm (hd ▸ hold))
    · exact .inl (if_neg hd)

theorem Runs.write {a : Act} {kont : a.Ret → Prog} (hw : Writes L a L')
    (hk : ∀ v, Runs t ph L' .empty (kont v)) : Runs t ph L F (.act a kont) := by
  refine Logic.Valid.act (B := fun _ => At t ph L' .empty) At.stable
    (fun σ hi h => (h.keeps_writes hi hw).1) (fun σ i v m hi h hexec => ?_) hk
  obtain ⟨hkeeps, hat⟩ := (h.keeps_writes hi hw).2 i v m hexec
  exact ⟨σ.ghost, hkeeps.allows, hat⟩

end FineGrained
