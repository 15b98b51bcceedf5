-- SUMMARY: What each access and each change of the abstract tree leaves to the other threads.
import ConcurrentBST.FineGrained.Ghost

/-!
# Guarantees

An access keeps the invariant and what the other threads rely on, if the thread
holds the locks that go with it. So does a change of the abstract tree, which
comes with an access that reads or creates a node.
-/

namespace FineGrained

open Threads

/-- A step of thread `t` that the others may not notice. -/
structure Keeps (t : Tid) (σ σ' : World) : Prop where
  inv : Inv σ'
  rely : ∀ u, u ≠ t → Rely u σ σ'

variable {t u : Tid} {σ σ' : World} {m' : Mem} {g' : Ghost} {x y z p s n : Addr} {d e : Bool}

theorem Mine.unique (h : Mine t x σ) (h' : Mine u x σ) : u = t :=
  Option.some.inj (h'.1.symm.trans h.1)

namespace Inv

theorem ne_of_child (h : Inv σ) (hs : σ.ghost.slot p d = some x) : x ≠ treeLock :=
  h.tree.ne_top_of_child (h.tree.mem_of_child hs) hs

theorem child_mem (h : Inv σ) (hs : σ.ghost.slot p d = some x) : x ∈ σ.ghost.tree.nodes :=
  h.tree.fits.child_mem (h.tree.mem_of_child hs) hs

theorem child_inj (h : Inv σ) (hp : σ.ghost.slot p d = some x) (hq : σ.ghost.slot y e = some x) :
    p = y ∧ d = e :=
  h.tree.fits.child_inj h.tree.lawful (h.tree.mem_of_child hp) (h.tree.mem_of_child hq) hp hq

theorem below_of_slot (h : Inv σ) (hs : σ.ghost.slot p d = some x) : σ.ghost.Below p d x :=
  h.tree.fits.child_below (h.tree.mem_of_child hs) hs

/-- The node between two nodes that is above a child of its own is above both. -/
theorem above_parent (h : Inv σ) (hp : σ.ghost.slot p d = some x) (hy : σ.ghost.Below y e x) :
    y = p ∨ σ.ghost.Below y e p :=
  (h.tree.fits.child_anc hp hy).symm.imp And.left id

end Inv

-- ---------------------------------------------------------------------------
-- Accesses
-- ---------------------------------------------------------------------------

/-- The abstract tree stays. -/
theorem Rely.of_ghost (hmine : ∀ x, Mine u x ⟨m', σ.ghost⟩ ↔ Mine u x σ)
    (hview : ∀ x, Mine u x σ → m'.view x = σ.mem.view x)
    (hlink : ∀ x p d, Mine u x σ → σ.ghost.slot p d = some x → (σ.mem.view p).child d = x →
      (m'.view p).child d = x)
    (hclear : ∀ x y d, Mine u x σ → Mine u y σ → Clear x d y σ → Clear x d y ⟨m', σ.ghost⟩) :
    Rely u σ ⟨m', σ.ghost⟩ where
  phase := rfl
  only := fun x => (hmine x).mp
  mine := fun x => (hmine x).mpr
  view := hview
  member := fun _ _ => Iff.rfl
  key := fun _ _ _ => rfl
  slot := fun _ _ _ => rfl
  link := fun x p d hx hp => ⟨hp, hlink x p d hx hp⟩
  above := fun _ _ _ _ => id
  below := fun _ _ _ _ _ => id
  within := fun _ _ _ _ => id
  clear := hclear

/-- A thread writes to a node it holds. A pointer is written over only if the node
    it leads to is held too, or the abstract tree has another one there. -/
theorem Keeps.write (h : Inv σ) (hx : Mine t x σ) (hlock : m'.lock = σ.mem.lock)
    (halloc : m'.allocated = σ.mem.allocated) (hview : ∀ y, y ≠ x → m'.view y = σ.mem.view y)
    (hchild : ∀ d, (m'.view x).child d = (σ.mem.view x).child d ∨
      Mine t ((σ.mem.view x).child d) σ ∨ σ.ghost.slot x d ≠ some ((σ.mem.view x).child d)) :
    Keeps t σ ⟨m', σ.ghost⟩ := by
  have hlive : m'.live = σ.mem.live := by
    funext y
    simp only [Mem.live, halloc]
  have hother : ∀ {u y}, u ≠ t → Mine u y σ → y ≠ x := by
    rintro u y hut hy rfl
    exact hut (hx.unique hy)
  refine ⟨⟨h.tree, by simpa [halloc] using h.null, fun y hy => ?_, fun y hy hmem => ?_,
    fun y hy hfree => ?_⟩, fun u hut => .of_ghost (fun y => ?_) (fun y hy => ?_)
    (fun y q e hy hq hc => ?_) fun y z e _ _ hc => ?_⟩
  · exact hlive ▸ h.live y hy
  · simpa only [hlock] using h.known y (by simpa only [halloc] using hy) hmem
  · simp only [hlock] at hfree
    have hyx : y ≠ x := by
      rintro rfl
      exact absurd (hx.1.symm.trans hfree) (by simp)
    simpa only [hview y hyx] using h.record y hy hfree
  · simp only [Mine, hlock, hlive]
  · exact hview y (hother hut hy)
  · by_cases hqx : q = x
    · subst hqx
      rcases hchild e with heq | ht | hne
      · rw [heq, hc]
      · rw [hc] at ht
        exact absurd (ht.unique hy) hut
      · exact absurd (hc ▸ hq) hne
    · rw [hview q hqx, hc]
  · simpa only [Clear, hlock] using hc

/-- A node is locked while its parent is. -/
theorem Keeps.lock (h : Inv σ) (hfree : σ.mem.lock x = none)
    (hx : x = treeLock ∨ ∃ p d, σ.ghost.slot p d = some x ∧ Mine t p σ) :
    Keeps t σ ⟨σ.mem.setLock x (some t), σ.ghost⟩ := by
  have hmine : ∀ {u y}, u ≠ t →
      (Mine u y ⟨σ.mem.setLock x (some t), σ.ghost⟩ ↔ Mine u y σ) := by
    intro u y hut
    simp only [Mine, Mem.setLock]
    by_cases hyx : y = x
    · subst hyx
      simp [hfree, Ne.symm hut]
    · rw [Function.update_of_ne hyx]
      rfl
  have hstill : ∀ {y}, Function.update σ.mem.lock x (some t) y = none → σ.mem.lock y = none := by
    intro y hy
    by_cases hyx : y = x
    · rwa [hyx]
    · rwa [Function.update_of_ne hyx] at hy
  refine ⟨⟨h.tree, h.null, h.live, fun y hy hmem => ?_, fun y hy hl => h.record y hy (hstill hl)⟩,
    fun u hut => .of_ghost (fun y => hmine hut) (fun _ _ => rfl) (fun _ _ _ _ _ => id)
      fun a b f ha hb hc y e₁ e₂ hay hyb => ?_⟩
  · obtain ⟨u, hu⟩ := h.known y hy hmem
    by_cases hyx : y = x
    · exact ⟨t, by rw [hyx]; exact Function.update_self ..⟩
    · exact ⟨u, by simpa only [Mem.setLock, Function.update_of_ne hyx] using hu⟩
  · -- The parent of a node between two nodes of `u` is not held by `t`.
    obtain ⟨hy, hside⟩ := hc y e₁ e₂ hay hyb
    refine ⟨?_, hside⟩
    have hyx : y ≠ x := by
      rintro rfl
      rcases hx with rfl | ⟨p, d, hslot, hp⟩
      · exact h.tree.top_first hay
      · rcases h.above_parent hslot hay with rfl | hap
        · exact hut (hp.unique ha)
        · have hpb := h.tree.lawful.trans (h.below_of_slot hslot) hyb
          exact absurd ((hc p _ _ hap hpb).1.symm.trans hp.1) (by simp)
    simpa only [Mem.setLock, Function.update_of_ne hyx] using hy

/-- A node is unlocked when it is as the abstract tree has it. -/
theorem Keeps.unlock (h : Inv σ) (hx : Mine t x σ) (hrec : σ.ghost.Record x (σ.mem.view x)) :
    Keeps t σ ⟨σ.mem.setLock x none, σ.ghost⟩ := by
  have hmine : ∀ {u y}, u ≠ t → (Mine u y ⟨σ.mem.setLock x none, σ.ghost⟩ ↔ Mine u y σ) := by
    intro u y hut
    simp only [Mine, Mem.setLock]
    by_cases hyx : y = x
    · subst hyx
      simp [hx.1, Ne.symm hut]
    · rw [Function.update_of_ne hyx]
      rfl
  refine ⟨⟨h.tree, h.null, h.live, fun y hy hmem => ?_, fun y hy hl => ?_⟩,
    fun u hut => .of_ghost (fun y => hmine hut) (fun _ _ => rfl) (fun _ _ _ _ _ => id)
      fun a b f ha hb hc y e₁ e₂ hay hyb => ?_⟩
  · have hyx : y ≠ x := fun heq => hmem (heq ▸ hrec.mem)
    simpa only [Mem.setLock, Function.update_of_ne hyx] using h.known y hy hmem
  · by_cases hyx : y = x
    · subst hyx
      exact hrec
    · exact h.record y hy (by simpa only [Mem.setLock, Function.update_of_ne hyx] using hl)
  · obtain ⟨hy, hside⟩ := hc y e₁ e₂ hay hyb
    refine ⟨?_, hside⟩
    by_cases hyx : y = x
    · rw [hyx]
      exact Function.update_self ..
    · simpa only [Mem.setLock, Function.update_of_ne hyx] using hy

/-- A node is freed when it is not in the tree any more. -/
theorem Keeps.free (h : Inv σ) (hx : Mine t x σ) (hout : x ∉ σ.ghost.tree.nodes) :
    Keeps t σ ⟨σ.mem.free x, σ.ghost⟩ := by
  have hxt : x ≠ treeLock := fun heq => hout (heq ▸ h.tree.top_mem)
  have hlive : ∀ {y}, y ≠ x → ((σ.mem.free x).live y ↔ σ.mem.live y) := by
    intro y hyx
    simp only [Mem.live, Mem.free, Function.update_of_ne hyx]
  refine ⟨⟨h.tree, ?_, fun y hy => ?_, fun y hy hmem => ?_, h.record⟩,
    fun u hut => .of_ghost (fun y => ?_) (fun _ _ => rfl) (fun _ _ _ _ _ => id) fun _ _ _ _ _ => id⟩
  · simpa only [Mem.free, Function.update_of_ne hxt.symm] using h.null
  · exact (hlive fun heq => hout (heq ▸ hy)).mpr (h.live y hy)
  · by_cases hyx : y = x
    · subst hyx
      simp [Mem.free] at hy
    · exact h.known y (by simpa only [Mem.free, Function.update_of_ne hyx] using hy) hmem
  · by_cases hyx : y = x
    · subst hyx
      have : σ.mem.lock y ≠ some u := fun hu => hut (hx.unique ⟨hu, hx.2⟩)
      simp [Mine, Mem.free, this]
    · exact and_congr_right fun _ => hlive hyx

-- ---------------------------------------------------------------------------
-- Changes of the abstract tree
-- ---------------------------------------------------------------------------

namespace Ghost

def setPhase (g : Ghost) (t : Tid) (ph : Phase Call Result) : Ghost :=
  { g with phase := Function.update g.phase t ph }

/-- A new node with key `k` in an empty slot. -/
def insert (g : Ghost) (p : Addr) (d : Bool) (n : Addr) (k : Int) : Ghost :=
  { g with
    tree := g.tree.insert p d n
    slot := fun x e => if x = p ∧ e = d then some n else g.slot x e
    key := Function.update g.key n k }

/-- `s`, which has no child on side `e`, goes, and its other child takes its place. -/
def detach (g : Ghost) (p : Addr) (d : Bool) (s : Addr) (e : Bool) : Ghost :=
  { g with
    tree := g.tree.erase s
    slot := fun x f =>
      if x = s then none else if x = p ∧ f = d then g.slot s (!e) else g.slot x f }

/-- `x` takes over the key of `s`. -/
def promote (g : Ghost) (x s : Addr) : Ghost :=
  { g with key := Function.update g.key x (g.key s) }

end Ghost

theorem Keeps.trans {σ'' : World} (h : Keeps t σ σ') (h' : Keeps t σ' σ'') : Keeps t σ σ'' :=
  ⟨h'.inv, fun u hut => (h.rely u hut).trans (h'.rely u hut)⟩

theorem Keeps.setPhase (h : Inv σ) (t : Tid) (ph : Phase Call Result) :
    Keeps t σ ⟨σ.mem, σ.ghost.setPhase t ph⟩ := by
  refine ⟨⟨h.tree, h.null, h.live, h.known, fun x hx hl => ⟨hx, ?_, ?_, ?_⟩⟩, fun u hut => ?_⟩
  · exact (h.record x hx hl).key
  · exact (h.record x hx hl).slot
  · exact (h.record x hx hl).parent
  · have := Rely.refl (t := u) (σ := σ)
    exact { this with phase := Function.update_of_ne hut .. }

/-- What makes a node with at most one child one that `t` may take out. -/
structure Detachable (t : Tid) (p : Addr) (d : Bool) (s : Addr) (e : Bool) (σ : World) : Prop where
  parent : Mine t p σ
  node : Mine t s σ
  slot : σ.ghost.slot p d = some s
  empty : σ.ghost.slot s e = none
  child : ∀ z, σ.ghost.slot s (!e) = some z → Mine t z σ

namespace Detachable

theorem spliceable (h : Detachable t p d s e σ) (hi : Inv σ) :
    σ.ghost.tree.Spliceable σ.ghost.slot p d s e :=
  ⟨hi.tree.mem_of_child h.slot, h.slot, h.empty⟩

theorem ne (h : Detachable t p d s e σ) (hi : Inv σ) : p ≠ s := by
  rintro rfl
  exact hi.tree.lawful.irrefl (hi.below_of_slot h.slot)

/-- The slot that leads to a node that is neither `s` nor its child stays. -/
theorem slot_kept (h : Detachable t p d s e σ) {q : Addr} {f : Bool}
    (hx : σ.ghost.slot q f = some x) (hxs : x ≠ s) (hxz : σ.ghost.slot s (!e) ≠ some x) :
    (σ.ghost.detach p d s e).slot q f = some x := by
  have hqs : q ≠ s := by
    rintro rfl
    by_cases hfe : f = e
    · rw [hfe, h.empty] at hx
      cases hx
    · exact hxz ((Bool.eq_not.mpr hfe) ▸ hx)
  have hqp : ¬ (q = p ∧ f = d) := by
    rintro ⟨rfl, rfl⟩
    exact hxs (Option.some.inj (hx.symm.trans h.slot))
  simp only [Ghost.detach, if_neg hqs, if_neg hqp, hx]

theorem tree (h : Detachable t p d s e σ) (hi : Inv σ) :
    (σ.ghost.detach p d s e).tree.SearchTree (σ.ghost.detach p d s e).slot treeLock
      σ.ghost.key := by
  refine hi.tree.splice (h.spliceable hi) ?_ (fun f => ?_) fun x f hxs hxp => ?_
  · simp [Ghost.detach, h.ne hi]
  · simp [Ghost.detach]
  · simp [Ghost.detach, hxs, hxp]

/-- `t` takes out a node and may change keys that are no one else's matter. -/
theorem keeps (h : Detachable t p d s e σ) (hi : Inv σ) {g' : Ghost}
    (htree : g'.tree = (σ.ghost.detach p d s e).tree)
    (hslot : g'.slot = (σ.ghost.detach p d s e).slot) (hphase : g'.phase = σ.ghost.phase)
    (hsearch : g'.tree.SearchTree g'.slot treeLock g'.key)
    (hkey : ∀ x, ¬ Mine t x σ → g'.key x = σ.ghost.key x)
    (hwithin : ∀ u x k, u ≠ t → Mine u x σ → x ∈ σ.ghost.tree.nodes → σ.ghost.Within k x →
      g'.Within k x) :
    Keeps t σ ⟨σ.mem, g'⟩ := by
  have hmem : ∀ {x}, x ∈ g'.tree.nodes ↔ x ∈ σ.ghost.tree.nodes ∧ x ≠ s := by
    intro x
    rw [htree]
    exact Iff.rfl
  have hbelow : ∀ {x d y}, g'.Below x d y ↔ σ.ghost.Below x d y ∧ x ≠ s := by
    intro x d y
    rw [Ghost.Below, htree]
    exact Ancestry.below_erase
  have hslot' : ∀ {x}, x ≠ p → x ≠ s → g'.slot x = σ.ghost.slot x := by
    intro x hxp hxs
    funext f
    simp [hslot, Ghost.detach, hxp, hxs]
  -- A node that `t` does not hold is still pointed to from where it was.
  have hkept : ∀ {x q f}, ¬ Mine t x σ → σ.ghost.slot q f = some x → g'.slot q f = some x := by
    intro x q f hx hq
    rw [hslot]
    exact h.slot_kept hq (fun heq => hx (heq ▸ h.node)) fun heq => hx (h.child x heq)
  have hmine : ∀ {u x}, u ≠ t → Mine u x σ → ¬ Mine t x σ := fun hut hx ht => hut (ht.unique hx)
  refine ⟨⟨hsearch, hi.null, fun x hx => hi.live x (hmem.mp hx).1, fun x hx hout => ?_,
    fun x hx hl => ?_⟩, fun u hut => ?_⟩
  · by_cases hxs : x = s
    · exact ⟨t, hxs ▸ h.node.1⟩
    · exact hi.known x hx fun hin => hout (hmem.mpr ⟨hin, hxs⟩)
  · have hnot : ∀ {u}, ¬ Mine u x σ := fun hu => absurd (hu.1.symm.trans hl) (by simp)
    have hr := hi.record x (hmem.mp hx).1 hl
    have hxp : x ≠ p := fun heq => hnot (heq ▸ h.parent)
    refine ⟨hx, fun hxt => (hkey x hnot).trans (hr.key hxt), fun f => ?_, fun hxt => ?_⟩
    · exact (congrFun (hslot' hxp (hmem.mp hx).2) f).trans (hr.slot f)
    · obtain ⟨f, hf⟩ := hr.parent hxt
      exact ⟨f, hkept hnot hf⟩
  · have hne : ∀ {x}, Mine u x σ → x ≠ p ∧ x ≠ s := fun hx =>
      ⟨fun heq => hut (h.parent.unique (heq ▸ hx)), fun heq => hut (h.node.unique (heq ▸ hx))⟩
    exact {
      phase := congrFun hphase u
      only := fun x => id
      mine := fun x => id
      view := fun _ _ => rfl
      member := fun x hx => hmem.trans (and_iff_left (hne hx).2)
      key := fun x hx _ => hkey x (hmine hut hx)
      slot := fun x hx _ => hslot' (hne hx).1 (hne hx).2
      link := fun x q f hx hq => ⟨hkept (hmine hut hx) hq, id⟩
      above := fun x y f _ hy => (hbelow.mp hy).1
      below := fun x y f _ hy hb => hbelow.mpr ⟨hb, (hne hy).2⟩
      within := fun x k hx hin hw => hwithin u x k hut hx hin hw
      clear := fun x y f _ _ hc z e₁ e₂ hxz hzy => hc z e₁ e₂ (hbelow.mp hxz).1 (hbelow.mp hzy).1 }

/-- A leaf or a node with one child goes. -/
theorem detach (h : Detachable t p d s e σ) (hi : Inv σ) :
    Keeps t σ ⟨σ.mem, σ.ghost.detach p d s e⟩ :=
  h.keeps hi rfl rfl rfl (h.tree hi) (fun _ _ => rfl)
    fun _ _ _ _ _ _ hw => Ancestry.SearchTree.within_erase hw

/-- A neighbour goes, and `x` gets its key. -/
theorem promote (h : Detachable t p d s e σ) (hi : Inv σ) (hx : Mine t x σ) (hxt : x ≠ treeLock)
    {f : Bool} (hn : Ancestry.SearchTree.Neighbour σ.ghost.tree σ.ghost.slot x f s)
    (hclear : ∀ u y, u ≠ t → Mine u y σ → ¬ (σ.ghost.Below x f y ∧ ∃ e, σ.ghost.Below y e s)) :
    Keeps t σ ⟨σ.mem, (σ.ghost.detach p d s e).promote x s⟩ := by
  refine h.keeps hi rfl rfl rfl (hi.tree.promote hn hxt (h.tree hi)) (fun y hy => ?_)
    fun u y k hut hy hin hw => ?_
  · have hyx : y ≠ x := fun heq => hy (heq ▸ hx)
    exact Function.update_of_ne hyx ..
  · have hys : y ≠ s := fun heq => hut (h.node.unique (heq ▸ hy))
    exact hi.tree.within_promote hn hxt hin hys (hclear u y hut hy) hw

end Detachable

-- ---------------------------------------------------------------------------
-- A new node
-- ---------------------------------------------------------------------------

section Create

variable {m : Mem} {g : Ghost} {nx np : Node} {k : Int}

theorem Mem.live_alloc (hx : x ≠ n) : (m.alloc n nx).live x ↔ m.live x := by
  simp only [Mem.live, Mem.alloc, Function.update_of_ne hx]

theorem Mem.lock_alloc (hx : x ≠ n) : (m.alloc n nx).lock x = m.lock x := by
  simp only [Mem.alloc, Function.update_of_ne hx]

theorem Mem.view_alloc (hx : x ≠ n) : (m.alloc n nx).view x = m.view x := by
  simp only [Mem.view, Mem.alloc, Function.update_of_ne hx]

/-- What `malloc` returns is neither a node nor the root pointer. -/
theorem ne_of_allocatable (hn : m.allocatable n = true) : n ≠ treeLock ∧ ¬ m.live n := by
  obtain ⟨hnt, hfree⟩ : n ≠ treeLock ∧ m.allocated n = false := by
    simpa [Mem.allocatable, treeLock] using hn
  exact ⟨hnt, by simp [Mem.live, hnt, hfree]⟩

/-- Nobody holds the mutex of a new node. -/
theorem mine_alloc (hn : σ.mem.allocatable n = true) :
    Mine u x ⟨σ.mem.alloc n nx, g⟩ ↔ Mine u x σ := by
  by_cases hx : x = n
  · subst hx
    exact iff_of_false (by simp [Mine, Mem.alloc]) fun h => (ne_of_allocatable hn).2 h.2
  · exact and_congr (by rw [Mem.lock_alloc hx]) (Mem.live_alloc hx)

namespace Ghost

theorem insert_slot (hx : ¬ (x = p ∧ e = d)) : (g.insert p d n k).slot x e = g.slot x e :=
  if_neg hx

/-- A slot that is not empty stays. -/
theorem insert_slot_kept (hempty : g.slot p d = none) (hy : g.slot x e = some y) :
    (g.insert p d n k).slot x e = some y := by
  refine (insert_slot ?_).trans hy
  rintro ⟨rfl, rfl⟩
  rw [hempty] at hy
  cases hy

theorem Record.insert_other (hr : g.Record x nx) (hempty : g.slot p d = none) (hxn : x ≠ n)
    (hxp : x ≠ p) : (g.insert p d n k).Record x nx := by
  refine ⟨.inr hr.mem, fun hxt => ?_, fun e => ?_, fun hxt => ?_⟩
  · exact (Function.update_of_ne hxn ..).trans (hr.key hxt)
  · exact (insert_slot fun heq => hxp heq.1).trans (hr.slot e)
  · obtain ⟨e, he⟩ := hr.parent hxt
    exact ⟨e, insert_slot_kept hempty he⟩

theorem Record.insert_parent (hr : g.Record p np) (hempty : g.slot p d = none) (hpn : p ≠ n)
    (hnt : n ≠ treeLock) : (g.insert p d n k).Record p (np.setChild d n) := by
  refine ⟨.inr hr.mem, fun hpt => ?_, fun e => ?_, fun hpt => ?_⟩
  · rw [Node.setChild_value]
    exact (Function.update_of_ne hpn ..).trans (hr.key hpt)
  · rw [Node.setChild_child]
    by_cases he : e = d
    · subst he
      rw [if_pos rfl]
      exact (if_pos ⟨rfl, rfl⟩).trans (if_neg hnt).symm
    · rw [if_neg he, ← hr.slot e]
      exact insert_slot fun heq => he heq.2
  · obtain ⟨e, he⟩ := hr.parent hpt
    rw [Node.setChild_parent]
    exact ⟨e, insert_slot_kept hempty he⟩

end Ghost

/-- `malloc` gives `t` a node, which becomes one of the tree at once. -/
theorem Keeps.create (h : Inv σ) (hp : Mine t p σ) (hmem : p ∈ σ.ghost.tree.nodes)
    (hempty : σ.ghost.slot p d = none) {fresh : Addr} (hfresh : σ.mem.allocatable fresh = true)
    (htree : (σ.ghost.insert p d fresh k).tree.SearchTree
      (σ.ghost.insert p d fresh k).slot treeLock (σ.ghost.insert p d fresh k).key) :
    Keeps t σ ⟨σ.mem.alloc fresh ⟨k, 0, 0, p⟩, σ.ghost.insert p d fresh k⟩ := by
  obtain ⟨hft, hdead⟩ := ne_of_allocatable hfresh
  have hnew : fresh ∉ σ.ghost.tree.nodes := fun hin => hdead (h.live _ hin)
  have hi := h.tree.insertable hmem hempty hnew
  have hne : ∀ {u x}, Mine u x σ → x ≠ fresh := fun hx heq => hdead (heq ▸ hx.2)
  have hkey : ∀ {x}, x ≠ fresh → (σ.ghost.insert p d fresh k).key x = σ.ghost.key x :=
    fun hx => Function.update_of_ne hx ..
  have hbelow : ∀ {x f y}, y ≠ fresh →
      ((σ.ghost.insert p d fresh k).Below x f y ↔ σ.ghost.Below x f y) := fun hy => hi.below_old hy
  refine ⟨⟨htree, ?_, fun x hx => ?_, fun x hx hout => ?_, fun x hx hl => ?_⟩, fun u hut => ?_⟩
  · simpa only [Mem.alloc, Function.update_of_ne hft.symm] using h.null
  · by_cases hxf : x = fresh
    · exact .inr (by simp [Mem.alloc, hxf])
    · exact (Mem.live_alloc hxf).mpr (h.live x (hx.resolve_left hxf))
  · have hxf : x ≠ fresh := fun heq => hout (.inl heq)
    rw [Mem.lock_alloc hxf]
    refine h.known x ?_ fun hin => hout (.inr hin)
    simpa only [Mem.alloc, Function.update_of_ne hxf] using hx
  · by_cases hxf : x = fresh
    · subst hxf
      have hv : (σ.mem.alloc x ⟨k, 0, 0, p⟩).view x = ⟨k, 0, 0, p⟩ := by
        simp [Mem.view, Mem.alloc, hft]
      rw [hv]
      refine ⟨hx, fun _ => Function.update_self .., fun f => ?_, fun _ => ⟨d, if_pos ⟨rfl, rfl⟩⟩⟩
      have hxp : ¬ (x = p ∧ f = d) := fun heq => hnew (heq.1 ▸ hmem)
      rw [Ghost.insert_slot hxp, h.tree.outside hnew]
      cases f <;> rfl
    · rw [Mem.lock_alloc hxf] at hl
      have hxp : x ≠ p := by
        rintro rfl
        exact absurd (hp.1.symm.trans hl) (by simp)
      rw [Mem.view_alloc hxf]
      exact (h.record x (hx.resolve_left hxf) hl).insert_other hempty hxf hxp
  · have hother : ∀ {x}, Mine u x σ → x ≠ p := fun hx heq => hut (hp.unique (heq ▸ hx))
    exact {
      phase := rfl
      only := fun x => (mine_alloc hfresh).mp
      mine := fun x => (mine_alloc hfresh).mpr
      view := fun x hx => Mem.view_alloc (hne hx)
      member := fun x hx => or_iff_right (hne hx)
      key := fun x hx _ => hkey (hne hx)
      slot := fun x hx _ => funext fun f => Ghost.insert_slot fun heq => hother hx heq.1
      link := fun x q f hx hq => by
        have hqf : q ≠ fresh := fun heq => hnew (heq ▸ h.tree.mem_of_child hq)
        exact ⟨Ghost.insert_slot_kept hempty hq,
          fun hc => (congrArg (Node.child · f) (Mem.view_alloc hqf)).trans hc⟩
      above := fun x y f hx hy => (hbelow (hne hx)).mp hy
      below := fun x y f hx _ hb => (hbelow (hne hx)).mpr hb
      within := fun x j hx hin hw => h.tree.within_insert hmem hempty hnew hin hw
      clear := fun x y f hx hy hc z e₁ e₂ hxz hzy => by
        have hzy' := (hbelow (hne hy)).mp hzy
        have hzf : z ≠ fresh := fun heq => hnew (heq ▸ hzy'.mem)
        obtain ⟨hfree, hside⟩ := hc z e₁ e₂ ((hbelow hzf).mp hxz) hzy'
        exact ⟨(Mem.lock_alloc hzf).trans hfree, hside⟩ }

end Create

end FineGrained
