-- SUMMARY: Pointers of the fine-grained tree lead from older to younger nodes, and what a thread knows about ages.
import ConcurrentBST.FineGrained.Solo
import ConcurrentBST.Library.Ranking

/-!
# Ages

Every node is created after the nodes that point to it, and a pointer that is
written over gets a node that was already further down. So a thread that walks
down comes to ever younger nodes. An address that is used again is one of a new
node.
-/

namespace FineGrained

open Threads

/-- When the nodes were created. -/
structure Ages where
  born : Addr → Nat
  clock : Nat

abbrev Dated := Threads.World Mem Ages

namespace Ages

def initial : Ages := ⟨fun _ => 0, 1⟩

/-- A new node at `a`. -/
def create (h : Ages) (a : Addr) : Ages :=
  ⟨Function.update h.born a h.clock, h.clock + 1⟩

/-- The ages after an action that has returned `v`. -/
def after (h : Ages) : (a : Act) → a.Ret → Ages
  | .create _ _, v => h.create v
  | _, _ => h

/-- What always holds. -/
structure Inv (σ : Dated) : Prop where
  child : ∀ x d, σ.mem.allocated x = true → (σ.mem.node x).child d ≠ 0 →
    σ.ghost.born x < σ.ghost.born ((σ.mem.node x).child d)
  parent : ∀ x, σ.mem.allocated x = true → (σ.mem.node x).parent ≠ x
  clock : ∀ x, σ.ghost.born x < σ.ghost.clock
  pos : ∀ x, σ.mem.allocated x = true → 0 < σ.ghost.born x

end Ages

/-- Thread `t` holds the lock of `x`, and `x` has not been freed. -/
def Mem.heldBy (m : Mem) (t : Tid) (x : Addr) : Prop := m.lock x = some t ∧ m.live x

/-- The other threads leave the nodes that are held as they are, and nothing gets older. -/
structure Ages.Rely (t : Tid) (σ σ' : Dated) : Prop where
  held : ∀ x, σ.mem.heldBy t x → σ'.mem.heldBy t x
  born : ∀ x, σ.mem.heldBy t x → σ'.ghost.born x = σ.ghost.born x
  node : ∀ x, σ.mem.heldBy t x → σ'.mem.node x = σ.mem.node x
  younger : ∀ x, σ.ghost.born x ≤ σ'.ghost.born x

/-- The rank of a function is the age of its node. -/
def ranking : Ranking Tid Act Fn Mem Ages where
  Inv := Ages.Inv
  Rely := Ages.Rely
  rank := fun f h => h.born f.at
  size := Ages.clock
  grows := fun a => match a with
    | .create _ _ => True
    | _ => False

variable {t u : Tid} {σ σ' : Dated} {g : Ghost} {x y p s c a : Addr} {d : Bool} {m : Mem}
  {i : Addr} {n b : Nat}

-- ---------------------------------------------------------------------------
-- Steps
-- ---------------------------------------------------------------------------

/-- What an action must not do to the ages. -/
def Act.Orderly (σ : Dated) : Act → Prop
  | .setChild x _ a => a ≠ 0 → σ.ghost.born x < σ.ghost.born a
  | .setParent x a => a ≠ x
  | .create _ p => σ.mem.live p
  | _ => True

/-- What is unlocked or freed is held. -/
theorem Mem.heldBy.unique (h : m.heldBy t x) (h' : m.heldBy u x) : u = t :=
  Option.some.inj (h'.1.symm.trans h.1)

theorem Ages.Rely.of_nodes {h : Ages} {m' : Mem} (hheld : ∀ x, m.heldBy u x → m'.heldBy u x)
    (hnode : ∀ x, m.heldBy u x → m'.node x = m.node x) : Ages.Rely u ⟨m, h⟩ ⟨m', h⟩ :=
  ⟨hheld, fun _ _ => rfl, hnode, fun _ => le_rfl⟩

theorem Ages.born_create {h : Ages} (hx : x ≠ a) : (h.create a).born x = h.born x :=
  Function.update_of_ne hx ..

theorem Ages.le_create {h : Ages} (hclock : ∀ x, h.born x < h.clock) :
    h.born x ≤ (h.create a).born x := by
  by_cases hx : x = a
  · subst hx
    simp [create, (hclock x).le]
  · rw [born_create hx]

/-- A step of `t` is none of the business of the others. -/
theorem rely_of_exec {act : Act} {v : act.Ret} (hi : Ages.Inv σ) (hok : Ok t act ⟨σ.mem, g⟩)
    (hexec : exec t act i σ.mem = some (v, m)) (hu : u ≠ t) :
    Ages.Rely u σ ⟨m, σ.ghost.after act v⟩ := by
  have hother : ∀ {x y}, σ.mem.heldBy t x → σ.mem.heldBy u y → y ≠ x := by
    rintro x y hx hy rfl
    exact hu (hx.unique hy)
  cases act with
  | root | value | child | parent =>
    cases hexec
    exact .of_nodes (fun _ => id) fun _ _ => rfl
  | setRoot a =>
    cases hexec
    exact .of_nodes (fun _ => id) fun _ _ => rfl
  | assertFail => simp at hexec
  | lock x =>
    simp only [exec] at hexec
    split at hexec <;> cases hexec
    next hfree =>
    refine .of_nodes (fun y hy => ⟨?_, hy.2⟩) fun _ _ => rfl
    have hyx : y ≠ x := by
      rintro rfl
      cases hy.1.symm.trans hfree
    exact (Function.update_of_ne hyx ..).trans hy.1
  | unlock x =>
    cases hexec
    refine .of_nodes (fun y hy => ⟨?_, hy.2⟩) fun _ _ => rfl
    exact (Function.update_of_ne (hother hok hy) ..).trans hy.1
  | free x =>
    cases hexec
    refine .of_nodes (fun y hy => ⟨hy.1, hy.2.imp_right fun hal => ?_⟩) fun _ _ => rfl
    exact (Function.update_of_ne (hother hok.2.1 hy) ..).trans hal
  | setValue x | setChild x | setParent x =>
    cases hexec
    exact .of_nodes (fun _ => id) fun y hy => Function.update_of_ne (hother hok.2 hy) ..
  | create v p =>
    simp only [exec] at hexec
    split at hexec <;> cases hexec
    next hfresh =>
    have hne : ∀ {y}, σ.mem.heldBy u y → y ≠ i := by
      rintro y hy rfl
      exact (ne_of_allocatable hfresh).2 hy.2
    refine ⟨fun y hy => ⟨?_, ?_⟩, fun y hy => Ages.born_create (hne hy), fun y hy => ?_,
      fun y => Ages.le_create hi.clock⟩
    · exact (Mem.lock_alloc (hne hy)).trans hy.1
    · exact (Mem.live_alloc (hne hy)).mpr hy.2
    · exact Function.update_of_ne (hne hy) ..

/-- A node is written. -/
theorem Ages.Inv.setNode {nx : Node} (hi : Ages.Inv σ)
    (hchild : ∀ d, nx.child d ≠ 0 → σ.ghost.born x < σ.ghost.born (nx.child d) ∨
      nx.child d = (σ.mem.node x).child d)
    (hparent : nx.parent = (σ.mem.node x).parent ∨ nx.parent ≠ x) :
    Ages.Inv ⟨σ.mem.setNode x nx, σ.ghost⟩ := by
  refine ⟨fun y d hal hne => ?_, fun y hal => ?_, hi.clock, hi.pos⟩
  · by_cases hy : y = x
    · subst hy
      simp only [Mem.setNode, Function.update_self] at hne ⊢
      rcases hchild d hne with hlt | heq
      · exact hlt
      · rw [heq] at hne ⊢
        exact hi.child y d hal hne
    · simp only [Mem.setNode, Function.update_of_ne hy] at hne ⊢
      exact hi.child y d hal hne
  · by_cases hy : y = x
    · subst hy
      simp only [Mem.setNode, Function.update_self]
      rcases hparent with heq | hne
      · exact heq ▸ hi.parent y hal
      · exact hne
    · simp only [Mem.setNode, Function.update_of_ne hy]
      exact hi.parent y hal

/-- The new node is the youngest. -/
theorem Ages.Inv.create {v : Int} (hi : Ages.Inv σ) (hp : σ.mem.live p)
    (hfresh : σ.mem.allocatable i = true) :
    Ages.Inv ⟨σ.mem.alloc i ⟨v, 0, 0, p⟩, σ.ghost.create i⟩ := by
  have hdead := (ne_of_allocatable hfresh).2
  have hold : ∀ {y}, y ≠ i → (σ.mem.alloc i ⟨v, 0, 0, p⟩).node y = σ.mem.node y := fun hy =>
    Function.update_of_ne hy ..
  have hal : ∀ {y}, y ≠ i → (σ.mem.alloc i ⟨v, 0, 0, p⟩).allocated y = true →
      σ.mem.allocated y = true := fun hy h => by
    simpa only [Mem.alloc, Function.update_of_ne hy] using h
  have hnew : (σ.mem.alloc i ⟨v, 0, 0, p⟩).node i = ⟨v, 0, 0, p⟩ := Function.update_self ..
  refine ⟨fun y d hy hne => ?_, fun y hy => ?_, fun y => ?_, fun y hy => ?_⟩
  · by_cases hyi : y = i
    · subst hyi
      rw [hnew] at hne
      exact absurd (by cases d <;> rfl) hne
    · have hlt : σ.ghost.born y < σ.ghost.born ((σ.mem.node y).child d) := by
        simp only [hold hyi] at hne
        exact hi.child y d (hal hyi hy) hne
      simp only [hold hyi, Ages.born_create hyi]
      exact lt_of_lt_of_le hlt (Ages.le_create hi.clock)
  · by_cases hyi : y = i
    · subst hyi
      rw [hnew]
      rintro rfl
      exact hdead hp
    · rw [hold hyi]
      exact hi.parent y (hal hyi hy)
  · have hlt := hi.clock y
    by_cases hyi : y = i
    · subst hyi
      simp [Ages.create]
    · simp only [Ages.born_create hyi]
      exact Nat.lt_succ_of_lt hlt
  · by_cases hyi : y = i
    · subst hyi
      have := hi.clock y
      simp only [Ages.create, Function.update_self]
      omega
    · simp only [Ages.born_create hyi]
      exact hi.pos y (hal hyi hy)

/-- An orderly step keeps the order of the ages. -/
theorem inv_of_exec {act : Act} {v : act.Ret} (hi : Ages.Inv σ) (ho : act.Orderly σ)
    (hexec : exec t act i σ.mem = some (v, m)) : Ages.Inv ⟨m, σ.ghost.after act v⟩ := by
  cases act with
  | root | value | child | parent | setRoot | unlock =>
    cases hexec
    exact ⟨hi.child, hi.parent, hi.clock, hi.pos⟩
  | assertFail => simp at hexec
  | lock x =>
    simp only [exec] at hexec
    split at hexec <;> cases hexec
    exact ⟨hi.child, hi.parent, hi.clock, hi.pos⟩
  | free x =>
    cases hexec
    have hold : ∀ {y}, (σ.mem.free x).allocated y = true → σ.mem.allocated y = true := by
      intro y hy
      by_cases hyx : y = x
      · simp [Mem.free, hyx] at hy
      · simpa only [Mem.free, Function.update_of_ne hyx] using hy
    exact ⟨fun y d hy => hi.child y d (hold hy), fun y hy => hi.parent y (hold hy), hi.clock,
      fun y hy => hi.pos y (hold hy)⟩
  | setValue x =>
    cases hexec
    exact hi.setNode (fun d _ => .inr (by cases d <;> rfl)) (.inl rfl)
  | setChild x d a =>
    cases hexec
    refine hi.setNode (fun e hne => ?_) (.inl (Node.setChild_parent ..))
    rw [Node.setChild_child] at hne ⊢
    by_cases hed : e = d
    · rw [if_pos hed] at hne ⊢
      exact .inl (ho hne)
    · exact .inr (if_neg hed)
  | setParent x a =>
    cases hexec
    exact hi.setNode (fun d _ => .inr (by cases d <;> rfl)) (.inr ho)
  | create v p =>
    simp only [exec] at hexec
    split at hexec <;> cases hexec
    next hfresh =>
    exact hi.create ho hfresh

end FineGrained
