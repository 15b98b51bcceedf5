-- SUMMARY: The abstract tree next to the memory of the fine-grained tree, the invariant, and what a thread may rely on.
import ConcurrentBST.FineGrained.Program
import ConcurrentBST.Library.SearchTree

/-!
# What the locks protect

Next to the memory there is an abstract tree. A call takes effect when it changes
the abstract tree, and brings the memory in line with it before it unlocks the
nodes it has changed. So a node whose lock is free is as the abstract tree has it.

`g_root` and `tree_lock` are treated as a node at address 0 whose left child is
the root.
-/

namespace FineGrained

open Threads

/-- The abstract tree, and how far each call is. -/
structure Ghost where
  tree : Ancestry Addr
  slot : Addr → Bool → Option Addr
  key : Addr → Int
  phase : Tid → Phase Call Result

abbrev World := Threads.World Mem Ghost

/-- What the calls do to a set of integers. -/
inductive SetStep : Set Int → Call → Result → Set Int → Prop where
  | inserted {s : Set Int} {k : Int} : k ∉ s → SetStep s (.insert k) .inserted (Insert.insert k s)
  | found {s : Set Int} {k : Int} : k ∈ s → SetStep s (.search k) (.searched true) s
  | notFound {s : Set Int} {k : Int} : k ∉ s → SetStep s (.search k) (.searched false) s
  | removed {s : Set Int} {k : Int} : s.Nonempty → SetStep s (.remove k) (.removed 0) (s \ {k})
  | empty {k : Int} : SetStep ∅ (.remove k) (.removed (-einval)) ∅

def setObject : Object (Set Int) Call Result := ⟨∅, SetStep⟩

/-- A pointer field. -/
def ptr (a : Addr) : Option Addr :=
  if a = 0 then none else some a

namespace Mem

/-- A node, or `g_root` as the left child of node 0. -/
def view (m : Mem) (x : Addr) : Node :=
  if x = treeLock then ⟨0, m.gRoot, 0, 0⟩ else m.node x

/-- The address is that of a node, or of the root pointer. -/
def live (m : Mem) (x : Addr) : Prop :=
  x = treeLock ∨ m.allocated x = true

end Mem

namespace Ghost

/-- The keys of the abstract tree. -/
def keys (g : Ghost) : Set Int := g.tree.keySet treeLock g.key

/-- `x` is below `a` on side `d`. -/
def Below (g : Ghost) (a : Addr) (d : Bool) (x : Addr) : Prop := g.tree.Below a d x

/-- The search for `k` comes by `x`. -/
def Within (g : Ghost) (k : Int) (x : Addr) : Prop := g.tree.Within treeLock g.key k x

/-- In the abstract tree the record of `x` is `n`. -/
structure Record (g : Ghost) (x : Addr) (n : Node) : Prop where
  mem : x ∈ g.tree.nodes
  key : x ≠ treeLock → g.key x = n.value
  slot : ∀ d, g.slot x d = ptr (n.child d)
  parent : x ≠ treeLock → ∃ d, g.slot n.parent d = some x

def initial : Ghost where
  tree := ⟨{treeLock}, fun _ => ∅⟩
  slot := fun _ _ => none
  key := fun _ => 0
  phase := fun _ => .idle

end Ghost

/-- Thread `t` holds the lock of `x`, and `x` has not been freed. -/
def Mine (t : Tid) (x : Addr) (σ : World) : Prop :=
  σ.mem.lock x = some t ∧ σ.mem.live x

/-- The nodes between `a` and `b` are unlocked, and the way through them is the one
    to the neighbour of `a` on side `d`. -/
def Clear (a : Addr) (d : Bool) (b : Addr) (σ : World) : Prop :=
  ∀ y e f, σ.ghost.Below a e y → σ.ghost.Below y f b → σ.mem.lock y = none ∧ e = d ∧ f = !d

/-- What always holds. -/
structure Inv (σ : World) : Prop where
  tree : σ.ghost.tree.SearchTree σ.ghost.slot treeLock σ.ghost.key
  null : σ.mem.allocated treeLock = false
  live : ∀ x ∈ σ.ghost.tree.nodes, σ.mem.live x
  /-- A node on its way out of the tree is locked. -/
  known : ∀ x, σ.mem.allocated x = true → x ∉ σ.ghost.tree.nodes → ∃ t, σ.mem.lock x = some t
  record : ∀ x ∈ σ.ghost.tree.nodes, σ.mem.lock x = none → σ.ghost.Record x (σ.mem.view x)

/-- What the steps of the other threads leave to thread `t`. -/
structure Rely (t : Tid) (σ σ' : World) : Prop where
  phase : σ'.ghost.phase t = σ.ghost.phase t
  only : ∀ x, Mine t x σ' → Mine t x σ
  mine : ∀ x, Mine t x σ → Mine t x σ'
  view : ∀ x, Mine t x σ → σ'.mem.view x = σ.mem.view x
  member : ∀ x, Mine t x σ → (x ∈ σ'.ghost.tree.nodes ↔ x ∈ σ.ghost.tree.nodes)
  key : ∀ x, Mine t x σ → x ∈ σ.ghost.tree.nodes → σ'.ghost.key x = σ.ghost.key x
  slot : ∀ x, Mine t x σ → x ∈ σ.ghost.tree.nodes → σ'.ghost.slot x = σ.ghost.slot x
  /-- The pointer to a node is not changed while the node is locked. -/
  link : ∀ x p d, Mine t x σ → σ.ghost.slot p d = some x → σ'.ghost.slot p d = some x ∧
    ((σ.mem.view p).child d = x → (σ'.mem.view p).child d = x)
  above : ∀ x y d, Mine t x σ → σ'.ghost.Below y d x → σ.ghost.Below y d x
  below : ∀ x y d, Mine t x σ → Mine t y σ → σ.ghost.Below y d x → σ'.ghost.Below y d x
  within : ∀ x k, Mine t x σ → x ∈ σ.ghost.tree.nodes → σ.ghost.Within k x → σ'.ghost.Within k x
  clear : ∀ x y d, Mine t x σ → Mine t y σ → Clear x d y σ → Clear x d y σ'

/-- A pointer to `x` that the other threads cannot change. -/
def Pointed (t : Tid) (x : Addr) (σ : World) : Prop :=
  ∃ p d, Mine t p σ ∧ (σ.mem.view p).child d = x

/-- What holds at each access. A field may be read a last time when its node has
    been unlocked and the node it leads to has been locked. -/
def Ok (t : Tid) (a : Act) (σ : World) : Prop :=
  match a with
  | .lock x => x ∈ σ.ghost.tree.nodes ∧ σ.mem.lock x ≠ some t ∧
      (x ≠ treeLock → Pointed t x σ) ∧ ∀ y, Mine t y σ → ∃ d, σ.ghost.Below y d x
  | .unlock x => Mine t x σ
  | .root => True
  | .setRoot _ => Mine t treeLock σ
  | .value x | .parent x => σ.mem.allocated x = true ∧ Mine t x σ
  | .child x d => σ.mem.allocated x = true ∧
      (Mine t x σ ∨ x ∈ σ.ghost.tree.nodes ∧ (σ.mem.view x).child d ≠ 0 ∧
        Mine t ((σ.mem.view x).child d) σ)
  | .setValue x _ | .setChild x _ _ | .setParent x _ => σ.mem.allocated x = true ∧ Mine t x σ
  | .create _ _ => True
  | .free x => σ.mem.allocated x = true ∧ Mine t x σ ∧ x ∉ σ.ghost.tree.nodes
  | .assertFail => ∃ k, σ.ghost.phase t = .pending (.insert k) ∧ k ∈ σ.ghost.keys

namespace Rely

variable {t : Tid} {σ σ' σ'' : World}

theorem refl : Rely t σ σ := by
  constructor <;> simp_all

theorem trans (h : Rely t σ σ') (h' : Rely t σ' σ'') : Rely t σ σ'' where
  phase := h'.phase.trans h.phase
  only := fun x hx => h.only x (h'.only x hx)
  mine := fun x hx => h'.mine x (h.mine x hx)
  view := fun x hx => (h'.view x (h.mine x hx)).trans (h.view x hx)
  member := fun x hx => (h'.member x (h.mine x hx)).trans (h.member x hx)
  key := fun x hx hmem =>
    (h'.key x (h.mine x hx) ((h.member x hx).mpr hmem)).trans (h.key x hx hmem)
  slot := fun x hx hmem =>
    (h'.slot x (h.mine x hx) ((h.member x hx).mpr hmem)).trans (h.slot x hx hmem)
  link := fun x p d hx hp => by
    obtain ⟨hp₁, hv₁⟩ := h.link x p d hx hp
    obtain ⟨hp₂, hv₂⟩ := h'.link x p d (h.mine x hx) hp₁
    exact ⟨hp₂, fun hv => hv₂ (hv₁ hv)⟩
  above := fun x y d hx hy => h.above x y d hx (h'.above x y d (h.mine x hx) hy)
  below := fun x y d hx hy hb =>
    h'.below x y d (h.mine x hx) (h.mine y hy) (h.below x y d hx hy hb)
  within := fun x k hx hmem hw =>
    h'.within x k (h.mine x hx) ((h.member x hx).mpr hmem) (h.within x k hx hmem hw)
  clear := fun x y d hx hy hc =>
    h'.clear x y d (h.mine x hx) (h.mine y hy) (h.clear x y d hx hy hc)

end Rely

end FineGrained
