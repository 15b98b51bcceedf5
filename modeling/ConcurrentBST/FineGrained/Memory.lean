-- SUMMARY: Nodes, locks and shared memory of the fine-grained tree, and its atomic actions.
import Mathlib.Logic.Function.Basic

/-!
# Memory of the fine-grained tree

The data types of `Fine_Grained_BST.h`, the globals `g_root` and `tree_lock`, and
the accesses the threads make to them. Every read of a field is an access of its
own, as the source has it.
-/

namespace FineGrained

/-- Addresses of nodes. `0` is `NULL`. -/
abbrev Addr := Nat

/-- Thread numbers. -/
abbrev Tid := Nat

/-- `FG_BST_Node` without its lock. -/
structure Node where
  value : Int
  left : Addr
  right : Addr
  parent : Addr
deriving DecidableEq, Repr

/-- The child field on one side, `left` for `true`. -/
def Node.child (n : Node) (isLeft : Bool) : Addr :=
  if isLeft then n.left else n.right

def Node.setChild (n : Node) (isLeft : Bool) (a : Addr) : Node :=
  if isLeft then { n with left := a } else { n with right := a }

@[simp] theorem Node.setChild_value (n : Node) (d : Bool) (a : Addr) :
    (n.setChild d a).value = n.value := by cases d <;> rfl

@[simp] theorem Node.setChild_parent (n : Node) (d : Bool) (a : Addr) :
    (n.setChild d a).parent = n.parent := by cases d <;> rfl

@[simp] theorem Node.setChild_child (n : Node) (d e : Bool) (a : Addr) :
    (n.setChild d a).child e = if e = d then a else n.child e := by
  cases d <;> cases e <;> rfl

-- ---------------------------------------------------------------------------
-- Shared memory
-- ---------------------------------------------------------------------------

/-- The shared memory. The mutex of a node has the address of the node. -/
structure Mem where
  node : Addr → Node
  gRoot : Addr
  /-- The thread that holds a mutex. -/
  lock : Addr → Option Tid
  allocated : Addr → Bool

/-- `tree_lock` has the address that no node has. -/
def treeLock : Addr := 0

/-- The memory before the first call. -/
def Mem.initial : Mem where
  node := fun _ => ⟨0, 0, 0, 0⟩
  gRoot := 0
  lock := fun _ => none
  allocated := fun _ => false

namespace Mem

def setLock (m : Mem) (l : Addr) (t : Option Tid) : Mem :=
  { m with lock := Function.update m.lock l t }

def setNode (m : Mem) (x : Addr) (n : Node) : Mem :=
  { m with node := Function.update m.node x n }

/-- The addresses `malloc` may return. It may return one that has been freed. -/
def allocatable (m : Mem) (a : Addr) : Bool :=
  a != 0 && !m.allocated a

/-- `malloc` together with the writes to the new node and its mutex. -/
def alloc (m : Mem) (a : Addr) (n : Node) : Mem :=
  { m with
    node := Function.update m.node a n
    lock := Function.update m.lock a none
    allocated := Function.update m.allocated a true }

/-- `free`. The mutex of the node is not unlocked before. -/
def free (m : Mem) (a : Addr) : Mem :=
  { m with allocated := Function.update m.allocated a false }

end Mem

-- ---------------------------------------------------------------------------
-- Actions
-- ---------------------------------------------------------------------------

/-- The accesses of a thread to the shared memory. -/
inductive Act where
  | lock (l : Addr)
  | unlock (l : Addr)
  | root
  | setRoot (a : Addr)
  | value (x : Addr)
  | setValue (x : Addr) (val : Int)
  | child (x : Addr) (isLeft : Bool)
  | setChild (x : Addr) (isLeft : Bool) (a : Addr)
  | parent (x : Addr)
  | setParent (x : Addr) (a : Addr)
  /-- `createNode`. -/
  | create (val : Int) (parent : Addr)
  | free (x : Addr)
  /-- `assert(0)`. -/
  | assertFail
deriving DecidableEq, Repr

/-- What an access returns. -/
abbrev Act.Ret : Act → Type
  | .root | .child _ _ | .parent _ | .create _ _ => Addr
  | .value _ => Int
  | _ => Unit

/-- Execute an access for thread `t`. A mutex that is held cannot be locked, and
    nothing follows a failed assertion. `fresh` is what `malloc` returns. -/
def exec (t : Tid) : (a : Act) → Addr → Mem → Option (a.Ret × Mem)
  | .lock l, _, m => if m.lock l = none then some ((), m.setLock l (some t)) else none
  | .unlock l, _, m => some ((), m.setLock l none)
  | .root, _, m => some (m.gRoot, m)
  | .setRoot a, _, m => some ((), { m with gRoot := a })
  | .value x, _, m => some ((m.node x).value, m)
  | .setValue x v, _, m => some ((), m.setNode x { m.node x with value := v })
  | .child x d, _, m => some ((m.node x).child d, m)
  | .setChild x d a, _, m => some ((), m.setNode x ((m.node x).setChild d a))
  | .parent x, _, m => some ((m.node x).parent, m)
  | .setParent x a, _, m => some ((), m.setNode x { m.node x with parent := a })
  | .create v p, fresh, m =>
      if m.allocatable fresh then some (fresh, m.alloc fresh ⟨v, 0, 0, p⟩) else none
  | .free x, _, m => some ((), m.free x)
  | .assertFail, _, _ => none

attribute [local simp] exec in
@[simp] theorem exec_assertFail {t : Tid} {fresh : Addr} {m : Mem} :
    exec t .assertFail fresh m = none := by
  simp

end FineGrained
