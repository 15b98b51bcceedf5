-- SUMMARY: The functions of Fine_Grained_BST.cpp on a heap.
import ConcurrentBST.FineGrained.Memory

/-!
# The tree without locks

`insert`, `search`, `get_inorder_successor` and `remove` of `Fine_Grained_BST.cpp`.
The nodes are those of the fine-grained tree without their locks. There is no
result when a pointer to no node is followed, or when `fuel` does not last.
-/

namespace Unlocked

open FineGrained (Addr Node)

/-- The nodes, and which of them are allocated. -/
structure Heap where
  node : Addr → Node
  allocated : Addr → Bool

def Heap.empty : Heap := ⟨fun _ => ⟨0, 0, 0, 0⟩, fun _ => false⟩

def einval : Int := 22

namespace Heap

/-- Follow a pointer. -/
def read (h : Heap) (x : Addr) : Option Node :=
  if h.allocated x then some (h.node x) else none

def write (h : Heap) (x : Addr) (f : Node → Node) : Option Heap :=
  if h.allocated x then some { h with node := Function.update h.node x (f (h.node x)) } else none

/-- The addresses `malloc` may return. -/
def allocatable (h : Heap) (a : Addr) : Bool :=
  a != 0 && !h.allocated a

def free (h : Heap) (x : Addr) : Option Heap :=
  if h.allocated x then some { h with allocated := Function.update h.allocated x false } else none

end Heap

-- ---------------------------------------------------------------------------
-- The functions
-- ---------------------------------------------------------------------------

/-- `malloc` returns `fresh`. -/
def createNode (val : Int) (parent fresh : Addr) (h : Heap) : Addr × Heap :=
  (fresh, ⟨Function.update h.node fresh ⟨val, 0, 0, parent⟩,
    Function.update h.allocated fresh true⟩)

def insert (val : Int) (fresh : Addr) : Nat → Addr → Addr → Heap → Option (Addr × Heap)
  | 0, _, _, _ => none
  | fuel + 1, root, parent, h =>
      if root = 0 then some (createNode val parent fresh h)
      else do
        let isLeft := decide (val < (← h.read root).value)
        let (c, h) ← insert val fresh fuel ((← h.read root).child isLeft) root h
        let h ← h.write root fun n => n.setChild isLeft c
        return (root, h)

def search (val : Int) (h : Heap) : Nat → Addr → Option Addr
  | 0, _ => none
  | fuel + 1, root =>
      if root = 0 then some root
      else do
        let n ← h.read root
        if val = n.value then return root
        else if val < n.value then search val h fuel n.left
        else search val h fuel n.right

attribute [local simp] insert in
/-- Where the tree ends, the new node goes. -/
theorem insert_null {val : Int} {fresh parent : Addr} {fuel : Nat} {h : Heap} :
    insert val fresh (fuel + 1) 0 parent h = some (createNode val parent fresh h) := by
  simp

attribute [local simp] search in
theorem search_null {val : Int} {fuel : Nat} {h : Heap} : search val h (fuel + 1) 0 = some 0 := by
  simp

/-- The loop of `get_inorder_successor`. -/
def leftmostFrom (h : Heap) : Nat → Addr → Option Addr
  | 0, _ => none
  | fuel + 1, successor => do
      let n ← h.read successor
      if n.left ≠ 0 then leftmostFrom h fuel n.left else return successor

def getInorderSuccessor (h : Heap) (fuel : Nat) (node : Addr) : Option Addr := do
  let successor := (← h.read node).right
  if successor = 0 then return successor else leftmostFrom h fuel successor

/-- `parent->right = NULL` or `parent->left = NULL`, for the node `x` with the value `value`. -/
def cut (parent : Addr) (value : Int) (h : Heap) : Option Heap := do
  let isLeft := decide (¬ value ≥ (← h.read parent).value)
  h.write parent fun n => n.setChild isLeft 0

/-- The lines that `remove` has twice, for a node with a successor. -/
def removeSuccessor (toBeDeleted successor : Addr) (h : Heap) : Option Heap := do
  let successorParent := (← h.read successor).parent
  let value := (← h.read successor).value
  let h ← h.write toBeDeleted fun n => { n with value := value }
  let h ← cut successorParent (← h.read successor).value h
  h.free successor

def remove (val : Int) (fuel : Nat) (root : Addr) (h : Heap) : Option (Int × Heap) :=
  if root = 0 then some (-einval, h)
  else do
    let toBeDeleted ← search val h fuel root
    if toBeDeleted = 0 then return (0, h)
    else
      let parent := (← h.read toBeDeleted).parent
      let successor ← getInorderSuccessor h fuel toBeDeleted
      if successor = 0 ∧ parent = 0 then
        -- The caller keeps its pointer to the root.
        let h ← h.free toBeDeleted
        return (0, h)
      else if successor ≠ 0 ∧ parent = 0 then
        let h ← removeSuccessor toBeDeleted successor h
        return (0, h)
      else if successor = 0 ∧ parent ≠ 0 then
        let h ← cut parent (← h.read toBeDeleted).value h
        let h ← h.free toBeDeleted
        return (0, h)
      else
        let h ← removeSuccessor toBeDeleted successor h
        return (0, h)

-- ---------------------------------------------------------------------------
-- Sequences of calls
-- ---------------------------------------------------------------------------

/-- The heaps and root pointers to which calls of `insert` and `remove` lead. A caller
    keeps what `insert` returns as the root. -/
inductive Built : Heap → Addr → Prop where
  | empty : Built .empty 0
  | insert {h h' : Heap} {root root' fresh : Addr} {val : Int} {fuel : Nat} : Built h root →
      h.allocatable fresh = true → insert val fresh fuel root 0 h = some (root', h') →
      Built h' root'
  | remove {h h' : Heap} {root : Addr} {val rc : Int} {fuel : Nat} : Built h root →
      remove val fuel root h = some (rc, h') → Built h' root

end Unlocked
