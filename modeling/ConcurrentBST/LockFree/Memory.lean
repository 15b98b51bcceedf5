-- SUMMARY: Tagged words, records and shared memory of the lock-free tree.
import Mathlib.Logic.Function.Basic

/-!
# Memory of the lock-free tree

The data types of `Lock_Free_BST.h` and the shared memory they live in. A
pointer word is an aligned address together with its two low bits, which is
what `SET_FLAG`, `GET_FLAG`, `UNFLAG`, `SET_NULL` and `IS_NULL` take apart.
-/

namespace LockFree

/-- Addresses of allocations. `0` is `NULL`. -/
abbrev Addr := Nat

/-- Thread numbers. -/
abbrev Tid := Nat

-- ---------------------------------------------------------------------------
-- Tagged words
-- ---------------------------------------------------------------------------

/-- The two low bits of a word, with the values `0` to `3` of `flag_type`. -/
inductive Flag where
  | none
  | mark
  | childCas
  | relocate
deriving DecidableEq, Repr

/-- Bitwise or of two flags. -/
def Flag.or : Flag → Flag → Flag
  | .none, f => f
  | f, .none => f
  | .mark, .mark => .mark
  | .childCas, .childCas => .childCas
  | _, _ => .relocate

/-- A pointer word: the address bits and the flag bits. -/
@[ext] structure Word where
  addr : Addr
  flag : Flag
deriving DecidableEq, Repr

/-- The word without flag bits that holds an address. -/
abbrev Word.ptr (a : Addr) : Word := ⟨a, .none⟩

def setFlag (ptr : Word) (state : Flag) : Word :=
  ⟨ptr.addr, ptr.flag.or state⟩

def getFlag (ptr : Word) : Flag :=
  ptr.flag

def unflag (ptr : Word) : Word :=
  ⟨ptr.addr, .none⟩

def setNull (ptr : Word) : Word :=
  ⟨ptr.addr, ptr.flag.or .mark⟩

/-- The lowest bit is set in `mark` and in `relocate`. -/
def isNull (ptr : Word) : Bool :=
  match ptr.flag with
  | .none | .childCas => false
  | .mark | .relocate => true

@[simp] theorem Flag.none_or (f : Flag) : Flag.none.or f = f := rfl
@[simp] theorem Flag.or_none (f : Flag) : f.or .none = f := by cases f <;> rfl
@[simp] theorem setFlag_ptr (a : Addr) (f : Flag) : setFlag (.ptr a) f = ⟨a, f⟩ := rfl
@[simp] theorem getFlag_eq (w : Word) : getFlag w = w.flag := rfl
@[simp] theorem setNull_ptr (a : Addr) : setNull (.ptr a) = ⟨a, .mark⟩ := rfl
@[simp] theorem unflag_addr (w : Word) : (unflag w).addr = w.addr := rfl

-- ---------------------------------------------------------------------------
-- Records
-- ---------------------------------------------------------------------------

/-- `LF_BST_Node`. -/
structure Node where
  key : Int
  op : Word
  left : Word
  right : Word
deriving DecidableEq, Repr

/-- The child field on one side, `left` for `true`. -/
def Node.child (n : Node) (isLeft : Bool) : Word :=
  if isLeft then n.left else n.right

def Node.setChild (n : Node) (isLeft : Bool) (w : Word) : Node :=
  if isLeft then { n with left := w } else { n with right := w }

/-- `Child_CAS_OP`. -/
structure ChildCasOp where
  isLeft : Bool
  expected : Word
  update : Word
deriving DecidableEq, Repr

/-- `operation_state`. -/
inductive OpState where
  | ongoing
  | successful
  | failed
deriving DecidableEq, Repr

/-- `Relocate_OP`. -/
structure RelocateOp where
  state : OpState
  dest : Addr
  destOp : Word
  removeKey : Int
  replaceKey : Int
deriving DecidableEq, Repr

/-- What an address currently is to the allocator. -/
inductive Cell where
  | unused
  | node
  | childCasOp
  | relocateOp
  | deleted
deriving DecidableEq, Repr

/-- How the program is run. -/
structure Config where
  /-- The command line flag `--hazard-pointers`. -/
  hazardPointers : Bool
  /-- Whether the allocator may hand out addresses that have been deleted. -/
  reuse : Bool

def maxThreads : Nat := 24
def hpThreshold : Nat := 6
def numHpPerThread : Nat := 10

-- ---------------------------------------------------------------------------
-- Shared memory
-- ---------------------------------------------------------------------------

/-- The shared memory: the records, the state of the allocator, and the
    hazard slots, offsets and retired lists of the threads. -/
structure Mem where
  node : Addr → Node
  cas : Addr → ChildCasOp
  reloc : Addr → RelocateOp
  cell : Addr → Cell
  hp : Nat → Word
  hpOff : Tid → Nat
  rlist : Tid → List Addr

/-- The address of `base_root`. -/
def baseRoot : Addr := 1

/-- `create_LF_node`. -/
def createLFNode (key : Int) : Node where
  key := key
  op := .ptr 0
  left := setNull (.ptr 0)
  right := setNull (.ptr 0)

namespace Mem

/-- The memory right after `base_root` has been created. -/
def initial : Mem where
  node := fun _ => createLFNode (-1)
  cas := fun _ => ⟨false, .ptr 0, .ptr 0⟩
  reloc := fun _ => ⟨.ongoing, 0, .ptr 0, 0, 0⟩
  cell := fun a => if a = baseRoot then .node else .unused
  hp := fun _ => .ptr 0
  hpOff := fun t => t * numHpPerThread
  rlist := fun _ => []

def key (m : Mem) (x : Addr) : Int := (m.node x).key
def op (m : Mem) (x : Addr) : Word := (m.node x).op
def child (m : Mem) (x : Addr) (isLeft : Bool) : Word := (m.node x).child isLeft
def state (m : Mem) (r : Addr) : OpState := (m.reloc r).state

def setKey (m : Mem) (x : Addr) (k : Int) : Mem :=
  { m with node := Function.update m.node x { m.node x with key := k } }

def setOp (m : Mem) (x : Addr) (w : Word) : Mem :=
  { m with node := Function.update m.node x { m.node x with op := w } }

def setChild (m : Mem) (x : Addr) (isLeft : Bool) (w : Word) : Mem :=
  { m with node := Function.update m.node x ((m.node x).setChild isLeft w) }

def setState (m : Mem) (r : Addr) (s : OpState) : Mem :=
  { m with reloc := Function.update m.reloc r { m.reloc r with state := s } }

/-- The addresses the allocator may return. -/
def allocatable (cfg : Config) (m : Mem) (a : Addr) : Bool :=
  a != 0 && (m.cell a == .unused || cfg.reuse && m.cell a == .deleted)

/-- `new LF_BST_Node` together with the writes to its fields. -/
def newNode (m : Mem) (a : Addr) (n : Node) : Mem :=
  { m with node := Function.update m.node a n, cell := Function.update m.cell a .node }

/-- `new Child_CAS_OP` together with the writes to its fields. -/
def newCas (m : Mem) (a : Addr) (op : ChildCasOp) : Mem :=
  { m with cas := Function.update m.cas a op, cell := Function.update m.cell a .childCasOp }

/-- `new Relocate_OP` together with the writes to its fields. -/
def newReloc (m : Mem) (a : Addr) (op : RelocateOp) : Mem :=
  { m with reloc := Function.update m.reloc a op, cell := Function.update m.cell a .relocateOp }

/-- `delete`: the memory keeps its contents until it is handed out again. -/
def delete (m : Mem) (a : Addr) : Mem :=
  { m with cell := Function.update m.cell a .deleted }

/-- `add_to_hp_list`, the write of the slot and the move to the next one. -/
def addToHpList (m : Mem) (t : Tid) (w : Word) : Mem :=
  let off := m.hpOff t + 1
  { m with
    hp := Function.update m.hp (m.hpOff t) w
    hpOff := Function.update m.hpOff t
      (if off = t * numHpPerThread + numHpPerThread then t * numHpPerThread else off) }

/-- Lines 367 to 374: put the address of `expected` on the retired list of the
    thread unless it is null or already there. -/
def retire (m : Mem) (t : Tid) (expected : Word) : Mem :=
  let a := (unflag expected).addr
  if a = 0 ∨ a ∈ m.rlist t then m
  else { m with rlist := Function.update m.rlist t (m.rlist t ++ [a]) }

/-- Lines 393 to 396: delete a retired node and take it off the list. -/
def deleteRetired (m : Mem) (t : Tid) (a : Addr) : Mem :=
  { m.delete a with rlist := Function.update m.rlist t ((m.rlist t).erase a) }

-- ---------------------------------------------------------------------------
-- Reading back
-- ---------------------------------------------------------------------------

section Lemmas

variable (m : Mem) (x y a : Addr) (d e : Bool) (w : Word) (k : Int) (t : Tid)

@[simp, grind =] theorem setKey_key : (m.setKey x k).key y = if y = x then k else m.key y := by
  unfold key setKey
  grind

@[simp] theorem setKey_op : (m.setKey x k).op = m.op := by
  unfold op setKey
  grind

@[simp] theorem setKey_child : (m.setKey x k).child = m.child := by
  unfold child setKey Node.child
  grind

@[simp] theorem setOp_key : (m.setOp x w).key = m.key := by
  unfold key setOp
  grind

@[simp, grind =] theorem setOp_op : (m.setOp x w).op y = if y = x then w else m.op y := by
  unfold op setOp
  grind

@[simp] theorem setOp_child : (m.setOp x w).child = m.child := by
  unfold child setOp Node.child
  grind

@[simp] theorem setChild_key : (m.setChild x d w).key = m.key := by
  unfold key setChild Node.setChild
  grind

@[simp] theorem setChild_op : (m.setChild x d w).op = m.op := by
  unfold op setChild Node.setChild
  grind

@[simp, grind =] theorem setChild_child : (m.setChild x d w).child y e =
    if y = x ∧ e = d then w else m.child y e := by
  unfold child setChild Node.setChild Node.child
  grind

@[simp, grind =] theorem setState_state (s : OpState) :
    (m.setState x s).state y = if y = x then s else m.state y := by
  unfold state setState
  grind

@[simp, grind =] theorem newNode_key (n : Node) :
    (m.newNode a n).key y = if y = a then n.key else m.key y := by
  unfold key newNode
  grind

@[simp, grind =] theorem newNode_op (n : Node) :
    (m.newNode a n).op y = if y = a then n.op else m.op y := by
  unfold op newNode
  grind

@[simp, grind =] theorem newNode_child (n : Node) :
    (m.newNode a n).child y d = if y = a then n.child d else m.child y d := by
  unfold child newNode
  grind

@[simp] theorem setState_dest (s : OpState) :
    ((m.setState x s).reloc y).dest = (m.reloc y).dest := by
  unfold setState
  grind

@[simp] theorem setState_destOp (s : OpState) :
    ((m.setState x s).reloc y).destOp = (m.reloc y).destOp := by
  unfold setState
  grind

@[simp] theorem setState_removeKey (s : OpState) :
    ((m.setState x s).reloc y).removeKey = (m.reloc y).removeKey := by
  unfold setState
  grind

@[simp] theorem setState_replaceKey (s : OpState) :
    ((m.setState x s).reloc y).replaceKey = (m.reloc y).replaceKey := by
  unfold setState
  grind

@[simp] theorem newCas_cas (op : ChildCasOp) :
    (m.newCas a op).cas y = if y = a then op else m.cas y := by
  unfold newCas
  grind

@[simp] theorem newReloc_reloc (op : RelocateOp) :
    (m.newReloc a op).reloc y = if y = a then op else m.reloc y := by
  unfold newReloc
  grind

@[simp] theorem setKey_cas : (m.setKey x k).cas = m.cas := rfl
@[simp] theorem setKey_reloc : (m.setKey x k).reloc = m.reloc := rfl
@[simp] theorem setKey_cell : (m.setKey x k).cell = m.cell := rfl
@[simp] theorem setKey_state : (m.setKey x k).state = m.state := rfl

@[simp] theorem setOp_cas : (m.setOp x w).cas = m.cas := rfl
@[simp] theorem setOp_reloc : (m.setOp x w).reloc = m.reloc := rfl
@[simp] theorem setOp_cell : (m.setOp x w).cell = m.cell := rfl
@[simp] theorem setOp_state : (m.setOp x w).state = m.state := rfl

@[simp] theorem setChild_cas : (m.setChild x d w).cas = m.cas := rfl
@[simp] theorem setChild_reloc : (m.setChild x d w).reloc = m.reloc := rfl
@[simp] theorem setChild_cell : (m.setChild x d w).cell = m.cell := rfl
@[simp] theorem setChild_state : (m.setChild x d w).state = m.state := rfl

@[simp] theorem setState_cas (s : OpState) : (m.setState x s).cas = m.cas := rfl
@[simp] theorem setState_cell (s : OpState) : (m.setState x s).cell = m.cell := rfl
@[simp] theorem setState_key (s : OpState) : (m.setState x s).key = m.key := rfl
@[simp] theorem setState_op (s : OpState) : (m.setState x s).op = m.op := rfl
@[simp] theorem setState_child (s : OpState) : (m.setState x s).child = m.child := rfl

@[simp] theorem newNode_cas (n : Node) : (m.newNode a n).cas = m.cas := rfl
@[simp] theorem newNode_reloc (n : Node) : (m.newNode a n).reloc = m.reloc := rfl
@[simp] theorem newNode_state (n : Node) : (m.newNode a n).state = m.state := rfl

@[simp] theorem newCas_reloc (o : ChildCasOp) : (m.newCas a o).reloc = m.reloc := rfl
@[simp] theorem newCas_state (o : ChildCasOp) : (m.newCas a o).state = m.state := rfl
@[simp] theorem newCas_key (o : ChildCasOp) : (m.newCas a o).key = m.key := rfl
@[simp] theorem newCas_op (o : ChildCasOp) : (m.newCas a o).op = m.op := rfl
@[simp] theorem newCas_child (o : ChildCasOp) : (m.newCas a o).child = m.child := rfl

@[simp] theorem newReloc_cas (o : RelocateOp) : (m.newReloc a o).cas = m.cas := rfl
@[simp] theorem newReloc_key (o : RelocateOp) : (m.newReloc a o).key = m.key := rfl
@[simp] theorem newReloc_op (o : RelocateOp) : (m.newReloc a o).op = m.op := rfl
@[simp] theorem newReloc_child (o : RelocateOp) : (m.newReloc a o).child = m.child := rfl

@[simp] theorem delete_cas : (m.delete a).cas = m.cas := rfl
@[simp] theorem delete_reloc : (m.delete a).reloc = m.reloc := rfl
@[simp] theorem delete_state : (m.delete a).state = m.state := rfl
@[simp] theorem delete_key : (m.delete a).key = m.key := rfl
@[simp] theorem delete_op : (m.delete a).op = m.op := rfl
@[simp] theorem delete_child : (m.delete a).child = m.child := rfl

@[simp] theorem addToHpList_cas : (m.addToHpList t w).cas = m.cas := rfl
@[simp] theorem addToHpList_reloc : (m.addToHpList t w).reloc = m.reloc := rfl
@[simp] theorem addToHpList_cell : (m.addToHpList t w).cell = m.cell := rfl
@[simp] theorem addToHpList_state : (m.addToHpList t w).state = m.state := rfl
@[simp] theorem addToHpList_key : (m.addToHpList t w).key = m.key := rfl
@[simp] theorem addToHpList_op : (m.addToHpList t w).op = m.op := rfl
@[simp] theorem addToHpList_child : (m.addToHpList t w).child = m.child := rfl

theorem exists_retire : ∃ as, m.retire t w = { m with rlist := as } := by
  unfold retire
  dsimp only
  split
  · exact ⟨m.rlist, rfl⟩
  · exact ⟨_, rfl⟩

@[simp] theorem retire_node : (m.retire t w).node = m.node := by
  unfold retire
  dsimp only
  split <;> rfl

@[simp] theorem retire_cell : (m.retire t w).cell = m.cell := by
  unfold retire
  dsimp only
  split <;> rfl

@[simp] theorem retire_key : (m.retire t w).key = m.key := by
  unfold key
  rw [retire_node]

@[simp] theorem retire_op : (m.retire t w).op = m.op := by
  unfold op
  rw [retire_node]

@[simp] theorem deleteRetired_key : (m.deleteRetired t a).key = m.key := rfl

end Lemmas

end Mem

end LockFree
