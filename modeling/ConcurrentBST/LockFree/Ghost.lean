-- SUMMARY: The history a run leaves behind and the invariant of the shared memory of the lock-free tree.
import ConcurrentBST.Library.Ancestry
import ConcurrentBST.LockFree.Program
import Mathlib.Data.Set.Finite.Basic

/-!
# The invariant of the shared memory

The memory does not say how it came about, and most of the argument is about
exactly that: which words an `op` or a child field has already held, under
which ancestors a node was inserted, and whether the key of a relocation has
been written. This history is carried next to the memory as a ghost state. It
only grows.
-/

namespace LockFree

/-- The word that publishes a child CAS record. -/
abbrev Word.cas (r : Addr) : Word := ⟨r, .childCas⟩

/-- The word that publishes a relocation record. -/
abbrev Word.rel (r : Addr) : Word := ⟨r, .relocate⟩

/-- The null-flagged pointer that carries an address. -/
abbrev Word.null (a : Addr) : Word := ⟨a, .mark⟩

/-- How far the call of a thread is, as a user of the set sees it. -/
inductive Status where
  | idle
  | waiting (call : Call)
  /-- The record is installed, and any thread may let it take effect. -/
  | published (call : Call) (record : Addr)
  | done (result : Result)

/-- The history of a run, as far as the invariant needs it. -/
structure Ghost where
  /-- The nodes of the tree and the ancestors each was inserted under. -/
  tree : Ancestry Addr
  /-- The nodes that are or were in the tree. -/
  born : Set Addr
  /-- The words an `op` field held before the present one. -/
  pastOp : Addr → Set Word
  /-- The words a child field held before the present one. -/
  pastChild : Addr → Bool → Set Word
  /-- The relocations that have written the key of their `dest`. -/
  rewritten : Set Addr
  /-- The thread whose `add` or `remove` a record belongs to. -/
  owner : Addr → Tid
  /-- The node a relocation was installed on at line 310. -/
  replace : Addr → Addr
  status : Tid → Status

namespace Mem

/-- The child on one side, if the pointer is not null-flagged. -/
def childPtr (m : Mem) (x : Addr) (isLeft : Bool) : Option Addr :=
  if isNull (m.child x isLeft) then none else some (m.child x isLeft).addr

/-- `new_ref` of `helpMarked`. -/
def replacement (m : Mem) (c : Addr) : Word :=
  if isNull (m.child c true) then
    if isNull (m.child c false) then .null c else m.child c false
  else m.child c true

def marked (m : Mem) (x : Addr) : Prop := (m.op x).flag = .mark

end Mem

variable (cfg : Config) (m : Mem) (g : Ghost)

/-- The `op` field of `x` holds or has held `w`. -/
def everOp (x : Addr) (w : Word) : Prop :=
  m.op x = w ∨ w ∈ g.pastOp x

/-- The relocation has been installed on the node to be replaced by. -/
def installed (r : Addr) : Prop := everOp m g (g.replace r) (.rel r)

/-- The relocation has been installed on `dest`: it can no longer fail. -/
def committed (r : Addr) : Prop := everOp m g (m.reloc r).dest (.rel r)

/-- The key of `x` does not count any more: `x` is marked, or its key has been
    moved to the `dest` of a relocation. -/
def gone (x : Addr) : Prop :=
  m.marked x ∨ ∃ r, m.op x = .rel r ∧ (m.reloc r).dest ≠ x ∧ r ∈ g.rewritten

/-- The key of `x` is in the set. While `x` is the `dest` of a relocation it
    counts again once its key has been rewritten. -/
def present (x : Addr) : Prop :=
  ¬ gone m g x ∧ ∀ r, m.op x = .rel r → (m.reloc r).dest = x → r ∈ g.rewritten

/-- The set the tree stands for. -/
def keys : Set Int :=
  {k | ∃ x ∈ g.tree.nodes, x ≠ baseRoot ∧ present m g x ∧ m.key x = k}

/-- The empty slot on side `d` of `x` is where `k` belongs. -/
structure Gap (x : Addr) (d : Bool) (k : Int) : Prop where
  root : x = baseRoot → d = false
  before : ∀ y ∈ g.tree.nodes, y ≠ baseRoot → g.tree.BeforeGap x d y → m.key y < k
  after : ∀ y ∈ g.tree.nodes, y ≠ baseRoot → g.tree.AfterGap x d y → k < m.key y

/-- The allocator may not hand out this address. -/
def Taken (a : Addr) : Prop := m.allocatable cfg a = false

/-- The address has been made visible to other threads. -/
inductive Public : Addr → Prop where
  | node {x : Addr} : x ∈ g.born → Public x
  | op {x : Addr} {w : Word} : everOp m g x w → w.addr ≠ 0 → Public w.addr
  | update {x r : Addr} : everOp m g x (.cas r) → (m.cas r).update.flag = .none →
      Public (m.cas r).update.addr

/-- The address has been allocated, but only the allocating thread knows it. -/
structure Private (a : Addr) : Prop where
  ne_zero : a ≠ 0
  hidden : ¬ Public m g a
  taken : Taken cfg m a

/-- What a child CAS record that has been installed on `x` is about to do. -/
inductive Pending (x r : Addr) : Prop where
  /-- Line 112 of `add`. -/
  | insertion (a n : Addr) : (m.cas r).expected = .null a → (m.cas r).update = .ptr n →
      n ∉ g.born → n ≠ 0 → Gap m g x (m.cas r).isLeft (m.key n) → Pending x r
  /-- Line 438 of `helpMarked`. -/
  | splice (c : Addr) : (m.cas r).expected = .ptr c → c ∈ g.tree.nodes → m.marked c →
      (m.cas r).update = m.replacement c → Pending x r

/-- The child pointers form a tree. -/
structure TreeInv : Prop where
  lawful : g.tree.Lawful
  fits : g.tree.Fits m.childPtr
  finite : g.tree.nodes.Finite
  root : baseRoot ∈ g.tree.nodes
  right_of_root : ∀ {x}, x ∈ g.tree.nodes → x ≠ baseRoot → g.tree.Below baseRoot false x
  born_of_mem : ∀ {x}, x ∈ g.tree.nodes → x ∈ g.born
  born_of_anc : ∀ {x y e}, (y, e) ∈ g.tree.anc x → y ∈ g.born
  zero_unborn : 0 ∉ g.born
  unborn : ∀ {x}, x ∉ g.born → m.op x = .ptr 0 ∧ ∀ d, m.child x d = .null 0
  /-- Child fields hold pointers to nodes and null-flagged pointers. -/
  child_flag : ∀ x d, (m.child x d).flag = .none ∨ (m.child x d).flag = .mark
  child_born : ∀ {x d c}, m.child x d = .ptr c → c ∈ g.born
  /-- A null-flagged pointer carries the address of a node that was there. -/
  null_spliced : ∀ {x d a}, m.child x d = .null a ∨ .null a ∈ g.pastChild x d →
    a = 0 ∨ a ∈ g.born ∧ a ∉ g.tree.nodes
  past_spliced : ∀ {x d c}, .ptr c ∈ g.pastChild x d → c ∈ g.born ∧ c ∉ g.tree.nodes
  /-- Only marked nodes are taken out. -/
  mem_of_unmarked : ∀ {x}, x ∈ g.born → ¬ m.marked x → x ∈ g.tree.nodes
  marked_empty : ∀ {x}, m.marked x → ∃ d, isNull (m.child x d)
  root_unmarked : ¬ m.marked baseRoot

/-- No `op` field and no child field takes a value again. -/
structure HistoryInv : Prop where
  op_fresh : ∀ x, m.op x ∉ g.pastOp x
  child_fresh : ∀ x d, m.child x d ∉ g.pastChild x d
  past_unmarked : ∀ {x w}, w ∈ g.pastOp x → w.flag ≠ .mark
  /-- A record is installed on a node before its address stays behind as a stamp. -/
  installed_first : ∀ {x r f}, m.op x = .cas r ∨ m.op x = .rel r → ⟨r, f⟩ ∉ g.pastOp x
  stamp : ∀ {x r f}, everOp m g x ⟨r, f⟩ → r = 0 ∨ everOp m g x (.cas r) ∨ everOp m g x (.rel r)
  typed : ∀ {x y r}, everOp m g x (.cas r) → ¬ everOp m g y (.rel r)
  root_op : (m.op baseRoot).flag = .none ∨ (m.op baseRoot).flag = .childCas

/-- The keys are in order. -/
structure OrderInv : Prop where
  sorted : ∀ {x y}, x ∈ g.tree.nodes → y ∈ g.tree.nodes → x ≠ baseRoot → y ≠ baseRoot →
    g.tree.Before x y → m.key x ≤ m.key y ∧ (¬ gone m g x → ¬ gone m g y → m.key x < m.key y)

/-- Child CAS records take effect once. -/
structure CasInv : Prop where
  /-- While the record is installed the slot holds `expected` or already `update`. -/
  slot : ∀ {x r}, m.op x = .cas r →
    m.child x (m.cas r).isLeft = (m.cas r).expected ∧ Pending m g x r ∨
    m.child x (m.cas r).isLeft = (m.cas r).update ∧
      (m.cas r).expected ∈ g.pastChild x (m.cas r).isLeft
  done : ∀ {x r}, .cas r ∈ g.pastOp x → (m.cas r).expected ∈ g.pastChild x (m.cas r).isLeft
  unique : ∀ {x y r}, everOp m g x (.cas r) → everOp m g y (.cas r) → x = y
  update_unique : ∀ {x y r s n}, m.op x = .cas r → m.op y = .cas s → n ∉ g.born →
    (m.cas r).update = .ptr n → (m.cas s).update = .ptr n → x = y

/-- What is known of one relocation record. -/
structure Relocation (r : Addr) : Prop where
  ne_zero : r ≠ 0
  dest_born : (m.reloc r).dest ∈ g.born
  dest_ne_root : (m.reloc r).dest ≠ baseRoot
  dest_ne_replace : (m.reloc r).dest ≠ g.replace r
  destOp_ever : everOp m g (m.reloc r).dest (m.reloc r).destOp
  destOp_flag : (m.reloc r).destOp.flag = .none
  /-- As long as the record is installed on the replacing node nothing is
      inserted between it and `dest`. -/
  held : m.op (g.replace r) = .rel r →
    m.key (g.replace r) = (m.reloc r).replaceKey ∧ isNull (m.child (g.replace r) true)
  ongoing_held : m.state r = .ongoing → m.op (g.replace r) = .rel r
  /-- The facts `dest_op` stands for. -/
  ready : m.op (m.reloc r).dest = (m.reloc r).destOp → m.op (g.replace r) = .rel r →
    g.tree.Adjacent (m.reloc r).dest (g.replace r) ∧
      m.key (m.reloc r).dest = (m.reloc r).removeKey
  /-- Between lines 472 and 497. -/
  busy : m.op (m.reloc r).dest = .rel r → m.op (g.replace r) = .rel r ∧
    g.tree.Adjacent (m.reloc r).dest (g.replace r) ∧
    (m.key (m.reloc r).dest = (m.reloc r).removeKey ∨ r ∈ g.rewritten)
  finished : .rel r ∈ g.pastOp (m.reloc r).dest →
    r ∈ g.rewritten ∧ m.state r = .successful ∧ everOp m g (m.reloc r).dest (.ptr r)
  rewritten : r ∈ g.rewritten → committed m g r ∧ m.state r = .successful ∧
    (m.reloc r).removeKey < m.key (m.reloc r).dest ∧
    (m.op (m.reloc r).dest = .rel r → m.key (m.reloc r).dest = (m.reloc r).replaceKey)
  commit_past : committed m g r → (m.reloc r).destOp ∈ g.pastOp (m.reloc r).dest ∧
    m.state r ≠ .failed
  succeeded : m.state r = .successful → committed m g r
  failed : m.state r = .failed → (m.reloc r).destOp ∈ g.pastOp (m.reloc r).dest
  released : .rel r ∈ g.pastOp (g.replace r) →
    m.state r = .failed ∨ .rel r ∈ g.pastOp (m.reloc r).dest ∧ m.op (g.replace r) = ⟨r, .mark⟩

/-- Relocation records are installed on two nodes and agree on the outcome. -/
structure RelocInv : Prop where
  place : ∀ {x r}, everOp m g x (.rel r) → installed m g r ∧
    (x = g.replace r ∨ x = (m.reloc r).dest)
  rewritten_installed : ∀ {r}, r ∈ g.rewritten → installed m g r
  record : ∀ {r}, installed m g r → Relocation m g r

/-- The invariant of the shared memory. -/
structure MemInv : Prop extends TreeInv m g, HistoryInv m g, OrderInv m g, CasInv m g,
    RelocInv m g where
  taken : ∀ {a}, Public m g a → Taken cfg m a

variable {cfg m g} {x y r a : Addr} {d : Bool}

-- ---------------------------------------------------------------------------
-- Reading the invariant
-- ---------------------------------------------------------------------------

theorem Public.update_ptr {n : Addr} (hx : m.op x = .cas r) (hu : (m.cas r).update = .ptr n) :
    Public m g n := by
  have := Public.update (m := m) (g := g) (.inl hx) (by rw [hu])
  simpa [hu] using this

/-- A change that shows no new address: what is public afterwards was public before. -/
theorem Public.of_ever {m' : Mem} {g' : Ghost} (ha : Public m' g' a)
    (hborn : ∀ {y}, y ∈ g'.born → Public m g y)
    (hever : ∀ {y w}, everOp m' g' y w → everOp m g y w)
    (hupd : ∀ {y r}, everOp m g y (.cas r) → (m'.cas r).update = (m.cas r).update) :
    Public m g a := by
  cases ha with
  | node hb => exact hborn hb
  | op he hf => exact .op (hever he) hf
  | update he hf =>
    have he := hever he
    rw [hupd he] at hf ⊢
    exact .update he hf

theorem Mem.childPtr_eq_none : m.childPtr x d = none ↔ isNull (m.child x d) = true := by
  unfold Mem.childPtr
  split <;> simp_all

namespace TreeInv

variable (h : TreeInv m g)

include h

theorem isNull_iff : isNull (m.child x d) = true ↔ (m.child x d).flag = .mark := by
  rcases h.child_flag x d with hf | hf <;> simp [isNull, hf]

theorem child_eq_ptr (hn : isNull (m.child x d) = false) :
    m.child x d = .ptr (m.child x d).addr := by
  have hf : (m.child x d).flag = .none := by
    rcases h.child_flag x d with hf | hf
    · exact hf
    · simp [isNull, hf] at hn
  exact Word.ext rfl hf

theorem child_eq_null (hn : isNull (m.child x d) = true) :
    m.child x d = .null (m.child x d).addr :=
  Word.ext rfl (h.isNull_iff.mp hn)

theorem childPtr_eq_some {c : Addr} : m.childPtr x d = some c ↔ m.child x d = .ptr c := by
  unfold Mem.childPtr
  constructor
  · intro hc
    split at hc
    · cases hc
    · next hn =>
      rw [Bool.not_eq_true] at hn
      rw [h.child_eq_ptr hn, Option.some.inj hc]
  · intro hc
    simp [hc, isNull]

/-- `new_ref` is the only child of a marked node, or the null-flagged node itself. -/
theorem replacement_cases (hm : m.marked x) :
    m.replacement x = .null x ∧ (∀ d, isNull (m.child x d) = true) ∨
    ∃ e, isNull (m.child x e) = true ∧ isNull (m.child x (!e)) = false ∧
      m.replacement x = m.child x (!e) := by
  obtain ⟨d, hd⟩ := h.marked_empty hm
  unfold Mem.replacement
  by_cases hl : isNull (m.child x true) = true <;> by_cases hr : isNull (m.child x false) = true
  · exact .inl ⟨by simp [hl, hr], fun d => by cases d <;> assumption⟩
  · exact .inr ⟨true, hl, by simpa using hr, by simp [hl, hr]⟩
  · exact .inr ⟨false, hr, by simpa using hl, by simp [hl]⟩
  · cases d <;> contradiction

end TreeInv

end LockFree
