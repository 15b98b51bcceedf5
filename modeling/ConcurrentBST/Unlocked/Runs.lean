-- SUMMARY: Sequences of calls of insert, search and remove on a tree without locks.
import ConcurrentBST.Unlocked.Removal
import Mathlib.Data.Multiset.AddSub

/-!
# Sequences of calls

As long as no `remove` cuts off more than one node, or the root, the tree is a
multiset of keys, and `malloc` and `free` keep the books: the nodes of the tree are
those that are allocated.
-/

namespace Unlocked

open FineGrained (Addr Node)
open BinaryTree

/-- `malloc` returns `fresh` to an `insert`. -/
inductive Call where
  | insert (val : Int) (fresh : Addr)
  | search (val : Int)
  | remove (val : Int)

inductive Answer where
  | inserted
  | found (b : Bool)
  | removed (rc : Int)
deriving DecidableEq

-- ---------------------------------------------------------------------------
-- The calls
-- ---------------------------------------------------------------------------

/-- A caller keeps what `insert` returns as the root. -/
def serve (fuel : Nat) : Call → Addr × Heap → Option (Answer × Addr × Heap)
  | .insert val fresh, (root, h) =>
      (insert val fresh fuel root 0 h).map fun p => (.inserted, p)
  | .search val, (root, h) =>
      (search val h fuel root).map fun z => (.found (decide (z ≠ 0)), root, h)
  | .remove val, (root, h) =>
      (remove val fuel root h).map fun p => (.removed p.1, root, p.2)

def serveAll (fuel : Nat) : List Call → Addr × Heap → Option (List Answer × Addr × Heap)
  | [], p => some ([], p)
  | c :: cs, p => do
      let (a, p) ← serve fuel c p
      let (as, p) ← serveAll fuel cs p
      return (a :: as, p)

/-- `malloc` returns a free address, and `remove` cuts off a single node. -/
def Allowed : Call → Addr × Heap → Prop
  | .insert _ fresh, (_, h) => h.allocatable fresh = true
  | .search _, _ => True
  | .remove val, (root, h) => Removable val h root

def AllAllowed (fuel : Nat) : List Call → Addr × Heap → Prop
  | [], _ => True
  | c :: cs, p => Allowed c p ∧ ∀ a p', serve fuel c p = some (a, p') → AllAllowed fuel cs p'

-- ---------------------------------------------------------------------------
-- The multiset
-- ---------------------------------------------------------------------------

namespace Call

/-- What the call makes of the keys. -/
def update (keys : Multiset Int) : Call → Multiset Int
  | .insert val _ => val ::ₘ keys
  | .search _ => keys
  | .remove val => keys.erase val

/-- `remove` only complains of a tree that is empty. -/
def answer (keys : Multiset Int) : Call → Answer
  | .insert _ _ => .inserted
  | .search val => .found (decide (val ∈ keys))
  | .remove _ => .removed (if keys = 0 then -einval else 0)

end Call

def answers : Multiset Int → List Call → List Answer
  | _, [] => []
  | keys, c :: cs => c.answer keys :: answers (c.update keys) cs

variable {h h' : Heap} {root root' x y z s fresh : Addr} {val rc : Int} {fuel : Nat} {d : Bool}
  {t t' : BinaryTree Addr} {keys : Multiset Int} {c : Call} {cs : List Call}

theorem card_update (keys : Multiset Int) (c : Call) : (c.update keys).card ≤ keys.card + 1 := by
  cases c with
  | insert => simp [Call.update]
  | search => simp [Call.update]
  | remove val => exact (Multiset.card_le_card (Multiset.erase_le val keys)).trans (Nat.le_succ _)

/-- `remove` returns an error code for a null pointer only. -/
theorem remove_rc (hrun : remove val fuel root h = some (rc, h')) :
    rc = if root = 0 then -einval else 0 := by
  unfold Unlocked.remove at hrun
  split at hrun
  · next h0 =>
    cases hrun
    rw [if_pos h0]
  · next h0 =>
    rw [if_neg h0]
    simp only [bind, Option.bind_eq_some_iff] at hrun
    obtain ⟨z, _, hrun⟩ := hrun
    split at hrun
    · cases hrun
      rfl
    · simp only [Option.bind_eq_some_iff] at hrun
      obtain ⟨n, _, s, _, hrun⟩ := hrun
      (repeat' split at hrun) <;> simp only [Option.bind_eq_some_iff] at hrun <;> grind

/-- The heap holds a tree with these keys and nothing else. -/
structure Holds (keys : Multiset Int) (root : Addr) (h : Heap) (t : BinaryTree Addr) : Prop where
  represents : h.Represents root t
  keys : ↑(t.inorder.map h.key) = keys
  allocated : ∀ a, h.allocated a = true ↔ a ∈ t.inorder

namespace Holds

theorem mem_keys (ht : Holds keys root h t) : val ∈ keys ↔ val ∈ t.inorder.map h.key := by
  rw [← ht.keys, Multiset.mem_coe]

theorem root_eq_zero (ht : Holds keys root h t) : root = 0 ↔ keys = 0 := by
  rw [← ht.keys]
  cases t with
  | nil => exact iff_of_true ht.represents.linked rfl
  | node x l r =>
    refine iff_of_false (ht.represents.linked.mem ?_).1 (by simp [inorder])
    rw [ht.represents.linked.1]
    simp

theorem card (ht : Holds keys root h t) : keys.card = t.inorder.length := by
  rw [← ht.keys, Multiset.coe_card, List.length_map]

theorem height_lt (ht : Holds keys root h t) (hfuel : keys.card < fuel) : t.height < fuel := by
  have hle := t.height_le_numNodes
  rw [ht.card, length_inorder] at hfuel
  exact hle.trans_lt hfuel

theorem insert (ht : Holds keys root h t) (hfresh : h.allocatable fresh = true)
    (hfuel : keys.card < fuel) : ∃ c h' t', Unlocked.insert val fresh fuel root 0 h = some (c, h') ∧
      Holds (val ::ₘ keys) c h' t' := by
  obtain ⟨c, h', hins⟩ := insert_spec val ht.represents.linked ht.represents.nodup hfresh
  obtain ⟨c', h'', hrun, hrep⟩ := ht.represents.insert val hfresh
  obtain ⟨rfl, rfl⟩ : c = c' ∧ h' = h'' := by
    have heq := (hins.run _ (Nat.lt_succ_self _)).symm.trans (hrun _ (Nat.lt_succ_self _))
    simpa using heq
  have hout : fresh ∉ t.inorder := fun hmem => by
    simp [Heap.allocatable, (ht.allocated fresh).mpr hmem] at hfresh
  have hperm : (t.hang h.key val fresh).inorder.Perm (fresh :: t.inorder) :=
    (List.perm_ext_iff_of_nodup hrep.nodup (List.nodup_cons.mpr ⟨hout, ht.represents.nodup⟩)).mpr
      fun y => by rw [mem_hang, List.mem_cons]
  refine ⟨c, h', _, hrun fuel (ht.height_lt hfuel), hrep, ?_, fun y => ⟨fun hy => ?_, fun hy => ?_⟩⟩
  · have hkeys : t.inorder.map h'.key = t.inorder.map h.key :=
      List.map_congr_left fun y hy => hins.key y fun heq => hout (heq ▸ hy)
    rw [← ht.keys, ← hkeys, Multiset.cons_coe, Multiset.coe_eq_coe]
    simpa only [List.map_cons, hins.key_fresh] using hperm.map h'.key
  · rw [mem_hang]
    by_contra hnot
    obtain ⟨hne, hnot⟩ := not_or.mp hnot
    rw [(hins.frame y hne hnot).2] at hy
    exact hnot ((ht.allocated y).mp hy)
  · exact (hrep.linked.mem hy).2

theorem search (ht : Holds keys root h t) (hfuel : keys.card < fuel) :
    ∃ z, Unlocked.search val h fuel root = some z ∧ (z ≠ 0 ↔ val ∈ keys) := by
  obtain ⟨z, hrun, hz⟩ := search_spec val ht.represents.linked ht.represents.ordered
  refine ⟨z, hrun fuel (ht.height_lt hfuel), ?_⟩
  rw [ht.mem_keys]
  rcases hz with ⟨rfl, hnot⟩ | ⟨hmem, rfl⟩
  · exact iff_of_false (by simp) hnot
  · exact iff_of_true (ht.represents.linked.mem hmem).1 (List.mem_map_of_mem hmem)

/-- What is left after a single node has been cut off. -/
theorem of_cutOff (ht : Holds keys root h t) (hc : CutOff h h' s t)
    (hrep : h'.Represents root (t.prune (· = s))) (hleaf : ∀ d, (h.node s).child d = 0)
    (hkeys : (t.prune (· = s)).inorder.map h'.key = (t.inorder.map h.key).erase val) :
    Holds (keys.erase val) root h' (t.prune (· = s)) := by
  refine ⟨hrep, ?_, fun y => ?_⟩
  · rw [hkeys, ← ht.keys, Multiset.coe_erase]
  · rw [prune_inorder_leaf ht.represents hleaf, ht.represents.nodup.mem_erase_iff]
    by_cases hys : y = s
    · simp [hys, hc.freed]
    · rw [hc.allocated y hys, ht.allocated]
      simp [hys]

theorem remove (ht : Holds keys root h t) (hval : Removable val h root) (hfuel : keys.card < fuel) :
    ∃ h' t', Unlocked.remove val fuel root h = some (if keys = 0 then -einval else 0, h') ∧
      Holds (keys.erase val) root h' t' := by
  obtain ⟨z, rc, h', hout, hrun⟩ := remove_spec val ht.represents
  obtain ⟨t', hrep', heq⟩ := (removesOne_iff_of_run hrun ht.represents).mp
    ((hout.removesOne ht.represents hrun).mpr hval)
  have hret := (hrun fuel (ht.height_lt hfuel)).2
  have hrc : rc = if keys = 0 then -einval else 0 := by
    simp only [← ht.root_eq_zero]
    exact remove_rc hret
  refine ⟨h', t', hrc ▸ hret, ?_⟩
  cases hout with
  | absent hnot =>
    obtain rfl := ht.represents.linked.unique hrep'.linked
    rw [Multiset.erase_of_notMem (ht.mem_keys.not.mpr hnot)]
    exact ht
  | root hmem =>
    -- The tree would hang from a freed node.
    have halloc := (hrep'.linked.mem (hrep'.linked.root_mem (ht.represents.linked.mem hmem).1)).2
    simp [Heap.release] at halloc
  | leaf hmem hkey hright hzr hcut hkeys =>
    have hrep := hcut.represents ht.represents hmem hzr
      (ht.represents.ordered.congr fun y _ => hkeys y).prune
    obtain rfl := hrep.linked.unique hrep'.linked
    exact ht.of_cutOff hcut hrep ((removesOne_of_cutOff ht.represents hmem hmem hrep.ordered hkey
      (.inl rfl) fun y _ => hkeys y).mp heq) heq
  | successor hkey hs hsucc hcut hz hother =>
    obtain ⟨hzm, hsm⟩ := hs.mem
    have hrep := hcut.represents ht.represents hsm
      (succ_ne_root ht.represents.linked ht.represents.nodup hs)
      (ht.represents.ordered.promote ht.represents.nodup hs hz hother)
    obtain rfl := hrep.linked.unique hrep'.linked
    exact ht.of_cutOff hcut hrep ((removesOne_of_cutOff ht.represents hsm hzm hrep.ordered hkey
      (.inr hz) hother).mp heq) heq

/-- One call. -/
theorem serve (ht : Holds keys root h t) (hc : Allowed c (root, h)) (hfuel : keys.card < fuel) :
    ∃ root' h' t', Unlocked.serve fuel c (root, h) = some (c.answer keys, root', h') ∧
      Holds (c.update keys) root' h' t' := by
  cases c with
  | insert val fresh =>
    obtain ⟨root', h', t', hrun, ht'⟩ := ht.insert hc hfuel
    exact ⟨root', h', t', by simp [Unlocked.serve, hrun, Call.answer], ht'⟩
  | search val =>
    obtain ⟨z, hrun, hz⟩ : ∃ z, Unlocked.search val h fuel root = some z ∧ (z ≠ 0 ↔ val ∈ keys) :=
      ht.search hfuel
    exact ⟨root, h, t, by simp [Unlocked.serve, hrun, Call.answer, ← hz], ht⟩
  | remove val =>
    obtain ⟨h', t', hrun, ht'⟩ := ht.remove hc hfuel
    exact ⟨root, h', t', by simp [Unlocked.serve, hrun, Call.answer], ht'⟩

/-- Any number of calls. By induction on the calls. -/
theorem serveAll (ht : Holds keys root h t) (hcs : AllAllowed fuel cs (root, h))
    (hfuel : keys.card + cs.length < fuel) : ∃ root' h' t',
      Unlocked.serveAll fuel cs (root, h) = some (answers keys cs, root', h') ∧
        Holds (cs.foldl Call.update keys) root' h' t' := by
  induction cs generalizing keys root h t with
  | nil => exact ⟨root, h, t, rfl, ht⟩
  | cons c cs ih =>
    rw [List.length_cons] at hfuel
    obtain ⟨root₁, h₁, t₁, hrun, ht₁⟩ := ht.serve hcs.1 (show keys.card < fuel by omega)
    have hcard := card_update keys c
    obtain ⟨root', h', t', hrest, ht'⟩ := ih ht₁ (hcs.2 _ _ hrun) (by omega)
    exact ⟨root', h', t', by simp [Unlocked.serveAll, hrun, hrest, answers], ht'⟩

end Holds

/-- On a sequence of calls in which every `remove` cuts off a single node other than the
    root, the tree answers like a multiset of keys, and the allocated nodes are those
    of the tree. -/
theorem acts_as_multiset (fuel : Nat) (cs : List Call) (hcs : AllAllowed fuel cs (0, .empty))
    (hfuel : cs.length < fuel) : ∃ root h t, serveAll fuel cs (0, .empty) = some (answers 0 cs, root, h) ∧
      h.Represents root t ∧ ↑(t.inorder.map h.key) = cs.foldl Call.update 0 ∧
        ∀ a, h.allocated a = true ↔ a ∈ t.inorder := by
  have hempty : Holds 0 0 .empty .nil := ⟨⟨rfl, .nil, trivial⟩, rfl, fun a => by simp [Heap.empty, inorder]⟩
  obtain ⟨root, h, t, hrun, ht⟩ := hempty.serveAll hcs (by simpa using hfuel)
  exact ⟨root, h, t, hrun, ht.represents, ht.keys, ht.allocated⟩

/-- 5 has the successor 8, which has no right child. -/
def callsOfSuccessor : List Call :=
  [.insert 5 1, .insert 3 2, .insert 8 3, .remove 5, .search 5, .search 8]

theorem acts_as_multiset_successor :
    ∃ root h t, serveAll 7 callsOfSuccessor (0, .empty) = some (answers 0 callsOfSuccessor, root, h) ∧
      h.Represents root t ∧ ↑(t.inorder.map h.key) = callsOfSuccessor.foldl Call.update 0 ∧
        ∀ a, h.allocated a = true ↔ a ∈ t.inorder := by
  refine acts_as_multiset 7 callsOfSuccessor ⟨rfl, fun _ _ h₁ => ?_⟩ (by decide)
  cases h₁
  refine ⟨rfl, fun _ _ h₂ => ?_⟩
  cases h₂
  refine ⟨rfl, fun _ _ h₃ => ?_⟩
  cases h₃
  refine ⟨⟨7, 1, rfl, .inr ⟨3, rfl, .inl ⟨by decide, rfl⟩⟩⟩, fun _ _ h₄ => ?_⟩
  cases h₄
  exact ⟨trivial, fun _ _ _ => ⟨trivial, fun _ _ _ => trivial⟩⟩

end Unlocked
