-- SUMMARY: The nodes reachable from base_root form an ordered tree that loses marked nodes only.
import ConcurrentBST.Library.Unfolding
import ConcurrentBST.LockFree.Invariant

/-!
# The shape of the tree

What the invariant says about a reader that follows child pointers from
`base_root`, in terms of the memory alone.
-/

namespace LockFree

variable {cfg : Config} {m m' : Mem} {g g' : Ghost} {s : State} {x y : Addr} {l : Tid × Action}

namespace Mem

/-- A node is not live when it is marked or a successful relocation has moved
    its key to another node. -/
def live (m : Mem) (x : Addr) : Bool :=
  match (m.op x).flag with
  | .mark => false
  | .relocate => (m.reloc (m.op x).addr).dest == x || m.state (m.op x).addr != .successful
  | .none | .childCas => true

/-- Child pointers lead from `base_root` to `x`. -/
def reaches (m : Mem) (x : Addr) : Prop := Leads m.childPtr (some baseRoot) x

/-- The nodes above `x`. -/
def ancestors (m : Mem) (x : Addr) : Set Addr :=
  {y | m.reaches y ∧ ∃ d, Leads m.childPtr (m.childPtr y d) x}

/-- `t` is what hangs from `base_root->right`, in order. -/
structure SearchTree (m : Mem) (t : BinaryTree Addr) : Prop where
  unfolds : Unfolds m.childPtr (m.childPtr baseRoot false) t
  once : ∀ p q x, follow m.childPtr (m.childPtr baseRoot false) p = some x →
    follow m.childPtr (m.childPtr baseRoot false) q = some x → p = q
  sorted : (t.inorder.map m.key).Pairwise (· ≤ ·)
  strict : ((t.inorder.filter m.live).map m.key).Pairwise (· < ·)

end Mem

-- ---------------------------------------------------------------------------
-- Reading the pointers
-- ---------------------------------------------------------------------------

theorem TreeInv.reaches_iff (h : TreeInv m g) : m.reaches x ↔ x ∈ g.tree.nodes := by
  obtain ⟨t, ht⟩ := h.fits.exists_spans h.lawful h.finite h.root
  refine ht.leads_iff.trans ⟨And.left, fun hx => ⟨hx, ?_⟩⟩
  by_cases hxr : x = baseRoot
  · exact .inl hxr
  · exact .inr ⟨false, h.right_of_root hx hxr⟩

theorem TreeInv.leads_child_iff (h : TreeInv m g) (hx : x ∈ g.tree.nodes) (hy : y ∈ g.tree.nodes)
    {d : Bool} : Leads m.childPtr (m.childPtr y d) x ↔ g.tree.Below y d x := by
  obtain ⟨t, ht⟩ := h.fits.exists_spans_child h.lawful h.finite hy d
  exact ht.leads_iff.trans (and_iff_right hx)

theorem TreeInv.mem_ancestors (h : TreeInv m g) (hx : x ∈ g.tree.nodes) :
    y ∈ m.ancestors x ↔ ∃ d, g.tree.Below y d x := by
  constructor
  · rintro ⟨hy, d, hd⟩
    exact ⟨d, (h.leads_child_iff hx (h.reaches_iff.mp hy)).mp hd⟩
  · rintro ⟨d, hd⟩
    exact ⟨h.reaches_iff.mpr hd.mem, d, (h.leads_child_iff hx hd.mem).mpr hd⟩

theorem MemInv.not_gone_of_live (h : MemInv cfg m g) (hx : m.live x = true) : ¬ gone m g x := by
  rintro (hm | ⟨r, hop, hdest, hw⟩)
  · unfold Mem.marked at hm
    simp [Mem.live, hm] at hx
  · have hst := ((h.record (h.rewritten_installed hw)).rewritten hw).2.1
    simp [Mem.live, hop, hdest, hst] at hx

theorem MemInv.searchTree (h : MemInv cfg m g) : ∃ t, m.SearchTree t := by
  obtain ⟨t, ht⟩ := h.fits.exists_spans_child h.lawful h.finite h.root false
  -- The nodes on the right of `base_root` are in order.
  have hnode : ∀ {x}, x ∈ t.inorder → x ∈ g.tree.nodes ∧ x ≠ baseRoot := by
    intro x hx
    obtain ⟨hx, hb⟩ := ht.mem.mp hx
    refine ⟨hx, ?_⟩
    rintro rfl
    exact h.lawful.irrefl hb
  have horder : ∀ {x y}, x ∈ t.inorder → y ∈ t.inorder → g.tree.Before x y →
      m.key x ≤ m.key y ∧ (¬ gone m g x → ¬ gone m g y → m.key x < m.key y) := fun hx hy =>
    h.sorted (hnode hx).1 (hnode hy).1 (hnode hx).2 (hnode hy).2
  refine ⟨t, ht.unfolds, fun p q x hp hq => ?_, ?_, ?_⟩
  · exact ht.unfolds.path_unique (ht.nodup h.lawful) hp hq
  · refine List.pairwise_map.mpr (ht.ordered.imp_of_mem ?_)
    exact fun hx hy hb => (horder hx hy hb).1
  · refine List.pairwise_map.mpr ((ht.ordered.filter _).imp_of_mem ?_)
    intro x y hx hy hb
    obtain ⟨hx, hlx⟩ := List.mem_filter.mp hx
    obtain ⟨hy, hly⟩ := List.mem_filter.mp hy
    exact (horder hx hy hb).2 (h.not_gone_of_live hlx) (h.not_gone_of_live hly)

/-- In every reachable state the pointers form a search tree. -/
theorem searchTree_of_reachable (hs : (system .plain).Reachable s) : ∃ t, s.mem.SearchTree t := by
  obtain ⟨g, h⟩ := exists_inv rfl rfl hs
  exact h.mem.searchTree

theorem searchTree_of_add : ∃ t, (runOfAdd.state 13).mem.SearchTree t :=
  searchTree_of_reachable (runOfAdd.reachable (by decide))

-- ---------------------------------------------------------------------------
-- Nodes that stay
-- ---------------------------------------------------------------------------

/-- A node of both trees has no new ancestor, and only a marked one can be lost. -/
theorem Evolves.below {spent : Addr → Prop} {d : Bool} (h : Evolves cfg spent m g m' g')
    (hm : MemInv cfg m g) (hx : x ∈ g.tree.nodes) :
    (g'.tree.Below y d x → g.tree.Below y d x) ∧
      (g.tree.Below y d x → g'.tree.Below y d x ∨ m.marked y ∧ y ∉ g'.tree.nodes) := by
  have hanc := h.anc (hm.born_of_mem hx)
  constructor
  · rintro ⟨hy, hb⟩
    rw [hanc] at hb
    exact ⟨h.mem_of (hm.born_of_anc hb) hy, hb⟩
  · rintro ⟨hy, hb⟩
    by_cases hy' : y ∈ g'.tree.nodes
    · exact .inl ⟨hy', hanc ▸ hb⟩
    · by_contra hcon
      rw [not_or, not_and] at hcon
      exact hy' (h.stays hy fun hmark => hcon.2 hmark hy')

/-- What a run does to the nodes reachable from `base_root`. -/
structure Conserves {n : Nat} (e : (system cfg).Exec n) : Prop where
  stays : ∀ i < n, ∀ x, (e.state i).mem.reaches x → ¬ (e.state i).mem.marked x →
    (e.state (i + 1)).mem.reaches x
  gone : ∀ i j k x, i ≤ j → j ≤ k → k ≤ n → (e.state i).mem.reaches x →
    ¬ (e.state j).mem.reaches x → ¬ (e.state k).mem.reaches x
  ancestors : ∀ i j x, i ≤ j → j ≤ n → (e.state i).mem.reaches x → (e.state j).mem.reaches x →
    (e.state j).mem.ancestors x ⊆ (e.state i).mem.ancestors x
  lost : ∀ i < n, ∀ x, (e.state i).mem.reaches x → (e.state (i + 1)).mem.reaches x →
    ∀ y ∈ (e.state i).mem.ancestors x, y ∉ (e.state (i + 1)).mem.ancestors x →
      (e.state i).mem.marked y ∧ ¬ (e.state (i + 1)).mem.reaches y

/-- No run loses a subtree. -/
theorem conserves {n : Nat} (e : (system .plain).Exec n) : Conserves e := by
  obtain ⟨H⟩ := exists_history rfl e fun i _ => careful_of_fresh rfl
  have hreach : ∀ {i x}, i ≤ n → ((e.state i).mem.reaches x ↔ x ∈ (H.ghost i).tree.nodes) :=
    fun hi => (H.mem hi).reaches_iff
  -- A node that was in the tree and is not in it any more stays out.
  have hback : ∀ {i j x}, i ≤ j → j ≤ n → x ∈ (H.ghost i).born →
      x ∈ (H.ghost j).born ∧ (x ∈ (H.ghost j).tree.nodes → x ∈ (H.ghost i).tree.nodes) := by
    intro i j x hij hj hx
    refine H.preserved (P := fun _ g => x ∈ g.born ∧ (x ∈ g.tree.nodes → x ∈ (H.ghost i).tree.nodes))
      ?_ hij hj ⟨hx, id⟩
    rintro _ _ _ _ _ hev ⟨hborn, hnode⟩
    exact ⟨hev.born hborn, fun hx => hnode (hev.mem_of hborn hx)⟩
  have hborn : ∀ {i x}, i ≤ n → (e.state i).mem.reaches x → x ∈ (H.ghost i).born := fun hi hx =>
    (H.mem hi).born_of_mem ((hreach hi).mp hx)
  refine ⟨fun i hi x hx hm => ?_, fun i j k x hij hjk hk hx hnx hxk => ?_,
    fun i j x hij hj hx hxj => ?_, fun i hi x hx hx' y hy hny => ?_⟩
  · obtain ⟨spent, hev⟩ := H.evolution hi
    exact (hreach hi).mpr (hev.stays ((hreach hi.le).mp hx) hm)
  · have hxj := (hback hij (by omega) (hborn (by omega) hx)).1
    exact hnx ((hreach (by omega)).mpr ((hback hjk hk hxj).2 ((hreach hk).mp hxk)))
  · induction j, hij using Nat.le_induction with
    | base => exact subset_rfl
    | succ j hij ih =>
      have hxm : x ∈ (H.ghost j).tree.nodes :=
        (hback (Nat.le_succ j) hj (hback hij (by omega) (hborn (by omega) hx)).1).2
          ((hreach hj).mp hxj)
      refine subset_trans (fun y hy => ?_) (ih (by omega) ((hreach (by omega)).mpr hxm))
      obtain ⟨spent, hev⟩ := H.evolution hj
      obtain ⟨d, hd⟩ := ((H.mem hj).mem_ancestors ((hreach hj).mp hxj)).mp hy
      exact (hev.before.mem_ancestors hxm).mpr ⟨d, (hev.below hev.before hxm).1 hd⟩
  · obtain ⟨spent, hev⟩ := H.evolution hi
    have hxm := (hreach hi.le).mp hx
    obtain ⟨d, hd⟩ := (hev.before.mem_ancestors hxm).mp hy
    rcases (hev.below hev.before hxm).2 hd with hd' | ⟨hmark, hy'⟩
    · exact absurd ((hev.after.mem_ancestors ((hreach hi).mp hx')).mpr ⟨d, hd'⟩) hny
    · exact ⟨hmark, fun hr => hy' ((hreach hi).mp hr)⟩

end LockFree
