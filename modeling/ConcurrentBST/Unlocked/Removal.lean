-- SUMMARY: When remove takes one occurrence of the value out of the tree, and nothing else.
import ConcurrentBST.Unlocked.Trees

/-!
# Removal

`remove` cuts off one node with all that hangs from it. It does what it is
meant to do if nothing does, and if the node is not the root.
-/

namespace Unlocked

open FineGrained (Addr Node)
open BinaryTree

/-- `remove` returns, and the in-order list is the old one without one `val`. The order
    and the parent links are those of a search tree before and after. -/
def RemovesOne (val : Int) (h : Heap) (root : Addr) : Prop :=
  ∃ rc h' t t', (∃ fuel, ∀ more, remove val (fuel + more) root h = some (rc, h')) ∧
    h.Represents root t ∧ h'.Represents root t' ∧
    t'.inorder.map h'.key = (t.inorder.map h.key).erase val

/-- The value is not found, or its node has a successor which has no right child, or it
    has no child but a parent. -/
def Removable (val : Int) (h : Heap) (root : Addr) : Prop :=
  ∃ fuel z, search val h fuel root = some z ∧ (z = 0 ∨ ∃ s, getInorderSuccessor h fuel z = some s ∧
    (s ≠ 0 ∧ (h.node s).right = 0 ∨
      s = 0 ∧ (h.node z).left = 0 ∧ (h.node z).parent ≠ 0))

variable {h h' : Heap} {root parent x y z s c : Addr} {val : Int} {fuel : Nat} {d : Bool}
  {t t' l r : BinaryTree Addr}

-- ---------------------------------------------------------------------------
-- Cutting off
-- ---------------------------------------------------------------------------

/-- In `h'` the pointer to `s` has been cut and `s` has been freed. -/
structure CutOff (h h' : Heap) (s : Addr) (t : BinaryTree Addr) : Prop where
  freed : h'.allocated s = false
  allocated : ∀ y, y ≠ s → h'.allocated y = h.allocated y
  parent : ∀ y, (h'.node y).parent = (h.node y).parent
  child : ∀ y ∈ t.inorder, ∀ d,
    (h'.node y).child d = if (h.node y).child d = s then 0 else (h.node y).child d

/-- The rest of the tree stays linked. -/
theorem CutOff.linked (hc : CutOff h h' s t) (ht : h.Linked parent root t) (hs : s ≠ 0)
    (hroot : root ≠ s) : h'.Linked parent root (t.prune (· = s)) := by
  obtain ⟨_, hallocated, hparents, hchild⟩ := hc
  induction t generalizing parent root with
  | nil => exact ht
  | node x l r ihl ihr =>
    obtain ⟨rfl, h0, halloc, hparent, hl, hr⟩ := ht
    rw [prune_node (by simpa using hroot)]
    have hx : ∀ d, (h'.node root).child d =
        if (h.node root).child d = s then 0 else (h.node root).child d := hchild root (by simp)
    -- Either the pointer to the subtree is cut, or the subtree is.
    have hside : ∀ {d sub}, h.Linked root ((h.node root).child d) sub →
        (∀ {root parent}, h.Linked parent root sub → root ≠ s →
          h'.Linked parent root (sub.prune (· = s))) →
        h'.Linked root ((h'.node root).child d) (sub.prune (· = s)) := by
      intro d sub hsub ih
      rw [hx]
      split
      · next heq =>
        cases sub with
        | nil => exact absurd (heq.symm.trans hsub) hs
        | node y l₁ r₁ =>
          have hy : y = s := hsub.1.symm.trans heq
          rw [BinaryTree.prune, if_pos (by simpa using hy)]
          rfl
      · next hne => exact ih hsub hne
    refine ⟨rfl, h0, (hallocated root hroot).trans halloc, (hparents root).trans hparent,
      hside hl fun hsub hne => ihl hsub hne fun y hy => hchild y (by simp [hy]),
      hside hr fun hsub hne => ihr hsub hne fun y hy => hchild y (by simp [hy])⟩

/-- Only the parent of a node points to it, and from one side. -/
theorem child_eq_iff (ht : h.Linked parent root t) (hnd : t.inorder.Nodup) (hs : s ≠ 0)
    (hx : (h.node s).parent = x) (hxd : (h.node x).child d = s) {e : Bool} (hy : y ∈ t.inorder) :
    (h.node y).child e = s ↔ y = x ∧ e = d := by
  constructor
  · intro hye
    have hyx : y = x := by
      have hparent := (ht.child (d := e) hy (hye ▸ hs)).2
      rw [hye] at hparent
      exact hparent.symm.trans hx
    subst hyx
    refine ⟨rfl, ?_⟩
    by_contra hne
    obtain rfl : e = !d := by cases e <;> cases d <;> simp_all
    exact ht.slot_unique hnd hy (hxd ▸ hs) (hye.trans hxd.symm)
  · rintro ⟨rfl, rfl⟩
    exact hxd

/-- The writes of `cut` and `free`, with or without a key moved up before. -/
theorem cutOff_release {h₁ : Heap} (ht : h.Represents root t) (hs : s ≠ 0)
    (hp : (h.node s).parent = x) (hxd : (h.node x).child d = s)
    (hchild : ∀ y e, (h₁.node y).child e = (h.node y).child e)
    (hparent : ∀ y, (h₁.node y).parent = (h.node y).parent) (halloc : h₁.allocated = h.allocated) :
    CutOff h ((h₁.setChild x d 0).release s) s t where
  freed := Function.update_self ..
  allocated := fun y hy => by simp [Heap.release, Function.update_of_ne hy, halloc]
  parent := fun y => by simp [hparent]
  child := by
    intro y hy e
    have hiff := child_eq_iff ht.linked ht.nodup hs hp hxd hy (e := e)
    rw [Heap.node_release, Heap.child_setChild, hchild]
    simp only [hiff]

theorem cut_eq (halloc : h.allocated parent = true) (hd : val < h.key parent ↔ d = true) :
    cut parent val h = some (h.setChild parent d 0) := by
  have hdec : decide (¬ val ≥ (h.node parent).value) = d := by
    have hlt : ¬ val ≥ (h.node parent).value ↔ d = true := not_le.trans hd
    cases d <;> simp_all
  simp only [cut, read_of_allocated halloc, bind, Option.bind, write_of_allocated halloc, hdec]
  rfl

theorem free_eq (halloc : h.allocated x = true) : h.free x = some (h.release x) := if_pos halloc

/-- The successor is on the right of the node. -/
theorem succ_right (ht : h.Linked parent root t) (hnd : t.inorder.Nodup) (hs : Succ z s t) :
    (h.node z).child true ≠ s := by
  induction hs generalizing parent root with
  | @here l r hleft =>
    intro heq
    obtain ⟨_, _, _, _, hl, hr⟩ := ht
    obtain ⟨_, _, _, _, hdisj⟩ := nodup_node hnd
    have hs := leftmost_mem hleft
    rw [heq] at hl
    exact hdisj s (hl.root_mem (hr.mem hs).1) hs
  | left _ ih =>
    obtain ⟨_, _, _, _, hl, _⟩ := ht
    exact ih hl (nodup_node hnd).1
  | right _ ih =>
    obtain ⟨_, _, _, _, _, hr⟩ := ht
    exact ih hr (nodup_node hnd).2.1

/-- The successor is not the root. -/
theorem succ_ne_root (ht : h.Linked parent root t) (hnd : t.inorder.Nodup) (hs : Succ z s t) :
    s ≠ root := by
  rintro rfl
  cases hs with
  | here hleft =>
    obtain rfl := ht.1
    exact (nodup_node hnd).2.2.2.1 (leftmost_mem hleft)
  | left hs =>
    obtain rfl := ht.1
    exact (nodup_node hnd).2.2.1 hs.mem.2
  | right hs =>
    obtain rfl := ht.1
    exact (nodup_node hnd).2.2.2.1 hs.mem.2

/-- The successor is cut off, and its key is moved up. The side is chosen by a comparison
    after the key has been moved; if the node is the parent of its successor, the keys
    are equal then, and the successor is on the right. -/
theorem removeSuccessor_spec (ht : h.Represents root t) (hs : Succ z s t) :
    ∃ h', removeSuccessor z s h = some h' ∧ CutOff h h' s t ∧ h'.key z = h.key s ∧
      ∀ y, y ≠ z → h'.key y = h.key y := by
  obtain ⟨hzm, hsm⟩ := hs.mem
  obtain ⟨hs0, hsalloc⟩ := ht.linked.mem hsm
  obtain ⟨_, hzalloc⟩ := ht.linked.mem hzm
  have hsz : s ≠ z := hs.ne ht.nodup
  obtain ⟨x, d, hp, hxm, hxd, hside⟩ := ht.linked.parent_slot ht.ordered hsm
    (succ_ne_root ht.linked ht.nodup hs)
  obtain ⟨_, hxalloc⟩ := ht.linked.mem hxm
  have hkey := fun y => (Heap.key_setValue : (h.setValue z (h.key s)).key y = _)
  have hdir : (h.setValue z (h.key s)).key s < (h.setValue z (h.key s)).key x ↔ d = true := by
    rw [hkey, hkey, if_neg hsz]
    by_cases hxz : x = z
    · have hd : d = false := by
        cases d with
        | false => rfl
        | true => exact absurd (hxz ▸ hxd) (succ_right ht.linked ht.nodup hs)
      simp [hxz, hd]
    · rwa [if_neg hxz]
  refine ⟨((h.setValue z (h.key s)).setChild x d 0).release s, ?_,
    cutOff_release ht hs0 hp hxd (by simp) (by simp) rfl, by simp [hkey], fun y hy => by simp [hkey, hy]⟩
  have hread : (h.setValue z (h.key s)).read s = some ((h.setValue z (h.key s)).node s) := if_pos hsalloc
  simp only [removeSuccessor, read_of_allocated hsalloc, bind, Option.bind,
    write_of_allocated hzalloc, hp]
  show (((h.setValue z (h.key s)).read s).bind fun n =>
    (cut x n.value (h.setValue z (h.key s))).bind fun h => h.free s) = _
  have hcut : cut x ((h.setValue z (h.key s)).node s).value (h.setValue z (h.key s)) = _ :=
    cut_eq hxalloc hdir
  rw [hread, Option.bind_some, hcut, Option.bind_some]
  exact free_eq hsalloc

-- ---------------------------------------------------------------------------
-- remove
-- ---------------------------------------------------------------------------

/-- What `remove` does when `search` returns `z`. -/
inductive Outcome (val : Int) (h : Heap) (root : Addr) (t : BinaryTree Addr) : Addr → Heap → Prop where
  | absent : val ∉ t.inorder.map h.key → Outcome val h root t 0 h
  | root : root ∈ t.inorder → (h.node root).right = 0 → Outcome val h root t root (h.release root)
  | leaf {z : Addr} {h' : Heap} : z ∈ t.inorder → h.key z = val → (h.node z).right = 0 → z ≠ root →
      CutOff h h' z t → (∀ y, h'.key y = h.key y) → Outcome val h root t z h'
  | successor {z s : Addr} {h' : Heap} : h.key z = val → Succ z s t →
      (∀ fuel, t.height < fuel → getInorderSuccessor h fuel z = some s) → CutOff h h' s t →
      h'.key z = h.key s → (∀ y, y ≠ z → h'.key y = h.key y) → Outcome val h root t z h'

theorem parent_eq_zero (ht : h.Represents root t) (hz : z ∈ t.inorder) :
    (h.node z).parent = 0 ↔ z = root := by
  constructor
  · intro h0
    by_contra hne
    obtain ⟨p, _, hp, hmem, _⟩ := ht.linked.parent_slot ht.ordered hz hne
    exact (ht.linked.mem hmem).1 (hp.symm.trans h0)
  · rintro rfl
    exact ht.linked.root_parent (ht.linked.mem hz).1

theorem remove_spec (val : Int) (ht : h.Represents root t) : ∃ z rc h', Outcome val h root t z h' ∧
    ∀ fuel, t.height < fuel →
      search val h fuel root = some z ∧ remove val fuel root h = some (rc, h') := by
  obtain ⟨z, hsearch, hz⟩ := search_spec val ht.linked ht.ordered
  by_cases hroot : root = 0
  · subst hroot
    have hnil : t = .nil := by
      cases t with
      | nil => rfl
      | node x l r => exact absurd ht.linked.1.symm ht.linked.2.1
    subst hnil
    refine ⟨0, -einval, h, .absent (by simp [inorder]), fun fuel hfuel => ⟨?_, if_pos rfl⟩⟩
    obtain ⟨fuel, rfl⟩ := Nat.exists_eq_succ_of_ne_zero (Nat.ne_zero_of_lt hfuel)
    rw [search, if_pos rfl]
  rcases hz with ⟨rfl, hnot⟩ | ⟨hmem, hkey⟩
  · refine ⟨0, 0, h, .absent hnot, fun fuel hfuel => ⟨hsearch fuel hfuel, ?_⟩⟩
    simp [remove, hroot, hsearch fuel hfuel]
  obtain ⟨hz0, halloc⟩ := ht.linked.mem hmem
  have hread := read_of_allocated halloc
  by_cases hright : (h.node z).right = 0
  · have hsucc := successor_none halloc hright
    by_cases hzr : z = root
    · subst hzr
      refine ⟨z, 0, h.release z, .root hmem hright, fun fuel hfuel => ⟨hsearch fuel hfuel, ?_⟩⟩
      have hp := (parent_eq_zero ht hmem).mpr rfl
      simp [remove, hz0, hsearch fuel hfuel, hread, hsucc, hp, free_eq halloc]
    · obtain ⟨x, d, hp, hxm, hxd, hside⟩ := ht.linked.parent_slot ht.ordered hmem hzr
      have hx0 : x ≠ 0 := (ht.linked.mem hxm).1
      have hcut : cut x (h.node z).value h = some (h.setChild x d 0) :=
        cut_eq (ht.linked.mem hxm).2 hside
      have hfree : (h.setChild x d 0).free z = some ((h.setChild x d 0).release z) := free_eq halloc
      refine ⟨z, 0, (h.setChild x d 0).release z, .leaf hmem hkey hright hzr
        (cutOff_release ht hz0 hp hxd (fun _ _ => rfl) (fun _ => rfl) rfl) (by simp),
        fun fuel hfuel => ⟨hsearch fuel hfuel, ?_⟩⟩
      simp [remove, hroot, hz0, hsearch fuel hfuel, hread, hsucc, hp, hx0, hcut, hfree]
  · obtain ⟨s, hs, hrun⟩ := successor_spec ht.linked hmem hright
    have hs0 : s ≠ 0 := (ht.linked.mem hs.mem.2).1
    obtain ⟨h', hremove, hcut, hz', hother⟩ := removeSuccessor_spec ht hs
    refine ⟨z, 0, h', .successor hkey hs hrun hcut hz' hother,
      fun fuel hfuel => ⟨hsearch fuel hfuel, ?_⟩⟩
    simp [remove, hroot, hz0, hsearch fuel hfuel, hread, hrun fuel hfuel, hs0, hremove]

theorem remove_mono {p : Int × Heap} (more : Nat) (hrun : remove val fuel root h = some p) :
    remove val (fuel + more) root h = some p := by
  unfold remove at hrun ⊢
  split at hrun
  · next h0 => rwa [if_pos h0]
  · next h0 =>
    rw [if_neg h0]
    simp only [bind, Option.bind_eq_some_iff] at hrun ⊢
    obtain ⟨z, hz, hrest⟩ := hrun
    refine ⟨z, search_mono more hz, ?_⟩
    split at hrest
    · next hz0 => rwa [if_pos hz0]
    · next hz0 =>
      rw [if_neg hz0]
      simp only [Option.bind_eq_some_iff] at hrest ⊢
      obtain ⟨n, hn, s, hs, hrest⟩ := hrest
      exact ⟨n, hn, s, successor_mono more hs, hrest⟩

/-- Without a node other than the root there still is a tree. -/
theorem CutOff.represents (hc : CutOff h h' s t) (ht : h.Represents root t) (hs : s ∈ t.inorder)
    (hroot : s ≠ root) (ho : (t.prune (· = s)).Ordered h'.key) :
    h'.Represents root (t.prune (· = s)) :=
  ⟨hc.linked ht.linked (ht.linked.mem hs).1 hroot.symm,
    (prune_sublist.trans List.filter_sublist).nodup ht.nodup, ho⟩

theorem Outcome.represents (ho : Outcome val h root t z h') (ht : h.Represents root t) :
    (∃ t', h'.Represents root t') ∨ root ≠ 0 ∧ h'.allocated root = false := by
  cases ho with
  | absent => exact .inl ⟨t, ht⟩
  | root hmem => exact .inr ⟨(ht.linked.mem hmem).1, Function.update_self ..⟩
  | leaf hmem hkey hright hzr hcut hkeys =>
    exact .inl ⟨_, hcut.represents ht hmem hzr (ht.ordered.congr fun y _ => hkeys y).prune⟩
  | successor hkey hs _ hcut hz hother =>
    exact .inl ⟨_, hcut.represents ht hs.mem.2 (succ_ne_root ht.linked ht.nodup hs)
      (ht.ordered.promote ht.nodup hs hz hother)⟩

/-- Nothing is found by way of a freed root. -/
theorem search_freed (h0 : root ≠ 0) (halloc : h.allocated root = false) :
    search val h fuel root = none := by
  have hread : h.read root = none := if_neg (by simp [halloc])
  cases fuel with
  | zero => rfl
  | succ fuel => simp [search, h0, hread]

/-- After any calls the heap holds a tree, unless its root has been freed. -/
theorem Built.represents (hb : Built h root) :
    (∃ t, h.Represents root t) ∨ root ≠ 0 ∧ h.allocated root = false := by
  induction hb with
  | empty => exact .inl ⟨.nil, rfl, .nil, trivial⟩
  | @insert h h' root root' fresh val fuel _ hfresh hrun ih =>
    rcases ih with ⟨t, ht⟩ | ⟨h0, halloc⟩
    · obtain ⟨c, h₁, hins, hrep⟩ := ht.insert val hfresh
      have heq := (insert_mono (t.height + 1) hrun).symm.trans (hins _ (by omega))
      cases heq
      exact .inl ⟨_, hrep⟩
    · cases fuel with
      | zero => cases hrun
      | succ fuel =>
        have hread : h.read root = none := if_neg (by simp [halloc])
        simp [Unlocked.insert, h0, hread] at hrun
  | @remove h h' root val rc fuel _ hrun ih =>
    rcases ih with ⟨t, ht⟩ | ⟨h0, halloc⟩
    · obtain ⟨z, rc', h₁, hout, hrem⟩ := remove_spec val ht
      have heq := (remove_mono (t.height + 1) hrun).symm.trans (hrem _ (by omega)).2
      cases heq
      exact hout.represents ht
    · simp [Unlocked.remove, h0, search_freed h0 halloc] at hrun

-- ---------------------------------------------------------------------------
-- What is lost
-- ---------------------------------------------------------------------------

namespace Heap

def childPtr (h : Heap) (x : Addr) (d : Bool) : Option Addr :=
  if (h.node x).child d = 0 then none else some ((h.node x).child d)

theorem Linked.unfolds (ht : h.Linked parent root t) :
    Unfolds h.childPtr (if root = 0 then none else some root) t := by
  induction t generalizing parent root with
  | nil =>
    obtain rfl : root = 0 := ht
    exact .nil
  | node x l r ihl ihr =>
    obtain ⟨rfl, h0, _, _, hl, hr⟩ := ht
    rw [if_neg h0]
    exact .node (ihl hl) (ihr hr)

end Heap

theorem filter_ne_eq_erase (ht : h.Represents root t) :
    t.inorder.filter (fun y => !decide (y = s)) = t.inorder.erase s := by
  rw [ht.nodup.erase_eq_filter]
  exact List.filter_congr fun y _ => Bool.eq_iff_iff.mpr (by simp)

/-- What hangs from a node that is cut off is lost. -/
theorem prune_inorder_length (ht : h.Represents root t) (hs : s ∈ t.inorder)
    (hc : (h.node s).child d ≠ 0) : (t.prune (· = s)).inorder.length + 1 < t.inorder.length := by
  have hsub : (t.prune (· = s)).inorder.Sublist (t.inorder.erase s) :=
    filter_ne_eq_erase ht ▸ prune_sublist
  have hlen := List.length_erase_of_mem hs
  have hpos := List.length_pos_of_mem hs
  have hchild : h.childPtr s d = some ((h.node s).child d) := if_neg hc
  -- The child is not cut off itself, but has gone.
  have hmem : (h.node s).child d ∈ t.inorder := (ht.linked.child hs hc).1
  have hne : (h.node s).child d ≠ s := by
    intro heq
    obtain ⟨sub, hsub, hout, _⟩ := ht.linked.unfolds.exists_slot ht.nodup hs d
    exact hout (hsub.mem_inorder.mpr ⟨[], by rw [hchild, heq]; rfl⟩)
  have hgone : (h.node s).child d ∉ (t.prune (· = s)).inorder := by
    intro hin
    have habove := ((ht.linked.unfolds.mem_prune ht.nodup).mp hin).2.2 s hs (by simp) d
    exact habove ⟨[], by rw [hchild]; rfl⟩
  by_contra hge
  have heq := hsub.eq_of_length_le (by omega)
  rw [heq] at hgone
  exact hgone ((List.mem_erase_of_ne hne).mpr hmem)

/-- A node from which nothing hangs is cut off alone. -/
theorem prune_inorder_leaf (ht : h.Represents root t) (hc : ∀ d, (h.node s).child d = 0) :
    (t.prune (· = s)).inorder = t.inorder.erase s := by
  have hsub : (t.prune (· = s)).inorder.Sublist (t.inorder.erase s) :=
    filter_ne_eq_erase ht ▸ prune_sublist
  refine hsub.eq_of_length_le (List.Nodup.length_le_of_subset (ht.nodup.erase s) fun y hy => ?_)
  obtain ⟨hys, hy⟩ := ht.nodup.mem_erase_iff.mp hy
  refine (ht.linked.unfolds.mem_prune ht.nodup).mpr ⟨hy, by simpa using hys, fun x _ hx d hleads => ?_⟩
  have hxs : x = s := by simpa using hx
  have hnone : h.childPtr x d = none := if_pos (hxs ▸ hc d)
  rw [hnone] at hleads
  exact not_leads_none hleads

/-- As often as a key was there it still is, apart from one `val`. -/
theorem perm_keys (ht : h.Represents root t) (hs : s ∈ t.inorder) (hz : z ∈ t.inorder)
    (hkey : h.key z = val) (hz' : z = s ∨ h'.key z = h.key s) (hother : ∀ y, y ≠ z → h'.key y = h.key y) :
    (t.inorder.map h.key).Perm (val :: (t.inorder.erase s).map h'.key) := by
  have hold : (t.inorder.map h.key).Perm (h.key s :: (t.inorder.erase s).map h.key) :=
    (List.perm_cons_erase hs).map h.key
  by_cases hzs : z = s
  · subst hzs
    have hsame : (t.inorder.erase z).map h'.key = (t.inorder.erase z).map h.key :=
      List.map_congr_left fun y hy => hother y (ht.nodup.mem_erase_iff.mp hy).1
    rwa [hsame, ← hkey]
  · have hz' := hz'.resolve_left hzs
    have hmem : z ∈ t.inorder.erase s := (List.mem_erase_of_ne hzs).mpr hz
    have hnd := ht.nodup.erase s
    have hrest : ((t.inorder.erase s).erase z).map h'.key = ((t.inorder.erase s).erase z).map h.key :=
      List.map_congr_left fun y hy => hother y (hnd.mem_erase_iff.mp hy).1
    have hsplit : ∀ k : Addr → Int, ((t.inorder.erase s).map k).Perm
        (k z :: ((t.inorder.erase s).erase z).map k) := fun k => (List.perm_cons_erase hmem).map k
    have hswap : (h.key s :: h.key z :: ((t.inorder.erase s).erase z).map h.key).Perm
        (h.key z :: h.key s :: ((t.inorder.erase s).erase z).map h.key) := .swap ..
    refine hold.trans (((hsplit h.key).cons _).trans (hswap.trans ?_))
    rw [hkey, ← hz', ← hrest]
    exact (hsplit h'.key).symm.cons _

/-- The in-order list has lost one `val` and nothing else if nothing hung from the node. -/
theorem removesOne_of_cutOff (ht : h.Represents root t) (hs : s ∈ t.inorder) (hz : z ∈ t.inorder)
    (ho : (t.prune (· = s)).Ordered h'.key) (hkey : h.key z = val) (hz' : z = s ∨ h'.key z = h.key s)
    (hother : ∀ y, y ≠ z → h'.key y = h.key y) :
    (t.prune (· = s)).inorder.map h'.key = (t.inorder.map h.key).erase val ↔
      ∀ d, (h.node s).child d = 0 := by
  have hval : val ∈ t.inorder.map h.key := List.mem_map.mpr ⟨z, hz, hkey⟩
  constructor
  · intro heq d
    by_contra hc
    have hlt := prune_inorder_length ht hs hc
    have hlen := congrArg List.length heq
    rw [List.length_map, List.length_erase_of_mem hval, List.length_map] at hlen
    omega
  · intro hc
    have hleaf := prune_inorder_leaf ht hc
    -- Both lists are sorted, so that it is enough to count.
    have hperm : ((t.inorder.erase s).map h'.key).Perm ((t.inorder.map h.key).erase val) :=
      ((perm_keys ht hs hz hkey hz' hother).symm.trans (List.perm_cons_erase hval)).cons_inv
    rw [hleaf]
    refine hperm.eq_of_pairwise (fun a b _ _ => le_antisymm) ?_ ?_
    · exact hleaf ▸ ho.sorted
    · exact ht.ordered.sorted.sublist List.erase_sublist

-- ---------------------------------------------------------------------------
-- The condition
-- ---------------------------------------------------------------------------

section

variable {rc : Int} (hrun : ∀ fuel, t.height < fuel →
  search val h fuel root = some z ∧ remove val fuel root h = some (rc, h'))

include hrun

theorem removesOne_iff_of_run (ht : h.Represents root t) : RemovesOne val h root ↔
    ∃ t', h'.Represents root t' ∧ t'.inorder.map h'.key = (t.inorder.map h.key).erase val := by
  constructor
  · rintro ⟨rc₁, h₁, t₁, t', ⟨fuel, hrun₁⟩, ht₁, ht', heq⟩
    have hsame := (hrun₁ (t.height + 1)).symm.trans (hrun _ (by omega)).2
    cases hsame
    obtain rfl := ht.linked.unique ht₁.linked
    exact ⟨t', ht', heq⟩
  · rintro ⟨t', ht', heq⟩
    exact ⟨rc, h', t, t', ⟨t.height + 1, fun more => (hrun _ (by omega)).2⟩, ht, ht', heq⟩

theorem removable_iff_of_run (hs : ∀ fuel, t.height < fuel → getInorderSuccessor h fuel z = some s) :
    Removable val h root ↔ z = 0 ∨ s ≠ 0 ∧ (h.node s).right = 0 ∨
      s = 0 ∧ (h.node z).left = 0 ∧ (h.node z).parent ≠ 0 := by
  constructor
  · rintro ⟨fuel, z₁, hz₁, hcases⟩
    have hzz := (search_mono (t.height + 1) hz₁).symm.trans (hrun _ (by omega)).1
    cases hzz
    apply hcases.imp_right
    rintro ⟨s₁, hs₁, hcond⟩
    have hss := (successor_mono (t.height + 1) hs₁).symm.trans (hs _ (by omega))
    cases hss
    exact hcond
  · intro hcases
    exact ⟨t.height + 1, z, (hrun _ (by omega)).1, hcases.imp_right fun hcond =>
      ⟨s, hs _ (by omega), hcond⟩⟩

end

theorem leftmost_left (ht : h.Linked parent root t) (hs : t.leftmost = some s) :
    (h.node s).left = 0 := by
  induction t generalizing parent root with
  | nil => cases hs
  | node x l r ihl _ =>
    obtain ⟨rfl, _, _, _, hl, _⟩ := ht
    rw [leftmost] at hs
    cases hleft : l.leftmost with
    | none =>
      rw [hleft] at hs
      cases hs
      rw [leftmost_none hleft] at hl
      exact hl
    | some s' =>
      rw [hleft] at hs
      cases hs
      exact ihl hl hleft

theorem succ_left (ht : h.Linked parent root t) (hs : Succ z s t) : (h.node s).left = 0 := by
  induction hs generalizing parent root with
  | here hleft =>
    obtain ⟨_, _, _, _, _, hr⟩ := ht
    exact leftmost_left hr hleft
  | left _ ih =>
    obtain ⟨_, _, _, _, hl, _⟩ := ht
    exact ih hl
  | right _ ih =>
    obtain ⟨_, _, _, _, _, hr⟩ := ht
    exact ih hr

/-- A heap holds one tree only. -/
theorem exists_represents_iff {P : BinaryTree Addr → Prop} (ht : h.Represents root t) :
    (∃ t', h.Represents root t' ∧ P t') ↔ P t := by
  constructor
  · rintro ⟨t', ht', hP⟩
    rwa [ht.linked.unique ht'.linked]
  · exact fun hP => ⟨t, ht, hP⟩

theorem forall_child {n : Node} : (∀ d, n.child d = 0) ↔ n.left = 0 ∧ n.right = 0 := by
  rw [Bool.forall_bool, and_comm]
  rfl

theorem Outcome.removesOne {rc : Int} (ho : Outcome val h root t z h') (ht : h.Represents root t)
    (hrun : ∀ fuel, t.height < fuel →
      search val h fuel root = some z ∧ remove val fuel root h = some (rc, h')) :
    RemovesOne val h root ↔ Removable val h root := by
  rw [removesOne_iff_of_run hrun ht]
  cases ho with
  | absent hnot =>
    rw [exists_represents_iff ht, List.erase_of_not_mem hnot]
    exact iff_of_true rfl ⟨_, _, (hrun (t.height + 1) (Nat.lt_succ_self _)).1, .inl rfl⟩
  | root hmem hright =>
    -- The root has been freed.
    obtain ⟨hr0, halloc⟩ := ht.linked.mem hmem
    have hparent := (parent_eq_zero ht hmem).mpr rfl
    rw [removable_iff_of_run hrun fun fuel _ => successor_none halloc hright fuel]
    refine iff_of_false ?_ (by simp [hr0, hparent])
    rintro ⟨t', ht', _⟩
    have halloc' := (ht'.linked.mem (ht'.linked.root_mem hr0)).2
    simp [Heap.release] at halloc'
  | leaf hmem hkey hright hzr hcut hkeys =>
    obtain ⟨hz0, halloc⟩ := ht.linked.mem hmem
    have hrep := hcut.represents ht hmem hzr (ht.ordered.congr fun y _ => hkeys y).prune
    rw [exists_represents_iff hrep,
      removesOne_of_cutOff ht hmem hmem hrep.ordered hkey (.inl rfl) fun y _ => hkeys y,
      removable_iff_of_run hrun fun fuel _ => successor_none halloc hright fuel, forall_child]
    have hparent : (h.node z).parent ≠ 0 := (parent_eq_zero ht hmem).not.mpr hzr
    simp [hz0, hright, hparent]
  | successor hkey hs hsucc hcut hz hother =>
    obtain ⟨hzm, hsm⟩ := hs.mem
    have hz0 := (ht.linked.mem hzm).1
    have hs0 := (ht.linked.mem hsm).1
    have hrep := hcut.represents ht hsm (succ_ne_root ht.linked ht.nodup hs)
      (ht.ordered.promote ht.nodup hs hz hother)
    rw [exists_represents_iff hrep,
      removesOne_of_cutOff ht hsm hzm hrep.ordered hkey (.inr hz) hother,
      removable_iff_of_run hrun hsucc, forall_child]
    simp [hz0, hs0, succ_left ht.linked hs]

/-- On every tree that `insert` and `remove` have built, `remove` takes out one
    occurrence of the value and keeps everything else if and only if it cuts off a
    single node that is not the root. -/
theorem removesOne_iff (hb : Built h root) (val : Int) :
    RemovesOne val h root ↔ Removable val h root := by
  rcases hb.represents with ⟨t, ht⟩ | ⟨h0, halloc⟩
  · obtain ⟨z, rc, h', hout, hrun⟩ := remove_spec val ht
    exact hout.removesOne ht hrun
  · -- The root has been freed before.
    refine iff_of_false ?_ ?_
    · rintro ⟨_, _, _, _, _, ht, _, _⟩
      exact absurd (ht.linked.mem (ht.linked.root_mem h0)).2 (by simp [halloc])
    · rintro ⟨fuel, z, hz, _⟩
      rw [search_freed h0 halloc] at hz
      cases hz

/-- 3 is a leaf below 5. -/
theorem removesOne_leaf : ∃ h root, Built h root ∧ RemovesOne 3 h root := by
  have h₁ : Built _ _ := @Built.insert _ _ _ _ 1 5 1 .empty rfl rfl
  have h₂ : Built _ _ := @Built.insert _ _ _ _ 2 3 2 h₁ rfl rfl
  refine ⟨_, _, h₂, (removesOne_iff h₂ 3).mpr ⟨2, 2, rfl, .inr ⟨0, rfl, .inr ⟨rfl, rfl, ?_⟩⟩⟩⟩
  decide

/-- 5 is the root and has 3 on its left. It is freed, and the caller keeps the pointer to it. -/
theorem not_removesOne : ¬ ∀ h root val, Built h root → RemovesOne val h root := by
  intro hall
  have h₁ : Built _ _ := @Built.insert _ _ _ _ 1 5 1 .empty rfl rfl
  have h₂ : Built _ _ := @Built.insert _ _ _ _ 2 3 2 h₁ rfl rfl
  obtain ⟨rc, h', t, t', ⟨fuel, hrun⟩, _, ht', _⟩ := hall _ _ 5 h₂
  have hfree : some (0, Heap.release _ 1) = some (rc, h') := hrun 3
  cases hfree
  exact absurd (ht'.linked.mem (ht'.linked.root_mem (by decide))).2 (by decide)

end Unlocked
