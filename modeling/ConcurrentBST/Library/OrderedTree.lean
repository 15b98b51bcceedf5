-- SUMMARY: Search trees with equal keys to the right, the successor of a node, and the removal of it.
import ConcurrentBST.Library.Unfolding
import Mathlib.Order.Defs.LinearOrder

/-!
# Search trees with equal keys

The nodes carry keys that may be equal and may change. Equal keys are to the
right. The successor of a node with a right subtree is the leftmost node there,
and can be cut off once its key has been moved up.
-/

universe u v

variable {α : Type u} {κ : Type v} [LinearOrder κ] {key key' : α → κ} {t l r : BinaryTree α}
  {x y z s : α} {p : α → Bool} {k : κ}

namespace BinaryTree

/-- Keys to the left are smaller, and keys to the right are not. -/
def Ordered (key : α → κ) : BinaryTree α → Prop
  | .nil => True
  | .node x l r => (∀ y ∈ l.inorder, key y < key x) ∧ (∀ y ∈ r.inorder, key x ≤ key y) ∧
      Ordered key l ∧ Ordered key r

/-- The tree with a leaf `n` where a new key goes. -/
def hang (key : α → κ) (k : κ) (n : α) : BinaryTree α → BinaryTree α
  | .nil => .node n .nil .nil
  | .node x l r => if k < key x then .node x (hang key k n l) r else .node x l (hang key k n r)

/-- The first node of the in-order list. -/
def leftmost : BinaryTree α → Option α
  | .nil => none
  | .node x l _ => l.leftmost.or (some x)

attribute [local simp] inorder hang leftmost

/-- `s` is the leftmost node of the right subtree of `z`. -/
inductive Succ (z s : α) : BinaryTree α → Prop where
  | here {l r : BinaryTree α} : r.leftmost = some s → Succ z s (.node z l r)
  | left {x : α} {l r : BinaryTree α} : Succ z s l → Succ z s (.node x l r)
  | right {x : α} {l r : BinaryTree α} : Succ z s r → Succ z s (.node x l r)

@[simp] theorem mem_inorder_node :
    y ∈ (BinaryTree.node x l r).inorder ↔ y ∈ l.inorder ∨ y = x ∨ y ∈ r.inorder := by
  simp

theorem length_inorder : t.inorder.length = t.numNodes := by
  induction t with
  | nil => rfl
  | node x l r ihl ihr =>
    simp only [inorder, List.length_append, List.length_cons, ihl, ihr, numNodes]
    omega

/-- The two subtrees and the root are disjoint. -/
theorem nodup_node (h : (BinaryTree.node x l r).inorder.Nodup) :
    l.inorder.Nodup ∧ r.inorder.Nodup ∧ x ∉ l.inorder ∧ x ∉ r.inorder ∧
      ∀ y ∈ l.inorder, y ∉ r.inorder := by
  obtain ⟨hl, hr, hdisj⟩ := List.nodup_append.mp h
  obtain ⟨hxr, hr⟩ := List.nodup_cons.mp hr
  exact ⟨hl, hr, fun hx => hdisj x hx x (.head _) rfl, hxr, fun y hy hyr =>
    hdisj y hy y (.tail _ hyr) rfl⟩

-- ---------------------------------------------------------------------------
-- The order
-- ---------------------------------------------------------------------------

theorem Ordered.congr (h : t.Ordered key) (heq : ∀ x ∈ t.inorder, key' x = key x) :
    t.Ordered key' := by
  induction t with
  | nil => trivial
  | node x l r ihl ihr =>
    obtain ⟨hl, hr, hol, hor⟩ := h
    have hx : key' x = key x := heq x (by simp)
    have hkl : ∀ y ∈ l.inorder, key' y = key y := fun y hy => heq y (by simp [hy])
    have hkr : ∀ y ∈ r.inorder, key' y = key y := fun y hy => heq y (by simp [hy])
    refine ⟨fun y hy => ?_, fun y hy => ?_, ihl hol hkl, ihr hor hkr⟩
    · rw [hkl y hy, hx]
      exact hl y hy
    · rw [hkr y hy, hx]
      exact hr y hy

/-- A key that is smaller than that of the root is on the left. -/
theorem Ordered.mem_keys_left (h : (BinaryTree.node x l r).Ordered key) (hlt : k < key x) :
    k ∈ (BinaryTree.node x l r).inorder.map key ↔ k ∈ l.inorder.map key := by
  simp only [List.mem_map, mem_inorder_node]
  constructor
  · rintro ⟨y, hy | rfl | hy, rfl⟩
    · exact ⟨y, hy, rfl⟩
    · exact absurd hlt (lt_irrefl _)
    · exact absurd hlt (h.2.1 y hy).not_gt
  · rintro ⟨y, hy, rfl⟩
    exact ⟨y, .inl hy, rfl⟩

theorem Ordered.mem_keys_right (h : (BinaryTree.node x l r).Ordered key) (hlt : key x < k) :
    k ∈ (BinaryTree.node x l r).inorder.map key ↔ k ∈ r.inorder.map key := by
  simp only [List.mem_map, mem_inorder_node]
  constructor
  · rintro ⟨y, hy | rfl | hy, rfl⟩
    · exact absurd hlt (h.1 y hy).not_gt
    · exact absurd hlt (lt_irrefl _)
    · exact ⟨y, hy, rfl⟩
  · rintro ⟨y, hy, rfl⟩
    exact ⟨y, .inr (.inr hy), rfl⟩

theorem Ordered.sorted (h : t.Ordered key) : (t.inorder.map key).Pairwise (· ≤ ·) := by
  induction t with
  | nil => exact .nil
  | node x l r ihl ihr =>
    obtain ⟨hl, hr, hol, hor⟩ := h
    rw [inorder, List.map_append, List.map_cons]
    refine List.pairwise_append.mpr ⟨ihl hol, List.pairwise_cons.mpr ⟨?_, ihr hor⟩, ?_⟩
    · rintro _ hk
      obtain ⟨y, hy, rfl⟩ := List.mem_map.mp hk
      exact hr y hy
    · rintro _ hk _ hj
      obtain ⟨y, hy, rfl⟩ := List.mem_map.mp hk
      rcases List.mem_cons.mp hj with rfl | hj
      · exact (hl y hy).le
      · obtain ⟨y', hy', rfl⟩ := List.mem_map.mp hj
        exact (hl y hy).le.trans (hr y' hy')

theorem mem_of_mem_prune (hy : y ∈ (t.prune p).inorder) : y ∈ t.inorder ∧ p y = false := by
  have hmem := prune_sublist.subset hy
  simpa using hmem

theorem Ordered.prune (h : t.Ordered key) : (t.prune p).Ordered key := by
  induction t with
  | nil => trivial
  | node x l r ihl ihr =>
    obtain ⟨hl, hr, hol, hor⟩ := h
    rw [BinaryTree.prune]
    split
    · trivial
    · exact ⟨fun y hy => hl y (mem_of_mem_prune hy).1, fun y hy => hr y (mem_of_mem_prune hy).1,
        ihl hol, ihr hor⟩

theorem mem_hang {n : α} : y ∈ (t.hang key k n).inorder ↔ y = n ∨ y ∈ t.inorder := by
  induction t with
  | nil => simp
  | node x l r ihl ihr =>
    rw [hang]
    split
    · simp only [mem_inorder_node, ihl]
      tauto
    · simp only [mem_inorder_node, ihr]
      tauto

theorem nodup_hang {n : α} (h : t.inorder.Nodup) (hn : n ∉ t.inorder) :
    (t.hang key k n).inorder.Nodup := by
  induction t with
  | nil => simp
  | node x l r ihl ihr =>
    obtain ⟨hl, hr, hxl, hxr, hdisj⟩ := nodup_node h
    rw [mem_inorder_node, not_or, not_or] at hn
    obtain ⟨hnl, hnx, hnr⟩ := hn
    rw [hang]
    split
    · refine List.nodup_append.mpr ⟨ihl hl hnl, List.nodup_cons.mpr ⟨hxr, hr⟩, ?_⟩
      rintro y hy _ hy' rfl
      rcases mem_hang.mp hy with rfl | hy <;> rcases List.mem_cons.mp hy' with rfl | hy'
      · exact hnx rfl
      · exact hnr hy'
      · exact hxl hy
      · exact hdisj y hy hy'
    · refine List.nodup_append.mpr ⟨hl, List.nodup_cons.mpr ⟨?_, ihr hr hnr⟩, ?_⟩
      · rw [mem_hang, not_or]
        exact ⟨Ne.symm hnx, hxr⟩
      · rintro y hy _ hy' rfl
        rcases List.mem_cons.mp hy' with rfl | hy'
        · exact hxl hy
        · rcases mem_hang.mp hy' with rfl | hy'
          · exact hnl hy
          · exact hdisj y hy hy'

theorem hang_congr {n : α} (heq : ∀ x ∈ t.inorder, key' x = key x) :
    t.hang key' k n = t.hang key k n := by
  induction t with
  | nil => rfl
  | node x l r ihl ihr =>
    have hx : key' x = key x := heq x (by simp)
    rw [hang, hang, hx, ihl fun y hy => heq y (by simp [hy]), ihr fun y hy => heq y (by simp [hy])]

/-- The new leaf is in order. -/
theorem Ordered.hang {n : α} (h : t.Ordered key) (hn : key n = k) : (t.hang key k n).Ordered key := by
  induction t with
  | nil => simp [Ordered]
  | node x l r ihl ihr =>
    obtain ⟨hl, hr, hol, hor⟩ := h
    rw [BinaryTree.hang]
    split
    · next hlt =>
      refine ⟨fun y hy => ?_, hr, ihl hol, hor⟩
      rcases mem_hang.mp hy with rfl | hy
      · rwa [hn]
      · exact hl y hy
    · next hge =>
      refine ⟨hl, fun y hy => ?_, hol, ihr hor⟩
      rcases mem_hang.mp hy with rfl | hy
      · rw [hn]
        exact not_lt.mp hge
      · exact hr y hy

-- ---------------------------------------------------------------------------
-- The successor
-- ---------------------------------------------------------------------------

theorem leftmost_mem (h : t.leftmost = some s) : s ∈ t.inorder := by
  induction t with
  | nil => cases h
  | node x l r ihl _ =>
    rw [leftmost] at h
    cases hl : l.leftmost with
    | none =>
      rw [hl] at h
      cases h
      simp
    | some s' =>
      rw [hl] at h
      cases h
      simp [ihl hl]

theorem leftmost_isSome (h : t.inorder ≠ []) : ∃ s, t.leftmost = some s := by
  cases t with
  | nil => exact absurd rfl h
  | node x l r =>
    rw [leftmost]
    cases l.leftmost with
    | none => exact ⟨x, rfl⟩
    | some s => exact ⟨s, rfl⟩

theorem leftmost_none (h : t.leftmost = none) : t = .nil := by
  cases t with
  | nil => rfl
  | node x l r =>
    rw [leftmost] at h
    cases hl : l.leftmost <;> rw [hl] at h <;> cases h

theorem leftmost_le (ho : t.Ordered key) (h : t.leftmost = some s) (hy : y ∈ t.inorder) :
    key s ≤ key y := by
  induction t with
  | nil => cases hy
  | node x l r ihl _ =>
    obtain ⟨hkl, hkr, hol, _⟩ := ho
    rw [leftmost] at h
    cases hl : l.leftmost with
    | none =>
      rw [hl] at h
      cases h
      rw [leftmost_none hl] at hy
      rcases mem_inorder_node.mp hy with hy | rfl | hy
      · cases hy
      · exact le_rfl
      · exact hkr y hy
    | some s' =>
      rw [hl] at h
      cases h
      have hsx : key s < key x := hkl s (leftmost_mem hl)
      rcases mem_inorder_node.mp hy with hy | rfl | hy
      · exact ihl hol hl hy
      · exact hsx.le
      · exact hsx.le.trans (hkr y hy)

theorem Succ.mem (h : Succ z s t) : z ∈ t.inorder ∧ s ∈ t.inorder := by
  induction h with
  | here h => exact ⟨by simp, by simp [leftmost_mem h]⟩
  | left _ ih => exact ⟨by simp [ih.1], by simp [ih.2]⟩
  | right _ ih => exact ⟨by simp [ih.1], by simp [ih.2]⟩

theorem Succ.ne (h : Succ z s t) (hnd : t.inorder.Nodup) : s ≠ z := by
  induction h with
  | here h =>
    rintro rfl
    exact (nodup_node hnd).2.2.2.1 (leftmost_mem h)
  | left _ ih => exact ih (nodup_node hnd).1
  | right _ ih => exact ih (nodup_node hnd).2.1

/-- When the successor has been cut off, its key can take the place of that of the node. -/
theorem Ordered.promote [DecidableEq α] (ho : t.Ordered key) (hnd : t.inorder.Nodup)
    (h : Succ z s t) (hz : key' z = key s) (hkey : ∀ y, y ≠ z → key' y = key y) :
    (t.prune (· = s)).Ordered key' := by
  induction h with
  | @here l r h =>
    obtain ⟨hl, hr, hol, hor⟩ := ho
    obtain ⟨_, _, hzl, hzr, _⟩ := nodup_node hnd
    have hs := leftmost_mem h
    have hsz : z ≠ s := fun heq => hzr (heq ▸ hs)
    have hkl : ∀ y ∈ l.inorder, key' y = key y := fun y hy => hkey y fun heq => hzl (heq ▸ hy)
    have hkr : ∀ y ∈ r.inorder, key' y = key y := fun y hy => hkey y fun heq => hzr (heq ▸ hy)
    rw [prune_node (by simpa using hsz)]
    refine ⟨fun y hy => ?_, fun y hy => ?_, (hol.congr hkl).prune, (hor.congr hkr).prune⟩
    · have hy := (mem_of_mem_prune hy).1
      rw [hkl y hy, hz]
      exact (hl y hy).trans_le (hr s hs)
    · have hy := (mem_of_mem_prune hy).1
      rw [hkr y hy, hz]
      exact leftmost_le hor h hy
  | @left x l r h ih =>
    obtain ⟨hl, hr, hol, hor⟩ := ho
    obtain ⟨hndl, _, hxl, _, hdisj⟩ := nodup_node hnd
    have hxs : x ≠ s := fun heq => hxl (heq ▸ h.mem.2)
    have hx : key' x = key x := hkey x fun heq => hxl (heq ▸ h.mem.1)
    have hkr : ∀ y ∈ r.inorder, key' y = key y := fun y hy =>
      hkey y fun heq => hdisj z h.mem.1 (heq ▸ hy)
    rw [prune_node (by simpa using hxs)]
    refine ⟨fun y hy => ?_, fun y hy => ?_, ih hol hndl, (hor.congr hkr).prune⟩
    · have hy := (mem_of_mem_prune hy).1
      rw [hx]
      by_cases hyz : y = z
      · rw [hyz, hz]
        exact hl s h.mem.2
      · rw [hkey y hyz]
        exact hl y hy
    · have hy := (mem_of_mem_prune hy).1
      rw [hx, hkr y hy]
      exact hr y hy
  | @right x l r h ih =>
    obtain ⟨hl, hr, hol, hor⟩ := ho
    obtain ⟨_, hndr, _, hxr, hdisj⟩ := nodup_node hnd
    have hxs : x ≠ s := fun heq => hxr (heq ▸ h.mem.2)
    have hx : key' x = key x := hkey x fun heq => hxr (heq ▸ h.mem.1)
    have hkl : ∀ y ∈ l.inorder, key' y = key y := fun y hy =>
      hkey y fun heq => hdisj y hy (heq ▸ h.mem.1)
    rw [prune_node (by simpa using hxs)]
    refine ⟨fun y hy => ?_, fun y hy => ?_, (hol.congr hkl).prune, ih hor hndr⟩
    · have hy := (mem_of_mem_prune hy).1
      rw [hx, hkl y hy]
      exact hl y hy
    · have hy := (mem_of_mem_prune hy).1
      rw [hx]
      by_cases hyz : y = z
      · rw [hyz, hz]
        exact hr s h.mem.2
      · rw [hkey y hyz]
        exact hr y hy

end BinaryTree
