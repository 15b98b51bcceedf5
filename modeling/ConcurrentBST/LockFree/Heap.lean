-- SUMMARY: The tree and the retired list of a thread that is alone, and how its writes change them.
import ConcurrentBST.LockFree.Shape

/-!
# A thread alone with its memory

With hazard pointers an address may come back for a new node while null-flagged
pointers still carry it. What a thread can rely on when it is alone does not
speak about the past: there is a finite tree below `base_root`, and the retired
nodes are not in it.
-/

namespace LockFree

variable {op : Addr → Word} {child : Addr → Bool → Word} {cell cell' : Addr → Cell}
  {rlist : List Addr} {tree s : BinaryTree Addr} {x y c n a : Addr} {d e : Bool} {w : Word}

/-- Where a child field leads. -/
def target (w : Word) : Option Addr :=
  if isNull w then none else some w.addr

@[simp] theorem target_ptr : target (.ptr a) = some a := rfl

/-- The child field holds a pointer to a node or a null-flagged pointer. -/
def Plain (w : Word) : Prop := w.flag = .none ∨ w.flag = .mark

theorem Plain.target_eq (h : Plain w) : target w = some a ↔ w = .ptr a := by
  obtain ⟨b, f⟩ := w
  constructor
  · intro ht
    rcases h with rfl | rfl <;> cases ht
    rfl
  · rintro ⟨⟩
    rfl

/-- Child pointers lead from `base_root` to the nodes of a finite tree. Retired
    nodes are not among them, but still allocated. -/
structure Heap (child : Addr → Bool → Word) (cell : Addr → Cell) (rlist : List Addr)
    (tree : BinaryTree Addr) : Prop where
  unfolds : Unfolds (fun x d => target (child x d)) (some baseRoot) tree
  nodup : tree.inorder.Nodup
  plain : ∀ x ∈ tree.inorder, ∀ d, Plain (child x d)
  nodes : ∀ x ∈ tree.inorder, cell x = .node
  retired : ∀ a ∈ rlist, cell a = .node ∧ a ∉ tree.inorder
  once : rlist.Nodup

/-- A new node that is in nobody's hands yet. -/
structure Leaf (op : Addr → Word) (child : Addr → Bool → Word) (cell : Addr → Cell)
    (rlist : List Addr) (tree : BinaryTree Addr) (n : Addr) : Prop where
  node : cell n = .node
  notMem : n ∉ tree.inorder
  notRetired : n ∉ rlist
  unflagged : (op n).flag = .none
  empty : ∀ d, child n d = .null 0

/-- What `helpMarked` puts into the place of `c`. -/
def Replaces (child : Addr → Bool → Word) (c : Addr) (w : Word) : Prop :=
  w = .null c ∨ ∃ d, w = child c d

-- ---------------------------------------------------------------------------
-- Parents and children
-- ---------------------------------------------------------------------------

namespace Heap

theorem root_mem (h : Heap child cell rlist tree) : baseRoot ∈ tree.inorder :=
  h.unfolds.mem_inorder.mpr ⟨[], rfl⟩

/-- The path to a child is one longer than the path to its parent. -/
theorem path_child (h : Heap child cell rlist tree) (hx : x ∈ tree.inorder)
    (hc : child x d = .ptr c) : ∃ p, follow (fun x d => target (child x d)) (some baseRoot) p = some x ∧
      follow (fun x d => target (child x d)) (some baseRoot) (p ++ [d]) = some c := by
  obtain ⟨p, hp⟩ := h.unfolds.mem_inorder.mp hx
  refine ⟨p, hp, ?_⟩
  rw [follow_append, hp]
  exact congrArg target hc

theorem child_mem (h : Heap child cell rlist tree) (hx : x ∈ tree.inorder) (hc : child x d = .ptr c) :
    c ∈ tree.inorder := by
  obtain ⟨p, _, hp⟩ := h.path_child hx hc
  exact h.unfolds.mem_inorder.mpr ⟨_, hp⟩

theorem child_ne (h : Heap child cell rlist tree) (hx : x ∈ tree.inorder)
    (hc : child x d = .ptr c) : c ≠ x := by
  rintro rfl
  obtain ⟨p, hp, hp'⟩ := h.path_child hx hc
  simpa using h.unfolds.path_unique h.nodup hp' hp

/-- The two children of a node are different. -/
theorem side_unique (h : Heap child cell rlist tree) (hx : x ∈ tree.inorder)
    (hc : child x d = .ptr c) (hc' : child x e = .ptr c) : d = e := by
  obtain ⟨p, hp, hd⟩ := h.path_child hx hc
  obtain ⟨q, hq, he⟩ := h.path_child hx hc'
  obtain rfl := h.unfolds.path_unique h.nodup hp hq
  simpa using h.unfolds.path_unique h.nodup hd he

-- ---------------------------------------------------------------------------
-- Writes
-- ---------------------------------------------------------------------------

/-- Writes elsewhere, as long as nodes stay allocated. -/
theorem frame (h : Heap child cell rlist tree) {child' : Addr → Bool → Word}
    (hchild : ∀ x ∈ tree.inorder, ∀ d, child' x d = child x d)
    (hcell : ∀ x, cell x = .node → cell' x = .node) : Heap child' cell' rlist tree where
  unfolds := h.unfolds.congr fun x hx d => congrArg target (hchild x hx d)
  nodup := h.nodup
  plain := fun x hx d => hchild x hx d ▸ h.plain x hx d
  nodes := fun x hx => hcell x (h.nodes x hx)
  retired := fun a ha => ⟨hcell a (h.retired a ha).1, (h.retired a ha).2⟩
  once := h.once

/-- Line 393. -/
theorem delete (h : Heap child cell rlist tree) (ha : a ∈ rlist) :
    Heap child (Function.update cell a .deleted) (rlist.erase a) tree where
  unfolds := h.unfolds
  nodup := h.nodup
  plain := h.plain
  nodes := fun x hx => by
    have hne : x ≠ a := fun heq => (h.retired a ha).2 (heq ▸ hx)
    rw [Function.update_of_ne hne, h.nodes x hx]
  retired := fun b hb => by
    obtain ⟨hne, hb⟩ := h.once.mem_erase_iff.mp hb
    rw [Function.update_of_ne hne]
    exact h.retired b hb
  once := h.once.erase a

/-- Line 370. -/
theorem retire (h : Heap child cell rlist tree) (hcell : cell a = .node) (ha : a ∉ tree.inorder)
    (hnew : a ∉ rlist) : Heap child cell (rlist ++ [a]) tree where
  unfolds := h.unfolds
  nodup := h.nodup
  plain := h.plain
  nodes := h.nodes
  retired := fun b hb => by
    rcases List.mem_append.mp hb with hb | hb
    · exact h.retired b hb
    · rw [List.mem_singleton.mp hb]
      exact ⟨hcell, ha⟩
  once := by
    rw [← List.concat_eq_append]
    exact h.once.concat hnew

/-- What hangs from a slot of the tree. -/
theorem exists_slot (h : Heap child cell rlist tree) (hx : x ∈ tree.inorder) (d : Bool) :
    ∃ s, Unfolds (fun x d => target (child x d)) (target (child x d)) s ∧ x ∉ s.inorder ∧
      s.inorder.Sublist tree.inorder :=
  h.unfolds.exists_slot h.nodup hx d

/-- A write to a slot of the tree, when it is known what hangs from it before and after. -/
theorem setSlot (h : Heap child cell rlist tree) {child' : Addr → Bool → Word}
    {s' : BinaryTree Addr} (hx : x ∈ tree.inorder)
    (hs : Unfolds (fun x d => target (child x d)) (target (child x d)) s)
    (hs' : Unfolds (fun x d => target (child' x d)) (target (child' x d)) s')
    (hframe : ∀ y ∈ tree.inorder, ∀ e, ¬(y = x ∧ e = d) → child' y e = child y e)
    (hw : Plain (child' x d)) (hnd : s'.inorder.Nodup) (hxs' : x ∉ s'.inorder)
    (hin : ∀ y ∈ s'.inorder, y ∈ tree.inorder → y ∈ s.inorder)
    (hgood : ∀ y ∈ s'.inorder, cell y = .node ∧ y ∉ rlist ∧ ∀ d, Plain (child' y d)) :
    ∃ tree', Heap child' cell rlist tree' ∧ x ∈ tree'.inorder ∧
      ∀ y ∈ tree'.inorder, y ∈ s'.inorder ∨ y ∈ tree.inorder ∧ y ∉ s.inorder := by
  obtain ⟨tree', pre, post, htree', heq, heq'⟩ := h.unfolds.replace h.nodup hx hs hs'
    fun y hy e hne => congrArg target (hframe y hy e hne)
  have hxs : x ∉ s.inorder := by
    obtain ⟨s₁, hs₁, hxs₁, _⟩ := h.exists_slot hx d
    exact hs.unique hs₁ ▸ hxs₁
  have hndt := h.nodup
  rw [heq, List.nodup_append, List.nodup_append] at hndt
  obtain ⟨⟨hpre, hnds, hdpre⟩, hpost, hdpost⟩ := hndt
  have hmem' : ∀ {y}, y ∈ tree'.inorder → y ∈ s'.inorder ∨ y ∈ tree.inorder ∧ y ∉ s.inorder := by
    intro y hy
    simp only [heq', List.mem_append] at hy
    simp only [heq, List.mem_append]
    rcases hy with (hy | hy) | hy
    · exact .inr ⟨.inl (.inl hy), fun hys => hdpre y hy y hys rfl⟩
    · exact .inl hy
    · exact .inr ⟨.inr hy, fun hys => hdpost y (List.mem_append_right _ hys) y hy rfl⟩
  refine ⟨tree', ⟨htree', ?_, fun y hy e => ?_, fun y hy => ?_, fun a ha => ⟨(h.retired a ha).1, ?_⟩,
    h.once⟩, ?_, fun y => hmem'⟩
  · have hins : ∀ {y}, y ∈ s'.inorder → y ∈ pre ++ s.inorder ++ post → y ∈ s.inorder :=
      fun hy hyt => hin _ hy (heq ▸ hyt)
    simp only [List.mem_append] at hins hdpost
    rw [heq', List.nodup_append, List.nodup_append]
    refine ⟨⟨hpre, hnd, fun y hy z hz hyz => ?_⟩, hpost, fun y hy z hz hyz => ?_⟩
    · exact hdpre y hy y (hins (hyz ▸ hz) (.inl (.inl hy))) rfl
    · rcases List.mem_append.mp hy with hy | hy
      · exact hdpost y (.inl hy) z hz hyz
      · exact hdpost y (.inr (hins hy (.inr (hyz ▸ hz)))) z hz hyz
  · by_cases hxd : y = x ∧ e = d
    · obtain ⟨rfl, rfl⟩ := hxd
      exact hw
    · rcases hmem' hy with hy | ⟨hy, _⟩
      · exact (hgood y hy).2.2 e
      · exact hframe y hy e hxd ▸ h.plain y hy e
  · rcases hmem' hy with hy | ⟨hy, _⟩
    · exact (hgood y hy).1
    · exact h.nodes y hy
  · intro hmem
    rcases hmem' hmem with hmem | ⟨hmem, _⟩
    · exact (hgood a hmem).2.1 ha
    · exact (h.retired a ha).2 hmem
  · simp only [heq, List.mem_append] at hx
    simp only [heq', List.mem_append]
    rcases hx with (hx | hx) | hx
    · exact .inl (.inl hx)
    · exact absurd hx hxs
    · exact .inr hx

/-- The subtree below a pointer contains the node it points to. -/
theorem mem_of_ptr {s : BinaryTree Addr}
    (hs : Unfolds (fun x d => target (child x d)) (target (.ptr c)) s) : c ∈ s.inorder := by
  cases hs with
  | node => simp [BinaryTree.inorder]

/-- Line 365 of `add`: a new node is put into a slot. -/
theorem link (h : Heap child cell rlist tree) {child' : Addr → Bool → Word}
    (hn : Leaf op child cell rlist tree n) (hx : x ∈ tree.inorder) (hnew : child' x d = .ptr n)
    (hold : ∀ y e, ¬(y = x ∧ e = d) → child' y e = child y e) :
    ∃ tree', Heap child' cell rlist tree' ∧ x ∈ tree'.inorder ∧
      (∀ y ∈ tree'.inorder, y = n ∨ y ∈ tree.inorder) ∧
      ∀ c, child x d = .ptr c → c ∉ tree'.inorder := by
  obtain ⟨s, hs, _, _⟩ := h.exists_slot hx d
  have hne : n ≠ x := fun heq => hn.notMem (heq ▸ hx)
  have hempty : ∀ e, child' n e = .null 0 := fun e => by
    rw [hold n e fun heq => hne heq.1, hn.empty]
  have hs' : Unfolds (fun x d => target (child' x d)) (target (child' x d)) (.node n .nil .nil) := by
    have hnil : ∀ e, Unfolds (fun x d => target (child' x d)) (target (child' n e)) .nil := fun e =>
      hempty e ▸ .nil
    rw [hnew]
    exact .node (hnil true) (hnil false)
  have hleaf : ∀ {y}, y ∈ (BinaryTree.node n .nil .nil).inorder ↔ y = n := by
    simp [BinaryTree.inorder]
  obtain ⟨tree', htree', hx', hmem⟩ := h.setSlot hx hs hs' (fun y _ => hold y)
    (hnew ▸ .inl rfl) (by simp [BinaryTree.inorder]) (fun hmem => hne (hleaf.mp hmem).symm)
    (fun y hy hyt => absurd (hleaf.mp hy ▸ hyt) hn.notMem) fun y hy => by
      rw [hleaf.mp hy]
      exact ⟨hn.node, hn.notRetired, fun e => hempty e ▸ .inr rfl⟩
  refine ⟨tree', htree', hx', fun y hy => (hmem y hy).imp hleaf.mp And.left, fun c hc hmem' => ?_⟩
  rcases hmem c hmem' with hcn | ⟨_, hcs⟩
  · exact hn.notMem (hleaf.mp hcn ▸ h.child_mem hx hc)
  · rw [hc] at hs
    exact hcs (mem_of_ptr hs)

/-- Line 365 for a marked node: it is taken out of the tree. -/
theorem unlink (h : Heap child cell rlist tree) {child' : Addr → Bool → Word}
    (hx : x ∈ tree.inorder) (hc : child x d = .ptr c) (hnew : Replaces child c (child' x d))
    (hold : ∀ y e, ¬(y = x ∧ e = d) → child' y e = child y e) :
    ∃ tree', Heap child' cell rlist tree' ∧ x ∈ tree'.inorder ∧
      (∀ y ∈ tree'.inorder, y ∈ tree.inorder) ∧ c ∉ tree'.inorder := by
  obtain ⟨s, hs, hxs, hsub⟩ := h.exists_slot hx d
  rw [hc] at hs
  have hcs := mem_of_ptr hs
  have hnds := hsub.nodup h.nodup
  -- What remains of the subtree below `c`.
  obtain ⟨s', hs', hsub', hcs'⟩ : ∃ s',
      Unfolds (fun x d => target (child x d)) (target (child' x d)) s' ∧
      s'.inorder.Sublist s.inorder ∧ c ∉ s'.inorder := by
    rcases hnew with hnew | ⟨e, hnew⟩
    · exact ⟨.nil, hnew ▸ .nil, List.nil_sublist _, List.not_mem_nil⟩
    · obtain ⟨s', hs', hcs', hsub'⟩ := hs.exists_slot hnds hcs e
      exact ⟨s', hnew ▸ hs', hsub', hcs'⟩
  have hstay : Unfolds (fun x d => target (child' x d)) (target (child' x d)) s' :=
    hs'.congr fun y hy e => congrArg target (hold y e fun heq => hxs (hsub'.subset (heq.1 ▸ hy)))
  have hplain : Plain (child' x d) := by
    rcases hnew with hnew | ⟨e, hnew⟩
    · exact hnew ▸ .inr rfl
    · exact hnew ▸ h.plain c (h.child_mem hx hc) e
  have hin : ∀ y ∈ s'.inorder, y ∈ tree.inorder := fun y hy => hsub.subset (hsub'.subset hy)
  obtain ⟨tree', htree', hx', hmem⟩ := h.setSlot hx (hc ▸ hs) hstay (fun y _ => hold y) hplain
    (hsub'.nodup hnds) (fun hmem => hxs (hsub'.subset hmem)) (fun y hy _ => hsub'.subset hy)
    fun y hy => ⟨h.nodes y (hin y hy), fun hr => (h.retired y hr).2 (hin y hy), fun e => by
      rw [hold y e fun heq => hxs (hsub'.subset (heq.1 ▸ hy))]
      exact h.plain y (hin y hy) e⟩
  refine ⟨tree', htree', hx', fun y hy => (hmem y hy).elim (hin y) And.left, fun hmem' => ?_⟩
  rcases hmem c hmem' with hcn | ⟨_, hcn⟩
  · exact hcs' hcn
  · exact hcn hcs

end Heap

end LockFree
