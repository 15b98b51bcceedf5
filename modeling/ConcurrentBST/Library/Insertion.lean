-- SUMMARY: Insertion of keys into a search tree without balancing, and perfect trees.
import ConcurrentBST.Library.Unfolding
import Mathlib.Order.Defs.LinearOrder

/-!
# Insertion

A key goes to the empty place where the search for it ends. Inserting a list of
keys into an empty tree puts every key below those before it, so the shape of the
tree depends on the order of the keys.
-/

universe u v w

variable {α : Type u} {κ : Type v} {k v : κ} {ks : List κ} {t t' l l' r r' : BinaryTree κ} {h : Nat}

namespace BinaryTree

/-- All `h` levels of the tree are full. -/
inductive Perfect : Nat → BinaryTree α → Prop where
  | nil : Perfect 0 .nil
  | node {x : α} {h : Nat} {l r : BinaryTree α} : Perfect h l → Perfect h r →
      Perfect (h + 1) (.node x l r)

theorem Perfect.numNodes_eq {t : BinaryTree α} (ht : t.Perfect h) : t.numNodes = 2 ^ h - 1 := by
  induction ht with
  | nil => rfl
  | node _ _ ihl ihr =>
    have hpos : 0 < 2 ^ _ := Nat.two_pow_pos ‹Nat›
    rw [BinaryTree.numNodes, ihl, ihr, Nat.pow_succ]
    omega

theorem perfect_map {t : BinaryTree α} {f : α → κ} : (t.map f).Perfect h ↔ t.Perfect h := by
  induction t generalizing h with
  | nil =>
    constructor <;> intro ht <;> cases ht <;> exact .nil
  | node x l r ihl ihr =>
    constructor
    · intro ht
      cases ht with
      | node hl hr => exact .node (ihl.mp hl) (ihr.mp hr)
    · intro ht
      cases ht with
      | node hl hr => exact .node (ihl.mpr hl) (ihr.mpr hr)

theorem inorder_map {t : BinaryTree α} {f : α → κ} :
    (t.map f).inorder = t.inorder.map f := by
  induction t with
  | nil => rfl
  | node x l r ihl ihr => simp only [BinaryTree.map, inorder, ihl, ihr, List.map_append, List.map_cons]

theorem map_congr {t : BinaryTree α} {f g : α → κ} (h : ∀ x ∈ t.inorder, f x = g x) :
    t.map f = t.map g := by
  induction t with
  | nil => rfl
  | node x l r ihl ihr =>
    have hx : f x = g x := h x (by simp [inorder])
    rw [BinaryTree.map, BinaryTree.map, hx, ihl fun y hy => h y (by simp [inorder, hy]),
      ihr fun y hy => h y (by simp [inorder, hy])]

/-- Each key is the right child of the one before. -/
def chain : List κ → BinaryTree κ
  | [] => .nil
  | k :: ks => .node k .nil (chain ks)

theorem height_chain : (chain ks).height = ks.length := by
  induction ks with
  | nil => rfl
  | cons k ks ih => rw [chain, height, ih, height, Nat.zero_max, List.length_cons]

section Insert

variable [LinearOrder κ]

/-- Insert a key that is not there. -/
def insertKey (k : κ) : BinaryTree κ → Option (BinaryTree κ)
  | .nil => some (.node k .nil .nil)
  | .node v l r =>
      if k < v then (insertKey k l).map fun l => .node v l r
      else if v < k then (insertKey k r).map fun r => .node v l r
      else none

/-- Insert keys, the first one first. -/
def insertKeys : List κ → BinaryTree κ → Option (BinaryTree κ)
  | [], t => some t
  | k :: ks, t => (insertKey k t).bind (insertKeys ks)

attribute [local simp] insertKeys in
theorem insertKeys_append {ks' : List κ} :
    insertKeys (ks ++ ks') t = (insertKeys ks t).bind (insertKeys ks') := by
  induction ks generalizing t with
  | nil => rfl
  | cons k ks ih => simp [Option.bind_assoc, ih]

theorem insertKey_of_lt (hk : k < v) :
    insertKey k (.node v l r) = (insertKey k l).map fun l => .node v l r := if_pos hk

attribute [local simp] insertKey in
theorem insertKey_of_gt (hk : v < k) :
    insertKey k (.node v l r) = (insertKey k r).map fun r => .node v l r := by
  simp [hk, lt_asymm hk]

/-- Smaller keys go to the left subtree. -/
theorem insertKeys_left (hks : ∀ k ∈ ks, k < v) (h : insertKeys ks l = some l') :
    insertKeys ks (.node v l r) = some (.node v l' r) := by
  induction ks generalizing l with
  | nil =>
    cases h
    rfl
  | cons k ks ih =>
    obtain ⟨l₁, h₁, hrest⟩ := Option.bind_eq_some_iff.mp h
    rw [insertKeys, insertKey_of_lt (hks k (.head _)), h₁]
    exact ih (fun j hj => hks j (.tail _ hj)) hrest

/-- Greater keys go to the right subtree. -/
theorem insertKeys_right (hks : ∀ k ∈ ks, v < k) (h : insertKeys ks r = some r') :
    insertKeys ks (.node v l r) = some (.node v l r') := by
  induction ks generalizing r with
  | nil =>
    cases h
    rfl
  | cons k ks ih =>
    obtain ⟨r₁, h₁, hrest⟩ := Option.bind_eq_some_iff.mp h
    rw [insertKeys, insertKey_of_gt (hks k (.head _)), h₁]
    exact ih (fun j hj => hks j (.tail _ hj)) hrest

/-- Keys that come in ascending order make a list. -/
theorem insertKeys_chain (hks : ks.Pairwise (· < ·)) : insertKeys ks .nil = some (chain ks) := by
  induction ks with
  | nil => rfl
  | cons k ks ih =>
    obtain ⟨hk, hks⟩ := List.pairwise_cons.mp hks
    exact insertKeys_right hk (ih hks)

theorem mem_insertKey (h : insertKey k t = some t') {j : κ} :
    j ∈ t'.inorder ↔ j = k ∨ j ∈ t.inorder := by
  induction t generalizing t' with
  | nil =>
    cases h
    simp [inorder]
  | node v l r ihl ihr =>
    unfold insertKey at h
    split at h
    · obtain ⟨l', hl', rfl⟩ := Option.map_eq_some_iff.mp h
      simp only [inorder, List.mem_append, List.mem_cons, ihl hl']
      tauto
    split at h
    · obtain ⟨r', hr', rfl⟩ := Option.map_eq_some_iff.mp h
      simp only [inorder, List.mem_append, List.mem_cons, ihr hr']
      tauto
    · cases h

theorem mem_insertKeys (h : insertKeys ks t = some t') {j : κ} :
    j ∈ t'.inorder ↔ j ∈ ks ∨ j ∈ t.inorder := by
  induction ks generalizing t with
  | nil =>
    cases h
    simp
  | cons k ks ih =>
    obtain ⟨t₁, h₁, hrest⟩ := Option.bind_eq_some_iff.mp h
    rw [ih hrest, mem_insertKey h₁, List.mem_cons]
    tauto

/-- A key that is not there is inserted. -/
theorem exists_insertKey (hk : k ∉ t.inorder) : ∃ t', insertKey k t = some t' := by
  induction t with
  | nil => exact ⟨_, rfl⟩
  | node v l r ihl ihr =>
    rw [inorder, List.mem_append, List.mem_cons, not_or, not_or] at hk
    obtain ⟨hkl, hkv, hkr⟩ := hk
    rcases lt_or_gt_of_ne hkv with hlt | hgt
    · obtain ⟨l', hl'⟩ := ihl hkl
      exact ⟨_, by rw [insertKey_of_lt hlt, hl']; rfl⟩
    · obtain ⟨r', hr'⟩ := ihr hkr
      exact ⟨_, by rw [insertKey_of_gt hgt, hr']; rfl⟩

/-- A key that is there is not inserted. -/
theorem insertKey_sorted (hsorted : t.inorder.Pairwise (· < ·)) (h : insertKey k t = some t') :
    k ∉ t.inorder ∧ t'.inorder.Pairwise (· < ·) := by
  induction t generalizing t' with
  | nil =>
    cases h
    simp [inorder]
  | node v l r ihl ihr =>
    obtain ⟨hl, hr, hlr⟩ := List.pairwise_append.mp hsorted
    obtain ⟨hvr, hr⟩ := List.pairwise_cons.mp hr
    have hlv : ∀ j ∈ l.inorder, j < v := fun j hj => hlr j hj v (.head _)
    unfold insertKey at h
    split at h
    · next hkv =>
      obtain ⟨l', hl', rfl⟩ := Option.map_eq_some_iff.mp h
      obtain ⟨hkl, hsl⟩ := ihl hl hl'
      have hkr : k ∉ r.inorder := fun hmem => lt_asymm hkv (hvr k hmem)
      refine ⟨by simp [inorder, hkl, hkr, hkv.ne], List.pairwise_append.mpr ⟨hsl, ?_, ?_⟩⟩
      · exact List.pairwise_cons.mpr ⟨hvr, hr⟩
      · intro j hj i hi
        have hjv : j < v := by
          rcases (mem_insertKey hl').mp hj with rfl | hj
          · exact hkv
          · exact hlv j hj
        rcases List.mem_cons.mp hi with rfl | hi
        · exact hjv
        · exact hjv.trans (hvr i hi)
    split at h
    · next hvk =>
      obtain ⟨r', hr', rfl⟩ := Option.map_eq_some_iff.mp h
      obtain ⟨hkr, hsr⟩ := ihr hr hr'
      have hkl : k ∉ l.inorder := fun hmem => lt_asymm hvk (hlv k hmem)
      have hvr' : ∀ j ∈ r'.inorder, v < j := by
        intro j hj
        rcases (mem_insertKey hr').mp hj with rfl | hj
        · exact hvk
        · exact hvr j hj
      refine ⟨by simp [inorder, hkl, hkr, hvk.ne'], List.pairwise_append.mpr ⟨hl, ?_, ?_⟩⟩
      · exact List.pairwise_cons.mpr ⟨hvr', hsr⟩
      · intro j hj i hi
        rcases List.mem_cons.mp hi with rfl | hi
        · exact hlv j hj
        · exact (hlv j hj).trans (hvr' i hi)
    · cases h

/-- Keys that can be inserted are distinct, and none of them was there. -/
theorem insertKeys_sorted (hsorted : t.inorder.Pairwise (· < ·)) (h : insertKeys ks t = some t') :
    ks.Nodup ∧ (∀ k ∈ ks, k ∉ t.inorder) ∧ t'.inorder.Pairwise (· < ·) := by
  induction ks generalizing t with
  | nil =>
    cases h
    exact ⟨.nil, by simp, hsorted⟩
  | cons k ks ih =>
    obtain ⟨t₁, h₁, hrest⟩ := Option.bind_eq_some_iff.mp h
    obtain ⟨hk, hsorted₁⟩ := insertKey_sorted hsorted h₁
    obtain ⟨hnd, hnot, hsorted'⟩ := ih hsorted₁ hrest
    have hout : ∀ j ∈ ks, ¬ (j = k ∨ j ∈ t.inorder) := fun j hj hmem =>
      hnot j hj ((mem_insertKey h₁).mpr hmem)
    refine ⟨List.nodup_cons.mpr ⟨fun hmem => hout k hmem (.inl rfl), hnd⟩, fun j hj => ?_, hsorted'⟩
    rcases List.mem_cons.mp hj with rfl | hj
    · exact hk
    · exact fun hmem => hout j hj (.inr hmem)

/-- Distinct keys that are not there are inserted. -/
theorem exists_insertKeys (hsorted : t.inorder.Pairwise (· < ·)) (hnd : ks.Nodup)
    (hnew : ∀ k ∈ ks, k ∉ t.inorder) : ∃ t', insertKeys ks t = some t' := by
  induction ks generalizing t with
  | nil => exact ⟨t, rfl⟩
  | cons k ks ih =>
    obtain ⟨hk, hnd⟩ := List.nodup_cons.mp hnd
    obtain ⟨t₁, h₁⟩ := exists_insertKey (hnew k (.head _))
    obtain ⟨t', ht'⟩ := ih (insertKey_sorted hsorted h₁).2 hnd fun j hj hmem => by
      rcases (mem_insertKey h₁).mp hmem with rfl | hmem
      · exact hk hj
      · exact hnew j (.tail _ hj) hmem
    exact ⟨t', by rw [insertKeys, h₁]; exact ht'⟩

/-- Insertion looks at the order of the keys only. -/
theorem insertKey_map {ι : Type w} [LinearOrder ι] {f : κ → ι} (hf : ∀ a b, f a < f b ↔ a < b) :
    insertKey (f k) (t.map f) = (insertKey k t).map (·.map f) := by
  induction t with
  | nil => rfl
  | node v l r ihl ihr =>
    simp only [BinaryTree.map, insertKey, hf, ihl, ihr]
    split
    · simp [BinaryTree.map, Function.comp_def]
    split
    · simp [BinaryTree.map, Function.comp_def]
    · rfl

theorem insertKeys_map {ι : Type w} [LinearOrder ι] {f : κ → ι} (hf : ∀ a b, f a < f b ↔ a < b) :
    insertKeys (ks.map f) (t.map f) = (insertKeys ks t).map (·.map f) := by
  induction ks generalizing t with
  | nil => rfl
  | cons k ks ih =>
    rw [List.map_cons, insertKeys, insertKeys, insertKey_map hf, Option.bind_map, Option.map_bind]
    congr 1
    funext t'
    exact ih

/-- A leaf of a search tree is where its key goes when it is inserted last. -/
theorem insertKey_prune [DecidableEq α] {child : α → Bool → Option α} {c : Option α}
    {t : BinaryTree α} {n : α} {key : α → κ} (ht : Unfolds child c t)
    (hsorted : (t.inorder.map key).Pairwise (· < ·)) (hleaf : ∀ d, child n d = none)
    (hn : n ∈ t.inorder) :
    insertKey (key n) ((t.prune (· = n)).map key) = some (t.map key) := by
  induction ht with
  | nil => cases hn
  | @node x l r hl hr ihl ihr =>
    rw [inorder, List.map_append, List.map_cons] at hsorted
    obtain ⟨hsl, hsr, hlr⟩ := List.pairwise_append.mp hsorted
    obtain ⟨hxr, hsr⟩ := List.pairwise_cons.mp hsr
    have hkl : ∀ y ∈ l.inorder, key y < key x := fun y hy =>
      hlr _ (List.mem_map_of_mem hy) _ (.head _)
    have hkr : ∀ y ∈ r.inorder, key x < key y := fun y hy => hxr _ (List.mem_map_of_mem hy)
    -- A subtree without `n` stays as it is.
    have hstay : ∀ {s : BinaryTree α}, n ∉ s.inorder → s.prune (· = n) = s := fun hns =>
      prune_eq_self fun y hy => decide_eq_false fun heq => hns (heq ▸ hy)
    by_cases hxn : x = n
    · subst hxn
      rw [hleaf true] at hl
      rw [hleaf false] at hr
      cases hl
      cases hr
      simp [prune, BinaryTree.map, insertKey]
    have hprune : (BinaryTree.node x l r).prune (· = n) =
        .node x (l.prune (· = n)) (r.prune (· = n)) := if_neg (by simpa using hxn)
    rw [hprune, BinaryTree.map]
    rcases List.mem_append.mp hn with hnl | hnr
    · have hnr : n ∉ r.inorder := fun hmem => lt_asymm (hkl n hnl) (hkr n hmem)
      rw [insertKey_of_lt (hkl n hnl), ihl hsl hnl, hstay hnr]
      rfl
    · replace hnr := (List.mem_cons.mp hnr).resolve_left (Ne.symm hxn)
      have hnl : n ∉ l.inorder := fun hmem => lt_asymm (hkl n hmem) (hkr n hnr)
      rw [insertKey_of_gt (hkr n hnr), ihr hsr hnr, hstay hnl]
      rfl

end Insert

end BinaryTree
