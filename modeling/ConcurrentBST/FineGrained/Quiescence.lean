-- SUMMARY: When no call is in progress, the memory is a search tree with parent pointers and free locks.
import ConcurrentBST.Library.Unfolding
import ConcurrentBST.FineGrained.Linearization

/-!
# Quiescent states

A call that returns holds nothing. So when no call is in progress every node is
as the abstract tree has it, and what has been allocated is in the tree.
-/

namespace FineGrained

open Threads

abbrev State := Lang.State Tid Act Act.Ret Fn Call Result Mem

abbrev Explains (s : State) (g : Ghost) : Prop := logic.Explains lang s g

variable {s : State} {g : Ghost} {m : Mem} {t : Tid} {x c : Addr} {d : Bool}

namespace Mem

def key (m : Mem) (x : Addr) : Int := (m.node x).value

def childPtr (m : Mem) (x : Addr) (d : Bool) : Option Addr := ptr ((m.node x).child d)

/-- The nodes are those of a search tree that hangs from `g_root` and has the
    keys of `S`. No lock is held, and no other node is allocated. -/
structure Represents (m : Mem) (S : Set Int) (tree : BinaryTree Addr) : Prop where
  unfolds : Unfolds m.childPtr (ptr m.gRoot) tree
  sorted : (tree.inorder.map m.key).Pairwise (· < ·)
  keys : ∀ k, k ∈ tree.inorder.map m.key ↔ k ∈ S
  root : ∀ x ∈ tree.inorder, (m.node x).parent = 0 ↔ x = m.gRoot
  parent : ∀ x ∈ tree.inorder, ∀ d c, m.childPtr x d = some c → (m.node c).parent = x
  unlocked : m.lock treeLock = none ∧ ∀ x ∈ tree.inorder, m.lock x = none
  allocated : ∀ x, m.allocated x = true ↔ x ∈ tree.inorder

end Mem

/-- Nothing is held when no call is in progress. -/
theorem Explains.unlocked (h : Explains s g) (hidle : ∀ t, s.thread t = .idle)
    (hx : s.mem.live x) : s.mem.lock x = none := by
  cases hl : s.mem.lock x with
  | none => rfl
  | some t =>
    have ht := h.thread t
    rw [hidle t] at ht
    have hat : At t .idle [] .empty ⟨s.mem, g⟩ := ht
    simpa using (hat.mine x).mp ⟨hl, hx⟩

theorem Explains.record (h : Explains s g) (hidle : ∀ t, s.thread t = .idle)
    (hx : x ∈ g.tree.nodes) : g.Record x (s.mem.view x) :=
  h.inv.record x hx (h.unlocked hidle (h.inv.live x hx))

theorem Explains.allocated_iff (h : Explains s g) (hidle : ∀ t, s.thread t = .idle) :
    s.mem.allocated x = true ↔ x ∈ g.tree.nodes ∧ x ≠ treeLock := by
  constructor
  · intro hx
    refine ⟨?_, ?_⟩
    · by_contra hout
      obtain ⟨t, ht⟩ := h.inv.known x hx hout
      have hfree : s.mem.lock x = none := h.unlocked hidle (.inr hx)
      exact absurd (ht.symm.trans hfree) (by simp)
    · rintro rfl
      exact absurd (hx.symm.trans h.inv.null) (by simp)
  · rintro ⟨hx, hne⟩
    exact (h.inv.live x hx).resolve_left hne

/-- The memory represents the abstract set. -/
theorem Explains.represents (h : Explains s g) (hidle : ∀ t, s.thread t = .idle) :
    ∃ tree, s.mem.Represents g.keys tree := by
  have ht := h.inv.tree
  obtain ⟨tree, hspan⟩ := ht.fits.exists_spans_child ht.lawful ht.finite ht.top_mem true
  have hnode : ∀ {x}, x ∈ tree.inorder ↔ x ∈ g.tree.nodes ∧ x ≠ treeLock := by
    intro x
    rw [hspan.mem]
    refine and_congr_right fun hx => ⟨fun hb heq => ht.top_first (heq ▸ hb), ht.top_above hx⟩
  have hrec : ∀ {x}, x ∈ tree.inorder → g.Record x (s.mem.node x) := by
    intro x hx
    obtain ⟨hmem, hne⟩ := hnode.mp hx
    exact view_of_ne (m := s.mem) hne ▸ h.record hidle hmem
  have hslot : ∀ {x}, x ∈ tree.inorder → ∀ d, s.mem.childPtr x d = g.slot x d := fun hx d =>
    ((hrec hx).slot d).symm
  have hroot : g.slot treeLock true = ptr s.mem.gRoot := (h.record hidle ht.top_mem).slot true
  have hkey : ∀ {x}, x ∈ tree.inorder → s.mem.key x = g.key x := fun hx =>
    ((hrec hx).key (hnode.mp hx).2).symm
  refine ⟨tree, hroot ▸ hspan.unfolds.congr fun x hx d => hslot hx d, ?_, fun k => ?_,
    fun x hx => ?_, fun x hx d c hc => ?_, ⟨h.unlocked hidle (.inl rfl), fun x hx => ?_⟩,
    fun x => (h.allocated_iff hidle).trans hnode.symm⟩
  · refine List.pairwise_map.mpr (hspan.ordered.imp_of_mem fun {x y} hx hy hb => ?_)
    rw [hkey hx, hkey hy]
    exact ht.sorted (hnode.mp hx).1 (hnode.mp hy).1 (hnode.mp hx).2 (hnode.mp hy).2 hb
  · rw [List.mem_map]
    constructor
    · rintro ⟨x, hx, rfl⟩
      exact ⟨x, (hnode.mp hx).1, (hnode.mp hx).2, (hkey hx).symm⟩
    · rintro ⟨x, hx, hne, rfl⟩
      exact ⟨x, hnode.mpr ⟨hx, hne⟩, hkey (hnode.mpr ⟨hx, hne⟩)⟩
  · obtain ⟨d, hd⟩ := (hrec hx).parent (hnode.mp hx).2
    constructor
    · intro h0
      rw [h0] at hd
      have hd' : d = true := by
        cases d with
        | true => rfl
        | false => exact absurd rfl (ht.ne_top_of_right (hnode.mp hx).1 (h.inv.below_of_slot hd))
      rw [hd', show g.slot 0 true = ptr s.mem.gRoot from hroot, ptr] at hd
      split at hd
      · cases hd
      · exact (Option.some.inj hd).symm
    · intro hx'
      have hgx : g.slot treeLock true = some x := by
        rw [hroot, ← hx']
        exact if_neg (hnode.mp hx).2
      exact (h.inv.child_inj hd hgx).1
  · rw [hslot hx] at hc
    have hcm := hnode.mpr ⟨h.inv.child_mem hc, h.inv.ne_of_child hc⟩
    obtain ⟨e, he⟩ := (hrec hcm).parent (hnode.mp hcm).2
    exact (h.inv.child_inj he hc).1
  · exact h.unlocked hidle (h.inv.live x (hnode.mp hx).1)

end FineGrained
