-- SUMMARY: Which keys of the lock-free tree populate_tree_values_LF collects when no call is running.
import ConcurrentBST.Harness.Verdict
import ConcurrentBST.LockFree.Quiescence

/-!
# Collecting the keys of the lock-free tree

`remove` returns when the node is marked, even if the CAS of `helpMarked` has
failed. The node is linked then until a later call meets it, and a child may
hang from it. `populate_tree_values_LF` turns back at such a node.
-/

namespace Harness

open LockFree (Addr Mem Ghost MemInv Config Careful baseRoot)

variable {cfg : Config} {m : Mem} {g : Ghost} {n i : Nat}

/-- `populate_tree_values_LF(base_root)` comes to an end, and pushes the key of
    `base_root` and then the keys of the unmarked nodes in increasing order. -/
def CollectsUnmarked (m : Mem) : Prop :=
  ∃ values, (∃ n, ∀ fuel, n < fuel →
      populateTreeValuesLF m fuel (.ptr baseRoot) [] = some (m.key baseRoot :: values)) ∧
    values.Pairwise (· < ·) ∧
    ∀ k, k ∈ values ↔ ∃ x, m.reaches x ∧ x ≠ baseRoot ∧ ¬ m.marked x ∧ m.key x = k

/-- Only marked nodes hang from a marked node. -/
def MarkedBelowMarked (m : Mem) : Prop :=
  ∀ x y d, m.reaches x → m.marked x → Leads m.childPtr (m.childPtr x d) y → m.marked y

/-- The tree below `base_root` when no record is installed. -/
structure Quiet (m : Mem) (tree : BinaryTree Addr) : Prop where
  unfolds : Unfolds m.childPtr (m.childPtr baseRoot false) tree
  nodup : tree.inorder.Nodup
  mem : ∀ {x}, x ∈ tree.inorder ↔ m.reaches x ∧ x ≠ baseRoot
  rootLeft : m.childPtr baseRoot true = none
  rootUnmarked : ¬ m.marked baseRoot
  sorted : ((tree.inorder.filter fun x => !(LockFree.getFlag (m.op x) == .mark)).map m.key).Pairwise
    (· < ·)

theorem exists_quiet (h : MemInv cfg m g)
    (hflag : ∀ x, (m.op x).flag = .none ∨ (m.op x).flag = .mark) : ∃ tree, Quiet m tree := by
  obtain ⟨tree, htree⟩ := h.searchTree
  obtain ⟨tree', hspans⟩ := h.fits.exists_spans_child h.lawful h.finite h.root false
  obtain rfl := htree.unfolds.unique hspans.unfolds
  have hlive : ∀ x, m.live x = !(LockFree.getFlag (m.op x) == .mark) := fun x => by
    rcases hflag x with hf | hf <;> simp [LockFree.Mem.live, hf]
  refine ⟨tree, htree.unfolds, hspans.nodup h.lawful, fun {x} => ?_, h.root_left, h.root_unmarked, ?_⟩
  · rw [h.reaches_iff, hspans.mem]
    refine and_congr_right fun hx => ⟨?_, h.right_of_root hx⟩
    rintro hb rfl
    exact h.lawful.irrefl hb
  · rw [← funext hlive]
    exact htree.strict

theorem Quiet.marked_iff {tree : BinaryTree Addr} (h : Quiet m tree) :
    MarkedBelowMarked m ↔ ∀ y ∈ tree.inorder, ¬ m.marked y →
      y ∈ (tree.prune fun x => LockFree.getFlag (m.op x) == .mark).inorder := by
  constructor
  · intro hbelow y hy hmark
    refine (h.unfolds.mem_prune h.nodup).mpr ⟨hy, beq_eq_false_iff_ne.mpr hmark,
      fun x hx hxmark d hd => ?_⟩
    exact hmark (hbelow x y d (h.mem.mp hx).1 (beq_iff_eq.mp hxmark) hd)
  · intro hkept x y d hx hxmark hd
    by_contra hmark
    have hxroot : x ≠ baseRoot := by
      rintro rfl
      exact h.rootUnmarked hxmark
    have hx := h.mem.mpr ⟨hx, hxroot⟩
    have hy : y ∈ tree.inorder := by
      obtain ⟨p, hp⟩ := h.unfolds.mem_inorder.mp hx
      obtain ⟨q, hq⟩ := hd
      refine h.unfolds.mem_inorder.mpr ⟨p ++ d :: q, ?_⟩
      rw [follow_append, hp]
      exact hq
    have hpruned := (h.unfolds.mem_prune h.nodup).mp (hkept y hy hmark)
    exact hpruned.2.2 x hx (beq_iff_eq.mpr hxmark) d hd

/-- What is pushed are the keys that are not below a mark. No two unmarked nodes
    have the same key, so a key is missing if a node is. -/
theorem Quiet.collects_iff {tree : BinaryTree Addr} (h : Quiet m tree) :
    CollectsUnmarked m ↔ MarkedBelowMarked m := by
  have hvalues : ∀ fuel, tree.numNodes + 1 < fuel →
      populateTreeValuesLF m fuel (.ptr baseRoot) [] = some (m.key baseRoot ::
        (tree.prune fun x => LockFree.getFlag (m.op x) == .mark).inorder.map m.key) := fun fuel =>
    populateTreeValuesLF_baseRoot h.unfolds h.rootLeft h.rootUnmarked
  have hsub : (tree.prune fun x => LockFree.getFlag (m.op x) == .mark).inorder.Sublist
      (tree.inorder.filter fun x => !(LockFree.getFlag (m.op x) == .mark)) := BinaryTree.prune_sublist
  rw [h.marked_iff]
  constructor
  · rintro ⟨values, ⟨n, hn⟩, -, hkeys⟩ y hy hmark
    have hfuel := hn (n + tree.numNodes + 2) (by omega)
    rw [hvalues _ (by omega)] at hfuel
    obtain rfl := (List.cons.inj (Option.some.inj hfuel)).2
    obtain ⟨hreach, hne⟩ := h.mem.mp hy
    obtain ⟨x, hx, hkey⟩ := List.mem_map.mp ((hkeys (m.key y)).mpr ⟨y, hreach, hne, hmark, rfl⟩)
    have hy' : y ∈ tree.inorder.filter fun x => !(LockFree.getFlag (m.op x) == .mark) :=
      List.mem_filter.mpr ⟨hy, bne_iff_ne.mpr hmark⟩
    have hinj := List.inj_on_of_nodup_map (h.sorted.imp fun hlt => hlt.ne)
    exact hinj (hsub.mem hx) hy' hkey ▸ hx
  · intro hkept
    refine ⟨_, ⟨_, hvalues⟩, h.sorted.sublist (hsub.map _), fun k => ?_⟩
    rw [List.mem_map]
    constructor
    · rintro ⟨x, hx, hkey⟩
      obtain ⟨hx, hmark⟩ := List.mem_filter.mp (hsub.mem hx)
      obtain ⟨hreach, hne⟩ := h.mem.mp hx
      exact ⟨x, hreach, hne, bne_iff_ne.mp hmark, hkey⟩
    · rintro ⟨x, hreach, hne, hmark, hkey⟩
      exact ⟨x, hkept x (h.mem.mpr ⟨hreach, hne⟩) hmark, hkey⟩

/-- No key is lost between two calls if and only if nothing unmarked hangs from a
    marked node. -/
theorem collects_unmarked (hcfg : cfg.hazardPointers = false) (e : (LockFree.system cfg).Exec n)
    (hok : ∀ j < n, Careful cfg (e.state j) (e.label j)) (hi : i ≤ n)
    (hidle : ∀ t, (e.state i).thread t = .idle) :
    CollectsUnmarked (e.state i).mem ↔ MarkedBelowMarked (e.state i).mem := by
  obtain ⟨H⟩ := LockFree.exists_history hcfg e hok
  obtain ⟨tree, htree⟩ := exists_quiet (H.mem hi) fun x => H.flag_of_idle hi hidle
  exact htree.collects_iff

-- ---------------------------------------------------------------------------
-- A key that is lost
-- ---------------------------------------------------------------------------

/-- Thread 1 removes 5, but thread 0 adds 15 before the CAS of line 438, and the
    node with the key 3 hangs from the one that was removed. -/
def runOfLeftover : (LockFree.system .plain).Exec 82 :=
  .ofLabels (0, .respond) (LockFree.soloCall 0 (.add 10) 2 11 ++ LockFree.soloCall 0 (.add 5) 13 14 ++
    LockFree.soloCall 0 (.add 3) 27 17 ++ (1, .invoke (.remove 5)) :: LockFree.accesses 1 100 15 ++
    LockFree.soloCall 0 (.add 15) 200 14 ++ LockFree.accesses 1 300 1 ++ [(1, .respond)])
    (by decide +kernel)

theorem idle_leftover (t : LockFree.Tid) : (runOfLeftover.state 82).thread t = .idle := by
  have hlabel : ∀ j < 82, (runOfLeftover.label j).1 < 2 := by decide +kernel
  have htwo : ∀ t < 2, (runOfLeftover.state 82).thread t = .idle := by decide +kernel
  by_cases ht : t < 2
  · exact htwo t ht
  · exact LockFree.idle_of_labels runOfLeftover le_rfl fun j hj heq => ht (heq ▸ hlabel j hj)

theorem not_markedBelowMarked : ¬ MarkedBelowMarked (runOfLeftover.state 82).mem := by
  intro h
  have hreach : (runOfLeftover.state 82).mem.reaches 20 := ⟨[false, true], by decide +kernel⟩
  have hbelow : Leads (runOfLeftover.state 82).mem.childPtr
      ((runOfLeftover.state 82).mem.childPtr 20 true) 37 := ⟨[], by decide +kernel⟩
  have hflag : ((runOfLeftover.state 82).mem.op 20).flag = .mark ∧
      ((runOfLeftover.state 82).mem.op 37).flag = .none := by decide +kernel
  cases hflag.2.symm.trans (h 20 37 true hreach hflag.1 hbelow)

theorem collects_unmarked_leftover : CollectsUnmarked (runOfLeftover.state 82).mem ↔
    MarkedBelowMarked (runOfLeftover.state 82).mem :=
  collects_unmarked rfl runOfLeftover (fun _ _ => LockFree.careful_of_fresh rfl) le_rfl idle_leftover

theorem not_collects_unmarked : ¬ ∀ (n : Nat) (e : (LockFree.system .plain).Exec n),
    (∀ t, (e.state n).thread t = .idle) → CollectsUnmarked (e.state n).mem := by
  intro h
  obtain ⟨H⟩ := LockFree.exists_history rfl runOfLeftover fun _ _ => LockFree.careful_of_fresh rfl
  obtain ⟨tree, htree⟩ := exists_quiet (H.mem le_rfl) fun x => H.flag_of_idle le_rfl idle_leftover
  exact not_markedBelowMarked (htree.collects_iff.mp (h _ runOfLeftover idle_leftover))

end Harness
