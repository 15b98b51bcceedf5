-- SUMMARY: The low contention trace builds a perfect tree, and the sequential one a list.
import ConcurrentBST.FineGrained.Insertion
import ConcurrentBST.Tracegen.WellFormed

/-!
# The loads of the traces

The fine-grained tree that is built by the inserts of a low contention trace has
all its levels full. The inserts of a sequential trace build a tree with one node on
each level. A key that is in the range of `int` is the value that is inserted.
-/

namespace Tracegen

open BinaryTree

variable {h : Nat}

/-- The keys of the insert lines. -/
def insertedKeys (lines : List Line) : List Int :=
  lines.filterMap fun line => if line.op = .insert then some line.key.toNat else none

@[simp] theorem insertedKeys_append {lines lines' : List Line} :
    insertedKeys (lines ++ lines') = insertedKeys lines ++ insertedKeys lines' :=
  List.filterMap_append

theorem insertedKeys_of_ne {op : Op} {keys : List UInt64} (hop : op ≠ .insert) :
    insertedKeys (linesOf op keys) = [] := by
  simp [insertedKeys, linesOf, hop]

theorem insertedKeys_inserts {is : List Nat} (his : ∀ i ∈ is, i < 2 ^ 64) :
    insertedKeys (linesOf .insert (is.map .ofNat)) = is.map Int.ofNat := by
  induction is with
  | nil => rfl
  | cons i is ih =>
    have hi : (UInt64.ofNat i).toNat = i := UInt64.toNat_ofNat_of_lt' (his i (.head _))
    have hrest := ih fun j hj => his j (.tail _ hj)
    simp only [insertedKeys, linesOf, List.map_cons, List.filterMap_cons, if_true, hi] at hrest ⊢
    rw [hrest]
    rfl

/-- What `generate_trace_file` writes for low contention. -/
theorem writes_lowContention {n : UInt64} (hn : 2 ^ (h + 1) ≤ n.toNat)
    (hn' : n.toNat < 2 ^ (h + 1 + 1)) (numDeletes numSearches : UInt64) :
    ∃ lines, Writes n numDeletes numSearches .lowContention lines ∧
      insertedKeys lines = (lcAll h n.toNat).map Int.ofNat := by
  obtain ⟨searched, deleted, _, _, _, hrun⟩ := lowContention_eq hn hn' numDeletes numSearches
  refine ⟨_, ⟨_, fun more =>
    hrun _ (Nat.lt_of_lt_of_le (Nat.lt_succ_self _) (Nat.le_add_right _ more))⟩, ?_⟩
  have hsearches : insertedKeys (linesOf .search searched) = [] := insertedKeys_of_ne (by decide)
  have hdeletes : insertedKeys (linesOf .delete deleted) = [] := insertedKeys_of_ne (by decide)
  rw [insertedKeys_append, insertedKeys_append, hsearches, hdeletes, List.append_nil, List.append_nil]
  exact insertedKeys_inserts fun i hi => (lcAll_bounds hn hi).2.trans n.toNat_lt

/-- For two or more inserts, a low contention trace inserts distinct keys between 1 and
    `n - 1`, and a thread that inserts them in the order of the file builds a perfect
    tree, without coming upon a key that is there. -/
theorem lc_load_balanced {n : UInt64} (hn : 2 ≤ n) (numDeletes numSearches : UInt64) :
    ∃ lines, Writes n numDeletes numSearches .lowContention lines ∧
      (insertedKeys lines).Nodup ∧
      (∀ k ∈ insertedKeys lines, 1 ≤ k ∧ k ≤ (n.toNat : Int) - 1) ∧
      ∃ T : BinaryTree Int, T.Perfect (Nat.log2 n.toNat) ∧ T.numNodes = 2 ^ Nat.log2 n.toNat - 1 ∧
        ∀ {steps : Nat} (e : FineGrained.system.Exec steps) (t : FineGrained.Tid),
          FineGrained.InsertsInOrder e t (insertedKeys lines) →
            FineGrained.BuildsTree e t (insertedKeys lines) T := by
  obtain ⟨h, hlow, hhigh⟩ := exists_level (UInt64.le_iff_toNat_le.mp hn)
  obtain ⟨lines, hwrites, hkeys⟩ := writes_lowContention hlow hhigh numDeletes numSearches
  have hlog : Nat.log2 n.toNat = h + 1 := (Nat.log2_eq_iff (by omega)).mpr ⟨hlow, hhigh⟩
  have hinsert : insertKeys (insertedKeys lines) .nil =
      some ((lcTree h (n.toNat / 2) (n.toNat / 2)).map Int.ofNat) := by
    have hcast : insertKeys ((lcAll h n.toNat).map Int.ofNat) .nil =
        (insertKeys (lcAll h n.toNat) .nil).map (·.map Int.ofNat) :=
      insertKeys_map (f := Int.ofNat) (t := .nil) fun a b => Int.ofNat_lt
    rw [hkeys, hcast, insertKeys_lcAll hlow]
    rfl
  have hperfect : ((lcTree h (n.toNat / 2) (n.toNat / 2)).map Int.ofNat).Perfect (h + 1) :=
    perfect_map.mpr lcTree_perfect
  refine ⟨lines, hwrites, (insertKeys_sorted .nil hinsert).1, fun k hk => ?_, _, hlog ▸ hperfect,
    hlog ▸ hperfect.numNodes_eq, fun e t h => h.builds hinsert⟩
  rw [hkeys, List.mem_map] at hk
  obtain ⟨i, hi, rfl⟩ := hk
  have hbounds := lcAll_bounds hlow hi
  rw [Int.ofNat_eq_natCast]
  omega

theorem lc_load_balanced_eight : ∃ lines, Writes 8 0 0 .lowContention lines ∧
    ∃ T : BinaryTree Int, T.Perfect 3 ∧ T.numNodes = 7 ∧
      ∀ {steps : Nat} (e : FineGrained.system.Exec steps) (t : FineGrained.Tid),
        FineGrained.InsertsInOrder e t (insertedKeys lines) →
          FineGrained.BuildsTree e t (insertedKeys lines) T := by
  obtain ⟨lines, hwrites, _, _, hbuilds⟩ := lc_load_balanced (n := 8) (by decide) 0 0
  exact ⟨lines, hwrites, hbuilds⟩

-- ---------------------------------------------------------------------------
-- Sequential traces
-- ---------------------------------------------------------------------------

theorem keysUpTo_zero (num : Nat) : keysUpTo 0 num = (List.range' 1 num).map .ofNat :=
  List.map_congr_left fun _ _ => UInt64.zero_add _

/-- What `generate_trace_file` writes for a sequential trace. -/
theorem writes_sequential {n d s : UInt64} (hn : n.toNat + 1 < 2 ^ 64) (hd : d.toNat + 1 < 2 ^ 64)
    (hs : s.toNat + 1 < 2 ^ 64) : ∃ lines, Writes n d s .sequential lines ∧
      insertedKeys lines = (List.range' 1 n.toNat).map Int.ofNat := by
  refine ⟨linesOf .insert (keysUpTo 0 n.toNat) ++ linesOf .search (keysUpTo 0 s.toNat) ++
    linesOf .delete (keysUpTo 0 d.toNat), ⟨n.toNat + s.toNat + d.toNat + 1, fun more => ?_⟩, ?_⟩
  · rw [generateTraceFile, countUp_one hn (by omega), countUp_one hs (by omega),
      countUp_one hd (by omega)]
    rfl
  · have hsearches : insertedKeys (linesOf .search (keysUpTo 0 s.toNat)) = [] :=
      insertedKeys_of_ne (by decide)
    have hdeletes : insertedKeys (linesOf .delete (keysUpTo 0 d.toNat)) = [] :=
      insertedKeys_of_ne (by decide)
    rw [insertedKeys_append, insertedKeys_append, hsearches, hdeletes, List.append_nil,
      List.append_nil, keysUpTo_zero]
    refine insertedKeys_inserts fun i hi => ?_
    have hi := List.mem_range'_1.mp hi
    omega

/-- A thread that inserts the keys of a sequential trace in the order of the file builds
    a list: the tree has one key on each of its `n` levels. -/
theorem sequential_load_degenerate {n d s : UInt64} (hn : n.toNat + 1 < 2 ^ 64)
    (hd : d.toNat + 1 < 2 ^ 64) (hs : s.toNat + 1 < 2 ^ 64) :
    ∃ lines, Writes n d s .sequential lines ∧ (chain (insertedKeys lines)).height = n.toNat ∧
      ∀ {steps : Nat} (e : FineGrained.system.Exec steps) (t : FineGrained.Tid),
        FineGrained.InsertsInOrder e t (insertedKeys lines) →
          FineGrained.BuildsTree e t (insertedKeys lines) (chain (insertedKeys lines)) := by
  obtain ⟨lines, hwrites, hkeys⟩ := writes_sequential hn hd hs
  have hsorted : (insertedKeys lines).Pairwise (· < ·) := by
    rw [hkeys, List.pairwise_map]
    exact (List.pairwise_lt_range' 1).imp Int.ofNat_lt.mpr
  refine ⟨lines, hwrites, ?_, fun e t h => h.builds (insertKeys_chain hsorted)⟩
  rw [height_chain, hkeys, List.length_map, List.length_range']

theorem sequential_load_degenerate_ten : ∃ lines, Writes 10 4 10 .sequential lines ∧
    (chain (insertedKeys lines)).height = 10 ∧
      ∀ {steps : Nat} (e : FineGrained.system.Exec steps) (t : FineGrained.Tid),
        FineGrained.InsertsInOrder e t (insertedKeys lines) →
          FineGrained.BuildsTree e t (insertedKeys lines) (chain (insertedKeys lines)) :=
  sequential_load_degenerate (by decide) (by decide) (by decide)

end Tracegen
