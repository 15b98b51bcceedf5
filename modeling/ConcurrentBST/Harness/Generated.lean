-- SUMMARY: Tests whose files have been written by the trace generator.
import ConcurrentBST.Harness.Files
import ConcurrentBST.Harness.Passes
import ConcurrentBST.Tracegen.WellFormed

/-!
# Generated tests

The two programs of the repository together: `tracegen` writes one file with the
inserts and one with the searches and deletes, and the harness builds the tree from
the first file and hands the lines of the second one to its workers.
-/

namespace Tracegen

variable {n d s : UInt64} {type : TraceType} {lines : List Line} {keys searched deleted : List UInt64}
  {k : UInt64} {h : Nat}

-- ---------------------------------------------------------------------------
-- The files
-- ---------------------------------------------------------------------------

/-- A file with the inserts of `keys`, and a file with searches and deletes. -/
structure TwoFiles (n d s : UInt64) (type : TraceType) (keys searched deleted : List UInt64) :
    Prop where
  create : Writes n 0 0 type (linesOf .insert keys)
  trace : Writes 0 d s type (linesOf .search searched ++ linesOf .delete deleted)
  nodup : keys.Nodup
  nodup_deleted : deleted.Nodup
  mem_deleted : ∀ k ∈ deleted, k ∈ keys
  le : ∀ k ∈ keys, k.toNat ≤ n.toNat
  le_searched : ∀ k ∈ searched, k.toNat ≤ s.toNat
  length_searched : searched.length ≤ s.toNat
  length_deleted : deleted.length ≤ d.toNat

theorem length_keysUpTo (offset : UInt64) (num : Nat) : (keysUpTo offset num).length = num := by
  simp [keysUpTo]

/-- Words that are different and below a bound are not more than the bound says. -/
theorem length_le_of_bounded {m : Nat} (hnd : keys.Nodup)
    (hbound : ∀ k ∈ keys, 1 ≤ k.toNat ∧ k.toNat < m) : keys.length ≤ m := by
  have hnd' : (keys.map UInt64.toNat).Nodup := hnd.map fun _ _ => UInt64.toNat_inj.mp
  have hsub : (keys.map UInt64.toNat).toFinset ⊆ Finset.range m := by
    intro i hi
    obtain ⟨k, hk, rfl⟩ := List.mem_map.mp (List.mem_toFinset.mp hi)
    exact Finset.mem_range.mpr (hbound k hk).2
  have hcard := Finset.card_le_card hsub
  rwa [List.toFinset_card_of_nodup hnd', List.length_map, Finset.card_range] at hcard

theorem twoFiles_sequential (hn : n.toNat + 1 < 2 ^ 64) (hs : s.toNat + 1 < 2 ^ 64) (hd : d ≤ n) :
    TwoFiles n d s .sequential (keysUpTo 0 n.toNat) (keysUpTo 0 s.toNat) (keysUpTo 0 d.toNat) := by
  rw [UInt64.le_iff_toNat_le] at hd
  have h0 : (0 : UInt64).toNat + 1 < 2 ^ 64 := by decide
  refine ⟨⟨n.toNat + 1, fun more => ?_⟩, ⟨s.toNat + d.toNat + 1, fun more => ?_⟩,
    nodup_keysUpTo n.toNat_lt, nodup_keysUpTo d.toNat_lt, fun k hk => ?_, fun k hk => ?_,
    fun k hk => ?_, (length_keysUpTo ..).le, (length_keysUpTo ..).le⟩
  · rw [generateTraceFile, countUp_one hn (by omega), countUp_one h0 (by simp), countUp_one h0 (by simp)]
    simp [keysUpTo, linesOf]
  · rw [generateTraceFile, countUp_one h0 (by simp), countUp_one hs (by omega),
      countUp_one (by omega) (by omega)]
    simp [keysUpTo, linesOf]
  · rw [mem_keysUpTo d.toNat_lt] at hk
    exact (mem_keysUpTo n.toNat_lt).mpr ⟨hk.1, hk.2.trans hd⟩
  · exact ((mem_keysUpTo n.toNat_lt).mp hk).2
  · exact ((mem_keysUpTo s.toNat_lt).mp hk).2

theorem lcInserts_zero (fuel : Nat) : lcInserts fuel 0 = some [] := rfl

theorem lcOthers_zero (op : Op) (fuel : Nat) : lcOthers op fuel 0 = some [] := rfl

/-- The searches and deletes of a low contention trace, in a file of their own. -/
theorem twoFiles_lowContention (s : UInt64) (fuel : Nat)
    (hkeys : ∀ more, lcInserts (fuel + more) n = some (linesOf .insert keys)) (hnd : keys.Nodup)
    (hle : ∀ k ∈ keys, k.toNat ≤ n.toNat)
    (hcovers : ∀ k : UInt64, 1 ≤ k.toNat → k.toNat < d.toNat → k ∈ keys) :
    ∃ searched deleted, TwoFiles n d s .lowContention keys searched deleted := by
  obtain ⟨searched, hsnd, hsearched, hsearch⟩ := lcOthers_eq s
  obtain ⟨deleted, hdnd, hdeleted, hdelete⟩ := lcOthers_eq d
  refine ⟨searched, deleted, ⟨fuel, fun more => ?_⟩, ⟨s.toNat + d.toNat + 1, fun more => ?_⟩, hnd,
    hdnd, fun k hk => ?_, hle, fun k hk => ((hsearched k).mp hk).2.le,
    length_le_of_bounded hsnd fun k hk => (hsearched k).mp hk,
    length_le_of_bounded hdnd fun k hk => (hdeleted k).mp hk⟩
  · rw [generateTraceFile, hkeys, lcOthers_zero, lcOthers_zero]
    simp
  · rw [generateTraceFile, lcInserts_zero, hsearch _ _ (by omega), hdelete _ _ (by omega)]
    rfl
  · obtain ⟨hlow, hhigh⟩ := (hdeleted k).mp hk
    exact hcovers k hlow hhigh

/-- The generator writes two such files if a trace with both would be well formed. -/
theorem exists_twoFiles (htype : type ≠ .mixed) (hd : d ≤ n) (hfits : Fits n d 0 type)
    (hs : s.toNat + 1 < 2 ^ 64) :
    ∃ keys searched deleted, TwoFiles n d s type keys searched deleted := by
  cases type with
  | sequential =>
    have hfits : n.toNat < 2 ^ 64 - 1 := hfits
    exact ⟨_, _, _, twoFiles_sequential (by omega) hs hd⟩
  | lowContention =>
    by_cases h0 : n = 0
    · subst h0
      obtain rfl : d = 0 := UInt64.toNat_inj.mp (Nat.le_zero.mp (UInt64.le_iff_toNat_le.mp hd))
      have hnone : ∀ k : UInt64, 1 ≤ k.toNat → k.toNat < (0 : UInt64).toNat → k ∈ ([] : List UInt64) :=
        fun k _ hk => absurd hk (Nat.not_lt_zero _)
      obtain ⟨searched, deleted, hfiles⟩ := twoFiles_lowContention s 0
        (fun more => lcInserts_zero _) .nil (by simp) hnone
      exact ⟨_, _, _, hfiles⟩
    · have hzero : (0 : UInt64) ≤ n := UInt64.zero_le ..
      have hwf := (lowContention_iff hzero hd).mpr hfits
      have h2 : 2 ≤ n.toNat := (hfits.resolve_left h0).1
      obtain ⟨h, hn, hn'⟩ := exists_level h2
      have hcovers := ((lowContention_covers hn hn').mp hwf).2
      have hbounds : ∀ i ∈ lcAll h n.toNat, i < 2 ^ 64 := fun i hi =>
        (lcAll_bounds hn hi).2.trans n.toNat_lt
      obtain ⟨searched, deleted, hfiles⟩ := twoFiles_lowContention s (h + 1)
        (fun more => lcInserts_eq hn hn' (by omega)) (nodup_map_ofNat hbounds (lcAll_nodup hn))
        (fun k hk => (lcAll_bounds hn ((mem_map_ofNat hbounds).mp hk)).2.le)
        fun k h1 hk => (mem_map_ofNat hbounds).mpr (hcovers _ h1 hk)
      exact ⟨_, _, _, hfiles⟩
  | mixed => exact absurd rfl htype

end Tracegen

namespace Harness

open Tracegen (Line Writes TraceType Fits TwoFiles linesOf fileText)

variable {n d s : UInt64} {type : TraceType} {createLines testLines : List Line}
  {keys searched deleted : List UInt64} {performFGTest : Bool} {createFile testFile : List Text}
  {created : List Int} {ops : List (OperationType × Int)} {l : Loaded} {workers : Nat} {k : Int}

-- ---------------------------------------------------------------------------
-- Reading the files
-- ---------------------------------------------------------------------------

/-- The keys of the lines. -/
def keysOf (lines : List Line) : List Int :=
  lines.map fun line => (operation line).2

/-- The lines of the first file insert the key, and those of the second one do not delete it. -/
def Left (createLines testLines : List Line) (k : Int) : Prop :=
  (.insert, k) ∈ createLines.map operation ∧ (.delete, k) ∉ testLines.map operation

/-- Both files are read to their ends if every deleted key has been created. -/
theorem exists_loaded (performFGTest : Bool) (hcreate : List.Forall₂ NamesKey createFile created)
    (htrace : List.Forall₂ IsLine testFile ops) (hnd : created.Nodup)
    (hle : ∀ k, ops.count (.delete, k) ≤ created.count k) :
    ∃ l, initHarness performFGTest 1 createFile testFile = .ok l := by
  have hread := readCreate performFGTest hcreate
  rw [if_neg (by simp [hnd])] at hread
  obtain ⟨tree, htree⟩ := hread
  rcases readTrace (l := { Loaded.empty with tree := tree, treeValuesCorrectness := created }) htrace
    with ⟨l, hl, -⟩ | ⟨-, k, hk⟩
  · refine ⟨l, ?_⟩
    rw [initHarness, htree]
    exact hl
  · exact absurd (hle k) (Nat.not_le.mpr hk)

theorem mem_operation_linesOf {op : Tracegen.Op} {change : OperationType × Int} :
    change ∈ (linesOf op keys).map operation ↔
      change.1 = operationType op ∧ ∃ key ∈ keys, change.2 = key.toNat := by
  obtain ⟨type, k⟩ := change
  simp only [linesOf, List.map_map, List.mem_map, Function.comp_apply, operation, Prod.mk.injEq]
  constructor
  · rintro ⟨key, hkey, rfl, rfl⟩
    exact ⟨rfl, key, hkey, rfl⟩
  · rintro ⟨rfl, key, hkey, rfl⟩
    exact ⟨key, hkey, rfl, rfl⟩

theorem nodup_operation {op : Tracegen.Op} (hnd : keys.Nodup) :
    ((linesOf op keys).map operation).Nodup := by
  rw [linesOf, List.map_map]
  refine hnd.map fun a b heq => ?_
  have heq : (a.toNat : Int) = b.toNat := congrArg Prod.snd heq
  exact UInt64.toNat_inj.mp (Int.natCast_inj.mp heq)

theorem keysOf_linesOf {op : Tracegen.Op} :
    keysOf (linesOf op keys) = keys.map fun key => (key.toNat : Int) := by
  simp [keysOf, linesOf, operation]

/-- The second file inserts nothing. -/
theorem not_insert (searched deleted : List UInt64) (k : Int) :
    (.insert, k) ∉ (linesOf .search searched ++ linesOf .delete deleted).map operation := by
  rw [List.map_append, List.mem_append, mem_operation_linesOf, mem_operation_linesOf]
  rintro (⟨htype, -⟩ | ⟨htype, -⟩) <;> cases htype

namespace TwoFiles

variable (h : TwoFiles n d s type keys searched deleted)

include h

theorem nodup_keysOf : (keysOf (linesOf .insert keys)).Nodup := by
  rw [keysOf_linesOf]
  exact h.nodup.map fun a b heq => UInt64.toNat_inj.mp (Int.natCast_inj.mp heq)

/-- Every deleted key has been created, and it is deleted once. -/
theorem count_delete_le (k : Int) :
    ((linesOf .search searched ++ linesOf .delete deleted).map operation).count (.delete, k) ≤
      (keysOf (linesOf .insert keys)).count k := by
  have hsearch : ((linesOf .search searched).map operation).count (.delete, k) = 0 := by
    rw [List.count_eq_zero, mem_operation_linesOf]
    rintro ⟨htype, -⟩
    cases htype
  rw [List.map_append, List.count_append, hsearch, Nat.zero_add]
  by_cases hmem : (.delete, k) ∈ (linesOf .delete deleted).map operation
  · refine (List.nodup_iff_count_le_one.mp (nodup_operation h.nodup_deleted) _).trans ?_
    obtain ⟨-, key, hkey, rfl⟩ := mem_operation_linesOf.mp hmem
    rw [Nat.one_le_iff_ne_zero, ← Nat.pos_iff_ne_zero, List.count_pos_iff, keysOf_linesOf]
    exact List.mem_map_of_mem (f := fun key : UInt64 => (key.toNat : Int)) (h.mem_deleted key hkey)
  · rw [List.count_eq_zero.mpr hmem]
    exact Nat.zero_le _

/-- The harness reads both files to their ends, and expects the keys that are left. -/
theorem loads (performFGTest : Bool) (hn : (n.toNat : Int) ≤ intMax) (hs : (s.toNat : Int) ≤ intMax) :
    ∃ l, initHarness performFGTest 1 (getLines (fileText (linesOf .insert keys)))
        (getLines (fileText (linesOf .search searched ++ linesOf .delete deleted))) = .ok l ∧
      Reads performFGTest (keysOf (linesOf .insert keys))
        ((linesOf .search searched ++ linesOf .delete deleted).map operation) l ∧
      ∀ k, k ∈ l.treeValuesCorrectness ↔
        Left (linesOf .insert keys) (linesOf .search searched ++ linesOf .delete deleted) k := by
  have hcreated : ∀ line ∈ linesOf .insert keys, InRange line := by
    intro line hline
    obtain ⟨key, hkey, rfl⟩ := List.mem_map.mp hline
    have hle := h.le key hkey
    unfold InRange
    dsimp only
    omega
  have htested : ∀ line ∈ linesOf .search searched ++ linesOf .delete deleted, InRange line := by
    intro line hline
    unfold InRange
    rcases List.mem_append.mp hline with hline | hline
    · obtain ⟨key, hkey, rfl⟩ := List.mem_map.mp hline
      have hle := h.le_searched key hkey
      dsimp only
      omega
    · obtain ⟨key, hkey, rfl⟩ := List.mem_map.mp hline
      have hle := h.le key (h.mem_deleted key hkey)
      dsimp only
      omega
  have hcreate : List.Forall₂ NamesKey ((linesOf .insert keys).map Line.text)
      (keysOf (linesOf .insert keys)) := by
    rw [keysOf, List.forall₂_map_right_iff]
    refine (List.forall₂_map_right_iff.mp (forall₂_isLine.mpr ⟨hcreated, rfl⟩)).imp ?_
    exact fun str line hline => hline.key
  have htrace : List.Forall₂ IsLine
      ((linesOf .search searched ++ linesOf .delete deleted).map Line.text) _ :=
    forall₂_isLine.mpr ⟨htested, rfl⟩
  obtain ⟨l, hload⟩ := exists_loaded performFGTest hcreate htrace (nodup_keysOf h) (count_delete_le h)
  have hreads := reads_of_initHarness hcreate htrace hload
  rw [getLines_fileText, getLines_fileText]
  refine ⟨l, hload, hreads, fun k => ?_⟩
  have hexpected := hreads.expected k
  have honce := List.nodup_iff_count_le_one.mp (nodup_keysOf h) k
  have hinsert : (.insert, k) ∈ (linesOf .insert keys).map operation ↔
      k ∈ keysOf (linesOf .insert keys) := by
    rw [mem_operation_linesOf, keysOf_linesOf, List.mem_map]
    simp [operationType, eq_comm]
  rw [Left, hinsert, ← List.count_pos_iff, ← List.count_pos_iff, ← List.count_eq_zero]
  omega

/-- The queue has room for the lines of the second file. -/
theorem exists_fill (hsum : (d.toNat + s.toNat : Int) ≤ intMax)
    (hworks : l.works =
      ((linesOf .search searched ++ linesOf .delete deleted).map operation).map workOf) :
    ∃ q, WorkQueue.fill l.works = some q := by
  refine ⟨_, WorkQueue.fill_eq ?_⟩
  have hsearched := h.length_searched
  have hdeleted := h.length_deleted
  rw [hworks]
  simp only [List.length_map, List.length_append, linesOf]
  omega

end TwoFiles

-- ---------------------------------------------------------------------------
-- The tests
-- ---------------------------------------------------------------------------

/-- The counts for which the two files fit together, each key and the length of the
    queue being an `int`. -/
structure Suits (n d s : UInt64) (type : TraceType) : Prop where
  separate : type ≠ .mixed
  le : d ≤ n
  fits : Fits n d 0 type
  inserts : (n.toNat : Int) ≤ intMax
  others : (d.toNat + s.toNat : Int) ≤ intMax

theorem Suits.exists_twoFiles (h : Suits n d s type) :
    ∃ keys searched deleted, TwoFiles n d s type keys searched deleted := by
  refine Tracegen.exists_twoFiles h.separate h.le h.fits ?_
  have := h.others
  unfold intMax at this
  omega

/-- A test of the fine-grained tree with files of the generator comes to its end, the
    check returns, and it collects the keys that are left, however the workers interleave. -/
theorem generated_passes_FG (h : Suits n d s type) (hw : 0 < workers) (hw' : workers ≤ 2 ^ 31) :
    ∃ createLines testLines l q, Writes n 0 0 type createLines ∧ Writes 0 d s type testLines ∧
      initHarness true 1 (getLines (fileText createLines)) (getLines (fileText testLines)) = .ok l ∧
      WorkQueue.fill l.works = some q ∧ IsEmpty (testFG (keysOf createLines) q workers).Run ∧
      ∀ p, (testFG (keysOf createLines) q workers).Reachable p →
        (p.2.Finished ∨ ∃ a p', (testFG (keysOf createLines) q workers).next p a = some p') ∧
        (p.2.Finished → Passes (checkValidFGTree p.1.mem ⟨1, l.treeValuesCorrectness⟩) ∧
          ∃ values, (∃ m, ∀ fuel, m < fuel →
            populateTreeValuesFG p.1.mem fuel p.1.mem.gRoot [] = some values) ∧
            values.Pairwise (· < ·) ∧ ∀ k, k ∈ values ↔ Left createLines testLines k) := by
  obtain ⟨keys, searched, deleted, hfiles⟩ := h.exists_twoFiles
  have hothers := h.others
  obtain ⟨l, hload, hreads, hleft⟩ := TwoFiles.loads hfiles true h.inserts (by omega)
  obtain ⟨q, hq⟩ := TwoFiles.exists_fill hfiles h.others hreads.works
  have hinsert := not_insert searched deleted
  have hkeys : ∀ k ∈ keysOf (linesOf .insert keys), intMin < k := by
    intro k hk
    rw [keysOf_linesOf, List.mem_map] at hk
    obtain ⟨key, -, rfl⟩ := hk
    unfold intMin
    omega
  refine ⟨_, _, l, q, hfiles.create, hfiles.trace, hload, hq, ⟨testable_FG.not_run⟩, fun p hp =>
    ⟨testable_FG.not_stuck hw' hq hreads.typed (fun _ => hreads.insertsOnce hinsert) hp,
      fun hfin => ?_⟩⟩
  obtain ⟨hpasses, values, hcollect, hsorted, hmem⟩ := hreads.check_FG hq hw hkeys hinsert hp hfin
  exact ⟨hpasses, values, hcollect, hsorted, fun k => (hmem k).trans (hleft k)⟩

theorem generated_passes_FG_ten : ∃ createLines testLines l q,
    Writes 10 0 0 .sequential createLines ∧ Writes 0 4 10 .sequential testLines ∧
    initHarness true 1 (getLines (fileText createLines)) (getLines (fileText testLines)) = .ok l ∧
    WorkQueue.fill l.works = some q ∧ IsEmpty (testFG (keysOf createLines) q 24).Run ∧
    ∀ p, (testFG (keysOf createLines) q 24).Reachable p →
      (p.2.Finished ∨ ∃ a p', (testFG (keysOf createLines) q 24).next p a = some p') ∧
      (p.2.Finished → Passes (checkValidFGTree p.1.mem ⟨1, l.treeValuesCorrectness⟩) ∧
        ∃ values, (∃ m, ∀ fuel, m < fuel →
          populateTreeValuesFG p.1.mem fuel p.1.mem.gRoot [] = some values) ∧
          values.Pairwise (· < ·) ∧ ∀ k, k ∈ values ↔ Left createLines testLines k) :=
  generated_passes_FG ⟨by decide, by decide, by unfold Fits; decide, by decide, by decide⟩ (by decide)
    (by decide)

end Harness
