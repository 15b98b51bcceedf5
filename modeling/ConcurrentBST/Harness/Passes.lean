-- SUMMARY: From the files to the verdict: which tests end with a check that returns, whatever the interleaving.
import ConcurrentBST.Harness.Collection
import ConcurrentBST.Harness.Tests

/-!
# From the files to the verdict

`init_harness` as a whole, with `--correctness=1`: the files are read, the tree is
built, the workers do what is in the queue, and then the tree is checked. If the
trace inserts no key but those that are expected anyway, then the order in which the
operations take effect does not matter, and the check returns.
-/

namespace Harness

open Lts

variable {performFGTest : Bool} {createFile testFile : List Text} {created values : List Int}
  {ops log : List (OperationType × Int)} {l l' : Loaded} {n : Nat} {q : WorkQueue Work} {S : Set Int}
  {k : Int}

-- ---------------------------------------------------------------------------
-- What has been read
-- ---------------------------------------------------------------------------

def workOf (op : OperationType × Int) : Work := ⟨op.2, some op.1⟩

theorem flatMap_workOf : (ops.map workOf).flatMap Work.ops = ops := by
  rw [List.flatMap_map]
  exact List.flatMap_singleton' ops

/-- Every line of the trace is put into the queue. By induction on the lines. -/
theorem works_of_readTrace (h : List.Forall₂ IsLine testFile ops)
    (hread : testFile.foldlM (traceLine 1) l = .ok l') : l'.works = l.works ++ ops.map workOf := by
  induction h generalizing l with
  | nil =>
    cases hread
    simp
  | @cons str op testFile ops hline _ ih =>
    rw [List.foldlM_cons, traceLine_eq hline] at hread
    generalize (if op.1 = .delete then eraseValue l.treeValuesCorrectness op.2
      else .ok l.treeValuesCorrectness) = values at hread
    cases values with
    | error => cases hread
    | ok values =>
      rw [ih hread]
      simp [workOf]

/-- What is there when both files have been read to their ends. -/
structure Reads (performFGTest : Bool) (created : List Int) (ops : List (OperationType × Int))
    (l : Loaded) : Prop where
  works : l.works = ops.map workOf
  expected : ∀ k, created.count k = l.treeValuesCorrectness.count k + ops.count (.delete, k)
  nodup : performFGTest = true → created.Nodup

theorem reads_of_initHarness (hcreate : List.Forall₂ NamesKey createFile created)
    (htrace : List.Forall₂ IsLine testFile ops)
    (hload : initHarness performFGTest 1 createFile testFile = .ok l) :
    Reads performFGTest created ops l := by
  have hread := readCreate performFGTest hcreate
  unfold initHarness at hload
  split at hread
  · rw [hread] at hload
    cases hload
  · next hdup =>
    obtain ⟨tree, htree⟩ := hread
    rw [htree] at hload
    rcases readTrace (l := { Loaded.empty with tree := tree, treeValuesCorrectness := created }) htrace
      with ⟨l', hl', hkeep⟩ | ⟨herr, -⟩
    · obtain rfl : l' = l := Except.ok.inj (hl'.symm.trans hload)
      refine ⟨?_, hkeep, fun hfg => ?_⟩
      · simpa [Loaded.empty] using works_of_readTrace htrace hl'
      · by_contra hnd
        exact hdup ⟨hfg, hnd⟩
    · cases herr.symm.trans hload

namespace Reads

variable (h : Reads performFGTest created ops l)

include h

theorem typed : ∀ work ∈ l.works, work.opType ≠ none := by
  rw [h.works]
  intro work hwork
  obtain ⟨op, -, rfl⟩ := List.mem_map.mp hwork
  simp [workOf]

theorem ops_eq : l.works.flatMap Work.ops = ops := by
  rw [h.works, flatMap_workOf]

/-- In whatever order the operations take effect, only expected keys are left. -/
theorem mem_expected (hinsert : ∀ k, (.insert, k) ∈ ops → k ∈ l.treeValuesCorrectness)
    (hperm : log.Perm ops) (hk : k ∈ setAfter created.toFinset log) :
    k ∈ l.treeValuesCorrectness := by
  rcases mem_setAfter.mp hk with hlast | ⟨hlast, hmem⟩
  · exact hinsert k (hperm.mem_iff.mp (mem_of_lastChange hlast))
  · have hcreated := List.count_pos_iff.mpr (List.mem_toFinset.mp hmem)
    have hdelete := hperm.count_eq (.delete, k)
    rw [lastChange_none hlast] at hdelete
    have hcount := h.expected k
    exact List.count_pos_iff.mp (by omega)

/-- If the trace inserts nothing then all of them are left. -/
theorem mem_iff (hinsert : ∀ k, (.insert, k) ∉ ops) (hnd : created.Nodup) (hperm : log.Perm ops) :
    k ∈ setAfter created.toFinset log ↔ k ∈ l.treeValuesCorrectness := by
  refine ⟨h.mem_expected (fun k hk => absurd hk (hinsert k)) hperm, fun hk => ?_⟩
  have hpos := List.count_pos_iff.mpr hk
  have hle := List.nodup_iff_count_le_one.mp hnd k
  have hcount := h.expected k
  have hdelete : (.delete, k) ∉ log := by
    rw [hperm.mem_iff, ← List.count_eq_zero]
    omega
  refine mem_setAfter.mpr (.inr ⟨?_, List.mem_toFinset.mpr (List.count_pos_iff.mp (by omega))⟩)
  cases hlast : lastChange k log with
  | none => rfl
  | some change =>
    have hmem := mem_of_lastChange hlast
    cases change with
    | insert => exact absurd (hperm.mem_iff.mp hmem) (hinsert k)
    | search => exact absurd hlast lastChange_ne_search
    | delete => exact absurd hmem hdelete

end Reads

-- ---------------------------------------------------------------------------
-- The check
-- ---------------------------------------------------------------------------

/-- The check comes to an end and returns. -/
def Passes (check : Nat → Option Outcome) : Prop :=
  ∃ o, (∃ n, ∀ fuel, n < fuel → check fuel = some o) ∧ o.returns = true

theorem passes_checkFG {m : FineGrained.Mem} {g : Globals}
    (hvalues : ∃ n, ∀ fuel, n < fuel → populateTreeValuesFG m fuel m.gRoot [] = some values)
    (hsorted : (intMin :: values).Pairwise (· < ·))
    (hmem : ∀ k ∈ values, k ∈ g.treeValuesCorrectness) : Passes (checkValidFGTree m g) := by
  obtain ⟨n, hn⟩ := hvalues
  have hcheck : ∀ fuel, n < fuel → checkValidFGTree m g fuel = some (checkValid g "Fine-grained"
      "fine-grained" (.ofNat values.length) (fun _ => true) values) := fun fuel hfuel => by
    rw [checkValidFGTree, hn fuel hfuel]
    rfl
  exact ⟨_, ⟨n, hcheck⟩, returns_iff.mpr ⟨hsorted, fun _ k hk _ => hmem k hk⟩⟩

namespace Reads

/-- The check of the fine-grained tree at the end of a test, and what it collects. -/
theorem check_FG {p : FineGrained.State × Test n} (h : Reads true created ops l)
    (hq : WorkQueue.fill l.works = some q) (hn : 0 < n) (hkeys : ∀ k ∈ created, intMin < k)
    (hinsert : ∀ k, (.insert, k) ∉ ops) (hp : (testFG created q n).Reachable p)
    (hfin : p.2.Finished) : Passes (checkValidFGTree p.1.mem ⟨1, l.treeValuesCorrectness⟩) ∧
      ∃ values, (∃ m, ∀ fuel, m < fuel →
        populateTreeValuesFG p.1.mem fuel p.1.mem.gRoot [] = some values) ∧
        values.Pairwise (· < ·) ∧ ∀ k, k ∈ values ↔ k ∈ l.treeValuesCorrectness := by
  obtain ⟨S, phase, ⟨⟨g, hg, rfl, rfl⟩, hthread⟩, hidle, log, hperm, hS⟩ :=
    testable_FG.outcome hn hq hp hfin
  obtain ⟨tree, htree⟩ := FineGrained.Explains.represents hg fun t => (hthread t).mpr (hidle t)
  have hmem : ∀ k, k ∈ tree.inorder.map p.1.mem.key ↔ k ∈ l.treeValuesCorrectness := by
    intro k
    rw [htree.keys, hS]
    exact h.mem_iff hinsert (h.nodup rfl) (h.ops_eq ▸ hperm)
  have hcollect : ∃ n, ∀ fuel, n < fuel →
      populateTreeValuesFG p.1.mem fuel p.1.mem.gRoot [] = some (tree.inorder.map p.1.mem.key) :=
    ⟨tree.numNodes, fun fuel => populateTreeValuesFG_eq htree.unfolds⟩
  refine ⟨passes_checkFG hcollect ?_ fun k hk => (hmem k).mp hk, _, hcollect, htree.sorted, hmem⟩
  refine List.pairwise_cons.mpr ⟨fun k hk => hkeys k ?_, htree.sorted⟩
  have hcount := h.expected k
  have hexp := List.count_pos_iff.mpr ((hmem k).mp hk)
  exact List.count_pos_iff.mp (by omega)

/-- A trace that inserts nothing inserts no key twice. -/
theorem insertsOnce (h : Reads true created ops l) (hinsert : ∀ k, (.insert, k) ∉ ops) :
    InsertsOnce created (l.works.flatMap Work.ops) := by
  intro k
  rw [h.ops_eq, List.count_eq_zero.mpr (hinsert k)]
  exact List.nodup_iff_count_le_one.mp (h.nodup rfl) k

end Reads

end Harness
