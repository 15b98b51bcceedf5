-- SUMMARY: The checks of the harness at the end of a test, and which trees they judge rightly.
import ConcurrentBST.FineGrained.Sequential
import ConcurrentBST.Harness.WorkQueue
import ConcurrentBST.LockFree.Sequential

/-!
# The verdict of the harness

`check_valid_FG_Tree` and `check_valid_LF_Tree` put the keys of the tree into a
list and go through that list. What they print is part of the model, so that one
can see which findings are only printed.
-/

namespace Harness

universe u

variable {Ptr α : Type u} {keys vals : List Int} {val prev bound : Int} {fuel : Nat} {g : Globals}

-- ---------------------------------------------------------------------------
-- Collecting the keys
-- ---------------------------------------------------------------------------

/-- `populate_tree_values_FG` and `populate_tree_values_LF`, for the pointers of
    either tree. There is no result when `fuel` does not last. -/
def populateTreeValues (stop : Ptr → Bool) (child : Ptr → Bool → Ptr) (key : Ptr → Int) :
    Nat → Ptr → List Int → Option (List Int)
  | 0, _, _ => none
  | fuel + 1, root, values =>
      if stop root then some values
      else do
        let values ← populateTreeValues stop child key fuel (child root true) values
        populateTreeValues stop child key fuel (child root false) (values ++ [key root])

def populateTreeValuesFG (m : FineGrained.Mem) :
    Nat → FineGrained.Addr → List Int → Option (List Int) :=
  populateTreeValues (fun root => root == 0) (fun root d => (m.node root).child d)
    fun root => (m.node root).value

def populateTreeValuesLF (m : LockFree.Mem) :
    Nat → LockFree.Word → List Int → Option (List Int) :=
  populateTreeValues
    (fun root => LockFree.isNull root || LockFree.getFlag (m.op root.addr) == .mark)
    (fun root d => m.child root.addr d) fun root => m.key root.addr

-- ---------------------------------------------------------------------------
-- The checks
-- ---------------------------------------------------------------------------

/-- The globals that the checks read. -/
structure Globals where
  performCorrectness : Nat
  treeValuesCorrectness : List Int

/-- What the loop has found out. -/
structure Checked where
  valid : Bool
  incorrect : Bool
  printed : List String
deriving DecidableEq, Repr

/-- The loop over the keys of the tree. `looked` says which values are looked up in
    `tree_values_correctness`. -/
def checkValues (g : Globals) (looked : Int → Bool) : Int → List Int → Checked
  | _, [] => ⟨true, false, []⟩
  | prev, val :: rest =>
      if val ≤ prev then ⟨false, false, [s!"{val}, ", "\nTree is not in order!\n"]⟩
      else
        let missing := g.performCorrectness == 1 && looked val &&
          !g.treeValuesCorrectness.contains val
        let checked := checkValues g looked val rest
        ⟨checked.valid, missing || checked.incorrect, s!"{val}, " ::
          (if missing then [s!"Value {val} not present in the correctness vector\n"] else []) ++
          checked.printed⟩

/-- What a check prints, and whether it returns: otherwise an `assert` fails. -/
structure Outcome where
  printed : List String
  returns : Bool
deriving DecidableEq, Repr

/-- The part the two checks have in common, after the keys have been collected.
    `size` is what is compared with the size of `tree_values_correctness`. -/
def checkValid (g : Globals) (upper lower : String) (size : UInt64) (looked : Int → Bool)
    (values : List Int) : Outcome :=
  let sizes :=
    if g.performCorrectness = 1 then
      if UInt64.ofNat g.treeValuesCorrectness.length ≠ size then
        ["All elements were not correctly deleted\n"]
      else [s!"{upper} tree is valid in terms of number of operations performed.\n"]
    else []
  let checked := checkValues g looked intMin values
  let printed := sizes ++ s!"Printing out {lower} tree in-order: " :: checked.printed
  if checked.valid then
    let printed := printed ++ [s!"\n{upper} tree is valid.\n"]
    if checked.incorrect then ⟨printed ++ [s!"{upper} tree is incorrect!!\n"], false⟩
    else
      ⟨printed ++ [s!"{upper} tree is correct in terms of the remaining tree elements.\n"], true⟩
  else ⟨printed ++ [s!"\n{upper} tree is NOT VALID!!\n"], false⟩

def checkValidFGTree (m : FineGrained.Mem) (g : Globals) (fuel : Nat) : Option Outcome := do
  let values ← populateTreeValuesFG m fuel m.gRoot []
  return checkValid g "Fine-grained" "fine-grained" (.ofNat values.length) (fun _ => true) values

def checkValidLFTree (m : LockFree.Mem) (g : Globals) (fuel : Nat) : Option Outcome := do
  let values ← populateTreeValuesLF m fuel (.ptr LockFree.baseRoot) []
  return checkValid g "Lock-free" "lock-free" (.ofNat values.length - 1) (fun val => val != -1) values

-- ---------------------------------------------------------------------------
-- What the loop finds out
-- ---------------------------------------------------------------------------

section Loop

variable {looked : Int → Bool} {upper lower : String} {size : UInt64}

theorem valid_iff : (checkValues g looked prev vals).valid = true ↔
    (prev :: vals).Pairwise (· < ·) := by
  rw [← List.isChain_iff_pairwise]
  induction vals generalizing prev with
  | nil => simp [checkValues]
  | cons val rest ih =>
    rw [checkValues, List.isChain_cons_cons, ← ih]
    split
    · simpa using fun hlt => absurd hlt (by omega)
    · simpa using fun _ => by omega

theorem incorrect_iff (hvalid : (checkValues g looked prev vals).valid = true) :
    (checkValues g looked prev vals).incorrect = false ↔ (g.performCorrectness = 1 →
      ∀ val ∈ vals, looked val = true → val ∈ g.treeValuesCorrectness) := by
  induction vals generalizing prev with
  | nil => simp [checkValues]
  | cons val rest ih =>
    rw [checkValues] at hvalid ⊢
    split at hvalid
    · cases hvalid
    · next hlt =>
      rw [if_neg hlt]
      simp only [Bool.or_eq_false_iff, ih hvalid, List.forall_mem_cons]
      simp
      grind

/-- The check returns if the keys are in order, also after the smallest `int`, and
    those that are looked up are found. -/
theorem returns_iff : (checkValid g upper lower size looked vals).returns = true ↔
    (intMin :: vals).Pairwise (· < ·) ∧ (g.performCorrectness = 1 →
      ∀ val ∈ vals, looked val = true → val ∈ g.treeValuesCorrectness) := by
  have hvalid : (checkValues g looked intMin vals).valid = true ↔
      (intMin :: vals).Pairwise (· < ·) := valid_iff
  rw [← hvalid]
  simp only [checkValid]
  split
  · next hvalid =>
    rw [← incorrect_iff hvalid]
    split <;> simp_all
  · next hvalid => simp [hvalid]

end Loop

-- ---------------------------------------------------------------------------
-- The list of the keys
-- ---------------------------------------------------------------------------

/-- A walk over pointers that lead through a finite tree collects its keys in order. -/
theorem populateTreeValues_eq {stop : Ptr → Bool} {child : Ptr → Bool → Ptr} {key : Ptr → Int}
    {next : α → Bool → Option α} {k : α → Int} {tree : BinaryTree α} {c : Option α} {p : Ptr}
    (node : Ptr → Option α) (htree : Unfolds next c tree) (hp : node p = c)
    (hstop : ∀ q, node q = none → stop q = true)
    (hnode : ∀ q, ∀ x ∈ tree.inorder, node q = some x →
      stop q = false ∧ key q = k x ∧ ∀ d, node (child q d) = next x d)
    (hfuel : tree.numNodes < fuel) :
    populateTreeValues stop child key fuel p vals = some (vals ++ tree.inorder.map k) := by
  induction htree generalizing p vals fuel with
  | nil =>
    obtain ⟨fuel, rfl⟩ := Nat.exists_eq_succ_of_ne_zero hfuel.ne_bot
    simp [populateTreeValues, hstop p hp, BinaryTree.inorder]
  | @node x l r _ _ ihl ihr =>
    obtain ⟨fuel, rfl⟩ := Nat.exists_eq_succ_of_ne_zero (Nat.ne_zero_of_lt hfuel)
    have hl : l.numNodes < fuel := by simp only [BinaryTree.numNodes] at hfuel; omega
    have hr : r.numNodes < fuel := by simp only [BinaryTree.numNodes] at hfuel; omega
    obtain ⟨hgo, hkey, hchild⟩ := hnode p x (by simp [BinaryTree.inorder]) hp
    have hleft : populateTreeValues stop child key fuel (child p true) vals =
        some (vals ++ l.inorder.map k) :=
      ihl (hchild true) (fun q y hy => hnode q y (by simp [BinaryTree.inorder, hy])) hl
    have hright : populateTreeValues stop child key fuel (child p false)
        (vals ++ l.inorder.map k ++ [k x]) = some (vals ++ l.inorder.map k ++ [k x] ++ r.inorder.map k) :=
      ihr (hchild false) (fun q y hy => hnode q y (by simp [BinaryTree.inorder, hy])) hr
    calc populateTreeValues stop child key (fuel + 1) p vals
        = (populateTreeValues stop child key fuel (child p true) vals).bind fun values =>
            populateTreeValues stop child key fuel (child p false) (values ++ [key p]) := by
          rw [populateTreeValues, hgo]
          rfl
      _ = some (vals ++ l.inorder.map k ++ [k x] ++ r.inorder.map k) := by
          rw [hleft, hkey]
          exact hright
      _ = some (vals ++ (BinaryTree.node x l r).inorder.map k) := by simp [BinaryTree.inorder]

theorem populateTreeValuesFG_eq {m : FineGrained.Mem} {tree : BinaryTree FineGrained.Addr}
    (htree : Unfolds m.childPtr (FineGrained.ptr m.gRoot) tree) (hfuel : tree.numNodes < fuel) :
    populateTreeValuesFG m fuel m.gRoot [] = some (tree.inorder.map m.key) := by
  refine populateTreeValues_eq (k := m.key) FineGrained.ptr htree rfl (fun q hq => ?_)
    (fun q x _ hq => ?_) hfuel
  · simpa [FineGrained.ptr] using hq
  · simp only [FineGrained.ptr, ite_eq_iff, reduceCtorEq, and_false, Option.some.injEq,
      false_or] at hq
    obtain ⟨hne, rfl⟩ := hq
    exact ⟨by simpa using hne, rfl, fun d => rfl⟩

/-- The nodes below `base_root` are those of a tree, and none of them is marked. -/
structure LFTree (m : LockFree.Mem) (tree : BinaryTree LockFree.Addr) : Prop where
  unfolds : Unfolds m.childPtr (m.childPtr LockFree.baseRoot false) tree
  unmarked : ∀ x ∈ tree.inorder, LockFree.getFlag (m.op x) ≠ .mark
  rootKey : m.key LockFree.baseRoot = -1
  rootLeft : m.childPtr LockFree.baseRoot true = none
  rootUnmarked : LockFree.getFlag (m.op LockFree.baseRoot) ≠ .mark

/-- The walk turns back at a marked node, and so does not come to what hangs from it. -/
theorem populateTreeValuesLF_prune {m : LockFree.Mem} {w : LockFree.Word}
    {tree : BinaryTree LockFree.Addr}
    (htree : Unfolds m.childPtr (if LockFree.isNull w then none else some w.addr) tree)
    (hfuel : tree.numNodes < fuel) :
    populateTreeValuesLF m fuel w vals =
      some (vals ++ (tree.prune fun x => LockFree.getFlag (m.op x) == .mark).inorder.map m.key) := by
  refine populateTreeValues_eq
    (fun w => (if LockFree.isNull w then none else some w.addr).filter
      fun x => !(LockFree.getFlag (m.op x) == .mark)) htree.prune rfl (fun q hq => ?_)
    (fun q x _ hq => ?_) (BinaryTree.numNodes_prune_le.trans_lt hfuel)
  · cases hnull : LockFree.isNull q <;> simp_all [Option.filter]
  · obtain ⟨hnode, hmark⟩ := Option.filter_eq_some_iff.mp hq
    simp only [ite_eq_iff, reduceCtorEq, and_false, Option.some.injEq, false_or] at hnode
    obtain ⟨hnull, rfl⟩ := hnode
    exact ⟨by simpa [hnull] using hmark, rfl, fun d => rfl⟩

/-- The list begins with the key of `base_root`. -/
theorem populateTreeValuesLF_baseRoot {m : LockFree.Mem} {tree : BinaryTree LockFree.Addr}
    (htree : Unfolds m.childPtr (m.childPtr LockFree.baseRoot false) tree)
    (hleft : m.childPtr LockFree.baseRoot true = none)
    (hmark : LockFree.getFlag (m.op LockFree.baseRoot) ≠ .mark) (hfuel : tree.numNodes + 1 < fuel) :
    populateTreeValuesLF m fuel (.ptr LockFree.baseRoot) [] = some (m.key LockFree.baseRoot ::
      (tree.prune fun x => LockFree.getFlag (m.op x) == .mark).inorder.map m.key) := by
  have hroot : Unfolds m.childPtr (some LockFree.baseRoot) (.node LockFree.baseRoot .nil tree) :=
    .node (hleft ▸ .nil) htree
  have hwalk : populateTreeValuesLF m fuel (.ptr LockFree.baseRoot) [] = _ :=
    populateTreeValuesLF_prune hroot (by simpa [BinaryTree.numNodes] using hfuel)
  have hgo : (LockFree.getFlag (m.op LockFree.baseRoot) == LockFree.Flag.mark) = false := by
    simpa using hmark
  simpa only [BinaryTree.prune, hgo, Bool.false_eq_true, if_false, BinaryTree.inorder,
    List.nil_append, List.map_cons] using hwalk

theorem populateTreeValuesLF_eq {m : LockFree.Mem} {tree : BinaryTree LockFree.Addr}
    (h : LFTree m tree) (hfuel : tree.numNodes + 1 < fuel) :
    populateTreeValuesLF m fuel (.ptr LockFree.baseRoot) [] =
      some (-1 :: tree.inorder.map m.key) := by
  rw [populateTreeValuesLF_baseRoot h.unfolds h.rootLeft h.rootUnmarked hfuel, h.rootKey,
    BinaryTree.prune_eq_self fun x hx => by simpa using h.unmarked x hx]

-- ---------------------------------------------------------------------------
-- The verdict
-- ---------------------------------------------------------------------------

/-- What a test is to find out about the keys of the tree, in order. -/
def Globals.Expects (g : Globals) (keys : List Int) : Prop :=
  keys.Pairwise (· < ·) ∧
    (g.performCorrectness = 1 → ∀ k, k ∈ keys ↔ k ∈ g.treeValuesCorrectness)

/-- For keys in order that are all expected, the two shortcomings of a check occur
    together or not at all: a key that is not above `bound` is taken to be out of
    order, and an expected key that is not in the tree is not missed. -/
def Globals.Decides (g : Globals) (bound : Int) (keys : List Int) : Prop :=
  keys.Pairwise (· < ·) →
    (g.performCorrectness = 1 → ∀ k ∈ keys, k ∈ g.treeValuesCorrectness) →
    ((∀ k ∈ keys, bound < k) ↔
      (g.performCorrectness = 1 → ∀ k ∈ g.treeValuesCorrectness, k ∈ keys))

/-- The check comes to an end, and it returns for the trees it should return for
    under the condition and only then. -/
def Judges (check : Globals → Nat → Option Outcome) (g : Globals) (bound : Int) (keys : List Int) :
    Prop :=
  ∃ o, (∃ n, ∀ fuel, n < fuel → check g fuel = some o) ∧
    ((o.returns = true ↔ g.Expects keys) ↔ g.Decides bound keys)

theorem decides_iff {o : Outcome} (hret : o.returns = true ↔ (∀ k ∈ keys, bound < k) ∧
      keys.Pairwise (· < ·) ∧
      (g.performCorrectness = 1 → ∀ k ∈ keys, k ∈ g.treeValuesCorrectness)) :
    (o.returns = true ↔ g.Expects keys) ↔ g.Decides bound keys := by
  have hsets : (g.performCorrectness = 1 → ∀ k, k ∈ keys ↔ k ∈ g.treeValuesCorrectness) ↔
      (g.performCorrectness = 1 → ∀ k ∈ keys, k ∈ g.treeValuesCorrectness) ∧
      (g.performCorrectness = 1 → ∀ k ∈ g.treeValuesCorrectness, k ∈ keys) := by
    simp only [iff_iff_implies_and_implies, forall_and]
  rw [hret, Globals.Expects, Globals.Decides, hsets]
  constructor
  · intro h hsorted hexpected
    exact ⟨fun habove => (h.mp ⟨habove, hsorted, hexpected⟩).2.2,
      fun hcomplete => (h.mpr ⟨hsorted, hexpected, hcomplete⟩).1⟩
  · intro h
    constructor
    · rintro ⟨habove, hsorted, hexpected⟩
      exact ⟨hsorted, hexpected, (h hsorted hexpected).mp habove⟩
    · rintro ⟨hsorted, hexpected, hcomplete⟩
      exact ⟨(h hsorted hexpected).mpr hcomplete, hsorted, hexpected⟩

theorem judges_FG {m : FineGrained.Mem} {tree : BinaryTree FineGrained.Addr}
    (htree : Unfolds m.childPtr (FineGrained.ptr m.gRoot) tree) :
    Judges (checkValidFGTree m) g intMin (tree.inorder.map m.key) := by
  refine ⟨checkValid g "Fine-grained" "fine-grained" (.ofNat (tree.inorder.map m.key).length)
    (fun _ => true) (tree.inorder.map m.key), ⟨tree.numNodes, fun fuel hfuel => ?_⟩, ?_⟩
  · rw [checkValidFGTree, populateTreeValuesFG_eq htree hfuel]
    rfl
  · refine decides_iff (returns_iff.trans ?_)
    rw [List.pairwise_cons, and_assoc]
    simp only [forall_const]

theorem judges_LF {m : LockFree.Mem} {tree : BinaryTree LockFree.Addr} (h : LFTree m tree) :
    Judges (checkValidLFTree m) g (-1) (tree.inorder.map m.key) := by
  refine ⟨checkValid g "Lock-free" "lock-free"
    (.ofNat (-1 :: tree.inorder.map m.key).length - 1) (fun val => val != -1)
    (-1 :: tree.inorder.map m.key), ⟨tree.numNodes + 1, fun fuel hfuel => ?_⟩, ?_⟩
  · rw [checkValidLFTree, populateTreeValuesLF_eq h hfuel]
    rfl
  · refine decides_iff (returns_iff.trans ?_)
    generalize tree.inorder.map m.key = keys
    -- What is above the key of `base_root` is above the smallest `int` and is looked up.
    have habove : (intMin :: -1 :: keys).Pairwise (· < ·) ↔
        (∀ k ∈ keys, -1 < k) ∧ keys.Pairwise (· < ·) := by
      rw [List.pairwise_cons, List.pairwise_cons]
      refine and_iff_right_of_imp fun hkeys => ?_
      rintro k (_ | ⟨_, hk⟩)
      · decide
      · exact lt_trans (by decide) (hkeys.1 k hk)
    rw [habove, and_assoc]
    refine and_congr_right fun hkeys => and_congr_right fun _ => imp_congr_right fun _ => ?_
    simp only [List.forall_mem_cons, bne_self_eq_false, Bool.false_eq_true, false_implies, true_and]
    refine forall₂_congr fun k hk => ?_
    have hne : (k != -1) = true := by simpa using (hkeys k hk).ne'
    simp only [hne, true_implies]

/-- The tree a single thread leaves behind in the fine-grained case. -/
theorem exists_FGTree {n : Nat} (e : FineGrained.system.Exec n) {t : FineGrained.Tid}
    (ht : ∀ j < n, (e.label j).1 = t) (hidle : (e.state n).thread t = .idle) :
    ∃ tree, Unfolds (e.state n).mem.childPtr (FineGrained.ptr (e.state n).mem.gRoot) tree := by
  obtain ⟨ghost, H⟩ := FineGrained.exists_history e
  obtain ⟨tree, hrep⟩ := H.represents ht le_rfl hidle
  exact ⟨tree, hrep.unfolds⟩

/-- The tree a single thread leaves behind in the lock-free case. -/
theorem exists_LFTree {cfg : LockFree.Config} {n : Nat} (hcfg : cfg.hazardPointers = false)
    (e : (LockFree.system cfg).Exec n) {t : LockFree.Tid} (ht : ∀ j < n, (e.label j).1 = t)
    (hidle : (e.state n).thread t = .idle) : ∃ tree, LFTree (e.state n).mem tree := by
  have horderly : ∀ {i}, i ≤ n → LockFree.Orderly cfg t (e.state i) :=
    fun hi => LockFree.orderly hcfg e ht hi
  have hsettled := (horderly le_rfl).idle hidle
  obtain ⟨H⟩ := LockFree.exists_history hcfg e fun j hj => (horderly hj.le).careful (ht j hj)
  have hmem := H.mem le_rfl
  obtain ⟨tree, htree, _⟩ := hmem.sorted_of_settled hsettled
  have hroot : (e.state n).mem.reaches LockFree.baseRoot := ⟨[], rfl⟩
  refine ⟨tree, htree, fun x hx => ?_, H.root_key le_rfl, hmem.root_left, ?_⟩
  · have hreach : (e.state n).mem.reaches x :=
      leads_some.mpr (.inr ⟨false, htree.mem_inorder.mp hx⟩)
    simp [hsettled x hreach]
  · simp [hsettled _ hroot]

/-- For which trees and vectors the checks of the harness return when they should:
    whatever the memory looks like as long as there is a finite tree in it, and so
    after every run in which a single thread makes the calls. -/
theorem checks_judge (g : Globals) :
    ((∀ m tree, Unfolds m.childPtr (FineGrained.ptr m.gRoot) tree →
        Judges (checkValidFGTree m) g intMin (tree.inorder.map m.key)) ∧
      ∀ n t (e : FineGrained.system.Exec n), (∀ j < n, (e.label j).1 = t) →
        (e.state n).thread t = .idle →
        ∃ tree, Unfolds (e.state n).mem.childPtr (FineGrained.ptr (e.state n).mem.gRoot) tree) ∧
    (∀ m tree, LFTree m tree → Judges (checkValidLFTree m) g (-1) (tree.inorder.map m.key)) ∧
      ∀ cfg n t (e : (LockFree.system cfg).Exec n), cfg.hazardPointers = false →
        (∀ j < n, (e.label j).1 = t) → (e.state n).thread t = .idle →
        ∃ tree, LFTree (e.state n).mem tree :=
  ⟨⟨fun _ _ => judges_FG, fun _ _ e => exists_FGTree e⟩,
    fun _ _ => judges_LF, fun _ _ _ e hcfg => exists_LFTree hcfg e⟩

/-- Thread 0 adds the key -5. -/
def runOfNegative : (LockFree.system .plain).Exec 13 :=
  .ofLabels (0, .respond) (LockFree.soloCall 0 (.add (-5)) 2 11) (by decide)

theorem unfolds_calls : Unfolds (FineGrained.runOfCalls.state 90).mem.childPtr
    (FineGrained.ptr (FineGrained.runOfCalls.state 90).mem.gRoot)
    (.node 1 (.node 2 .nil .nil) (.node 3 .nil .nil)) := by
  generalize hm : (FineGrained.runOfCalls.state 90).mem = m
  have hroot : FineGrained.ptr m.gRoot = some 1 := by subst hm; decide +kernel
  have hleft : m.childPtr 1 true = some 2 := by subst hm; decide +kernel
  have hright : m.childPtr 1 false = some 3 := by subst hm; decide +kernel
  have hleaf : ∀ d, m.childPtr 2 d = none ∧ m.childPtr 3 d = none := by subst hm; decide +kernel
  have hleaf₂ : Unfolds m.childPtr (some 2) (.node 2 .nil .nil) :=
    .node ((hleaf true).1 ▸ .nil) ((hleaf false).1 ▸ .nil)
  have hleaf₃ : Unfolds m.childPtr (some 3) (.node 3 .nil .nil) :=
    .node ((hleaf true).2 ▸ .nil) ((hleaf false).2 ▸ .nil)
  rw [hroot]
  exact .node (hleft ▸ hleaf₂) (hright ▸ hleaf₃)

theorem lfTree_negative : LFTree (runOfNegative.state 13).mem (.node 6 .nil .nil) := by
  generalize hm : (runOfNegative.state 13).mem = m
  have hright : m.childPtr LockFree.baseRoot false = some 6 := by subst hm; decide +kernel
  have hleaf : ∀ d, m.childPtr 6 d = none := by subst hm; decide +kernel
  refine ⟨hright ▸ .node (hleaf true ▸ .nil) (hleaf false ▸ .nil), ?_, ?_, ?_, ?_⟩
  all_goals subst hm; decide +kernel

/-- An expected key is missing from the tree at the end of `runOfCalls`. -/
def globalsOfCalls : Globals := ⟨1, [3, 7, 8, 9]⟩

def globalsOfNegative : Globals := ⟨1, [-5]⟩

/-- The check does not miss the key 9 in the first tree, and takes the only key of
    the second one to be out of order. -/
theorem checks_misjudge :
    (∃ tree, Unfolds (FineGrained.runOfCalls.state 90).mem.childPtr
        (FineGrained.ptr (FineGrained.runOfCalls.state 90).mem.gRoot) tree ∧
      ¬ globalsOfCalls.Expects (tree.inorder.map (FineGrained.runOfCalls.state 90).mem.key) ∧
      ∃ o, checkValidFGTree (FineGrained.runOfCalls.state 90).mem globalsOfCalls 9 = some o ∧
        o.returns = true) ∧
    ∃ tree, LFTree (runOfNegative.state 13).mem tree ∧
      globalsOfNegative.Expects (tree.inorder.map (runOfNegative.state 13).mem.key) ∧
      ∃ o, checkValidLFTree (runOfNegative.state 13).mem globalsOfNegative 9 = some o ∧
        o.returns = false := by
  have hkeys : (BinaryTree.node 1 (.node 2 .nil .nil) (.node 3 .nil .nil)).inorder.map
      (FineGrained.runOfCalls.state 90).mem.key = [3, 7, 8] := by decide +kernel
  have hkey : (BinaryTree.node 6 .nil .nil).inorder.map (runOfNegative.state 13).mem.key = [-5] := by
    decide +kernel
  refine ⟨⟨_, unfolds_calls, ?_, ?_⟩, _, lfTree_negative, ?_, ?_⟩
  · rintro ⟨-, hset⟩
    rw [hkeys] at hset
    exact absurd ((hset rfl 9).mpr (by decide)) (by decide)
  · rw [checkValidFGTree, populateTreeValuesFG_eq unfolds_calls (by decide), hkeys]
    exact ⟨_, rfl, by decide⟩
  · rw [hkey]
    exact ⟨List.pairwise_singleton .., fun _ k => Iff.rfl⟩
  · rw [checkValidLFTree, populateTreeValuesLF_eq lfTree_negative (by decide), hkey]
    exact ⟨_, rfl, by decide⟩

theorem checks_judge_calls :
    Judges (checkValidFGTree (FineGrained.runOfCalls.state 90).mem) globalsOfCalls intMin
        ((BinaryTree.node 1 (.node 2 .nil .nil) (.node 3 .nil .nil)).inorder.map
          (FineGrained.runOfCalls.state 90).mem.key) ∧
      Judges (checkValidLFTree (runOfNegative.state 13).mem) globalsOfNegative (-1)
        ((BinaryTree.node 6 .nil .nil).inorder.map (runOfNegative.state 13).mem.key) :=
  ⟨(checks_judge globalsOfCalls).1.1 _ _ unfolds_calls,
    (checks_judge globalsOfNegative).2.1 _ _ lfTree_negative⟩

end Harness
