-- SUMMARY: The files that the harness reads, and when the list of expected keys is right after it.
import ConcurrentBST.FineGrained.Insertion
import ConcurrentBST.Harness.WorkQueue
import Mathlib.Data.Finset.Basic

/-!
# Reading the files

The part of `init_harness` that reads the create file and the trace. A line is
the list of its characters. Reading stops where an exception is thrown, where
`insert` fails its assertion, and where `erase` gets the end iterator.
-/

namespace Harness

open BinaryTree

/-- `operation_type`. -/
inductive OperationType where
  | insert
  | search
  | delete
deriving DecidableEq, Repr

/-- `WORK`. The member `op_type` may not have been set. -/
structure Work where
  value : Int
  opType : Option OperationType
deriving DecidableEq, Repr

/-- Why the files are not read to their ends. -/
inductive Stop where
  /-- `std::out_of_range`, from `substr` or from `stoi`. -/
  | outOfRange
  /-- `std::invalid_argument`, from `stoi`. -/
  | invalidArgument
  /-- `assert(0)` in `insert`. -/
  | duplicate
  /-- `erase` is called with the end iterator. -/
  | eraseEnd
deriving DecidableEq, Repr

abbrev Text := List Char

-- ---------------------------------------------------------------------------
-- Lines
-- ---------------------------------------------------------------------------

/-- `str.substr(0, str.find(' '))`. -/
def operationText (str : Text) : Text :=
  str.takeWhile (· != ' ')

/-- `str.substr(str.find(' '))`. -/
def valueText (str : Text) : Except Stop Text :=
  match str.dropWhile (· != ' ') with
  | [] => .error .outOfRange
  | value => .ok value

def isSpace (c : Char) : Bool :=
  c == ' ' || ('\t' ≤ c && c ≤ '\r')

def digitsToNat (digits : Text) : Nat :=
  digits.foldl (fun n c => 10 * n + (c.toNat - '0'.toNat)) 0

/-- `std::stoi`. What follows the digits is not looked at. -/
def stoi (value : Text) : Except Stop Int :=
  let (negative, rest) := match value.dropWhile isSpace with
    | '-' :: rest => (true, rest)
    | '+' :: rest => (false, rest)
    | rest => (false, rest)
  let digits := rest.takeWhile Char.isDigit
  if digits = [] then .error .invalidArgument
  else
    let val : Int := if negative then -digitsToNat digits else digitsToNat digits
    if intMin ≤ val ∧ val ≤ intMax then .ok val else .error .outOfRange

-- ---------------------------------------------------------------------------
-- The loops
-- ---------------------------------------------------------------------------

/-- What reading changes. The tree is the one of its keys. -/
structure Loaded where
  tree : BinaryTree Int
  treeValuesCorrectness : List Int
  /-- `w.op_type`. -/
  opType : Option OperationType
  works : List Work

def Loaded.empty : Loaded := ⟨.nil, [], none, []⟩

/-- `insert` of the fine-grained tree stops at a key that is there, and `add` of the
    lock-free tree leaves the tree as it is. -/
def insertOrAdd (performFGTest : Bool) (val : Int) (tree : BinaryTree Int) :
    Except Stop (BinaryTree Int) :=
  match insertKey val tree with
  | some tree => .ok tree
  | none => if performFGTest then .error .duplicate else .ok tree

/-- A line of the create file. -/
def createLine (performFGTest : Bool) (performCorrectness : Nat) (l : Loaded) (str : Text) :
    Except Stop Loaded := do
  let value ← valueText str
  let val ← stoi value
  let tree ← insertOrAdd performFGTest val l.tree
  return { l with
    tree := tree
    treeValuesCorrectness :=
      if performCorrectness = 1 then l.treeValuesCorrectness ++ [val] else l.treeValuesCorrectness }

/-- `erase(std::find(begin, end, val))`. -/
def eraseValue (values : List Int) (val : Int) : Except Stop (List Int) :=
  if val ∈ values then .ok (values.erase val) else .error .eraseEnd

def OperationType.word : OperationType → Text
  | .insert => "insert".toList
  | .search => "search".toList
  | .delete => "delete".toList

/-- A line of the trace. A line with another word is taken for what the line before it was. -/
def traceLine (performCorrectness : Nat) (l : Loaded) (str : Text) : Except Stop Loaded := do
  let operation := operationText str
  let value ← valueText str
  let val ← stoi value
  let opType :=
    if operation = OperationType.insert.word then some .insert
    else if operation = OperationType.search.word then some .search
    else if operation = OperationType.delete.word then some .delete
    else l.opType
  let values ←
    if operation = OperationType.delete.word ∧ performCorrectness = 1 then
      eraseValue l.treeValuesCorrectness val
    else .ok l.treeValuesCorrectness
  return { l with
    treeValuesCorrectness := values
    opType := opType
    works := l.works ++ [⟨val, opType⟩] }

/-- `init_harness` up to the point where both files have been read. The works are put
    into the queue in this order. -/
def initHarness (performFGTest : Bool) (performCorrectness : Nat) (createFile testFile : List Text) :
    Except Stop Loaded := do
  let l ← createFile.foldlM (createLine performFGTest performCorrectness) .empty
  testFile.foldlM (traceLine performCorrectness) l

-- ---------------------------------------------------------------------------
-- What is expected
-- ---------------------------------------------------------------------------

/-- The line names the key `k`. -/
def NamesKey (str : Text) (k : Int) : Prop :=
  ∃ value, valueText str = .ok value ∧ stoi value = .ok k

/-- The line is an operation on a key. -/
structure IsLine (str : Text) (op : OperationType × Int) : Prop where
  word : operationText str = op.1.word
  key : NamesKey str op.2

/-- The set after the operations. -/
def setAfter : Finset Int → List (OperationType × Int) → Finset Int
  | S, [] => S
  | S, (.insert, k) :: ops => setAfter (Insert.insert k S) ops
  | S, (.search, _) :: ops => setAfter S ops
  | S, (.delete, k) :: ops => setAfter (S.erase k) ops

/-- If both files are read to their ends, the list of expected keys is the set after
    the operations. The end iterator is never erased. -/
def ExpectsSet (performFGTest : Bool) (createFile testFile : List Text) (created : List Int)
    (ops : List (OperationType × Int)) : Prop :=
  match initHarness performFGTest 1 createFile testFile with
  | .ok l => l.treeValuesCorrectness.Nodup ∧
      ∀ k, k ∈ l.treeValuesCorrectness ↔ k ∈ setAfter created.toFinset ops
  | .error stop => stop ≠ .eraseEnd

/-- The last insert or delete of a key. -/
def lastChange (k : Int) : List (OperationType × Int) → Option OperationType
  | [] => none
  | op :: ops =>
      match lastChange k ops with
      | some change => some change
      | none => if op.2 = k ∧ op.1 ≠ .search then some op.1 else none

/-- The deletes of the key take away what the create file has put into the list. -/
def Balanced (created : List Int) (ops : List (OperationType × Int)) (k : Int) : Prop :=
  match lastChange k ops with
  | none => created.count k ≤ 1
  | some .insert => created.count k = ops.count (.delete, k) + 1
  | some _ => created.count k = ops.count (.delete, k)

variable {performFGTest : Bool} {createFile testFile : List Text} {created values : List Int}
  {ops : List (OperationType × Int)} {op : OperationType × Int} {str : Text} {k : Int}
  {l : Loaded} {S : Finset Int} {tree : BinaryTree Int}

/-- Whether a key is in the set depends on its last insert or delete. -/
theorem mem_setAfter : k ∈ setAfter S ops ↔
    lastChange k ops = some .insert ∨ lastChange k ops = none ∧ k ∈ S := by
  induction ops generalizing S with
  | nil => simp [setAfter, lastChange]
  | cons op ops ih =>
    obtain ⟨type, j⟩ := op
    cases hlast : lastChange k ops with
    | some change => cases type <;> simp [setAfter, lastChange, ih, hlast]
    | none =>
      by_cases hj : j = k
      · cases type <;> simp [setAfter, lastChange, ih, hlast, hj]
      · cases type <;> simp [setAfter, lastChange, ih, hlast, hj, Ne.symm hj]

theorem lastChange_none (h : lastChange k ops = none) : ops.count (.delete, k) = 0 := by
  induction ops with
  | nil => rfl
  | cons op ops ih =>
    unfold lastChange at h
    split at h
    · cases h
    · next hnone =>
      have hne : op ≠ (.delete, k) := by
        rintro rfl
        simp at h
      rw [List.count_cons_of_ne hne, ih hnone]

theorem lastChange_ne_search : lastChange k ops ≠ some .search := by
  induction ops with
  | nil => simp [lastChange]
  | cons op ops ih =>
    unfold lastChange
    split
    · next change hchange => exact hchange ▸ ih
    · split
      · next h => simp [h.2]
      · simp

/-- The key is as often in the list as in the set. -/
theorem balanced_iff : Balanced created ops k ↔ created.count k =
    ops.count (.delete, k) + if k ∈ setAfter created.toFinset ops then 1 else 0 := by
  simp only [mem_setAfter, Balanced]
  cases hlast : lastChange k ops with
  | none =>
    rw [lastChange_none hlast]
    by_cases hk : k ∈ created
    · have := List.count_pos_iff.mpr hk
      simp [hk]
      omega
    · simp [hk, List.count_eq_zero.mpr hk]
  | some change =>
    cases change with
    | insert => simp
    | search => exact absurd hlast lastChange_ne_search
    | delete => simp

-- ---------------------------------------------------------------------------
-- The create file
-- ---------------------------------------------------------------------------

theorem createLine_eq (h : NamesKey str k) : createLine performFGTest 1 l str =
    (insertOrAdd performFGTest k l.tree).map fun tree =>
      { l with tree := tree, treeValuesCorrectness := l.treeValuesCorrectness ++ [k] } := by
  obtain ⟨value, hvalue, hk⟩ := h
  simp only [createLine, bind, Except.bind, hvalue, hk]
  cases insertOrAdd performFGTest k l.tree <;> rfl

/-- With the fine-grained tree the keys are inserted, or there is one that was there. -/
theorem readCreate_fg (h : List.Forall₂ NamesKey createFile created) :
    createFile.foldlM (createLine true 1) l = match insertKeys created l.tree with
    | some tree => .ok
        { l with tree := tree, treeValuesCorrectness := l.treeValuesCorrectness ++ created }
    | none => .error .duplicate := by
  induction h generalizing l with
  | nil => simp [insertKeys]; rfl
  | @cons str k createFile created hline _ ih =>
    rw [List.foldlM_cons, createLine_eq hline, insertOrAdd, insertKeys]
    cases insertKey k l.tree with
    | none => rfl
    | some tree =>
      have hstep := ih (l := { l with
        tree := tree, treeValuesCorrectness := l.treeValuesCorrectness ++ [k] })
      rw [List.append_assoc] at hstep
      exact hstep

/-- The tree is the one that the fine-grained `insert` builds from the keys. -/
theorem readCreate_builds {n : Nat} {e : FineGrained.system.Exec n} {t : FineGrained.Tid}
    (h : List.Forall₂ NamesKey createFile created)
    (hread : createFile.foldlM (createLine true 1) .empty = .ok l)
    (he : FineGrained.InsertsInOrder e t created) : FineGrained.BuildsTree e t created l.tree := by
  rw [readCreate_fg h] at hread
  split at hread
  · next tree htree =>
    cases hread
    exact he.builds htree
  · cases hread

/-- With the lock-free tree all lines are read. -/
theorem readCreate_lf (h : List.Forall₂ NamesKey createFile created) :
    ∃ tree, createFile.foldlM (createLine false 1) l = .ok
      { l with tree := tree, treeValuesCorrectness := l.treeValuesCorrectness ++ created } := by
  induction h generalizing l with
  | nil => exact ⟨l.tree, by simp; rfl⟩
  | @cons str k createFile created hline _ ih =>
    have hadd : ∃ tree, insertOrAdd false k l.tree = .ok tree := by
      unfold insertOrAdd
      split <;> exact ⟨_, rfl⟩
    obtain ⟨tree₁, htree₁⟩ := hadd
    obtain ⟨tree, htree⟩ := ih (l := { l with
      tree := tree₁, treeValuesCorrectness := l.treeValuesCorrectness ++ [k] })
    refine ⟨tree, ?_⟩
    rw [List.foldlM_cons, createLine_eq hline, htree₁]
    rw [List.append_assoc] at htree
    exact htree

/-- The create file is read to its end, unless the fine-grained tree gets a key twice. -/
theorem readCreate (performFGTest : Bool) (h : List.Forall₂ NamesKey createFile created) :
    if performFGTest = true ∧ ¬ created.Nodup then
      createFile.foldlM (createLine performFGTest 1) .empty = .error .duplicate
    else ∃ tree, createFile.foldlM (createLine performFGTest 1) .empty =
      .ok { Loaded.empty with tree := tree, treeValuesCorrectness := created } := by
  cases performFGTest with
  | false => simpa [Loaded.empty] using readCreate_lf (l := .empty) h
  | true =>
    rw [readCreate_fg h]
    by_cases hnd : created.Nodup
    · obtain ⟨tree, htree⟩ := exists_insertKeys (t := .nil) .nil hnd (by simp [inorder])
      simp [hnd, Loaded.empty, htree]
    · have hnone : insertKeys created .nil = none := by
        by_contra hsome
        obtain ⟨tree, htree⟩ := Option.ne_none_iff_exists'.mp hsome
        exact hnd (insertKeys_sorted .nil htree).1
      simp [hnd, Loaded.empty, hnone]

-- ---------------------------------------------------------------------------
-- The trace
-- ---------------------------------------------------------------------------

theorem traceLine_eq (h : IsLine str op) : traceLine 1 l str =
    (if op.1 = .delete then eraseValue l.treeValuesCorrectness op.2
      else .ok l.treeValuesCorrectness).map fun values =>
        { l with
          treeValuesCorrectness := values
          opType := some op.1
          works := l.works ++ [⟨op.2, some op.1⟩] } := by
  obtain ⟨hword, value, hvalue, hk⟩ := h
  obtain ⟨type, k⟩ := op
  simp only [traceLine, bind, Except.bind, hvalue, hk, hword]
  cases type with
  | insert | search => rfl
  | delete =>
    simp only [if_true, and_self]
    cases eraseValue l.treeValuesCorrectness k <;> rfl

theorem count_erase_add {j : Int} (hj : j ∈ values) :
    values.count k = (values.erase j).count k + if j = k then 1 else 0 := by
  by_cases hjk : j = k
  · subst hjk
    have := List.count_pos_iff.mpr hj
    rw [List.count_erase_self, if_pos rfl]
    omega
  · rw [List.count_erase_of_ne (Ne.symm hjk), if_neg hjk, Nat.add_zero]

/-- What the lines of the trace do to the list. By induction on the lines. -/
theorem readTrace (h : List.Forall₂ IsLine testFile ops) :
    (∃ l', testFile.foldlM (traceLine 1) l = .ok l' ∧
      ∀ k, l.treeValuesCorrectness.count k =
        l'.treeValuesCorrectness.count k + ops.count (.delete, k)) ∨
    testFile.foldlM (traceLine 1) l = .error .eraseEnd ∧
      ∃ k, l.treeValuesCorrectness.count k < ops.count (.delete, k) := by
  induction h generalizing l with
  | nil => exact .inl ⟨l, rfl, fun k => rfl⟩
  | @cons str op testFile ops hline _ ih =>
    obtain ⟨type, j⟩ := op
    rw [List.foldlM_cons, traceLine_eq hline]
    have hrest := fun values => ih (l := { l with
      treeValuesCorrectness := values
      opType := some type
      works := l.works ++ [⟨j, some type⟩] })
    by_cases htype : type = .delete
    · subst htype
      by_cases hj : j ∈ l.treeValuesCorrectness
      swap
      · -- The end iterator.
        refine .inr ⟨by simp [eraseValue, hj]; rfl, j, ?_⟩
        rw [List.count_eq_zero.mpr hj]
        simp
      have herase : eraseValue l.treeValuesCorrectness j = .ok (l.treeValuesCorrectness.erase j) :=
        if_pos hj
      rw [if_pos rfl, herase]
      have hstep : ∀ k, ((OperationType.delete, j) :: ops).count (.delete, k) =
          ops.count (.delete, k) + if j = k then 1 else 0 := by
        intro k
        simp [List.count_cons]
      rcases hrest (l.treeValuesCorrectness.erase j) with ⟨l', hl', hkeep⟩ | ⟨herr, k, hk⟩
      · refine .inl ⟨l', ?_, fun k => ?_⟩
        · exact hl'
        · have hkeep : (l.treeValuesCorrectness.erase j).count k =
              l'.treeValuesCorrectness.count k + ops.count (.delete, k) := hkeep k
          rw [count_erase_add hj, hstep]
          omega
      · refine .inr ⟨herr, k, ?_⟩
        have hk : (l.treeValuesCorrectness.erase j).count k < ops.count (.delete, k) := hk
        rw [count_erase_add hj, hstep]
        omega
    · have hstep : ∀ k, ((type, j) :: ops).count (.delete, k) = ops.count (.delete, k) := fun k =>
        List.count_cons_of_ne fun heq => htype (congrArg Prod.fst heq)
      simp only [hstep, if_neg htype]
      exact hrest l.treeValuesCorrectness

-- ---------------------------------------------------------------------------
-- Both files
-- ---------------------------------------------------------------------------

theorem nodup_mem_iff : (values.Nodup ∧ ∀ k, k ∈ values ↔ k ∈ S) ↔
    ∀ k, values.count k = if k ∈ S then 1 else 0 := by
  constructor
  · rintro ⟨hnd, hmem⟩ k
    by_cases hk : k ∈ S
    · rw [if_pos hk]
      exact List.count_eq_one_of_mem hnd ((hmem k).mpr hk)
    · rw [if_neg hk]
      exact List.count_eq_zero.mpr ((hmem k).not.mpr hk)
  · intro hcount
    refine ⟨List.nodup_iff_count_le_one.mpr fun k => ?_, fun k => ?_⟩
    · rw [hcount]
      split <;> omega
    · rw [← List.count_pos_iff, hcount]
      split <;> simp_all

/-- The harness expects the right set for exactly these files: for each key the create
    lines are as many as the delete lines, or one more if the key is there in the end,
    unless the create file has a key twice and the fine-grained tree stops at it. -/
theorem expectsSet_iff (hcreate : List.Forall₂ NamesKey createFile created)
    (htrace : List.Forall₂ IsLine testFile ops) :
    ExpectsSet performFGTest createFile testFile created ops ↔
      performFGTest = true ∧ ¬ created.Nodup ∨ ∀ k, Balanced created ops k := by
  have hread := readCreate performFGTest hcreate
  unfold ExpectsSet initHarness
  split at hread
  · next hdup =>
    rw [hread]
    simp [hdup, bind, Except.bind]
  · next hdup =>
    obtain ⟨tree, htree⟩ := hread
    rw [htree]
    simp only [hdup, false_or, bind, Except.bind]
    rcases readTrace (l := { Loaded.empty with tree := tree, treeValuesCorrectness := created }) htrace
      with ⟨l', hl', hkeep⟩ | ⟨herr, k, hk⟩
    · rw [hl']
      simp only [nodup_mem_iff]
      refine forall_congr' fun k => ?_
      have := hkeep k
      rw [balanced_iff]
      simp only at this
      omega
    · rw [herr]
      simp only [ne_eq, not_true_eq_false, false_iff]
      intro hall
      have := balanced_iff.mp (hall k)
      simp only at hk
      omega

/-- 3 and 5 are created, 3 is inserted again, and 5 is deleted. -/
theorem expectsSet_delete : ExpectsSet true ["insert 3".toList, "insert 5".toList]
    ["insert 3".toList, "search 3".toList, "delete 5".toList] [3, 5]
    [(.insert, 3), (.search, 3), (.delete, 5)] := by
  have hcreate : List.Forall₂ NamesKey ["insert 3".toList, "insert 5".toList] [3, 5] :=
    .cons ⟨" 3".toList, rfl, by decide⟩ (.cons ⟨" 5".toList, rfl, by decide⟩ .nil)
  have htrace : List.Forall₂ IsLine ["insert 3".toList, "search 3".toList, "delete 5".toList]
      [(.insert, 3), (.search, 3), (.delete, 5)] :=
    .cons ⟨by decide, " 3".toList, rfl, by decide⟩ (.cons ⟨by decide, " 3".toList, rfl, by decide⟩
      (.cons ⟨by decide, " 5".toList, rfl, by decide⟩ .nil))
  refine (expectsSet_iff hcreate htrace).mpr (.inr fun k => ?_)
  by_cases h3 : k = 3
  · subst h3
    rfl
  by_cases h5 : k = 5
  · subst h5
    rfl
  · simp [Balanced, lastChange, Ne.symm h3, Ne.symm h5]

/-- A key that the trace inserts is not put into the list. -/
theorem not_expectsSet : ¬ ∀ performFGTest createFile testFile created ops,
    List.Forall₂ NamesKey createFile created → List.Forall₂ IsLine testFile ops →
      ExpectsSet performFGTest createFile testFile created ops := by
  intro hall
  have hexpects := hall true [] ["insert 7".toList] [] [(.insert, 7)] .nil
    (.cons ⟨by decide, " 7".toList, rfl, by decide⟩ .nil)
  exact absurd ((hexpects.2 7).mpr (by decide)) (by decide)

end Harness
