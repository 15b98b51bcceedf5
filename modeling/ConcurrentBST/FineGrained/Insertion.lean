-- SUMMARY: One thread that inserts keys builds the tree of unbalanced insertion.
import ConcurrentBST.Library.Alone
import ConcurrentBST.Library.Insertion
import ConcurrentBST.FineGrained.Sequential

/-!
# The shape of the tree

`locked_acts_as_set` says which keys are in the tree, but not where. A call of
`insert` that is not disturbed hangs a leaf into the memory, and since the tree
is sorted before and after, there is one place only where the leaf can be.
-/

namespace FineGrained

open Threads BinaryTree

variable {n i : Nat} {m m₀ : Mem} {t : Tid} {k : Int} {x y c : Addr} {d : Bool} {S : Set Int}
  {tree tree' : BinaryTree Addr} {ks : List Int} {T : BinaryTree Int}

/-- `m` is `m₀` with one more leaf, which has the key `k`. -/
def AddsLeaf (m₀ : Mem) (k : Int) (m : Mem) : Prop :=
  ∃ leaf, m₀.allocated leaf = false ∧ m.allocated leaf = true ∧ m.key leaf = k ∧
    (∀ d, m.childPtr leaf d = none) ∧ (∀ y, m₀.allocated y = true → m.key y = m₀.key y) ∧
    (∀ y d, m₀.allocated y = true → (m.childPtr y d).filter (· ≠ leaf) = m₀.childPtr y d) ∧
    (ptr m.gRoot).filter (· ≠ leaf) = ptr m₀.gRoot

/-- The call that is made in a step. -/
def callOf : Action Call Addr → Option Call
  | .invoke call => some call
  | _ => none

/-- The calls that have been made before step `i`. -/
def invoked (e : system.Exec n) (i : Nat) : List Call :=
  (List.range i).filterMap fun j => callOf (e.label j).2

/-- In the run thread `t` alone inserts the keys of `ks`, or the first ones of them, in
    this order. -/
structure InsertsInOrder (e : system.Exec n) (t : Tid) (ks : List Int) : Prop where
  alone : ∀ j < n, (e.label j).1 = t
  calls : invoked e n <+: ks.map .insert

/-- Each call returns, none fails its assertion, and in the end the tree is `T`. -/
structure BuildsTree (e : system.Exec n) (t : Tid) (ks : List Int) (T : BinaryTree Int) : Prop where
  safe : ∀ i ≤ n, ∀ call rest, (e.state i).thread t ≠ .running call (.act .assertFail rest)
  returns : ∀ i < n, ∀ call, e.label i = (t, .invoke call) → Completes t call (e.state (i + 1))
  shape : (e.state n).thread t = .idle → invoked e n = ks.map .insert →
    ∃ S tree, (e.state n).mem.Represents S tree ∧ tree.map (e.state n).mem.key = T

-- ---------------------------------------------------------------------------
-- Memory
-- ---------------------------------------------------------------------------

theorem Mem.Represents.root_mem (h : m.Represents S tree) (h0 : m.gRoot ≠ 0) :
    m.gRoot ∈ tree.inorder :=
  h.unfolds.mem_inorder.mpr ⟨[], if_neg h0⟩

theorem Mem.Represents.child_mem (h : m.Represents S tree) (hx : x ∈ tree.inorder)
    (h0 : (m.node x).child d ≠ 0) : (m.node x).child d ∈ tree.inorder := by
  obtain ⟨path, hpath⟩ := h.unfolds.mem_inorder.mp hx
  refine h.unfolds.mem_inorder.mpr ⟨path ++ [d], ?_⟩
  rw [follow_append, hpath]
  exact if_neg h0

/-- No address in the tree is that of a node which has not been allocated. -/
theorem Mem.Represents.ne_fresh {leaf : Addr} (h : m.Represents S tree)
    (hfresh : m.allocated leaf = false) (hx : x ∈ tree.inorder) : x ≠ leaf := by
  rintro rfl
  exact absurd ((h.allocated x).mpr hx) (by simp [hfresh])

-- ---------------------------------------------------------------------------
-- The leaf
-- ---------------------------------------------------------------------------

/-- In a sorted tree the new leaf is where insertion puts it. -/
theorem AddsLeaf.insertKey (h : AddsLeaf m₀ k m) (h₀ : m₀.Represents S tree)
    (ht : Unfolds m.childPtr (ptr m.gRoot) tree') (hsorted : (tree'.inorder.map m.key).Pairwise (· < ·))
    (hall : ∀ x, m.allocated x = true → x ∈ tree'.inorder) :
    BinaryTree.insertKey k (tree.map m₀.key) = some (tree'.map m.key) := by
  obtain ⟨leaf, hfresh, halloc, hkey, hleaf, hkeys, hslots, hroot⟩ := h
  have hpruned : tree'.prune (· = leaf) = tree := by
    have hprune := ht.prune (p := (· = leaf))
    simp only [← decide_not] at hprune
    rw [hroot] at hprune
    refine (h₀.unfolds.congr fun x hx d => ?_).unique hprune |>.symm
    exact hslots x d ((h₀.allocated x).mpr hx)
  have hsame : tree.map m.key = tree.map m₀.key := map_congr fun x hx =>
    hkeys x ((h₀.allocated x).mpr hx)
  have hinsert := insertKey_prune ht hsorted hleaf (hall leaf halloc)
  rwa [hpruned, hsame, hkey] at hinsert

-- ---------------------------------------------------------------------------
-- A call of insert
-- ---------------------------------------------------------------------------

/-- Nothing but locks has changed. -/
def OnlyLocks (m₀ m : Mem) : Prop := SameFields m₀ m ∧ m.allocated = m₀.allocated

/-- What `insert` does before it writes, with the nodes of `tree`. -/
def Descends (m₀ : Mem) (k : Int) (tree : BinaryTree Addr) (f : Fn) (m : Mem) : Prop :=
  ∃ x ∈ tree.inorder, f = .insert k x ∧ OnlyLocks m₀ m

/-- `insert` in the memory `m₀`, alone. -/
abbrev InsertWlp (t : Tid) (m₀ : Mem) (k : Int) (tree : BinaryTree Addr) : Prog → Mem → Prop :=
  lang.wlp t (fun a _ => a ≠ .assertFail) (Descends m₀ k tree) fun _ m => AddsLeaf m₀ k m

theorem lang_exec : lang.exec = exec := rfl

theorem OnlyLocks.setLock {l : Addr} {o : Option Tid} (h : OnlyLocks m₀ m) :
    OnlyLocks m₀ (m.setLock l o) := h

theorem filter_ptr {a leaf : Addr} (h : a ≠ leaf) : (ptr a).filter (· ≠ leaf) = ptr a := by
  unfold ptr
  split
  · rfl
  · simp [h]

/-- The new node hangs from a slot that was empty. -/
theorem addsLeaf_child {leaf l : Addr} (h₀ : m₀.Represents S tree) (h : OnlyLocks m₀ m)
    (hx : x ∈ tree.inorder) (hnone : (m.node x).child d = 0) (hfresh : m.allocatable leaf = true) :
    AddsLeaf m₀ k ((((m.alloc leaf ⟨k, 0, 0, x⟩).setNode x
      (((m.alloc leaf ⟨k, 0, 0, x⟩).node x).setChild d leaf))).setLock l none) := by
  obtain ⟨⟨hnode, hroot⟩, halloc⟩ := h
  simp only [Mem.allocatable, Bool.and_eq_true, bne_iff_ne, Bool.not_eq_true', halloc] at hfresh
  obtain ⟨h0, hfresh⟩ := hfresh
  have hxl : x ≠ leaf := h₀.ne_fresh hfresh hx
  have hin : ∀ {y}, m₀.allocated y = true → y ∈ tree.inorder := fun hy => (h₀.allocated _).mp hy
  have hroot' : m₀.gRoot ≠ leaf := by
    intro heq
    exact h₀.ne_fresh hfresh (h₀.root_mem fun h0' => h0 (heq ▸ h0')) heq
  have hchild : ∀ {y} e, m₀.allocated y = true → (m₀.node y).child e ≠ leaf := by
    intro y e hy heq
    exact h₀.ne_fresh hfresh (h₀.child_mem (hin hy) fun h0' => h0 (heq ▸ h0')) heq
  refine ⟨leaf, hfresh, ?_, ?_, fun e => ?_, fun y hy => ?_, fun y e hy => ?_, ?_⟩
  · simp [Mem.setLock, Mem.setNode, Mem.alloc]
  · simp [Mem.key, Mem.setLock, Mem.setNode, Mem.alloc, Function.update_of_ne hxl.symm]
  · cases e <;>
      simp [Mem.childPtr, Mem.setLock, Mem.setNode, Mem.alloc, Function.update_of_ne hxl.symm,
        Node.child, ptr]
  · have hyl := h₀.ne_fresh hfresh (hin hy)
    by_cases hyx : y = x
    · subst hyx
      simp [Mem.key, Mem.setLock, Mem.setNode, Mem.alloc, Function.update_of_ne hyl, hnode]
    · simp [Mem.key, Mem.setLock, Mem.setNode, Mem.alloc, Function.update_of_ne hyl,
        Function.update_of_ne hyx, hnode]
  · have hyl := h₀.ne_fresh hfresh (hin hy)
    by_cases hyx : y = x
    · subst hyx
      simp only [Mem.childPtr, Mem.setLock, Mem.setNode, Mem.alloc, Function.update_self,
        Function.update_of_ne hyl, Node.setChild_child, hnode]
      split
      · next heq =>
        subst heq
        rw [hnode] at hnone
        simp [hnone, ptr, h0]
      · exact filter_ptr (hchild e hy)
    · simp only [Mem.childPtr, Mem.setLock, Mem.setNode, Mem.alloc, Function.update_of_ne hyl,
        Function.update_of_ne hyx, hnode]
      exact filter_ptr (hchild e hy)
  · simp only [Mem.setLock, Mem.setNode, Mem.alloc, hroot]
    exact filter_ptr hroot'

/-- The new node is the root of a tree that was empty. -/
theorem addsLeaf_root {leaf l : Addr} (h₀ : m₀.Represents S tree) (h : OnlyLocks m₀ m)
    (h0 : m.gRoot = 0) (hfresh : m.allocatable leaf = true) :
    AddsLeaf m₀ k (({ m.alloc leaf ⟨k, 0, 0, 0⟩ with gRoot := leaf } : Mem).setLock l none) := by
  obtain ⟨⟨hnode, hroot⟩, halloc⟩ := h
  simp only [Mem.allocatable, Bool.and_eq_true, bne_iff_ne, Bool.not_eq_true', halloc] at hfresh
  obtain ⟨hl0, hfresh⟩ := hfresh
  rw [hroot] at h0
  -- Nothing is allocated.
  have hnil : tree = .nil := by
    have hunfolds := h₀.unfolds
    rw [h0] at hunfolds
    cases hunfolds
    rfl
  have hnone : ∀ {y}, m₀.allocated y ≠ true := by
    intro y hy
    have hmem := (h₀.allocated y).mp hy
    rw [hnil] at hmem
    cases hmem
  refine ⟨leaf, hfresh, ?_, ?_, fun e => ?_, fun y hy => absurd hy hnone,
    fun y e hy => absurd hy hnone, ?_⟩
  · simp [Mem.setLock, Mem.alloc]
  · simp [Mem.key, Mem.setLock, Mem.alloc]
  · cases e <;> simp [Mem.childPtr, Mem.setLock, Mem.alloc, Node.child, ptr]
  · simp [Mem.setLock, Mem.alloc, h0, ptr, hl0]

theorem insertWlp_side (h₀ : m₀.Represents S tree) (h : OnlyLocks m₀ m) (hx : x ∈ tree.inorder) :
    InsertWlp t m₀ k tree (insertSide k x d) m := by
  have hchild := h₀.child_mem (d := d) hx
  have hnode : m.node = m₀.node := h.1.1
  simp [insertSide, exec, lang_exec, Descends]
  split
  · next hnone => exact fun leaf hfresh => addsLeaf_child h₀ h hx hnone hfresh
  · next hsome =>
    rw [hnode] at hsome
    refine fun _ => ⟨?_, h⟩
    show (m.node x).child d ∈ tree.inorder
    rw [hnode]
    exact hchild hsome

/-- At every node the search for the key goes on, since the key is not there. -/
theorem insertWlp_from (h₀ : m₀.Represents S tree) (hk : k ∉ S) (h : OnlyLocks m₀ m)
    (hx : x ∈ tree.inorder) : InsertWlp t m₀ k tree (insertFrom k x) m := by
  have hleft : InsertWlp t m₀ k tree (insertSide k x true) m := insertWlp_side h₀ h hx
  have hright : InsertWlp t m₀ k tree (insertSide k x false) m := insertWlp_side h₀ h hx
  have hne : (m.node x).value ≠ k := by
    rintro rfl
    refine hk ((h₀.keys _).mp (List.mem_map.mpr ⟨x, hx, ?_⟩))
    rw [Mem.key, h.1.1]
  simp [insertFrom, exec, lang_exec]
  split
  · exact hleft
  · next hlt =>
    have hgt : (m.node x).value < k := lt_of_le_of_ne (not_lt.mp hlt) hne
    exact ⟨hgt, hright⟩

/-- A call of `insert` with a new key hangs a leaf into the tree. -/
theorem insertWlp_start (h₀ : m₀.Represents S tree) :
    InsertWlp t m₀ k tree (insert k) m₀ := by
  simp [insert, enter, exec, lang_exec, Descends]
  intro hfree
  split
  · next h0 =>
    intro leaf hfresh
    exact addsLeaf_root h₀ ⟨⟨rfl, rfl⟩, rfl⟩ h0 hfresh
  · next h0 => exact fun _ => ⟨h₀.root_mem h0, ⟨rfl, rfl⟩, rfl⟩

/-- The functions it calls keep to the same. -/
theorem insertWlp_body (h₀ : m₀.Represents S tree) (hk : k ∉ S) (f : Fn) (m : Mem)
    (hf : Descends m₀ k tree f m) : InsertWlp t m₀ k tree (lang.body f) m := by
  obtain ⟨x, hx, rfl, h⟩ := hf
  exact insertWlp_from h₀ hk h hx

-- ---------------------------------------------------------------------------
-- Whole runs
-- ---------------------------------------------------------------------------

theorem invoked_succ (e : system.Exec n) (i : Nat) :
    invoked e (i + 1) = invoked e i ++ (callOf (e.label i).2).toList := by
  rw [invoked, List.range_succ, List.filterMap_append]
  cases h : callOf (e.label i).2 <;> simp [invoked, h]

theorem invoked_mono {e : system.Exec n} {j : Nat} (hij : i ≤ j) : invoked e i <+: invoked e j := by
  induction j, hij using Nat.le_induction with
  | base => exact List.prefix_rfl
  | succ j _ ih => exact ih.trans (invoked_succ e j ▸ List.prefix_append ..)

/-- The tree between two calls, and what is known of a call in progress, after the
    insertion of the keys of `done`. -/
inductive Inserted (t : Tid) (done : List Int) (s : State) : Prop where
  | idle {S : Set Int} {tree : BinaryTree Addr} : s.thread t = .idle → s.mem.Represents S tree →
      insertKeys done .nil = some (tree.map s.mem.key) → Inserted t done s
  | running {S : Set Int} {tree : BinaryTree Addr} {m₀ : Mem} {before : List Int} {k : Int}
      {p : Prog} : done = before ++ [k] → m₀.Represents S tree →
      insertKeys before .nil = some (tree.map m₀.key) → k ∉ S →
      s.thread t = .running (.insert k) p → InsertWlp t m₀ k tree p s.mem → Inserted t done s

/-- The keys that have been inserted are those of the tree. -/
theorem mem_of_insertKeys {done : List Int} (h : m.Represents S tree)
    (hdone : insertKeys done .nil = some (tree.map m.key)) : k ∈ S ↔ k ∈ done := by
  have hmem := mem_insertKeys hdone (j := k)
  rw [inorder_map, h.keys] at hmem
  simpa [BinaryTree.inorder] using hmem

theorem Inserted.access {s s' : State} {done : List Int} {fresh : Addr} (h : Inserted t done s)
    (hnext : system.next s (t, .access fresh) = some s') : Inserted t done s' := by
  cases h with
  | idle hidle => simp [Lang.system, Lang.next, hidle] at hnext
  | running hdone h₀ hbefore hk hrun hwlp =>
    obtain ⟨p', hrun', hwlp'⟩ := Lang.wlp_next (insertWlp_body h₀ hk) hrun hwlp hnext
    exact .running hdone h₀ hbefore hk hrun' hwlp'

theorem Inserted.respond {s s' : State} {done : List Int} (h : Inserted t done s)
    (hnext : system.next s (t, .respond) = some s') (hrep : s'.mem.Represents S tree) :
    Inserted t done s' := by
  cases h with
  | idle hidle => simp [Lang.system, Lang.next, hidle] at hnext
  | running hdone h₀ hbefore hk hrun hwlp =>
    simp only [Lang.system, Lang.next] at hnext
    split at hnext
    · next call r hret =>
      cases hnext
      rw [hrun] at hret
      cases hret
      refine .idle (Function.update_self ..) hrep ?_
      have hinsert := AddsLeaf.insertKey hwlp h₀ hrep.unfolds hrep.sorted fun x hx =>
        (hrep.allocated x).mp hx
      rw [hdone, insertKeys_append, hbefore, Option.bind_some, insertKeys, hinsert]
      rfl
    · cases hnext

theorem Inserted.invoke {s s' : State} {done : List Int} (h : Inserted t done s)
    (hnext : system.next s (t, .invoke (.insert k)) = some s') (hk : k ∉ done) :
    Inserted t (done ++ [k]) s' := by
  cases h with
  | running _ _ _ _ hrun => simp [Lang.system, Lang.next, hrun] at hnext
  | idle hidle hrep hdone =>
    simp only [Lang.system, Lang.next, hidle] at hnext
    cases hnext
    exact .running rfl hrep hdone ((mem_of_insertKeys hrep hdone).not.mpr hk)
      (Function.update_self ..) (insertWlp_start hrep)

/-- What has been inserted at each point of the run. By induction on its steps. -/
theorem InsertsInOrder.inserted {e : system.Exec n} {ghost : Nat → Ghost} (h : InsertsInOrder e t ks)
    (H : History e ghost) (hks : insertKeys ks .nil = some T) (hi : i ≤ n) :
    ∃ done, done <+: ks ∧ invoked e i = done.map .insert ∧ Inserted t done (e.state i) := by
  have hnd : ks.Nodup := (insertKeys_sorted .nil hks).1
  induction i with
  | zero =>
    obtain ⟨tree, hrep⟩ := H.represents h.alone hi (by rw [e.start]; rfl)
    refine ⟨[], List.nil_prefix, rfl, .idle (by rw [e.start]; rfl) hrep ?_⟩
    have hnil : tree = .nil := by
      have hunfolds := hrep.unfolds
      rw [e.start] at hunfolds
      cases hunfolds
      rfl
    rw [hnil]
    rfl
  | succ i ih =>
    obtain ⟨done, hdone, hcalls, hins⟩ := ih (by omega)
    have hnext := e.step i hi
    have hthread := h.alone i hi
    have hsucc := invoked_succ e i
    rcases hl : e.label i with ⟨u, action⟩
    rw [hl] at hnext hthread hsucc
    obtain rfl : u = t := hthread
    cases action with
    | access fresh =>
      exact ⟨done, hdone, by rw [hsucc, hcalls]; simp [callOf], hins.access hnext⟩
    | respond =>
      have hidle : (e.state (i + 1)).thread u = .idle := by
        simp only [Lang.system, Lang.next] at hnext
        split at hnext
        · rw [← Option.some.inj hnext]
          exact Function.update_self ..
        · cases hnext
      obtain ⟨tree, hrep⟩ := H.represents h.alone hi hidle
      exact ⟨done, hdone, by rw [hsucc, hcalls]; simp [callOf], hins.respond hnext hrep⟩
    | invoke call =>
      -- The call is the next one of the list.
      have hprefix : invoked e (i + 1) <+: ks.map .insert := (invoked_mono hi).trans h.calls
      obtain ⟨rest, rfl⟩ := hdone
      simp only [hsucc, hcalls, callOf, Option.toList_some, List.map_append,
        List.prefix_append_right_inj] at hprefix
      cases rest with
      | nil => simp at hprefix
      | cons k rest =>
        obtain ⟨rfl, _⟩ := List.cons_prefix_cons.mp hprefix
        have hk : k ∉ done := fun hmem => List.disjoint_of_nodup_append hnd hmem (.head _)
        refine ⟨done ++ [k], ⟨rest, by simp⟩, ?_, hins.invoke hnext hk⟩
        rw [hsucc, hcalls]
        simp [callOf]

theorem Inserted.safe {s : State} {done : List Int} {call : Call} {rest : Unit → Prog}
    (h : Inserted t done s) : s.thread t ≠ .running call (.act .assertFail rest) := by
  intro hassert
  cases h with
  | idle hidle => cases hidle.symm.trans hassert
  | running _ _ _ _ hrun hwlp =>
    rw [hrun] at hassert
    cases hassert
    exact hwlp.1 rfl

theorem InsertsInOrder.returns {e : system.Exec n} {ghost : Nat → Ghost} {call : Call}
    (h : InsertsInOrder e t ks) (H : History e ghost) (hks : insertKeys ks .nil = some T) (hi : i < n)
    (hl : e.label i = (t, .invoke call)) : Completes t call (e.state (i + 1)) := by
  obtain ⟨done, hdone, hcalls, hins⟩ := h.inserted H hks hi.le
  obtain ⟨done', hdone', hcalls', _⟩ := h.inserted H hks hi
  have hnext := e.step i hi
  rw [hl] at hnext
  have hidle : (e.state i).thread t = .idle := by
    simp only [Lang.system, Lang.next] at hnext
    split at hnext
    · assumption
    · cases hnext
  have hall : ∀ u, (e.state i).thread u = .idle := fun u => by
    by_cases hu : u = t
    · rw [hu, hidle]
    · exact others_idle h.alone hi.le hu
  cases hins with
  | running _ _ _ _ hrun => cases hidle.symm.trans hrun
  | idle _ hrep hinserted =>
    have hkeys : (ghost i).keys = _ := (H.represents h.alone hi.le hidle).choose_spec.eq_image.trans
      hrep.eq_image.symm
    refine Explains.completes (H.explains i hi.le) hall (finite_at e hi.le) hrep hkeys (fun k hk => ?_)
      hnext
    -- The key comes after those that are there.
    rw [mem_of_insertKeys hrep hinserted]
    subst hk
    have hsucc := invoked_succ e i
    rw [hcalls, hcalls', hl] at hsucc
    simp only [callOf, Option.toList_some] at hsucc
    have heq : done' = done ++ [k] := by
      have hmap : done'.map Call.insert = (done ++ [k]).map Call.insert := by simpa using hsucc
      exact (List.map_injective_iff.mpr fun a b hab => Call.insert.inj hab) hmap
    have hnd : (done ++ [k]).Nodup := (heq ▸ hdone').sublist.nodup (insertKeys_sorted .nil hks).1
    exact fun hmem => List.disjoint_of_nodup_append hnd hmem (.head _)

/-- A thread that is alone and inserts keys in order builds the tree of these insertions. -/
theorem InsertsInOrder.builds {e : system.Exec n} (h : InsertsInOrder e t ks)
    (hks : insertKeys ks .nil = some T) : BuildsTree e t ks T := by
  obtain ⟨ghost, H⟩ := exists_history e
  refine ⟨fun i hi call rest => ?_, fun i hi call hl => h.returns H hks hi hl,
    fun hidle hcalls => ?_⟩
  · obtain ⟨_, _, _, hins⟩ := h.inserted H hks hi
    exact hins.safe
  · obtain ⟨done, _, hdone, hins⟩ := h.inserted H hks le_rfl
    have heq : done = ks := (List.map_injective_iff.mpr fun a b hab => Call.insert.inj hab)
      (hdone.symm.trans hcalls)
    cases hins with
    | running _ _ _ _ hrun => cases hidle.symm.trans hrun
    | idle _ hrep hinserted =>
      rw [heq, hks] at hinserted
      exact ⟨_, _, hrep, (Option.some.inj hinserted).symm⟩

end FineGrained
