-- SUMMARY: Trees with parent links in the heap, and what insert and search do to them.
import ConcurrentBST.Library.OrderedTree
import ConcurrentBST.Unlocked.Program

/-!
# Trees in the heap

A tree in the heap has parent links, its nodes are allocated and distinct, and
its keys are in order.
-/

namespace Unlocked

open FineGrained (Addr Node)
open BinaryTree

variable {h h' : Heap} {root parent x y z s c fresh : Addr} {val : Int} {fuel : Nat} {d : Bool}
  {t t' l r : BinaryTree Addr}

namespace Heap

def key (h : Heap) (x : Addr) : Int := (h.node x).value

/-- The tree hangs from the pointer `root`, and its root has the parent `parent`. -/
def Linked (h : Heap) : Addr → Addr → BinaryTree Addr → Prop
  | _, root, .nil => root = 0
  | parent, root, .node x l r => root = x ∧ x ≠ 0 ∧ h.allocated x = true ∧
      (h.node x).parent = parent ∧ Linked h x ((h.node x).child true) l ∧
      Linked h x ((h.node x).child false) r

/-- The heap holds the tree, which hangs from the pointer `root`. -/
structure Represents (h : Heap) (root : Addr) (t : BinaryTree Addr) : Prop where
  linked : h.Linked 0 root t
  nodup : t.inorder.Nodup
  ordered : t.Ordered h.key

theorem Linked.congr (ht : h.Linked parent root t)
    (hsame : ∀ x ∈ t.inorder, h'.node x = h.node x ∧ h'.allocated x = h.allocated x) :
    h'.Linked parent root t := by
  induction t generalizing parent root with
  | nil => exact ht
  | node x l r ihl ihr =>
    obtain ⟨hroot, h0, halloc, hparent, hl, hr⟩ := ht
    obtain ⟨hnode, hallocated⟩ := hsame x (by simp)
    refine ⟨hroot, h0, hallocated.trans halloc, by rw [hnode, hparent], ?_, ?_⟩
    · rw [hnode]
      exact ihl hl fun y hy => hsame y (by simp [hy])
    · rw [hnode]
      exact ihr hr fun y hy => hsame y (by simp [hy])

/-- A pointer leads to one tree only. -/
theorem Linked.unique {parent' : Addr} (ht : h.Linked parent root t) (ht' : h.Linked parent' root t') :
    t = t' := by
  induction t generalizing parent parent' root t' with
  | nil =>
    cases t' with
    | nil => rfl
    | node x l r => exact absurd (ht'.1.symm.trans ht) ht'.2.1
  | node x l r ihl ihr =>
    obtain ⟨hroot, h0, _, _, hl, hr⟩ := ht
    cases t' with
    | nil => exact absurd (hroot.symm.trans ht') h0
    | node x' l' r' =>
      obtain ⟨hroot', _, _, _, hl', hr'⟩ := ht'
      obtain rfl : x = x' := hroot.symm.trans hroot'
      rw [ihl hl hl', ihr hr hr']

theorem Linked.mem (ht : h.Linked parent root t) (hx : x ∈ t.inorder) :
    x ≠ 0 ∧ h.allocated x = true := by
  induction t generalizing parent root with
  | nil => cases hx
  | node y l r ihl ihr =>
    obtain ⟨_, h0, halloc, _, hl, hr⟩ := ht
    rcases mem_inorder_node.mp hx with hx | rfl | hx
    · exact ihl hl hx
    · exact ⟨h0, halloc⟩
    · exact ihr hr hx

theorem Linked.root_mem (ht : h.Linked parent root t) (h0 : root ≠ 0) : root ∈ t.inorder := by
  cases t with
  | nil => exact absurd ht h0
  | node x l r => simp [ht.1]

theorem Linked.root_parent (ht : h.Linked parent root t) (h0 : root ≠ 0) :
    (h.node root).parent = parent := by
  cases t with
  | nil => exact absurd ht h0
  | node x l r =>
    obtain ⟨rfl, _, _, hparent, _⟩ := ht
    exact hparent

/-- Where child pointers lead. -/
theorem Linked.child (ht : h.Linked parent root t) (hx : x ∈ t.inorder)
    (h0 : (h.node x).child d ≠ 0) : (h.node x).child d ∈ t.inorder ∧
      (h.node ((h.node x).child d)).parent = x := by
  induction t generalizing parent root with
  | nil => cases hx
  | node y l r ihl ihr =>
    obtain ⟨_, _, _, _, hl, hr⟩ := ht
    rcases mem_inorder_node.mp hx with hx | rfl | hx
    · exact ⟨by simp [(ihl hl hx).1], (ihl hl hx).2⟩
    · cases d with
      | true => exact ⟨by simp [hl.root_mem h0], hl.root_parent h0⟩
      | false => exact ⟨by simp [hr.root_mem h0], hr.root_parent h0⟩
    · exact ⟨by simp [(ihr hr hx).1], (ihr hr hx).2⟩

/-- A node other than the root is the child of its parent, on the side of its key. -/
theorem Linked.parent_slot (ht : h.Linked parent root t) (ho : t.Ordered h.key) (hx : x ∈ t.inorder)
    (hroot : x ≠ root) : ∃ p d, (h.node x).parent = p ∧ p ∈ t.inorder ∧ (h.node p).child d = x ∧
      (h.key x < h.key p ↔ d = true) := by
  induction t generalizing parent root with
  | nil => cases hx
  | node y l r ihl ihr =>
    obtain ⟨rfl, _, _, _, hl, hr⟩ := ht
    obtain ⟨hkl, hkr, hol, hor⟩ := ho
    rcases mem_inorder_node.mp hx with hx | rfl | hx
    · by_cases hc : x = (h.node root).child true
      · have h0 : (h.node root).child true ≠ 0 := hc ▸ (hl.mem hx).1
        refine ⟨root, true, hc ▸ hl.root_parent h0, by simp, hc.symm, ?_⟩
        simpa using hkl x hx
      · obtain ⟨p, d, hp, hmem, hslot⟩ := ihl hl hol hx hc
        exact ⟨p, d, hp, by simp [hmem], hslot⟩
    · exact absurd rfl hroot
    · by_cases hc : x = (h.node root).child false
      · have h0 : (h.node root).child false ≠ 0 := hc ▸ (hr.mem hx).1
        refine ⟨root, false, hc ▸ hr.root_parent h0, by simp, hc.symm, ?_⟩
        simpa using hkr x hx
      · obtain ⟨p, d, hp, hmem, hslot⟩ := ihr hr hor hx hc
        exact ⟨p, d, hp, by simp [hmem], hslot⟩

/-- No node is a child twice. -/
theorem Linked.slot_unique (ht : h.Linked parent root t) (hnd : t.inorder.Nodup)
    (hx : x ∈ t.inorder) (hc : (h.node x).child d ≠ 0) :
    (h.node x).child (!d) ≠ (h.node x).child d := by
  induction t generalizing parent root with
  | nil => cases hx
  | node y l r ihl ihr =>
    obtain ⟨_, _, _, _, hl, hr⟩ := ht
    obtain ⟨hndl, hndr, _, _, hdisj⟩ := nodup_node hnd
    rcases mem_inorder_node.mp hx with hx | rfl | hx
    · exact ihl hl hndl hx
    · intro heq
      cases d with
      | true => exact hdisj _ (hl.root_mem hc) (heq ▸ hr.root_mem (heq ▸ hc))
      | false => exact hdisj _ (heq ▸ hl.root_mem (heq ▸ hc)) (hr.root_mem hc)
    · exact ihr hr hndr hx

-- ---------------------------------------------------------------------------
-- Writes
-- ---------------------------------------------------------------------------

def setChild (h : Heap) (x : Addr) (d : Bool) (c : Addr) : Heap :=
  { h with node := Function.update h.node x ((h.node x).setChild d c) }

def setValue (h : Heap) (x : Addr) (val : Int) : Heap :=
  { h with node := Function.update h.node x { h.node x with value := val } }

def release (h : Heap) (x : Addr) : Heap :=
  { h with allocated := Function.update h.allocated x false }

@[simp] theorem allocated_setChild : (h.setChild x d c).allocated = h.allocated := rfl

@[simp] theorem allocated_setValue : (h.setValue x val).allocated = h.allocated := rfl

@[simp] theorem node_release : (h.release x).node = h.node := rfl

theorem key_setValue : (h.setValue x val).key y = if y = x then val else h.key y := by
  by_cases hyx : y = x
  · simp [setValue, key, hyx]
  · simp [setValue, key, hyx]

@[simp] theorem child_setValue : ((h.setValue x val).node y).child d = (h.node y).child d := by
  by_cases hyx : y = x
  · subst hyx
    simp [setValue, Node.child]
  · simp [setValue, Function.update_of_ne hyx]

@[simp] theorem parent_setValue : ((h.setValue x val).node y).parent = (h.node y).parent := by
  by_cases hyx : y = x
  · simp [setValue, hyx]
  · simp [setValue, Function.update_of_ne hyx]

@[simp] theorem key_setChild : (h.setChild x d c).key y = h.key y := by
  by_cases hyx : y = x
  · simp [setChild, key, hyx]
  · simp [setChild, key, Function.update_of_ne hyx]

@[simp] theorem parent_setChild : ((h.setChild x d c).node y).parent = (h.node y).parent := by
  by_cases hyx : y = x
  · simp [setChild, hyx]
  · simp [setChild, Function.update_of_ne hyx]

theorem child_setChild {e : Bool} : ((h.setChild x d c).node y).child e =
    if y = x ∧ e = d then c else (h.node y).child e := by
  by_cases hyx : y = x
  · subst hyx
    simp [setChild]
  · simp [setChild, hyx]

@[simp] theorem key_release : (h.release x).key y = h.key y := rfl

end Heap

-- ---------------------------------------------------------------------------
-- insert
-- ---------------------------------------------------------------------------

theorem read_of_allocated (halloc : h.allocated x = true) : h.read x = some (h.node x) := if_pos halloc

theorem write_of_allocated {f : Node → Node} (halloc : h.allocated x = true) :
    h.write x f = some { h with node := Function.update h.node x (f (h.node x)) } := if_pos halloc

/-- What `insert` does to the tree `t` below a pointer, with the tree `t'` as result. -/
structure Inserts (val : Int) (fresh parent root : Addr) (h : Heap) (t t' : BinaryTree Addr)
    (c : Addr) (h' : Heap) : Prop where
  run : ∀ fuel, t.height < fuel → insert val fresh fuel root parent h = some (c, h')
  linked : h'.Linked parent c t'
  key_fresh : h'.key fresh = val
  key : ∀ y, y ≠ fresh → h'.key y = h.key y
  /-- Nothing changes outside the tree. -/
  frame : ∀ y, y ≠ fresh → y ∉ t.inorder → h'.node y = h.node y ∧ h'.allocated y = h.allocated y

/-- `insert` at the node `x`, which calls itself for the side `d`. The other subtree stays as it is. -/
theorem insert_side (parent : Addr) {h₁ : Heap} {sub sub' other : BinaryTree Addr}
    (hside : Inserts val fresh x ((h.node x).child d) h sub sub' c h₁)
    (hother : h.Linked x ((h.node x).child (!d)) other) (h0 : x ≠ 0) (halloc : h.allocated x = true)
    (hfresh : h.allocatable fresh = true) (hd : decide (val < h.key x) = d) (hxs : x ∉ sub.inorder)
    (hxs' : x ∉ sub'.inorder) (hxo : x ∉ other.inorder) (hdisj : ∀ y ∈ other.inorder, y ∉ sub.inorder) :
    (∀ fuel, sub.height < fuel →
      insert val fresh (fuel + 1) x parent h = some (x, h₁.setChild x d c)) ∧
    (h₁.setChild x d c).Linked x (((h₁.setChild x d c).node x).child d) sub' ∧
    (h₁.setChild x d c).Linked x (((h₁.setChild x d c).node x).child (!d)) other ∧
    (h₁.setChild x d c).allocated x = true ∧
    ((h₁.setChild x d c).node x).parent = (h.node x).parent ∧
    (h₁.setChild x d c).key fresh = val ∧
    (∀ y, y ≠ fresh → (h₁.setChild x d c).key y = h.key y) ∧
    ∀ y, y ≠ fresh → y ≠ x → y ∉ sub.inorder →
      (h₁.setChild x d c).node y = h.node y ∧ (h₁.setChild x d c).allocated y = h.allocated y := by
  have hfresh' : ∀ {y}, h.allocated y = true → y ≠ fresh := by
    rintro y hy rfl
    simp [Heap.allocatable, hy] at hfresh
  have hxf := hfresh' halloc
  obtain ⟨hnode, hallocated⟩ := hside.frame x hxf hxs
  have halloc₁ : h₁.allocated x = true := hallocated.trans halloc
  have hframe : ∀ y, y ≠ fresh → y ≠ x → y ∉ sub.inorder →
      (h₁.setChild x d c).node y = h.node y ∧ (h₁.setChild x d c).allocated y = h.allocated y := by
    intro y hyf hyx hy
    simpa [Heap.setChild, Function.update_of_ne hyx] using hside.frame y hyf hy
  have hself : (h₁.setChild x d c).node x = (h.node x).setChild d c := by
    simp [Heap.setChild, hnode]
  refine ⟨fun fuel hfuel => ?_, ?_, ?_, halloc₁, ?_, ?_, fun y hy => ?_, hframe⟩
  · have hdec : decide (val < (h.node x).value) = d := hd
    simp only [insert, if_neg h0, read_of_allocated halloc, bind, Option.bind, hdec]
    rw [hside.run fuel hfuel]
    simp only [write_of_allocated halloc₁]
    rfl
  · rw [hself, Node.setChild_child, if_pos rfl]
    refine hside.linked.congr fun y hy => ?_
    have hyx : y ≠ x := fun heq => hxs' (heq ▸ hy)
    simp [Heap.setChild, Function.update_of_ne hyx]
  · rw [hself, Node.setChild_child, if_neg (by simp)]
    refine hother.congr fun y hy => hframe y (hfresh' (hother.mem hy).2) ?_ (hdisj y hy)
    exact fun heq => hxo (heq ▸ hy)
  · rw [hself, Node.setChild_parent]
  · simpa [Heap.key, Heap.setChild, Function.update_of_ne hxf.symm] using hside.key_fresh
  · by_cases hyx : y = x
    · rw [hyx, Heap.key, hself, Node.setChild_value]
      rfl
    · simpa [Heap.key, Heap.setChild, Function.update_of_ne hyx] using hside.key y hy

/-- The new leaf goes where it belongs. By induction on the tree. -/
theorem insert_spec (val : Int) (ht : h.Linked parent root t) (hnd : t.inorder.Nodup)
    (hfresh : h.allocatable fresh = true) :
    ∃ c h', Inserts val fresh parent root h t (t.hang h.key val fresh) c h' := by
  induction t generalizing parent root with
  | nil =>
    obtain rfl : root = 0 := ht
    have h0 : fresh ≠ 0 := by
      simp only [Heap.allocatable, Bool.and_eq_true, bne_iff_ne] at hfresh
      exact hfresh.1
    refine ⟨fresh, ⟨Function.update h.node fresh ⟨val, 0, 0, parent⟩,
      Function.update h.allocated fresh true⟩, fun fuel hfuel => ?_, ?_, ?_, fun y hy => ?_,
      fun y hy _ => ?_⟩
    · obtain ⟨fuel, rfl⟩ := Nat.exists_eq_succ_of_ne_zero (Nat.ne_zero_of_lt hfuel)
      exact insert_null
    · simp [hang, Heap.Linked, h0, Node.child]
    · simp [Heap.key]
    · simp [Heap.key, hy]
    · simp [hy]
  | node x l r ihl ihr =>
    obtain ⟨rfl, h0, halloc, hparent, hl, hr⟩ := ht
    obtain ⟨hndl, hndr, hxl, hxr, hdisj⟩ := nodup_node hnd
    have hxf : root ≠ fresh := by
      rintro rfl
      simp [Heap.allocatable, halloc] at hfresh
    have hout : ∀ {sub : BinaryTree Addr}, root ∉ sub.inorder →
        root ∉ (sub.hang h.key val fresh).inorder := by
      intro sub hsub
      rw [mem_hang, not_or]
      exact ⟨hxf, hsub⟩
    by_cases hlt : val < h.key root
    · obtain ⟨c, h₁, hside⟩ := ihl hl hndl
      obtain ⟨hrun, hsub, hother, halloc', hparent', hkey, hkeys, hframe⟩ :=
        insert_side parent hside hr h0 halloc hfresh (decide_eq_true hlt) hxl (hout hxl)
          hxr fun y hy hyl => hdisj y hyl hy
      refine ⟨root, _, fun fuel hfuel => ?_, ?_, hkey, hkeys, fun y hy hy' => ?_⟩
      · obtain ⟨fuel, rfl⟩ := Nat.exists_eq_succ_of_ne_zero (Nat.ne_zero_of_lt hfuel)
        rw [height] at hfuel
        exact hrun fuel (by omega)
      · rw [hang, if_pos hlt]
        exact ⟨rfl, h0, halloc', hparent'.trans hparent, hsub, hother⟩
      · rw [mem_inorder_node, not_or, not_or] at hy'
        exact hframe y hy hy'.2.1 hy'.1
    · obtain ⟨c, h₁, hside⟩ := ihr hr hndr
      obtain ⟨hrun, hsub, hother, halloc', hparent', hkey, hkeys, hframe⟩ :=
        insert_side parent hside hl h0 halloc hfresh (decide_eq_false hlt) hxr (hout hxr)
          hxl hdisj
      refine ⟨root, _, fun fuel hfuel => ?_, ?_, hkey, hkeys, fun y hy hy' => ?_⟩
      · obtain ⟨fuel, rfl⟩ := Nat.exists_eq_succ_of_ne_zero (Nat.ne_zero_of_lt hfuel)
        rw [height] at hfuel
        exact hrun fuel (by omega)
      · rw [hang, if_neg hlt]
        exact ⟨rfl, h0, halloc', hparent'.trans hparent, hother, hsub⟩
      · rw [mem_inorder_node, not_or, not_or] at hy'
        exact hframe y hy hy'.2.1 hy'.2.2

/-- More fuel gives the same result. -/
theorem insert_mono {p : Addr × Heap} (more : Nat)
    (hrun : insert val fresh fuel root parent h = some p) :
    insert val fresh (fuel + more) root parent h = some p := by
  induction fuel generalizing root parent h p with
  | zero => cases hrun
  | succ fuel ih =>
    rw [Nat.succ_add]
    unfold insert at hrun ⊢
    split at hrun
    · next h0 => rwa [if_pos h0]
    · next h0 =>
      rw [if_neg h0]
      simp only [bind, Option.bind_eq_some_iff] at hrun ⊢
      obtain ⟨n, hn, n', hn', q, hq, hrest⟩ := hrun
      exact ⟨n, hn, n', hn', q, ih hq, hrest⟩

theorem Heap.Represents.insert (val : Int) (ht : h.Represents root t) (hfresh : h.allocatable fresh = true) :
    ∃ c h', (∀ fuel, t.height < fuel → Unlocked.insert val fresh fuel root 0 h = some (c, h')) ∧
      h'.Represents c (t.hang h.key val fresh) := by
  obtain ⟨c, h', hins⟩ := insert_spec val ht.linked ht.nodup hfresh
  have hout : fresh ∉ t.inorder := by
    intro hmem
    simp [Heap.allocatable, (ht.linked.mem hmem).2] at hfresh
  have hkeys : ∀ y ∈ t.inorder, h'.key y = h.key y := fun y hy =>
    hins.key y fun heq => hout (heq ▸ hy)
  refine ⟨c, h', hins.run, hins.linked, nodup_hang ht.nodup hout, ?_⟩
  rw [← hang_congr hkeys]
  exact (ht.ordered.congr hkeys).hang hins.key_fresh

-- ---------------------------------------------------------------------------
-- search and get_inorder_successor
-- ---------------------------------------------------------------------------

theorem search_spec (val : Int) (ht : h.Linked parent root t) (ho : t.Ordered h.key) :
    ∃ z, (∀ fuel, t.height < fuel → search val h fuel root = some z) ∧
      (z = 0 ∧ val ∉ t.inorder.map h.key ∨ z ∈ t.inorder ∧ h.key z = val) := by
  induction t generalizing parent root with
  | nil =>
    obtain rfl : root = 0 := ht
    refine ⟨0, fun fuel hfuel => ?_, .inl ⟨rfl, by simp [inorder]⟩⟩
    obtain ⟨fuel, rfl⟩ := Nat.exists_eq_succ_of_ne_zero (Nat.ne_zero_of_lt hfuel)
    exact search_null
  | node x l r ihl ihr =>
    obtain ⟨rfl, h0, halloc, _, hl, hr⟩ := ht
    have hrun : ∀ fuel, search val h (fuel + 1) root = if val = h.key root then some root
        else if val < h.key root then search val h fuel ((h.node root).child true)
        else search val h fuel ((h.node root).child false) := by
      intro fuel
      rw [search, if_neg h0, read_of_allocated halloc]
      rfl
    by_cases heq : val = h.key root
    · refine ⟨root, fun fuel hfuel => ?_, .inr ⟨by simp, heq.symm⟩⟩
      obtain ⟨fuel, rfl⟩ := Nat.exists_eq_succ_of_ne_zero (Nat.ne_zero_of_lt hfuel)
      rw [hrun, if_pos heq]
    by_cases hlt : val < h.key root
    · obtain ⟨z, hz, hfound⟩ := ihl hl ho.2.2.1
      refine ⟨z, fun fuel hfuel => ?_, ?_⟩
      · obtain ⟨fuel, rfl⟩ := Nat.exists_eq_succ_of_ne_zero (Nat.ne_zero_of_lt hfuel)
        rw [height] at hfuel
        rw [hrun, if_neg heq, if_pos hlt]
        exact hz fuel (by omega)
      · rw [ho.mem_keys_left hlt]
        exact hfound.imp_right (And.imp_left fun hmem => by simp [hmem])
    · have hgt : h.key root < val := lt_of_le_of_ne (not_lt.mp hlt) (Ne.symm heq)
      obtain ⟨z, hz, hfound⟩ := ihr hr ho.2.2.2
      refine ⟨z, fun fuel hfuel => ?_, ?_⟩
      · obtain ⟨fuel, rfl⟩ := Nat.exists_eq_succ_of_ne_zero (Nat.ne_zero_of_lt hfuel)
        rw [height] at hfuel
        rw [hrun, if_neg heq, if_neg hlt]
        exact hz fuel (by omega)
      · rw [ho.mem_keys_right hgt]
        exact hfound.imp_right (And.imp_left fun hmem => by simp [hmem])

theorem search_mono (more : Nat) (hrun : search val h fuel root = some z) :
    search val h (fuel + more) root = some z := by
  induction fuel generalizing root with
  | zero => cases hrun
  | succ fuel ih =>
    rw [Nat.succ_add]
    unfold search at hrun ⊢
    split at hrun
    · next h0 => rwa [if_pos h0]
    · next h0 =>
      rw [if_neg h0]
      simp only [bind, Option.bind_eq_some_iff] at hrun ⊢
      obtain ⟨n, hn, hrest⟩ := hrun
      refine ⟨n, hn, ?_⟩
      split at hrest
      · next heq => rwa [if_pos heq]
      · next heq =>
        rw [if_neg heq]
        split at hrest
        · next hlt =>
          rw [if_pos hlt]
          exact ih hrest
        · next hlt =>
          rw [if_neg hlt]
          exact ih hrest

/-- The loop ends at the leftmost node. -/
theorem leftmostFrom_spec (ht : h.Linked parent root t) (hs : t.leftmost = some s)
    (hfuel : t.height < fuel) : leftmostFrom h fuel root = some s := by
  induction fuel generalizing parent root t with
  | zero => omega
  | succ fuel ih =>
    cases t with
    | nil => cases hs
    | node x l r =>
      obtain ⟨rfl, h0, halloc, _, hl, _⟩ := ht
      rw [height] at hfuel
      have hleft : (h.node root).left = (h.node root).child true := rfl
      simp only [leftmostFrom, read_of_allocated halloc, bind, Option.bind, hleft]
      cases l with
      | nil =>
        cases hs
        have hnil : (h.node s).child true = 0 := hl
        rw [if_neg (by simp [hnil])]
        rfl
      | node y l₁ l₂ =>
        have hne : (h.node root).child true ≠ 0 := by
          rw [hl.1]
          exact hl.2.1
        have hsome : (BinaryTree.node y l₁ l₂).leftmost = some s := by
          rw [leftmost] at hs
          obtain ⟨s', hs'⟩ := leftmost_isSome (t := .node y l₁ l₂) (by simp [inorder])
          rw [hs'] at hs
          rw [hs', ← hs]
          rfl
        rw [if_pos hne]
        exact ih hl hsome (by omega)

theorem leftmostFrom_mono (more : Nat) (hrun : leftmostFrom h fuel root = some s) :
    leftmostFrom h (fuel + more) root = some s := by
  induction fuel generalizing root with
  | zero => cases hrun
  | succ fuel ih =>
    rw [Nat.succ_add]
    simp only [leftmostFrom, bind, Option.bind_eq_some_iff] at hrun ⊢
    obtain ⟨n, hn, hrest⟩ := hrun
    refine ⟨n, hn, ?_⟩
    split at hrest
    · next hne =>
      rw [if_pos hne]
      exact ih hrest
    · next heq => rwa [if_neg heq]

/-- The successor of a node with a right child. -/
theorem successor_spec (ht : h.Linked parent root t) (hz : z ∈ t.inorder)
    (hright : (h.node z).right ≠ 0) :
    ∃ s, Succ z s t ∧ ∀ fuel, t.height < fuel → getInorderSuccessor h fuel z = some s := by
  induction t generalizing parent root with
  | nil => cases hz
  | node x l r ihl ihr =>
    obtain ⟨rfl, h0, halloc, _, hl, hr⟩ := ht
    rcases mem_inorder_node.mp hz with hz | rfl | hz
    · obtain ⟨s, hs, hrun⟩ := ihl hl hz
      refine ⟨s, .left hs, fun fuel hfuel => hrun fuel ?_⟩
      rw [height] at hfuel
      omega
    · have hne : r.inorder ≠ [] := by
        have hmem : (h.node z).right ∈ r.inorder := hr.root_mem hright
        exact List.ne_nil_of_mem hmem
      obtain ⟨s, hs⟩ := leftmost_isSome hne
      refine ⟨s, .here hs, fun fuel hfuel => ?_⟩
      rw [height] at hfuel
      simp only [getInorderSuccessor, read_of_allocated halloc, bind, Option.bind, if_neg hright]
      exact leftmostFrom_spec hr hs (by omega)
    · obtain ⟨s, hs, hrun⟩ := ihr hr hz
      refine ⟨s, .right hs, fun fuel hfuel => hrun fuel ?_⟩
      rw [height] at hfuel
      omega

theorem successor_none (halloc : h.allocated z = true) (hright : (h.node z).right = 0) (fuel : Nat) :
    getInorderSuccessor h fuel z = some 0 := by
  simp [getInorderSuccessor, read_of_allocated halloc, hright]

theorem successor_mono (more : Nat) (hrun : getInorderSuccessor h fuel z = some s) :
    getInorderSuccessor h (fuel + more) z = some s := by
  simp only [getInorderSuccessor, bind, Option.bind_eq_some_iff] at hrun ⊢
  obtain ⟨n, hn, hrest⟩ := hrun
  refine ⟨n, hn, ?_⟩
  split at hrest
  · next heq => rwa [if_pos heq]
  · next hne =>
    rw [if_neg hne]
    exact leftmostFrom_mono more hrest

end Unlocked
