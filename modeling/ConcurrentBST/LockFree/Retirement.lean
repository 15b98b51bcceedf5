-- SUMMARY: One thread with hazard pointers: which nodes helpChildCAS retires and deletes.
import ConcurrentBST.LockFree.Heap
import ConcurrentBST.LockFree.Reclamation

/-!
# Retiring nodes

What a thread that is alone knows at each program point, as long as a retired
node is not retired once more. No CAS of such a thread fails, and it helps
nobody but itself.
-/

namespace LockFree

variable {cfg : Config} {op op' : Addr → Word} {child child' : Addr → Bool → Word}
  {tree : BinaryTree Addr} {m m' : Mem} {t : Tid} {call : Call} {fresh x r dest : Addr} {pc pc' : PC}
  {f : FindVars} {args : HelpArgs} {ret : HelpRet} {w : Word} {d : Bool} {result : FindResult}

-- ---------------------------------------------------------------------------
-- What is known at a program point
-- ---------------------------------------------------------------------------

/-- `pred` is the parent of `curr`, and its `op` field holds `predOp`. -/
structure Parent (op : Addr → Word) (child : Addr → Bool → Word) (tree : BinaryTree Addr)
    (pred : Addr) (predOp : Word) (curr : Addr) : Prop where
  mem : pred ∈ tree.inorder
  slot : ∃ d, child pred d = .ptr curr
  current : op pred = predOp

/-- `find` has come to `curr`. Only in a search from `base_root` it may be there. -/
structure Searching (op : Addr → Word) (child : Addr → Bool → Word) (tree : BinaryTree Addr)
    (f : FindVars) : Prop where
  calm : ∀ x ∈ tree.inorder, (op x).flag = .none
  caller : ∀ c w, f.caller = .replacement c w → c ∈ tree.inorder ∧ op c = w
  curr : f.curr ∈ tree.inorder
  pred : f.caller = .root ∧ f.curr = baseRoot ∨ Parent op child tree f.pred f.predOp f.curr

/-- `find` has returned a node and its parent to `remove`. -/
structure Located (op : Addr → Word) (child : Addr → Bool → Word) (tree : BinaryTree Addr)
    (f : FindVars) : Prop where
  calm : ∀ x ∈ tree.inorder, (op x).flag = .none
  link : Parent op child tree f.pred f.predOp f.curr
  currOp : op f.curr = f.currOp

/-- `curr` alone is flagged, and to be taken out. -/
structure Unlinking (op : Addr → Word) (child : Addr → Bool → Word) (tree : BinaryTree Addr)
    (args : HelpArgs) : Prop where
  calm : ∀ x ∈ tree.inorder, x ≠ args.curr → (op x).flag = .none
  link : Parent op child tree args.pred args.predOp args.curr
  final : ∀ f, args.ret ≠ .retry f

/-- The child CAS record is on `dest`. Besides `dest` only `marked` may be flagged. -/
structure Installed (op : Addr → Word) (tree : BinaryTree Addr) (r dest : Addr) (ret : HelpRet)
    (marked : Option Addr) : Prop where
  mem : dest ∈ tree.inorder
  destOp : op dest = .cas r
  calm : ∀ x ∈ tree.inorder, x ≠ dest → some x ≠ marked → (op x).flag = .none
  final : ∀ f, ret ≠ .retry f

/-- The relocation is on `curr`, and about to be put on `dest`. -/
structure Moving (op : Addr → Word) (child : Addr → Bool → Word) (tree : BinaryTree Addr)
    (o : RelocateOp) (r : Addr) (args : HelpArgs) : Prop where
  calm : ∀ x ∈ tree.inorder, x ≠ args.curr → (op x).flag = .none
  curr : op args.curr = .rel r
  link : Parent op child tree args.pred args.predOp args.curr
  dest : o.dest ∈ tree.inorder
  destOp : o.dest ≠ args.curr → op o.dest = o.destOp
  state : o.state = .ongoing
  final : ∀ f, args.ret ≠ .retry f

/-- The relocation is on `curr` and on `dest`. -/
structure Rewriting (op : Addr → Word) (child : Addr → Bool → Word) (tree : BinaryTree Addr)
    (dest r : Addr) (args : HelpArgs) : Prop where
  calm : ∀ x ∈ tree.inorder, x ≠ args.curr → x ≠ dest → (op x).flag = .none
  curr : op args.curr = .rel r
  mem : dest ∈ tree.inorder
  destOp : op dest = .rel r
  predMem : args.pred ∈ tree.inorder
  slot : ∃ d, child args.pred d = .ptr args.curr
  predOp : args.pred ≠ dest → op args.pred = args.predOp
  final : ∀ f, args.ret ≠ .retry f

/-- What the write of line 365 is going to do. -/
inductive Writes (op : Addr → Word) (child : Addr → Bool → Word) (cell : Addr → Cell)
    (rlist : List Addr) (tree : BinaryTree Addr) (o : ChildCasOp) (r dest : Addr) (ret : HelpRet) :
    Prop where
  | link {n : Addr} : o.update = .ptr n → Leaf op child cell rlist tree n →
      Installed op tree r dest ret none → Writes op child cell rlist tree o r dest ret
  | unlink {c : Addr} : o.expected = .ptr c → Replaces child c o.update →
      Installed op tree r dest ret (some c) → Writes op child cell rlist tree o r dest ret

/-- What thread `t` knows at a program point if it is alone. -/
def Stage (m : Mem) (t : Tid) (tree : BinaryTree Addr) : PC → Prop
  | .hpChild _ _ next | .hpPut _ next => Stage m t tree next
  | .findOp f => Searching m.op m.child tree f
  | .findNext f => Searching m.op m.child tree f ∧ m.op f.curr = f.currOp
  | .findCurrOp f => Searching m.op m.child tree f ∧
      Parent m.op m.child tree f.pred f.predOp f.curr ∧ m.op f.lastRight = f.lastRightOp
  | .findKey f | .findChild f _ => Searching m.op m.child tree f ∧
      Parent m.op m.child tree f.pred f.predOp f.curr ∧ m.op f.lastRight = f.lastRightOp ∧
      m.op f.curr = f.currOp
  | .findLastRight f result => Searching m.op m.child tree f ∧ m.op f.lastRight = f.lastRightOp ∧
      m.op f.curr = f.currOp ∧ result ≠ .found ∧ result ≠ .abort
  | .findCurr f result => Searching m.op m.child tree f ∧ m.op f.curr = f.currOp ∧
      (result = .found → Parent m.op m.child tree f.pred f.predOp f.curr) ∧ result ≠ .abort
  | .addNew f _ => Searching m.op m.child tree f ∧ m.op f.curr = f.currOp
  | .addOld f _ n => Searching m.op m.child tree f ∧ m.op f.curr = f.currOp ∧
      Leaf m.op m.child m.cell (m.rlist t) tree n
  | .addCas f n r => Searching m.op m.child tree f ∧ m.op f.curr = f.currOp ∧
      Leaf m.op m.child m.cell (m.rlist t) tree n ∧ ∃ d, m.cas r = ⟨d, m.child f.curr d, .ptr n⟩
  | .removeRight f | .removeLeft f | .removeTestRight f | .removeTestLeft f | .removeMark f =>
      Located m.op m.child tree f
  | .removeCheck f c w | .removeNew f c w =>
      Located m.op m.child tree f ∧ c ∈ tree.inorder ∧ m.op c = w
  | .removeInstall f r => Located m.op m.child tree f ∧ (m.reloc r).state = .ongoing ∧
      (m.reloc r).dest ∈ tree.inorder ∧ m.op (m.reloc r).dest = (m.reloc r).destOp
  | .childSlot r dest ret => m.child dest (m.cas r).isLeft = (m.cas r).expected ∧
      Writes m.op m.child m.cell (m.rlist t) tree (m.cas r) r dest ret
  | .childScan a rest _ r dest ret => Installed m.op tree r dest ret none ∧ (a :: rest).Nodup ∧
      ∀ b ∈ a :: rest, b ∈ m.rlist t
  | .childOp r dest ret => Installed m.op tree r dest ret none
  | .markedLeft args | .markedRight args | .markedRef args _ => Unlinking m.op m.child tree args
  | .markedNew args w => Unlinking m.op m.child tree args ∧ Replaces m.child args.curr w
  | .markedCas args r => Unlinking m.op m.child tree args ∧
      Replaces m.child args.curr (m.cas r).update ∧ (m.cas r).expected = .ptr args.curr ∧
      m.child args.pred (m.cas r).isLeft = .ptr args.curr
  | .relocState r args | .relocDest r args => Moving m.op m.child tree (m.reloc r) r args
  | .relocSucceed r args | .relocKey r args | .relocClear r args =>
      Rewriting m.op m.child tree (m.reloc r).dest r args
  | .relocCurr r args true => (∀ x ∈ tree.inorder, x ≠ args.curr → (m.op x).flag = .none) ∧
      m.op args.curr = .rel r ∧ (∀ f, args.ret ≠ .retry f) ∧ Parent m.op m.child tree args.pred
        (if (m.reloc r).dest = args.pred then .ptr r else args.predOp) args.curr
  | .removeDelete _ _ | .relocFail _ _ | .relocCurr _ _ false => False
  | .ret _ => ∀ x ∈ tree.inorder, (m.op x).flag = .none

/-- The thread finds a tree and knows what its program point says. -/
def Lone (m : Mem) (t : Tid) (pc : PC) : Prop :=
  ∃ tree, Heap m.child m.cell (m.rlist t) tree ∧ Stage m t tree pc

-- ---------------------------------------------------------------------------
-- Going on
-- ---------------------------------------------------------------------------

theorem Parent.curr_mem {pred curr : Addr} {cell : Addr → Cell} {rlist : List Addr}
    (hp : Parent op child tree pred w curr) (h : Heap child cell rlist tree) : curr ∈ tree.inorder := by
  obtain ⟨d, hd⟩ := hp.slot
  exact h.child_mem hp.mem hd

theorem Parent.ne {pred curr : Addr} {cell : Addr → Cell} {rlist : List Addr}
    (hp : Parent op child tree pred w curr) (h : Heap child cell rlist tree) : curr ≠ pred := by
  obtain ⟨d, hd⟩ := hp.slot
  exact h.child_ne hp.mem hd

@[simp] theorem stage_hp : Stage m t tree (.hp cfg w pc) ↔ Stage m t tree pc := by
  unfold PC.hp
  split <;> rfl

@[simp] theorem stage_hpField : Stage m t tree (.hpField cfg x d pc) ↔ Stage m t tree pc := by
  unfold PC.hpField
  split <;> rfl

/-- Hazard slots do not matter to a thread that is alone. -/
theorem stage_addToHpList {u : Tid} (h : Stage m t tree pc) :
    Stage (m.addToHpList u w) t tree pc := by
  induction pc with
  | hpChild _ _ _ ih | hpPut _ _ ih => exact ih h
  | relocCurr _ _ result => cases result <;> exact h
  | _ => exact h

theorem stage_findStart (hs : Searching m.op m.child tree { f with curr := f.caller.auxRoot }) :
    Stage m t tree (findStart cfg f) :=
  stage_hp.mpr hs

theorem stage_callStart (h : Heap m.child m.cell (m.rlist t) tree)
    (hcalm : ∀ x ∈ tree.inorder, (m.op x).flag = .none) : Stage m t tree (callStart cfg f) :=
  stage_findStart ⟨hcalm, fun _ _ hc => (by cases hc), h.root_mem, .inl ⟨rfl, rfl⟩⟩

/-- A helper that does not return to `find` returns from the call. -/
theorem stage_helpReturn (hret : ∀ f, ret ≠ .retry f)
    (hcalm : ∀ x ∈ tree.inorder, (m.op x).flag = .none) : Stage m t tree (helpReturn cfg ret) := by
  cases ret with
  | retry f => exact absurd rfl (hret f)
  | add | remove => exact hcalm

theorem stage_scanNext (hi : Installed m.op tree r dest ret none) {as : List Addr}
    (hnd : as.Nodup) (has : ∀ a ∈ as, a ∈ m.rlist t) : Stage m t tree (scanNext r dest ret as) := by
  cases as with
  | nil => exact hi
  | cons a rest => exact ⟨hi, hnd, has⟩

theorem stage_findEnd (hs : Searching m.op m.child tree f) (hop : m.op f.curr = f.currOp)
    (hlast : m.op f.lastRight = f.lastRightOp) (hres : result ≠ .abort)
    (hfound : result = .found → Parent m.op m.child tree f.pred f.predOp f.curr) :
    Stage m t tree (findEnd f result) := by
  unfold findEnd
  split
  · exact ⟨hs, hop, hfound, hres⟩
  · next hne => exact ⟨hs, hlast, hop, hne, hres⟩

/-- One step down, or the end of the search. -/
theorem stage_findLoop (h : Heap m.child m.cell (m.rlist t) tree)
    (hs : Searching m.op m.child tree f) (hop : m.op f.curr = f.currOp)
    (hlast : m.op f.lastRight = f.lastRightOp) (hres : result ≠ .abort) (hnot : result ≠ .found) :
    Stage m t tree (findLoop f (m.child f.curr d) result) := by
  unfold findLoop
  split
  · next hw =>
    simp only [Bool.and_eq_true, Bool.not_eq_eq_eq_not, Bool.not_true] at hw
    have hptr : m.child f.curr d = .ptr (m.child f.curr d).addr :=
      (h.plain _ hs.curr d).target_eq.mp (by simp [target, hw.1])
    have hparent : Parent m.op m.child tree f.curr f.currOp (m.child f.curr d).addr :=
      ⟨hs.curr, ⟨d, hptr⟩, hop⟩
    exact ⟨⟨hs.calm, hs.caller, hparent.curr_mem h, .inr hparent⟩, hparent, hlast⟩
  · exact stage_findEnd hs hop hlast hres fun heq => absurd heq hnot

theorem stage_findReturn (hs : Searching m.op m.child tree f) (hop : m.op f.curr = f.currOp)
    (hfound : result = .found → Parent m.op m.child tree f.pred f.predOp f.curr)
    (hres : result ≠ .abort) : Stage m t tree (findReturn cfg call f result) := by
  unfold findReturn
  split
  · exact hs.calm
  · rw [stage_hp]
    split
    · exact hs.calm
    · exact ⟨hs, hop⟩
  · split
    · next heq => exact ⟨hs.calm, hfound heq, hop⟩
    · exact hs.calm
  · next c w hc =>
    rw [if_neg hres]
    have hparent := hs.pred.resolve_left fun htop => by cases hc.symm.trans htop.1
    exact ⟨⟨hs.calm, hparent, hop⟩, hs.caller c w hc⟩

-- ---------------------------------------------------------------------------
-- The accesses
-- ---------------------------------------------------------------------------

theorem ne_node_of_allocatable {a : Addr} (ha : m.allocatable cfg a = true) : m.cell a ≠ .node := by
  intro hcell
  simp [Mem.allocatable, hcell] at ha

/-- An address that is handed out is not that of a node. -/
theorem Heap.alloc {a : Addr} {k : Cell} {rlist : List Addr} (h : Heap child m.cell rlist tree)
    (ha : m.allocatable cfg a = true) : Heap child (Function.update m.cell a k) rlist tree :=
  h.frame (fun _ _ _ => rfl) fun y hy => by
    have hne : y ≠ a := fun heq => ne_node_of_allocatable ha (heq ▸ hy)
    rw [Function.update_of_ne hne, hy]

theorem Searching.frame (h : Searching op child tree f) (hop : ∀ x ∈ tree.inorder, op' x = op x)
    (hchild : ∀ x ∈ tree.inorder, ∀ d, child' x d = child x d) : Searching op' child' tree f where
  calm := fun x hx => hop x hx ▸ h.calm x hx
  caller := fun c w hc => ⟨(h.caller c w hc).1, hop c (h.caller c w hc).1 ▸ (h.caller c w hc).2⟩
  curr := h.curr
  pred := h.pred.imp_right fun hp => by
    obtain ⟨d, hd⟩ := hp.slot
    exact ⟨hp.mem, ⟨d, hchild _ hp.mem d ▸ hd⟩, hop _ hp.mem ▸ hp.current⟩

@[simp] theorem Mem.setOp_rlist : (m.setOp x w).rlist = m.rlist := rfl

theorem Heap.setOp (h : Heap m.child m.cell (m.rlist t) tree) :
    Heap (m.setOp x w).child (m.setOp x w).cell ((m.setOp x w).rlist t) tree := by
  rw [Mem.setOp_child]
  exact h

/-- Line 365 is about to overwrite a null-flagged pointer with the address of a
    node that is not on the retired list any more. -/
def Reretires (m : Mem) (t : Tid) : PC → Prop
  | .childSlot r dest _ => m.child dest (m.cas r).isLeft = (m.cas r).expected ∧
      isNull (m.cas r).expected = true ∧ (m.cas r).expected.addr ≠ 0 ∧
      (m.cas r).expected.addr ∉ m.rlist t
  | _ => False

theorem Heap.retireWord (h : Heap m.child m.cell (m.rlist t) tree)
    (hw : w.addr ≠ 0 → w.addr ∉ m.rlist t → m.cell w.addr = .node ∧ w.addr ∉ tree.inorder) :
    Heap (m.retire t w).child (m.retire t w).cell ((m.retire t w).rlist t) tree := by
  unfold Mem.retire
  dsimp only
  split
  · exact h
  · next hnew =>
    obtain ⟨h0, hnot⟩ := not_or.mp hnew
    obtain ⟨hcell, hout⟩ := hw h0 hnot
    have hlist := h.retire hcell hout hnot
    rw [← Function.update_self t (m.rlist t ++ [w.addr]) m.rlist] at hlist
    exact hlist

/-- The write of line 365. A node that it unlinks is out of the tree then. -/
theorem Writes.apply {o : ChildCasOp} (h : Heap m.child m.cell (m.rlist t) tree)
    (hslot : m.child dest o.isLeft = o.expected)
    (hw : Writes m.op m.child m.cell (m.rlist t) tree o r dest ret) :
    ∃ tree', Heap (m.setChild dest o.isLeft o.update).child m.cell (m.rlist t) tree' ∧
      Installed m.op tree' r dest ret none ∧
      ∀ c, o.expected = .ptr c → m.cell c = .node ∧ c ∉ tree'.inorder := by
  have hnew : (m.setChild dest o.isLeft o.update).child dest o.isLeft = o.update := by simp
  have hold : ∀ y e, ¬(y = dest ∧ e = o.isLeft) →
      (m.setChild dest o.isLeft o.update).child y e = m.child y e := fun y e hne => by
    rw [Mem.setChild_child, if_neg hne]
  cases hw with
  | @link n hup hn hi =>
    obtain ⟨tree', htree', hdest, hmem, hout⟩ := h.link hn hi.mem (hup ▸ hnew) hold
    refine ⟨tree', htree', ⟨hdest, hi.destOp, fun x hx hxd _ => ?_, hi.final⟩, fun c hc => ?_⟩
    · rcases hmem x hx with rfl | hx
      · exact hn.unflagged
      · exact hi.calm x hx hxd (by simp)
    · exact ⟨h.nodes c (h.child_mem hi.mem (hslot.trans hc)), hout c (hslot.trans hc)⟩
  | @unlink c hexp hrep hi =>
    obtain ⟨tree', htree', hdest, hmem, hout⟩ :=
      h.unlink hi.mem (hslot.trans hexp) (hnew.symm ▸ hrep) hold
    refine ⟨tree', htree', ⟨hdest, hi.destOp, fun x hx hxd _ => ?_, hi.final⟩, fun c' hc => ?_⟩
    · exact hi.calm x (hmem x hx) hxd fun heq => hout (Option.some.inj heq ▸ hx)
    · cases hexp.symm.trans hc
      exact ⟨h.nodes c (h.child_mem hi.mem (hslot.trans hexp)), hout⟩

namespace Lone

theorem findOp (h : Lone m t (.findOp f)) (he : exec cfg t call fresh m (.findOp f) = some (m', pc')) :
    Lone m' t pc' := by
  obtain ⟨tree, h, hs⟩ := h
  have hflag : getFlag (m.op f.curr) = .none := hs.calm _ hs.curr
  simp only [exec, hflag] at he
  cases he
  exact ⟨tree, h, stage_hpField.mpr ⟨⟨hs.calm, hs.caller, hs.curr, hs.pred⟩, rfl⟩⟩

theorem findNext (h : Lone m t (.findNext f))
    (he : exec cfg t call fresh m (.findNext f) = some (m', pc')) : Lone m' t pc' := by
  obtain ⟨tree, h, hs, hop⟩ := h
  cases he
  have hs' : Searching m.op m.child tree { f with lastRight := f.curr, lastRightOp := f.currOp } :=
    ⟨hs.calm, hs.caller, hs.curr, hs.pred⟩
  exact ⟨tree, h, stage_findLoop h hs' hop hop (by simp) (by simp)⟩

theorem findCurrOp (h : Lone m t (.findCurrOp f))
    (he : exec cfg t call fresh m (.findCurrOp f) = some (m', pc')) : Lone m' t pc' := by
  obtain ⟨tree, h, hs, hparent, hlast⟩ := h
  have hflag : getFlag (m.op f.curr) = .none := hs.calm _ hs.curr
  simp only [exec, hflag] at he
  cases he
  exact ⟨tree, h, ⟨hs.calm, hs.caller, hs.curr, hs.pred⟩, hparent, hlast, rfl⟩

theorem findKey (h : Lone m t (.findKey f))
    (he : exec cfg t call fresh m (.findKey f) = some (m', pc')) : Lone m' t pc' := by
  obtain ⟨tree, h, hs, hparent, hlast, hop⟩ := h
  simp only [exec] at he
  split at he
  · cases he
    exact ⟨tree, h, stage_hpField.mpr ⟨hs, hparent, hlast, hop⟩⟩
  split at he
  · cases he
    exact ⟨tree, h, stage_hpField.mpr ⟨hs, hparent, hlast, hop⟩⟩
  · cases he
    exact ⟨tree, h, stage_findEnd hs hop hlast (by simp) fun _ => hparent⟩

theorem findChild (h : Lone m t (.findChild f d))
    (he : exec cfg t call fresh m (.findChild f d) = some (m', pc')) : Lone m' t pc' := by
  obtain ⟨tree, h, hs, _, hlast, hop⟩ := h
  simp only [exec] at he
  split at he
  · cases he
    exact ⟨tree, h, stage_findLoop h hs hop hlast (by simp) (by simp)⟩
  · cases he
    have hs' : Searching m.op m.child tree { f with lastRight := f.curr, lastRightOp := f.currOp } :=
      ⟨hs.calm, hs.caller, hs.curr, hs.pred⟩
    exact ⟨tree, h, stage_findLoop h hs' hop hop (by simp) (by simp)⟩

theorem findLastRight (h : Lone m t (.findLastRight f result))
    (he : exec cfg t call fresh m (.findLastRight f result) = some (m', pc')) : Lone m' t pc' := by
  obtain ⟨tree, h, hs, hlast, hop, hnot, hres⟩ := h
  rw [exec, if_neg (not_not.mpr hlast.symm)] at he
  cases he
  exact ⟨tree, h, hs, hop, fun heq => absurd heq hnot, hres⟩

theorem findCurr (h : Lone m t (.findCurr f result))
    (he : exec cfg t call fresh m (.findCurr f result) = some (m', pc')) : Lone m' t pc' := by
  obtain ⟨tree, h, hs, hop, hfound, hres⟩ := h
  rw [exec, if_neg (not_not.mpr hop.symm)] at he
  cases he
  exact ⟨tree, h, stage_findReturn hs hop hfound hres⟩

/-- The reads of `remove` and of `helpMarked`. -/
theorem removeRight (h : Lone m t (.removeRight f))
    (he : exec cfg t call fresh m (.removeRight f) = some (m', pc')) : Lone m' t pc' := by
  obtain ⟨tree, h, hs⟩ := h
  rw [exec] at he
  split at he <;> cases he
  · exact ⟨tree, h, stage_hpField.mpr hs⟩
  · exact ⟨tree, h, hs⟩

theorem removeLeft (h : Lone m t (.removeLeft f))
    (he : exec cfg t call fresh m (.removeLeft f) = some (m', pc')) : Lone m' t pc' := by
  obtain ⟨tree, h, hs⟩ := h
  rw [exec] at he
  split at he <;> cases he
  · exact ⟨tree, h, stage_hpField.mpr hs⟩
  · exact ⟨tree, h, hs⟩

theorem removeTestRight (h : Lone m t (.removeTestRight f))
    (he : exec cfg t call fresh m (.removeTestRight f) = some (m', pc')) : Lone m' t pc' := by
  obtain ⟨tree, h, hs⟩ := h
  rw [exec] at he
  split at he <;> cases he <;> exact ⟨tree, h, hs⟩

/-- The second `find` starts at the node that the first one returned. -/
theorem removeTestLeft (h : Lone m t (.removeTestLeft f))
    (he : exec cfg t call fresh m (.removeTestLeft f) = some (m', pc')) : Lone m' t pc' := by
  obtain ⟨tree, h, hs⟩ := h
  rw [exec] at he
  split at he <;> cases he
  · exact ⟨tree, h, hs⟩
  · have hmem := hs.link.curr_mem h
    refine ⟨tree, h, stage_findStart ⟨hs.calm, fun c w hc => ?_, hmem, .inr hs.link⟩⟩
    cases hc
    exact ⟨hmem, hs.currOp⟩

theorem removeCheck {c : Addr} (h : Lone m t (.removeCheck f c w))
    (he : exec cfg t call fresh m (.removeCheck f c w) = some (m', pc')) : Lone m' t pc' := by
  obtain ⟨tree, h, hs, hc, hop⟩ := h
  rw [exec, if_neg (not_not.mpr hop)] at he
  cases he
  exact ⟨tree, h, stage_hp.mpr (stage_hp.mpr (stage_hp.mpr ⟨hs, hc, hop⟩))⟩

theorem markedLeft (h : Lone m t (.markedLeft args))
    (he : exec cfg t call fresh m (.markedLeft args) = some (m', pc')) : Lone m' t pc' := by
  obtain ⟨tree, h, hs⟩ := h
  rw [exec] at he
  split at he <;> cases he
  · exact ⟨tree, h, hs⟩
  · exact ⟨tree, h, stage_hpField.mpr hs⟩

theorem markedRight (h : Lone m t (.markedRight args))
    (he : exec cfg t call fresh m (.markedRight args) = some (m', pc')) : Lone m' t pc' := by
  obtain ⟨tree, h, hs⟩ := h
  rw [exec] at he
  split at he <;> cases he
  · exact ⟨tree, h, hs, .inl rfl⟩
  · exact ⟨tree, h, stage_hpField.mpr hs⟩

theorem markedRef (h : Lone m t (.markedRef args d))
    (he : exec cfg t call fresh m (.markedRef args d) = some (m', pc')) : Lone m' t pc' := by
  obtain ⟨tree, h, hs⟩ := h
  cases he
  exact ⟨tree, h, hs, .inr ⟨d, rfl⟩⟩

-- ---------------------------------------------------------------------------
-- Allocations
-- ---------------------------------------------------------------------------

theorem addNew (h : Lone m t (.addNew f d))
    (he : exec cfg t call fresh m (.addNew f d) = some (m', pc')) : Lone m' t pc' := by
  obtain ⟨tree, h, hs, hop⟩ := h
  rw [exec] at he
  split at he <;> cases he
  next ha =>
  have hnode := ne_node_of_allocatable ha
  have hout : ∀ x ∈ tree.inorder, x ≠ fresh := fun x hx heq => hnode (heq ▸ h.nodes x hx)
  have hopx : ∀ x ∈ tree.inorder, (m.newNode fresh (createLFNode call.key)).op x = m.op x :=
    fun x hx => by simp [hout x hx]
  have hchild : ∀ x ∈ tree.inorder, ∀ d,
      (m.newNode fresh (createLFNode call.key)).child x d = m.child x d := fun x hx d => by
    simp [hout x hx]
  refine ⟨tree, (h.alloc ha).frame hchild fun _ hx => hx, ?_⟩
  rw [stage_hp, stage_hpField]
  refine ⟨hs.frame hopx hchild, hopx _ hs.curr ▸ hop, ?_, fun hx => hout _ hx rfl,
    fun hx => hnode (h.retired _ hx).1, by simp [createLFNode], fun e => ?_⟩
  · simp [Mem.newNode]
  · cases e <;> simp [createLFNode, Node.child, setNull, Flag.or]

theorem addOld {n : Addr} (h : Lone m t (.addOld f d n))
    (he : exec cfg t call fresh m (.addOld f d n) = some (m', pc')) : Lone m' t pc' := by
  obtain ⟨tree, h, hs, hop, hn⟩ := h
  rw [exec] at he
  split at he <;> cases he
  next ha =>
  have hne : n ≠ fresh := fun heq => ne_node_of_allocatable ha (heq ▸ hn.node)
  refine ⟨tree, h.alloc ha, ⟨hs.calm, hs.caller, hs.curr, hs.pred⟩, hop,
    ⟨?_, hn.notMem, hn.notRetired, hn.unflagged, hn.empty⟩, d, by simp⟩
  exact (Function.update_of_ne hne ..).trans hn.node

theorem removeNew {c : Addr} (h : Lone m t (.removeNew f c w))
    (he : exec cfg t call fresh m (.removeNew f c w) = some (m', pc')) : Lone m' t pc' := by
  obtain ⟨tree, h, hs, hc, hop⟩ := h
  rw [exec] at he
  split at he <;> cases he
  next ha =>
  refine ⟨tree, h.alloc ha, hs, ?_, ?_, ?_⟩
  · simp
  · simpa using hc
  · simpa using hop

theorem markedNew (h : Lone m t (.markedNew args w))
    (he : exec cfg t call fresh m (.markedNew args w) = some (m', pc')) : Lone m' t pc' := by
  obtain ⟨tree, h, hs, hw⟩ := h
  rw [exec] at he
  split at he <;> cases he
  next ha =>
  refine ⟨tree, h.alloc ha, hs, by simpa using hw, by simp, ?_⟩
  obtain ⟨e, he⟩ := hs.link.slot
  -- The test of line 434 finds out on which side of its parent the node is.
  have hside : (Word.ptr args.curr == m.child args.pred true) = e := by
    cases e with
    | true => simp [he]
    | false =>
      have hne : m.child args.pred true ≠ .ptr args.curr := fun heq => by
        cases h.side_unique hs.link.mem heq he
      simpa using hne.symm
  simp [hside, he]

-- ---------------------------------------------------------------------------
-- Writes of `op`
-- ---------------------------------------------------------------------------

theorem addCas {n : Addr} (h : Lone m t (.addCas f n r))
    (he : exec cfg t call fresh m (.addCas f n r) = some (m', pc')) : Lone m' t pc' := by
  obtain ⟨tree, h, hs, hop, hn, e, hcas⟩ := h
  rw [exec, if_pos hop] at he
  cases he
  refine ⟨tree, h.setOp, ?_, .link (n := n) ?_ ?_ ⟨hs.curr, by simp, fun x hx hne _ => ?_, by simp⟩⟩
  · simp [hcas]
  · simp [hcas]
  · have hne : n ≠ f.curr := fun heq => hn.notMem (heq ▸ hs.curr)
    exact ⟨hn.node, hn.notMem, hn.notRetired, by simpa [hne] using hn.unflagged, by simpa using hn.empty⟩
  · simpa [hne] using hs.calm x hx

theorem removeMark (h : Lone m t (.removeMark f))
    (he : exec cfg t call fresh m (.removeMark f) = some (m', pc')) : Lone m' t pc' := by
  obtain ⟨tree, h, hs⟩ := h
  rw [exec, if_pos hs.currOp] at he
  cases he
  have hne := hs.link.ne h
  refine ⟨tree, h.setOp, fun x hx hxc => ?_, ⟨hs.link.mem, by simpa using hs.link.slot, ?_⟩,
    by simp⟩
  · have hxc : x ≠ f.curr := hxc
    simpa [hxc] using hs.calm x hx
  · simpa [hne.symm] using hs.link.current

theorem removeInstall (h : Lone m t (.removeInstall f r))
    (he : exec cfg t call fresh m (.removeInstall f r) = some (m', pc')) : Lone m' t pc' := by
  obtain ⟨tree, h, hs, hstate, hdest, hop⟩ := h
  rw [exec, if_pos hs.currOp] at he
  cases he
  have hne := hs.link.ne h
  refine ⟨tree, h.setOp, fun x hx hxc => ?_, by simp,
    ⟨hs.link.mem, by simpa using hs.link.slot, ?_⟩, hdest, fun hd => ?_, hstate, by simp⟩
  · have hxc : x ≠ f.curr := hxc
    simpa [hxc] using hs.calm x hx
  · simpa [hne.symm] using hs.link.current
  · have hd : (m.reloc r).dest ≠ f.curr := hd
    simpa [hd] using hop

theorem markedCas (h : Lone m t (.markedCas args r))
    (he : exec cfg t call fresh m (.markedCas args r) = some (m', pc')) : Lone m' t pc' := by
  obtain ⟨tree, h, hs, hrep, hexp, hslot⟩ := h
  rw [exec, if_pos hs.link.current] at he
  cases he
  refine ⟨tree, h.setOp, by simp [hexp, hslot],
    .unlink (c := args.curr) (by simpa using hexp) (by simpa using hrep)
      ⟨hs.link.mem, by simp, fun x hx hxp hxc => ?_, hs.final⟩⟩
  simpa [hxp] using hs.calm x hx fun heq => hxc (congrArg some heq)

theorem childOp (h : Lone m t (.childOp r dest ret))
    (he : exec cfg t call fresh m (.childOp r dest ret) = some (m', pc')) : Lone m' t pc' := by
  obtain ⟨tree, h, hs⟩ := h
  rw [exec, setFlag_ptr, if_pos hs.destOp] at he
  cases he
  refine ⟨tree, h.setOp, stage_helpReturn hs.final fun x hx => ?_⟩
  by_cases hxd : x = dest
  · simp [hxd]
  · simpa [hxd] using hs.calm x hx hxd (by simp)

-- ---------------------------------------------------------------------------
-- Relocation
-- ---------------------------------------------------------------------------

theorem relocState (h : Lone m t (.relocState r args))
    (he : exec cfg t call fresh m (.relocState r args) = some (m', pc')) : Lone m' t pc' := by
  obtain ⟨tree, h, hs⟩ := h
  simp only [exec, hs.state] at he
  cases he
  exact ⟨tree, h, stage_hp.mpr hs⟩

theorem relocDest (h : Lone m t (.relocDest r args))
    (he : exec cfg t call fresh m (.relocDest r args) = some (m', pc')) : Lone m' t pc' := by
  obtain ⟨tree, h, hs⟩ := h
  have hne := hs.link.ne h
  have hsucceed : m.op (m.reloc r).dest = (m.reloc r).destOp ∨
      m.op (m.reloc r).dest = setFlag (.ptr r) .relocate := by
    by_cases hd : (m.reloc r).dest = args.curr
    · exact .inr (hd ▸ hs.curr)
    · exact .inl (hs.destOp hd)
  simp only [exec, if_pos hsucceed] at he
  obtain ⟨hm, rfl⟩ := Prod.mk.inj (Option.some.inj he)
  -- The record is on `dest` now, or was there before if `dest` is `curr`.
  have hop : m'.op = fun y => if y = (m.reloc r).dest then .rel r else m.op y := by
    funext y
    rw [← hm]
    split
    · exact Mem.setOp_op ..
    · next hnot =>
      split
      · next hy =>
        rw [hy]
        exact hsucceed.resolve_left hnot
      · rfl
  have hchild : m'.child = m.child ∧ m'.cell = m.cell ∧ m'.rlist = m.rlist ∧ m'.reloc = m.reloc := by
    rw [← hm]
    split
    · exact ⟨Mem.setOp_child .., rfl, rfl, rfl⟩
    · exact ⟨rfl, rfl, rfl, rfl⟩
  obtain ⟨hchild, hcell, hrlist, hreloc⟩ := hchild
  refine ⟨tree, by rwa [hchild, hcell, hrlist], ?_⟩
  show Rewriting m'.op m'.child tree (m'.reloc r).dest r args
  rw [hop, hchild, hreloc]
  refine ⟨fun x hx hxc hxd => ?_, ?_, hs.dest, if_pos rfl, hs.link.mem, hs.link.slot, fun hp => ?_,
    hs.final⟩
  · rw [if_neg hxd]
    exact hs.calm x hx hxc
  · split
    · rfl
    · exact hs.curr
  · rw [if_neg hp]
    exact hs.link.current

theorem relocSucceed (h : Lone m t (.relocSucceed r args))
    (he : exec cfg t call fresh m (.relocSucceed r args) = some (m', pc')) : Lone m' t pc' := by
  obtain ⟨tree, h, hs⟩ := h
  simp only [exec] at he
  cases he
  split
  · refine ⟨tree, h, ?_⟩
    show Rewriting m.op m.child tree ((m.setState r .successful).reloc r).dest r args
    rw [Mem.setState_dest]
    exact hs
  · exact ⟨tree, h, hs⟩

theorem relocKey (h : Lone m t (.relocKey r args))
    (he : exec cfg t call fresh m (.relocKey r args) = some (m', pc')) : Lone m' t pc' := by
  obtain ⟨tree, h, hs⟩ := h
  simp only [exec] at he
  cases he
  split
  · refine ⟨tree, ?_, ?_⟩
    · rw [Mem.setKey_child]
      exact h
    · show Rewriting (m.setKey _ _).op (m.setKey _ _).child tree (m.reloc r).dest r args
      rw [Mem.setKey_child, Mem.setKey_op]
      exact hs
  · exact ⟨tree, h, hs⟩

theorem relocClear (h : Lone m t (.relocClear r args))
    (he : exec cfg t call fresh m (.relocClear r args) = some (m', pc')) : Lone m' t pc' := by
  obtain ⟨tree, h, hs⟩ := h
  have hop : m.op (m.reloc r).dest = setFlag (.ptr r) .relocate := hs.destOp
  simp only [exec, if_pos hop, relocTail] at he
  cases he
  refine ⟨tree, h.setOp, ?_⟩
  have hcalm : ∀ x ∈ tree.inorder, x ≠ args.curr →
      ((m.setOp (m.reloc r).dest (.ptr r)).op x).flag = .none := fun x hx hxc => by
    by_cases hxd : x = (m.reloc r).dest
    · simp [hxd]
    · simpa [hxd] using hs.calm x hx hxc hxd
  split
  · next hd =>
    have hall : ∀ x ∈ tree.inorder, ((m.setOp (m.reloc r).dest (.ptr r)).op x).flag = .none :=
      fun x hx => by
        by_cases hxc : x = args.curr
        · simp [hxc, ← hd]
        · exact hcalm x hx hxc
    cases hret : args.ret with
    | retry f => exact absurd hret (hs.final f)
    | add => exact hall
    | remove => exact hall
  · next hd =>
    have hd : (m.reloc r).dest ≠ args.curr := hd
    refine ⟨hcalm, by simpa [hd.symm] using hs.curr, hs.final, hs.predMem, by simpa using hs.slot, ?_⟩
    by_cases hp : (m.reloc r).dest = args.pred
    · simp [hp]
    · simpa [hp, Ne.symm hp] using hs.predOp (Ne.symm hp)

theorem relocCurr {b : Bool} (h : Lone m t (.relocCurr r args b))
    (he : exec cfg t call fresh m (.relocCurr r args b) = some (m', pc')) : Lone m' t pc' := by
  obtain ⟨tree, h, hs⟩ := h
  cases b with
  | false => exact hs.elim
  | true =>
    obtain ⟨hcalm, hcurr, hfinal, hlink⟩ := hs
    have hne := hlink.ne h
    have hop : m.op args.curr = setFlag (.ptr r) .relocate := hcurr
    simp only [exec, if_pos hop] at he
    cases he
    refine ⟨tree, h.setOp, fun x hx hxc => ?_, ⟨hlink.mem, by simpa using hlink.slot, ?_⟩, hfinal⟩
    · have hxc : x ≠ args.curr := hxc
      simpa [hxc] using hcalm x hx hxc
    · simpa [hne.symm] using hlink.current

-- ---------------------------------------------------------------------------
-- helpChildCAS
-- ---------------------------------------------------------------------------

theorem childSlot (h : Lone m t (.childSlot r dest ret)) (hok : ¬ Reretires m t (.childSlot r dest ret))
    (he : exec cfg t call fresh m (.childSlot r dest ret) = some (m', pc')) : Lone m' t pc' := by
  obtain ⟨tree, h, hslot, hw⟩ := h
  obtain ⟨tree', htree', hi, hout⟩ := hw.apply h hslot
  have hplain : Plain (m.cas r).expected := by
    cases hw with
    | link _ _ hi | unlink _ _ hi => exact hslot ▸ h.plain dest hi.mem _
  -- A null-flagged pointer has its address on the list already.
  have hretire := Heap.retireWord (w := (m.cas r).expected) htree' fun h0 hnot => by
    rcases hplain with hflag | hflag
    · exact hout _ (Word.ext rfl hflag)
    · exact absurd ⟨hslot, by simp [isNull, hflag], h0, hnot⟩ hok
  simp only [exec, if_pos hslot] at he
  split at he
  · split at he
    · cases he
      refine ⟨tree', hretire, stage_scanNext ?_ hretire.once fun a ha => ha⟩
      simpa using hi
    · cases he
      refine ⟨tree', hretire, ?_⟩
      show Installed ((m.setChild dest _ _).retire t _).op tree' r dest ret none
      simpa using hi
  · cases he
    refine ⟨tree', htree', ?_⟩
    show Installed (m.setChild dest _ _).op tree' r dest ret none
    simpa using hi

theorem childScan {a : Addr} {rest : List Addr} {i : Nat} (h : Lone m t (.childScan a rest i r dest ret))
    (he : exec cfg t call fresh m (.childScan a rest i r dest ret) = some (m', pc')) :
    Lone m' t pc' := by
  obtain ⟨tree, h, hi, hnd, hin⟩ := h
  obtain ⟨hrest, hnd'⟩ := List.nodup_cons.mp hnd
  simp only [exec] at he
  split at he
  · cases he
    exact ⟨tree, h, stage_scanNext hi hnd' fun b hb => hin b (.tail _ hb)⟩
  split at he
  · cases he
    exact ⟨tree, h, hi, hnd, hin⟩
  · cases he
    have hlist : (m.deleteRetired t a).rlist t = (m.rlist t).erase a := by
      simp [Mem.deleteRetired, Mem.delete]
    refine ⟨tree, ?_, stage_scanNext (m := m.deleteRetired t a) hi hnd' fun b hb => ?_⟩
    · rw [hlist]
      exact h.delete (hin a (.head _))
    · have hne : b ≠ a := fun heq => hrest (heq ▸ hb)
      rw [hlist]
      exact (List.mem_erase_of_ne hne).mpr (hin b (.tail _ hb))

/-- Every access of a thread that is alone. -/
theorem access (h : Lone m t pc) (hok : ¬ Reretires m t pc)
    (he : exec cfg t call fresh m pc = some (m', pc')) : Lone m' t pc' := by
  cases pc with
  | hpChild n d next =>
    cases he
    exact h
  | hpPut w next =>
    cases he
    obtain ⟨tree, h, hs⟩ := h
    exact ⟨tree, h, stage_addToHpList hs⟩
  | findOp f => exact h.findOp he
  | findNext f => exact h.findNext he
  | findCurrOp f => exact h.findCurrOp he
  | findKey f => exact h.findKey he
  | findChild f d => exact h.findChild he
  | findLastRight f result => exact h.findLastRight he
  | findCurr f result => exact h.findCurr he
  | addNew f d => exact h.addNew he
  | addOld f d n => exact h.addOld he
  | addCas f n r => exact h.addCas he
  | removeRight f => exact h.removeRight he
  | removeLeft f => exact h.removeLeft he
  | removeTestRight f => exact h.removeTestRight he
  | removeTestLeft f => exact h.removeTestLeft he
  | removeMark f => exact h.removeMark he
  | removeCheck f c w => exact h.removeCheck he
  | removeNew f c w => exact h.removeNew he
  | removeInstall f r => exact h.removeInstall he
  | childSlot r dest ret => exact h.childSlot hok he
  | childScan a rest i r dest ret => exact h.childScan he
  | childOp r dest ret => exact h.childOp he
  | markedLeft args => exact h.markedLeft he
  | markedRight args => exact h.markedRight he
  | markedRef args d => exact h.markedRef he
  | markedNew args w => exact h.markedNew he
  | markedCas args r => exact h.markedCas he
  | relocState r args => exact h.relocState he
  | relocDest r args => exact h.relocDest he
  | relocSucceed r args => exact h.relocSucceed he
  | relocKey r args => exact h.relocKey he
  | relocClear r args => exact h.relocClear he
  | relocCurr r args b => exact h.relocCurr he
  | removeDelete f r | relocFail r args => exact h.elim fun _ hs => hs.2.elim
  | ret res => simp at he

end Lone

-- ---------------------------------------------------------------------------
-- Runs
-- ---------------------------------------------------------------------------

variable {s s' : State} {l : Tid × Action} {n i : Nat}

/-- What holds of the states of a run in which `t` makes all the calls. -/
def State.Lone (s : State) (t : Tid) : Prop :=
  match s.thread t with
  | .idle => LockFree.Lone s.mem t (.ret .added)
  | .running _ pc => LockFree.Lone s.mem t pc

theorem lone_initial : State.initial.Lone t := by
  have hempty : ∀ {x d}, Mem.initial.child x d = .null 0 := fun {x d} => by cases d <;> rfl
  have hmem : ∀ {x}, x ∈ (BinaryTree.node baseRoot .nil .nil).inorder ↔ x = baseRoot := by
    simp [BinaryTree.inorder]
  have hnil : ∀ d, Unfolds (fun x d => target (Mem.initial.child x d))
      (target (Mem.initial.child baseRoot d)) .nil := fun d => by
    rw [hempty]
    exact .nil
  have hheap : Heap Mem.initial.child Mem.initial.cell [] (.node baseRoot .nil .nil) :=
    { unfolds := .node (hnil true) (hnil false)
      nodup := by simp [BinaryTree.inorder]
      plain := fun x _ d => hempty (x := x) (d := d) ▸ .inr rfl
      nodes := fun x hx => if_pos (hmem.mp hx)
      retired := fun a ha => by cases ha
      once := List.nodup_nil }
  exact ⟨_, hheap, fun _ _ => rfl⟩

/-- The step makes a node be retired that is not on the list any more. -/
def State.reretires (s : State) (l : Tid × Action) : Prop :=
  ∃ pc, s.at l = some pc ∧ Reretires s.mem l.1 pc

theorem State.Lone.step (h : s.Lone t) (hl : l.1 = t) (hok : ¬ s.reretires l)
    (hnext : (system cfg).next s l = some s') : s'.Lone t := by
  subst hl
  unfold State.Lone at h ⊢
  cases steps_of_next hnext with
  | invoke ht =>
    rw [ht] at h
    obtain ⟨tree, h, hs⟩ := h
    simp only [Function.update_self]
    exact ⟨tree, h, stage_callStart h hs⟩
  | access ht he =>
    rw [ht] at h
    simp only [Function.update_self]
    exact h.access (fun hre => hok ⟨_, by simp [State.at, ht], hre⟩) he
  | respond ht =>
    rw [ht] at h
    simp only [Function.update_self]
    exact h

theorem lone_of_exec (e : (system cfg).Exec n) (ht : ∀ j < n, (e.label j).1 = t)
    (hok : ∀ j < n, ¬ (e.state j).reretires (e.label j)) (hi : i ≤ n) : (e.state i).Lone t := by
  induction i with
  | zero => exact e.start ▸ lone_initial
  | succ i ih => exact (ih (by omega)).step (ht i hi) (hok i hi) (e.step i hi)

/-- A scan deletes nodes that are allocated and out of reach, and none of them again
    before it has been handed out again. -/
structure DeletesOnce (e : (system cfg).Exec n) : Prop where
  allocated : ∀ i < n, ∀ a, (e.state i).scanDeletes (e.label i) a → (e.state i).mem.cell a = .node
  unreachable : ∀ i < n, ∀ a, (e.state i).scanDeletes (e.label i) a → ¬ (e.state i).mem.reaches a
  once : ∀ i j a, i < j → j < n → (e.state i).scanDeletes (e.label i) a →
    (e.state j).scanDeletes (e.label j) a → ∃ k, i < k ∧ k < j ∧
      (e.state k).mem.cell a ≠ .node ∧ (e.state (k + 1)).mem.cell a = .node

theorem State.Lone.scans {a : Addr} (h : s.Lone t) (hl : l.1 = t) (hdel : s.scanDeletes l a) :
    s.mem.cell a = .node ∧ ¬ s.mem.reaches a := by
  obtain ⟨rest, j, r, dest, ret, hat, _⟩ := hdel
  obtain ⟨u, act⟩ := l
  obtain rfl : u = t := hl
  cases act with
  | invoke | respond => cases hat
  | access fresh =>
    simp only [State.at] at hat
    split at hat
    · next call pc hrun =>
      cases hat
      unfold State.Lone at h
      rw [hrun] at h
      obtain ⟨tree, h, _, _, hin⟩ := h
      obtain ⟨hcell, hout⟩ := h.retired a (hin a (.head _))
      exact ⟨hcell, fun hreach => hout (h.unfolds.mem_inorder.mpr hreach)⟩
    · cases hat

theorem State.scanDeletes.next {a : Addr} (hdel : s.scanDeletes l a)
    (hnext : (system cfg).next s l = some s') : s'.mem.cell a = .deleted := by
  obtain ⟨rest, j, r, dest, ret, hat, hslot, hj⟩ := hdel
  cases steps_of_next hnext with
  | invoke | respond => cases hat
  | access ht he =>
    simp only [State.at, ht, Option.some.injEq] at hat
    subst hat
    rw [exec, if_neg hslot, if_neg (by omega)] at he
    cases he
    simp [Mem.deleteRetired, Mem.delete]

/-- As long as no node is retired that is not on the list any more, a thread that
    is alone deletes what it should. -/
theorem deletes_once (e : (system .guarded).Exec n) (ht : ∀ j < n, (e.label j).1 = t)
    (hok : ∀ j < n, ¬ (e.state j).reretires (e.label j)) : DeletesOnce e := by
  have hscan : ∀ i < n, ∀ a, (e.state i).scanDeletes (e.label i) a →
      (e.state i).mem.cell a = .node ∧ ¬ (e.state i).mem.reaches a := fun i hi a hdel =>
    (lone_of_exec e ht hok hi.le).scans (ht i hi) hdel
  refine ⟨fun i hi a hdel => (hscan i hi a hdel).1, fun i hi a hdel => (hscan i hi a hdel).2,
    fun i j a hij hj hi hdel => ?_⟩
  have hdead := hi.next (e.step i (hij.trans hj))
  obtain ⟨k, hik, hkj, hk, hk'⟩ := Lts.exists_step
    (P := fun k => (e.state k).mem.cell a = .node) (i := i + 1) hij (by simp [hdead])
    (hscan j hj a hdel).1
  exact ⟨k, hik, hkj, hk, hk'⟩

-- ---------------------------------------------------------------------------
-- A node that is retired once more
-- ---------------------------------------------------------------------------

/-- `State.reretires`, to be evaluated. -/
def State.reretiresNow (s : State) (l : Tid × Action) : Bool :=
  match s.at l with
  | some (.childSlot r dest _) => s.mem.child dest (s.mem.cas r).isLeft == (s.mem.cas r).expected &&
      isNull (s.mem.cas r).expected && (s.mem.cas r).expected.addr != 0 &&
      !(s.mem.rlist l.1).contains (s.mem.cas r).expected.addr
  | _ => false

theorem not_reretires {e : (system cfg).Exec n}
    (h : ∀ j < n, (e.state j).reretiresNow (e.label j) = false) :
    ∀ j < n, ¬ (e.state j).reretires (e.label j) := by
  rintro j hj ⟨pc, hat, hre⟩
  cases pc with
  | childSlot r dest ret =>
    obtain ⟨hslot, hnull, haddr, hnew⟩ := hre
    simpa [State.reretiresNow, hat, hslot, hnull, haddr, hnew] using h j hj
  | _ => exact hre

/-- A node is removed and its key is added again. -/
def runOfReturn : (system .guarded).Exec 62 :=
  .ofLabels (0, .respond) (soloCall 0 (.add 5) 2 18 ++ soloCall 0 (.remove 5) 20 20 ++
    soloCall 0 (.add 5) 40 18) (by decide +kernel)

theorem deletes_once_return : DeletesOnce runOfReturn :=
  deletes_once runOfReturn (t := 0) (by decide +kernel) (not_reretires (by decide +kernel))

/-- `n` rounds of adding and removing `k`. -/
def rounds (k : Int) : Addr → Nat → List (Tid × Action)
  | _, 0 => []
  | a, n + 1 => soloCall 0 (.add k) a 23 ++ soloCall 0 (.remove k) (a + 23) 25 ++ rounds k (a + 48) n

/-- The key 5 is removed, and its address 41 stays in the pointer. Node 41 is
    deleted before 5 is added again, so the CAS retires 41 once more. -/
def labelsOfReuse : List (Tid × Action) :=
  soloCall 0 (.add 10) 10 18 ++ soloCall 0 (.add 5) 28 23 ++ soloCall 0 (.remove 5) 51 25 ++
    rounds 20 76 5 ++ soloCall 0 (.add 20) 316 23 ++ soloCall 0 (.remove 20) 339 1232 ++
    soloCall 0 (.add 5) 1571 23 ++ rounds 20 1594 3 ++ soloCall 0 (.add 20) 1738 23 ++
    (0, .invoke (.remove 20)) :: accesses 0 1761 743

/-- The next access deletes `a`, which is deleted already. -/
def deletesAgain (s : State) (a : Addr) : Bool :=
  s.mem.cell a == .deleted && match s.thread 0 with
    | .running _ (.childScan b _ i _ _ _) =>
        b == a && Word.ptr a != unflag (s.mem.hp i) && i + 1 == maxThreads * numHpPerThread
    | _ => false

theorem scanDeletes_of_deletesAgain {a : Addr} (fresh : Addr) (h : deletesAgain s a = true) :
    s.mem.cell a = .deleted ∧ s.scanDeletes (0, .access fresh) a := by
  unfold deletesAgain at h
  rw [Bool.and_eq_true, beq_iff_eq] at h
  obtain ⟨hcell, h⟩ := h
  refine ⟨hcell, ?_⟩
  split at h
  · next call b rest i r dest ret hrun =>
    simp only [Bool.and_eq_true, beq_iff_eq, bne_iff_ne] at h
    obtain ⟨⟨rfl, hslot⟩, hi⟩ := h
    exact ⟨rest, i, r, dest, ret, by simp [State.at, hrun], hslot, hi.ge⟩
  · cases h

theorem next_of_scanDeletes {a fresh : Addr} (h : s.scanDeletes (t, .access fresh) a) :
    ((system cfg).next s (t, .access fresh)).isSome := by
  obtain ⟨rest, i, r, dest, ret, hat, hslot, hi⟩ := h
  simp only [State.at] at hat
  split at hat
  · next call pc hrun =>
    cases hat
    have hlast : ¬ i + 1 < maxThreads * numHpPerThread := by omega
    simp [system, State.next, hrun, exec, hslot, hlast]
  · cases hat

set_option maxRecDepth 20000 in
/-- Node 41 is deleted twice, and is not handed out again in between. -/
theorem not_deletes_once : ¬ ∀ (n : Nat) (t : Tid) (e : (system .guarded).Exec n),
    (∀ j < n, (e.label j).1 = t) → DeletesOnce e := by
  intro h
  have hrun : ((system .guarded).runFrom .initial labelsOfReuse).any (deletesAgain · 41) = true := by
    decide +kernel
  have hzero : ∀ l ∈ labelsOfReuse, l.1 = 0 := by decide +kernel
  obtain ⟨e, hstate, hlast, hlabel⟩ := Lts.Exec.exists_of_runFrom hrun (a := (0, .access 0))
    fun s hs => next_of_scanDeletes (scanDeletes_of_deletesAgain 0 hs).2
  obtain ⟨hcell, hdel⟩ := scanDeletes_of_deletesAgain 0 hstate
  have hsolo : ∀ j < labelsOfReuse.length + 1, (e.label j).1 = 0 := fun j hj => by
    rcases Nat.lt_succ_iff_lt_or_eq.mp hj with hj | rfl
    · exact hzero _ (hlabel j hj)
    · rw [hlast]
  have hnode := (h _ 0 e hsolo).allocated _ (Nat.lt_succ_self _) 41 (hlast ▸ hdel)
  rw [hcell] at hnode
  cases hnode

end LockFree
