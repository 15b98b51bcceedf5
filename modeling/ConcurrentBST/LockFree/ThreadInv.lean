-- SUMMARY: What a thread knows at each program point, and that no step of another thread takes it away.
import ConcurrentBST.LockFree.Effects

/-!
# What a thread knows

The locals of a thread are snapshots. What they still say about the memory is
mostly conditional: as long as `x->op` is the word the thread has read, the
child fields and the key of `x` are as they were. Such conditions can only
turn false, because an `op` field never returns to an old word.
-/

namespace LockFree

variable {cfg : Config} {m m' : Mem} {g g' : Ghost} {x y r s a b n c : Addr} {d e : Bool} {k : Int}
  {w v : Word} {t u : Tid} {spent : Addr → Prop} {call : Call} {f : FindVars}

-- ---------------------------------------------------------------------------
-- Snapshots
-- ---------------------------------------------------------------------------

/-- The thread has read `w`, which carries no flag, in `x->op`. -/
structure Seen (m : Mem) (g : Ghost) (x : Addr) (w : Word) : Prop where
  born : x ∈ g.born
  ever : everOp m g x w
  flag : w.flag = .none

/-- The thread has found the key in `x`. -/
structure Target (m : Mem) (g : Ghost) (k : Int) (x : Addr) (w : Word) : Prop extends
    Seen m g x w where
  ne_root : x ≠ baseRoot
  key : m.op x = w → m.key x = k

/-- The thread has come to `curr` from `pred`. -/
structure Link (m : Mem) (g : Ghost) (pred : Addr) (predOp : Word) (curr : Addr) : Prop where
  seen : Seen m g pred predOp
  born : curr ∈ g.born
  slot : m.op pred = predOp → ∃ d, m.child pred d = .ptr curr
  above : (∃ d, m.child pred d = .ptr curr) ∨ m.marked curr

/-- `k` belongs into the empty slot on side `d` of `x`. -/
structure Vacant (m : Mem) (g : Ghost) (k : Int) (x : Addr) (w : Word) (d : Bool) : Prop extends
    Seen m g x w where
  empty : m.op x = w → isNull (m.child x d) = true
  gap : m.op x = w → Gap m g x d k

/-- Where a search for `k` on the right of `aux` has got to. -/
structure Path (m : Mem) (g : Ghost) (aux : Addr) (k : Int) (curr lastRight : Addr) : Prop where
  below : g.tree.Below aux false curr
  left : ∀ x, g.tree.Below aux false x → g.tree.Below x true curr → k < m.key x
  right : ∀ x, x = aux ∨ g.tree.Below aux false x → g.tree.Below x false curr →
    x = lastRight ∨ g.tree.Below x false lastRight

/-- `q` is reached from `aux` by one step to the right and then only to the left. -/
structure LeftPath (g : Ghost) (aux q : Addr) : Prop where
  below : g.tree.Below aux false q
  left : ∀ z e, g.tree.Below z e q → g.tree.Below aux false z → e = true

-- ---------------------------------------------------------------------------
-- `find`
-- ---------------------------------------------------------------------------

/-- The node a search starts from is still what its caller has seen. -/
def Anchored (m : Mem) : FindCaller → Prop
  | .root => True
  | .replacement aux auxOp => m.op aux = auxOp

/-- What `remove` knows about the node for which it searches a replacement. -/
def CallerInv (m : Mem) (g : Ghost) (call : Call) : FindCaller → Prop
  | .root => True
  | .replacement aux auxOp => (∃ k, call = .remove k) ∧ Target m g call.key aux auxOp ∧
      (m.op aux = auxOp → isNull (m.child aux false) = false)

/-- `find` at a node it has reached through a child field. -/
structure Visit (m : Mem) (g : Ghost) (call : Call) (f : FindVars) : Prop where
  caller : CallerInv m g call f.caller
  link : Link m g f.pred f.predOp f.curr
  last : Seen m g f.lastRight f.lastRightOp
  last_lt : m.op f.lastRight = f.lastRightOp → f.lastRight ≠ f.caller.auxRoot →
    m.key f.lastRight < call.key
  path : Anchored m f.caller → Path m g f.caller.auxRoot call.key f.curr f.lastRight

/-- `find` after its loop, before line 222. -/
structure Ended (m : Mem) (g : Ghost) (call : Call) (f : FindVars) (result : FindResult) :
    Prop where
  caller : CallerInv m g call f.caller
  curr : Seen m g f.curr f.currOp
  last : Seen m g f.lastRight f.lastRightOp
  last_lt : m.op f.lastRight = f.lastRightOp → f.lastRight ≠ f.caller.auxRoot →
    m.key f.lastRight < call.key
  slot : (result = .notFoundL ∧ Visit m g call f ∧ call.key < m.key f.curr ∧
      (m.op f.curr = f.currOp → isNull (m.child f.curr true) = true)) ∨
    (result = .notFoundR ∧ f.lastRight = f.curr ∧ f.lastRightOp = f.currOp ∧
      (f.curr = f.caller.auxRoot ∨ Visit m g call f) ∧
      (m.op f.curr = f.currOp → isNull (m.child f.curr false) = true))

/-- What `find` tells its caller if line 229 finds `curr->op` unchanged. -/
def Answer (m : Mem) (g : Ghost) (call : Call) (f : FindVars) (result : FindResult) : Prop :=
  match f.caller with
  | .root =>
      result = .found ∧ Target m g call.key f.curr f.currOp ∧ Link m g f.pred f.predOp f.curr ∨
      result = .notFoundL ∧ Vacant m g call.key f.curr f.currOp true ∨
      result = .notFoundR ∧ Vacant m g call.key f.curr f.currOp false
  | .replacement aux auxOp =>
      CallerInv m g call f.caller ∧ result ≠ .abort ∧ Seen m g f.curr f.currOp ∧
      (m.op aux = auxOp → Link m g f.pred f.predOp f.curr ∧
        (m.op f.curr = f.currOp →
          LeftPath g aux f.curr ∧ isNull (m.child f.curr true) = true))

-- ---------------------------------------------------------------------------
-- `remove`
-- ---------------------------------------------------------------------------

/-- The node whose key is to replace that of `aux`. -/
structure Candidate (m : Mem) (g : Ghost) (f : FindVars) (aux : Addr) (auxOp : Word) : Prop where
  seen : Seen m g f.curr f.currOp
  link : Link m g f.pred f.predOp f.curr
  slot : m.op f.curr = f.currOp → f.curr ≠ aux ∧ f.curr ≠ baseRoot ∧
    isNull (m.child f.curr true) = true
  path : m.op aux = auxOp → m.op f.curr = f.currOp → LeftPath g aux f.curr

-- ---------------------------------------------------------------------------
-- Helpers
-- ---------------------------------------------------------------------------

/-- What the caller of a helper is waiting for, when the helper does not finish its call. -/
def Retrying (m : Mem) (g : Ghost) (t : Tid) (call : Call) (f : FindVars) : Prop :=
  g.status t = .waiting call ∧ CallerInv m g call f.caller

/-- `helpChildCAS` before line 365. -/
def ChildRet (m : Mem) (g : Ghost) (t : Tid) (call : Call) (op : Addr) : HelpRet → Prop
  | .retry f => Retrying m g t call f
  | .add => (∃ k, call = .add k) ∧ (g.status t = .published call op ∨ g.status t = .done .added)
  | .remove _ => g.status t = .done (.removed true)

/-- `helpChildCAS` after line 365. -/
def ChildDone (m : Mem) (g : Ghost) (t : Tid) (call : Call) : HelpRet → Prop
  | .retry f => Retrying m g t call f
  | .add => g.status t = .done .added
  | .remove _ => g.status t = .done (.removed true)

/-- `helpMarked`. -/
def MarkedRet (m : Mem) (g : Ghost) (t : Tid) (call : Call) : HelpRet → Prop
  | .retry f => Retrying m g t call f
  | .add => False
  | .remove _ => g.status t = .done (.removed true)

/-- `helpRelocate`. -/
def RelocRet (m : Mem) (g : Ghost) (t : Tid) (call : Call) (op curr : Addr) : HelpRet → Prop
  | .retry f => Retrying m g t call f
  | .add => False
  | .remove _ => (∃ k, call = .remove k) ∧ curr = g.replace op ∧
      (g.status t = .published call op ∨
        g.status t = .done (.removed true) ∧ committed m g op ∨
        g.status t = .waiting call ∧ m.state op = .failed)

/-- The arguments of `helpMarked`. -/
structure Splice (m : Mem) (g : Ghost) (a : HelpArgs) : Prop where
  link : Link m g a.pred a.predOp a.curr
  marked : m.marked a.curr

/-- The arguments of `helpRelocate`. -/
structure Helping (m : Mem) (g : Ghost) (op : Addr) (a : HelpArgs) : Prop where
  installed : installed m g op
  curr : everOp m g a.curr (.rel op)
  link : Link m g a.pred a.predOp a.curr
  /-- What makes line 508 right. -/
  direct : (m.reloc op).dest = a.pred → a.curr = g.replace op →
    (∃ d, m.child a.pred d = .ptr a.curr) ∨ .ptr op ∈ g.pastOp a.pred ∨ m.state op = .failed

-- ---------------------------------------------------------------------------
-- Program points
-- ---------------------------------------------------------------------------

/-- What thread `t` knows in its call at a program point. -/
def PcInv (cfg : Config) (m : Mem) (g : Ghost) (t : Tid) (call : Call) : PC → Prop
  | .hpChild _ _ next => PcInv cfg m g t call next
  | .hpPut _ next => PcInv cfg m g t call next
  | .findOp f => Retrying m g t call f ∧ f.curr = f.caller.auxRoot
  | .findNext f => Retrying m g t call f ∧ f.curr = f.caller.auxRoot ∧ Seen m g f.curr f.currOp
  | .findCurrOp f => g.status t = .waiting call ∧ Visit m g call f
  | .findKey f => g.status t = .waiting call ∧ Visit m g call f ∧ Seen m g f.curr f.currOp
  | .findChild f isLeft => g.status t = .waiting call ∧ Visit m g call f ∧
      Seen m g f.curr f.currOp ∧ (isLeft = true → call.key < m.key f.curr) ∧
      (isLeft = false → m.op f.curr = f.currOp → m.key f.curr < call.key)
  | .findLastRight f result => g.status t = .waiting call ∧ Ended m g call f result
  | .findCurr f result => g.status t = .waiting call ∧ Answer m g call f result
  | .addNew f isLeft => g.status t = .waiting call ∧ (∃ k, call = .add k) ∧
      Vacant m g call.key f.curr f.currOp isLeft
  | .addOld f isLeft newNode => g.status t = .waiting call ∧ (∃ k, call = .add k) ∧
      Vacant m g call.key f.curr f.currOp isLeft ∧ Private cfg m g newNode ∧
      m.key newNode = call.key
  | .addCas f newNode casOp => g.status t = .waiting call ∧ (∃ k, call = .add k) ∧
      Vacant m g call.key f.curr f.currOp (m.cas casOp).isLeft ∧ Private cfg m g newNode ∧
      m.key newNode = call.key ∧ Private cfg m g casOp ∧ g.owner casOp = t ∧
      (m.cas casOp).update = .ptr newNode ∧
      (m.op f.curr = f.currOp → m.child f.curr (m.cas casOp).isLeft = (m.cas casOp).expected)
  | .removeRight f | .removeLeft f | .removeTestRight f => g.status t = .waiting call ∧
      (∃ k, call = .remove k) ∧ Target m g call.key f.curr f.currOp ∧
      Link m g f.pred f.predOp f.curr
  | .removeTestLeft f => g.status t = .waiting call ∧
      (∃ k, call = .remove k) ∧ Target m g call.key f.curr f.currOp ∧
      Link m g f.pred f.predOp f.curr ∧
      (m.op f.curr = f.currOp → isNull (m.child f.curr false) = false)
  | .removeMark f => g.status t = .waiting call ∧
      (∃ k, call = .remove k) ∧ Target m g call.key f.curr f.currOp ∧
      Link m g f.pred f.predOp f.curr ∧
      (m.op f.curr = f.currOp → ∃ d, isNull (m.child f.curr d) = true)
  | .removeCheck f aux auxOp => g.status t = .waiting call ∧
      CallerInv m g call (.replacement aux auxOp) ∧ Seen m g f.curr f.currOp ∧
      (m.op aux = auxOp → Link m g f.pred f.predOp f.curr ∧
        (m.op f.curr = f.currOp → LeftPath g aux f.curr ∧ isNull (m.child f.curr true) = true))
  | .removeNew f aux auxOp => g.status t = .waiting call ∧
      CallerInv m g call (.replacement aux auxOp) ∧ Candidate m g f aux auxOp
  | .removeInstall f r => g.status t = .waiting call ∧ (m.reloc r).removeKey = call.key ∧
      CallerInv m g call (.replacement (m.reloc r).dest (m.reloc r).destOp) ∧
      Candidate m g f (m.reloc r).dest (m.reloc r).destOp ∧ Private cfg m g r ∧
      g.owner r = t ∧ g.replace r = f.curr ∧ m.state r = .ongoing ∧
      (m.op f.curr = f.currOp → m.key f.curr = (m.reloc r).replaceKey)
  | .removeDelete _ _ => g.status t = .waiting call
  | .childSlot op dest ret => everOp m g dest (.cas op) ∧ ChildRet m g t call op ret
  | .childScan _ _ _ _ _ _ => False
  | .childOp op dest ret => everOp m g dest (.cas op) ∧
      (m.cas op).expected ∈ g.pastChild dest (m.cas op).isLeft ∧ ChildDone m g t call ret
  | .markedLeft a => Splice m g a ∧ MarkedRet m g t call a.ret
  | .markedRight a => Splice m g a ∧ MarkedRet m g t call a.ret ∧
      isNull (m.child a.curr true) = true
  | .markedRef a isLeft => Splice m g a ∧ MarkedRet m g t call a.ret ∧
      m.replacement a.curr = m.child a.curr isLeft
  | .markedNew a newRef => Splice m g a ∧ MarkedRet m g t call a.ret ∧
      newRef = m.replacement a.curr
  | .markedCas a r => Splice m g a ∧ MarkedRet m g t call a.ret ∧ Private cfg m g r ∧
      (m.cas r).expected = .ptr a.curr ∧ (m.cas r).update = m.replacement a.curr ∧
      (m.op a.pred = a.predOp → m.child a.pred (m.cas r).isLeft = .ptr a.curr)
  | .relocState op a | .relocDest op a => Helping m g op a ∧ RelocRet m g t call op a.curr a.ret
  | .relocSucceed op a => Helping m g op a ∧ RelocRet m g t call op a.curr a.ret ∧
      committed m g op
  | .relocFail op a => Helping m g op a ∧ RelocRet m g t call op a.curr a.ret ∧
      (m.reloc op).destOp ∈ g.pastOp (m.reloc op).dest ∧ m.op (m.reloc op).dest ≠ .rel op
  | .relocKey op a => Helping m g op a ∧ RelocRet m g t call op a.curr a.ret ∧
      m.state op = .successful
  | .relocClear op a => Helping m g op a ∧ RelocRet m g t call op a.curr a.ret ∧
      op ∈ g.rewritten
  | .relocCurr op a result => Helping m g op a ∧ RelocRet m g t call op a.curr a.ret ∧
      a.curr = g.replace op ∧
      (result = true → .rel op ∈ g.pastOp (m.reloc op).dest) ∧
      (result = false → m.state op = .failed)
  | .ret r => g.status t = .done r

/-- The addresses that only the thread at this program point knows. -/
def PC.owns : PC → List Addr
  | .hpChild _ _ next | .hpPut _ next => next.owns
  | .addOld _ _ newNode => [newNode]
  | .addCas _ newNode casOp => [newNode, casOp]
  | .removeInstall _ relocOp => [relocOp]
  | .markedCas _ casOp => [casOp]
  | _ => []

-- ---------------------------------------------------------------------------
-- Stability
-- ---------------------------------------------------------------------------

/-- The memory before and after a step of some thread. -/
structure Evolution (cfg : Config) (spent : Addr → Prop) (m : Mem) (g : Ghost) (m' : Mem)
    (g' : Ghost) : Prop extends Evolves cfg spent m g m' g' where
  before : MemInv cfg m g
  after : MemInv cfg m' g'

namespace Evolution

variable (h : Evolution cfg spent m g m' g')

include h

theorem ever (he : everOp m g x w) : everOp m' g' x w := by
  rcases he with rfl | he
  · exact h.op x
  · exact .inr (h.pastOp x he)

/-- An old word of an `op` field does not come back. -/
theorem op_back (he : everOp m g x w) (hx : m'.op x = w) : m.op x = w := by
  rcases he with he | he
  · exact he
  · exact absurd (hx ▸ h.pastOp x he) (h.after.op_fresh x)

theorem seen (hs : Seen m g x w) : Seen m' g' x w :=
  ⟨h.born hs.born, h.ever hs.ever, hs.flag⟩

theorem child_eq (hs : Seen m g x w) (hx : m'.op x = w) (d : Bool) :
    m'.child x d = m.child x d := by
  rcases h.child x d with heq | ⟨hf, _⟩
  · exact heq
  · rw [h.op_back hs.ever hx, hs.flag] at hf
    cases hf

theorem key_eq_of_seen (hs : Seen m g x w) (hx : m'.op x = w) : m'.key x = m.key x := by
  apply h.key_eq (h.before.taken (.node hs.born))
  rw [h.op_back hs.ever hx, hs.flag]
  simp

/-- A node whose `op` field has no flag stays in the tree. -/
theorem mem_of_seen (hs : Seen m g x w) (hx : m'.op x = w) : x ∈ g'.tree.nodes :=
  h.after.mem_of_unmarked (h.born hs.born) (unmarked_of_flag (by simp [hx, hs.flag]))

theorem marked_mono (hm : m.marked x) : m'.marked x := by
  unfold Mem.marked
  rw [h.marked hm]
  exact hm

theorem child_of_marked (hm : m.marked x) (d : Bool) : m'.child x d = m.child x d := by
  rcases h.child x d with heq | ⟨hf, _⟩
  · exact heq
  · rw [Mem.marked, hf] at hm
    cases hm

theorem replacement_of_marked (hm : m.marked x) : m'.replacement x = m.replacement x := by
  unfold Mem.replacement
  rw [h.child_of_marked hm, h.child_of_marked hm]

theorem below_of (hy : y ∈ g.born) (hb : g'.tree.Below x d y) : g.tree.Below x d y := by
  have ha : (x, d) ∈ g.tree.anc y := h.anc hy ▸ hb.2
  exact ⟨h.mem_of (h.before.born_of_anc ha) hb.1, ha⟩

theorem below_keep (hy : y ∈ g.born) (hb : g.tree.Below x d y) (hx : x ∈ g'.tree.nodes) :
    g'.tree.Below x d y :=
  ⟨hx, (h.anc hy).symm ▸ hb.2⟩

theorem hidden_keep (hp : Private cfg m g a) (ha : ¬ spent a) : Private cfg m' g' a :=
  ⟨hp.ne_zero, h.hidden hp.taken ha hp.hidden, h.taken hp.taken ha⟩

theorem committed_mono (hr : installed m g r) (hc : committed m g r) : committed m' g' r := by
  obtain ⟨st, hst, _⟩ := h.reloc (h.before.taken (h.before.rel_public hr))
  unfold committed
  rw [hst]
  exact h.ever hc

theorem installed_mono (hr : installed m g r) : installed m' g' r := by
  unfold installed
  rw [h.replace (h.before.taken (h.before.rel_public hr))]
  exact h.ever hr

theorem state_eq (hr : installed m g r) (hst : m.state r ≠ .ongoing) :
    m'.state r = m.state r := by
  obtain ⟨st, hreloc, hst' | hst'⟩ := h.reloc (h.before.taken (h.before.rel_public hr))
  · rw [Mem.state, hreloc, ← hst']
  · exact absurd hst'.1 hst

theorem cas_eq (he : everOp m g x (.cas r)) : m'.cas r = m.cas r :=
  h.cas (h.before.taken_cas he)

/-! ### Snapshots -/

theorem target (ht : Target m g k x w) : Target m' g' k x w where
  toSeen := h.seen ht.toSeen
  ne_root := ht.ne_root
  key := by
    intro hx
    rw [h.key_eq_of_seen ht.toSeen hx]
    exact ht.key (h.op_back ht.ever hx)

theorem link (hl : Link m g x w c) : Link m' g' x w c where
  seen := h.seen hl.seen
  born := h.born hl.born
  slot := by
    intro hx
    obtain ⟨d, hd⟩ := hl.slot (h.op_back hl.seen.ever hx)
    exact ⟨d, (h.child_eq hl.seen hx d).trans hd⟩
  above := by
    rcases hl.above with ⟨d, hd⟩ | hm
    · rcases h.child x d with heq | ⟨_, _, _, hdrop⟩
      · exact .inl ⟨d, heq.trans hd⟩
      · exact .inr (h.marked_mono (hdrop c hd))
    · exact .inr (h.marked_mono hm)

theorem vacant (hv : Vacant m g k x w d) : Vacant m' g' k x w d where
  toSeen := h.seen hv.toSeen
  empty := by
    intro hx
    rw [h.child_eq hv.toSeen hx]
    exact hv.empty (h.op_back hv.ever hx)
  gap := by
    intro hx
    have hw := h.op_back hv.ever hx
    exact h.gap hv.born (by rw [hw, hv.flag]) (hx.trans hw.symm) (hv.empty hw) (hv.gap hw)

theorem path (hp : Path m g x k c y) (hx : x ∈ g'.tree.nodes) (hc : c ∈ g.born)
    (hy : y ∈ g.born) : Path m' g' x k c y where
  below := h.below_keep hc hp.below hx
  left := by
    intro z hz hzc
    have hzc' := h.below_of hc hzc
    have hzb := h.before.born_of_mem hzc'.mem
    exact (hp.left z (h.below_of hzb hz) hzc').trans_le (h.key_le hzb)
  right := by
    intro z hz hzc
    have hzc' := h.below_of hc hzc
    have hz' : z = x ∨ g.tree.Below x false z :=
      hz.imp_right (h.below_of (h.before.born_of_mem hzc'.mem))
    exact (hp.right z hz' hzc').imp_right fun hb => h.below_keep hy hb hzc.mem

theorem leftPath (hp : LeftPath g x y) (hx : x ∈ g'.tree.nodes) (hy : y ∈ g.born) :
    LeftPath g' x y where
  below := h.below_keep hy hp.below hx
  left := by
    intro z e hz hxz
    have hz' := h.below_of hy hz
    exact hp.left z e hz' (h.below_of (h.before.born_of_mem hz'.mem) hxz)

/-! ### The parts of `find` and `remove` -/

theorem callerInv {fc : FindCaller} (hc : CallerInv m g call fc) : CallerInv m' g' call fc := by
  cases fc with
  | root => trivial
  | replacement aux auxOp =>
    obtain ⟨hk, ht, hr⟩ := hc
    refine ⟨hk, h.target ht, fun hx => ?_⟩
    rw [h.child_eq ht.toSeen hx]
    exact hr (h.op_back ht.ever hx)

/-- An anchor that holds held before, and its node is in the tree. -/
theorem anchored {fc : FindCaller} (hc : CallerInv m g call fc) (ha : Anchored m' fc) :
    Anchored m fc ∧ fc.auxRoot ∈ g'.tree.nodes := by
  cases fc with
  | root => exact ⟨trivial, h.after.root⟩
  | replacement aux auxOp =>
    obtain ⟨_, ht, _⟩ := hc
    exact ⟨h.op_back ht.ever ha, h.mem_of_seen ht.toSeen ha⟩

theorem last_lt (hs : Seen m g x w) (hlt : m.op x = w → x ≠ y → m.key x < k) :
    m'.op x = w → x ≠ y → m'.key x < k := by
  intro hx hne
  rw [h.key_eq_of_seen hs hx]
  exact hlt (h.op_back hs.ever hx) hne

theorem visit (hv : Visit m g call f) : Visit m' g' call f where
  caller := h.callerInv hv.caller
  link := h.link hv.link
  last := h.seen hv.last
  last_lt := h.last_lt hv.last hv.last_lt
  path := by
    intro ha
    obtain ⟨ha', hmem⟩ := h.anchored hv.caller ha
    exact h.path (hv.path ha') hmem hv.link.born hv.last.born

theorem empty (hs : Seen m g x w) (he : m.op x = w → isNull (m.child x d) = e) :
    m'.op x = w → isNull (m'.child x d) = e := by
  intro hx
  rw [h.child_eq hs hx]
  exact he (h.op_back hs.ever hx)

theorem ended {result : FindResult} (he : Ended m g call f result) : Ended m' g' call f result where
  caller := h.callerInv he.caller
  curr := h.seen he.curr
  last := h.seen he.last
  last_lt := h.last_lt he.last he.last_lt
  slot := by
    rcases he.slot with ⟨hr, hv, hk, hn⟩ | ⟨hr, hl, hlo, hv, hn⟩
    · exact .inl ⟨hr, h.visit hv, hk.trans_le (h.key_le he.curr.born), h.empty he.curr hn⟩
    · exact .inr ⟨hr, hl, hlo, hv.imp_right h.visit, h.empty he.curr hn⟩

/-- What a replacement search has found, as long as its anchor holds. -/
theorem found {aux : Addr} {auxOp : Word} (ht : Seen m g aux auxOp)
    (hs : Seen m g f.curr f.currOp)
    (hp : m.op aux = auxOp → Link m g f.pred f.predOp f.curr ∧ (m.op f.curr = f.currOp →
      LeftPath g aux f.curr ∧ isNull (m.child f.curr true) = true)) :
    m'.op aux = auxOp → Link m' g' f.pred f.predOp f.curr ∧ (m'.op f.curr = f.currOp →
      LeftPath g' aux f.curr ∧ isNull (m'.child f.curr true) = true) := by
  intro haux
  obtain ⟨hl, hq⟩ := hp (h.op_back ht.ever haux)
  refine ⟨h.link hl, fun hx => ?_⟩
  obtain ⟨hpath, hn⟩ := hq (h.op_back hs.ever hx)
  refine ⟨h.leftPath hpath (h.mem_of_seen ht haux) hs.born, ?_⟩
  rw [h.child_eq hs hx]
  exact hn

theorem answer {result : FindResult} (ha : Answer m g call f result) :
    Answer m' g' call f result := by
  unfold Answer at *
  split at ha
  · rcases ha with ⟨hr, ht, hl⟩ | ⟨hr, hv⟩ | ⟨hr, hv⟩
    · exact .inl ⟨hr, h.target ht, h.link hl⟩
    · exact .inr (.inl ⟨hr, h.vacant hv⟩)
    · exact .inr (.inr ⟨hr, h.vacant hv⟩)
  · next aux auxOp heq =>
    obtain ⟨hc, hr, hs, hp⟩ := ha
    refine ⟨h.callerInv hc, hr, h.seen hs, ?_⟩
    rw [heq] at hc
    exact h.found hc.2.1.toSeen hs hp

theorem candidate {aux : Addr} {auxOp : Word} (ht : Seen m g aux auxOp)
    (hc : Candidate m g f aux auxOp) : Candidate m' g' f aux auxOp where
  seen := h.seen hc.seen
  link := h.link hc.link
  slot := by
    intro hx
    obtain ⟨h₁, h₂, h₃⟩ := hc.slot (h.op_back hc.seen.ever hx)
    refine ⟨h₁, h₂, ?_⟩
    rw [h.child_eq hc.seen hx]
    exact h₃
  path := by
    intro haux hx
    exact h.leftPath (hc.path (h.op_back ht.ever haux) (h.op_back hc.seen.ever hx))
      (h.mem_of_seen ht haux) hc.seen.born

theorem splice {a : HelpArgs} (hs : Splice m g a) : Splice m' g' a :=
  ⟨h.link hs.link, h.marked_mono hs.marked⟩

theorem reloc_eq (hr : installed m g r) : (m'.reloc r).dest = (m.reloc r).dest ∧
    (m'.reloc r).destOp = (m.reloc r).destOp := by
  obtain ⟨st, hst, _⟩ := h.reloc (h.before.taken (h.before.rel_public hr))
  rw [hst]
  exact ⟨rfl, rfl⟩

/-- A relocation that leaves the replacing node has failed or is over on `dest`. -/
theorem helping {op : Addr} {a : HelpArgs} (hh : Helping m g op a) : Helping m' g' op a where
  installed := h.installed_mono hh.installed
  curr := h.ever hh.curr
  link := h.link hh.link
  direct := by
    rw [(h.reloc_eq hh.installed).1,
      h.replace (h.before.taken (h.before.rel_public hh.installed))]
    intro hd hq
    rcases hh.direct hd hq with ⟨d, hc⟩ | hp | hf
    · rcases h.child a.pred d with heq | ⟨hflag, _, _, hdrop⟩
      · exact .inl ⟨d, heq.trans hc⟩
      · -- The splice needs a marked node and a child CAS on `dest`.
        have hR := h.before.record hh.installed
        have hm := hdrop _ hc
        have hpast : .rel op ∈ g.pastOp (g.replace op) := by
          rcases hh.installed with hi | hi
          · rw [hq, Mem.marked, hi] at hm
            cases hm
          · exact hi
        rcases hR.released hpast with hf | ⟨hfin, _⟩
        · exact .inr (.inr ((h.state_eq hh.installed (by simp [hf])).trans hf))
        · rcases (hR.finished hfin).2.2 with hop | hop
          · rw [hd] at hop
            simp [hop] at hflag
          · exact .inr (.inl (h.pastOp _ (hd ▸ hop)))
    · exact .inr (.inl (h.pastOp _ hp))
    · exact .inr (.inr ((h.state_eq hh.installed (by simp [hf])).trans hf))

end Evolution

/-- How the status of a thread changes by a step of another one. -/
inductive Resolves (m' : Mem) (g' : Ghost) : Status → Status → Prop where
  | same {st : Status} : Resolves m' g' st st
  | added {k : Int} {r : Addr} : Resolves m' g' (.published (.add k) r) (.done .added)
  | removed {k : Int} {r : Addr} : committed m' g' r →
      Resolves m' g' (.published (.remove k) r) (.done (.removed true))
  | failed {k : Int} {r : Addr} : m'.state r = .failed →
      Resolves m' g' (.published (.remove k) r) (.waiting (.remove k))

theorem Resolves.waiting {st : Status} (h : Resolves m' g' (.waiting call) st) :
    st = .waiting call := by
  cases h
  rfl

theorem Resolves.done {st : Status} {res : Result} (h : Resolves m' g' (.done res) st) :
    st = .done res := by
  cases h
  rfl

/-- Another thread only changes the status of the thread whose record it finishes. -/
theorem Change.resolves (hc : Change cfg t spent m g m' g') (h : MemInv cfg m g)
    (hs : StatusInv m g) (hut : u ≠ t) : Resolves m' g' (g.status u) (g'.status u) := by
  have hother : ∀ {v : Tid} {st : Status} {g₀ : Ghost}, g₀.status = g.status → u ≠ v →
      Resolves m' g' (g.status u) ((g₀.setStatus v st).status u) := by
    intro v st g₀ hg huv
    have heq : (g₀.setStatus v st).status u = g.status u := by
      rw [← hg]
      exact Function.update_of_ne huv ..
    exact heq ▸ .same
  cases hc with
  | read => exact .same
  | hpList w => exact .same
  | observe _ _ => exact hother rfl hut
  | newNode k ha => exact .same
  | newCas o ha => exact .same
  | newReloc o x ha => exact .same
  | delete as _ => exact .same
  | publishInsertion hi _ _ _ hw => exact hother rfl hut
  | publishSplicing hi _ => exact .same
  | @link x r a n hop hslot hexp hupd hn h0 hgap =>
    by_cases hu : u = g.owner r
    · have hpub := (hs u (.add (m.key n)) r).mpr ⟨hu.symm, .add hop hslot (by rw [hexp]) hupd⟩
      rw [hpub, hu]
      simpa [Ghost.setStatus] using Resolves.added
    · exact hother rfl hu
  | unlink hop hslot hexp hc hm hupd => exact .same
  | clearCas hop hdone => exact .same
  | mark hx hroot hflag hempty hw => exact hother rfl hut
  | publishRelocation hr _ _ hw => exact hother rfl hut
  | @commit r hr hop =>
    by_cases hu : u = g.owner r
    · obtain ⟨hnc, hnf⟩ := h.open_of_ready hr hop
      have hpub := (hs u _ r).mpr ⟨hu.symm, .remove hr hnc hnf⟩
      rw [hpub, hu]
      have hcom : committed (m.setOp (m.reloc r).dest (.rel r)) ((g.setOp m (m.reloc r).dest).setStatus
          (g.owner r) (.done (.removed true))) r := .inl (by simp)
      simpa [Ghost.setStatus] using Resolves.removed hcom
    · exact hother rfl hu
  | succeed hst hcom => exact .same
  | @fail r hr hst hnc hp =>
    by_cases hu : u = g.owner r
    · have hpub := (hs u _ r).mpr ⟨hu.symm, .remove hr hnc (by simp [hst])⟩
      rw [hpub, hu]
      have hf : (m.setState r .failed).state r = .failed := by simp
      simpa [Ghost.setStatus] using Resolves.failed hf
    · exact hother rfl hu
  | rewrite hw => exact .same
  | clearRelocation hop hw => exact .same
  | releaseMark hop hq => exact .same
  | releaseFailed hop hst => exact .same

namespace Evolution

variable (h : Evolution cfg spent m g m' g') (hst : Resolves m' g' (g.status t) (g'.status t))

include hst

omit h in
theorem waiting (hw : g.status t = .waiting call) : g'.status t = .waiting call :=
  (hw ▸ hst).waiting

omit h in
theorem done {res : Result} (hd : g.status t = .done res) : g'.status t = .done res :=
  (hd ▸ hst).done

include h

theorem retrying (hr : Retrying m g t call f) : Retrying m' g' t call f :=
  ⟨waiting hst hr.1, h.callerInv hr.2⟩

theorem childRet {op : Addr} {ret : HelpRet} (hr : ChildRet m g t call op ret) :
    ChildRet m' g' t call op ret := by
  cases ret with
  | retry f => exact h.retrying hst hr
  | add =>
    obtain ⟨⟨k, rfl⟩, hp | hd⟩ := hr
    · refine ⟨⟨k, rfl⟩, ?_⟩
      rw [hp] at hst
      generalize g'.status t = st at hst
      cases hst with
      | same => exact .inl rfl
      | added => exact .inr rfl
    · exact ⟨⟨k, rfl⟩, .inr (done hst hd)⟩
  | remove f => exact done hst hr

theorem childDone {ret : HelpRet} (hr : ChildDone m g t call ret) :
    ChildDone m' g' t call ret := by
  cases ret with
  | retry f => exact h.retrying hst hr
  | add => exact done hst hr
  | remove f => exact done hst hr

theorem markedRet {ret : HelpRet} (hr : MarkedRet m g t call ret) :
    MarkedRet m' g' t call ret := by
  cases ret with
  | retry f => exact h.retrying hst hr
  | add => exact hr
  | remove f => exact done hst hr

theorem relocRet {op curr : Addr} {ret : HelpRet} (hi : installed m g op)
    (hr : RelocRet m g t call op curr ret) : RelocRet m' g' t call op curr ret := by
  cases ret with
  | retry f => exact h.retrying hst hr
  | add => exact hr
  | remove f =>
    obtain ⟨⟨k, rfl⟩, hq, hs⟩ := hr
    refine ⟨⟨k, rfl⟩, ?_, ?_⟩
    · rw [h.replace (h.before.taken (h.before.rel_public hi))]
      exact hq
    · rcases hs with hp | ⟨hd, hc⟩ | ⟨hw, hf⟩
      · rw [hp] at hst
        generalize g'.status t = st at hst
        cases hst with
        | same => exact .inl rfl
        | removed hc => exact .inr (.inl ⟨rfl, hc⟩)
        | failed hf => exact .inr (.inr ⟨rfl, hf⟩)
      · exact .inr (.inl ⟨done hst hd, h.committed_mono hi hc⟩)
      · exact .inr (.inr ⟨waiting hst hw, (h.state_eq hi (by simp [hf])).trans hf⟩)

attribute [local simp] PC.owns in
/-- What a thread knows survives the steps of the others. -/
theorem pcInv {pc : PC} (hown : ∀ a ∈ pc.owns, ¬ spent a) (hp : PcInv cfg m g t call pc) :
    PcInv cfg m' g' t call pc := by
  induction pc with
  | hpChild n d next ih => exact ih hown hp
  | hpPut w next ih => exact ih hown hp
  | findOp f => exact ⟨h.retrying hst hp.1, hp.2⟩
  | findNext f => exact ⟨h.retrying hst hp.1, hp.2.1, h.seen hp.2.2⟩
  | findCurrOp f => exact ⟨waiting hst hp.1, h.visit hp.2⟩
  | findKey f => exact ⟨waiting hst hp.1, h.visit hp.2.1, h.seen hp.2.2⟩
  | findChild f isLeft =>
    obtain ⟨hw, hv, hs, hl, hr⟩ := hp
    refine ⟨waiting hst hw, h.visit hv, h.seen hs,
      fun hd => (hl hd).trans_le (h.key_le hs.born), fun hd hx => ?_⟩
    rw [h.key_eq_of_seen hs hx]
    exact hr hd (h.op_back hs.ever hx)
  | findLastRight f result => exact ⟨waiting hst hp.1, h.ended hp.2⟩
  | findCurr f result => exact ⟨waiting hst hp.1, h.answer hp.2⟩
  | addNew f isLeft => exact ⟨waiting hst hp.1, hp.2.1, h.vacant hp.2.2⟩
  | addOld f isLeft n =>
    obtain ⟨hw, hk, hv, hn, hkey⟩ := hp
    refine ⟨waiting hst hw, hk, h.vacant hv, h.hidden_keep hn (hown n (by simp)), ?_⟩
    rw [h.key_eq hn.taken]
    · exact hkey
    · rw [(h.before.unborn fun hb => hn.hidden (.node hb)).1]
      simp
  | addCas f n r =>
    obtain ⟨hw, hk, hv, hn, hkey, hr, ho, hu, hslot⟩ := hp
    have hcas := h.cas hr.taken
    refine ⟨waiting hst hw, hk, ?_, h.hidden_keep hn (hown n (by simp)), ?_,
      h.hidden_keep hr (hown r (by simp)), (h.owner hr.taken).trans ho, ?_, ?_⟩
    · rw [hcas]
      exact h.vacant hv
    · rw [h.key_eq hn.taken]
      · exact hkey
      · rw [(h.before.unborn fun hb => hn.hidden (.node hb)).1]
        simp
    · rw [hcas]
      exact hu
    · intro hx
      rw [hcas, h.child_eq hv.toSeen hx]
      exact hslot (h.op_back hv.ever hx)
  | removeRight f | removeLeft f | removeTestRight f =>
    exact ⟨waiting hst hp.1, hp.2.1, h.target hp.2.2.1, h.link hp.2.2.2⟩
  | removeTestLeft f =>
    obtain ⟨hw, hk, ht, hl, hn⟩ := hp
    exact ⟨waiting hst hw, hk, h.target ht, h.link hl, h.empty ht.toSeen hn⟩
  | removeMark f =>
    obtain ⟨hw, hk, ht, hl, hn⟩ := hp
    refine ⟨waiting hst hw, hk, h.target ht, h.link hl, fun hx => ?_⟩
    obtain ⟨d, hd⟩ := hn (h.op_back ht.ever hx)
    exact ⟨d, by rw [h.child_eq ht.toSeen hx, hd]⟩
  | removeCheck f aux auxOp =>
    obtain ⟨hw, hc, hs, hq⟩ := hp
    exact ⟨waiting hst hw, h.callerInv hc, h.seen hs, h.found hc.2.1.toSeen hs hq⟩
  | removeNew f aux auxOp =>
    obtain ⟨hw, hc, hq⟩ := hp
    exact ⟨waiting hst hw, h.callerInv hc, h.candidate hc.2.1.toSeen hq⟩
  | removeInstall f r =>
    obtain ⟨hw, hk, hc, hq, hr, ho, hrep, hong, hkey⟩ := hp
    obtain ⟨st, hreloc, hst'⟩ := h.reloc hr.taken
    replace hst' : st = .ongoing := by
      rcases hst' with hst' | ⟨_, hpub⟩
      · exact hst'.trans hong
      · exact absurd hpub hr.hidden
    have hstate : m'.state r = .ongoing := by rw [Mem.state, hreloc, hst']
    have hrep' := h.replace hr.taken
    simp only [PcInv, hreloc] at *
    refine ⟨waiting hst hw, hk, h.callerInv hc, h.candidate hc.2.1.toSeen hq,
      h.hidden_keep hr (hown r (by simp)), (h.owner hr.taken).trans ho,
      hrep'.trans hrep, hstate, fun hx => ?_⟩
    rw [h.key_eq_of_seen hq.seen hx]
    exact hkey (h.op_back hq.seen.ever hx)
  | removeDelete f r => exact waiting hst hp
  | childSlot op dest ret => exact ⟨h.ever hp.1, h.childRet hst hp.2⟩
  | childScan _ _ _ _ _ _ => exact hp
  | childOp op dest ret =>
    obtain ⟨he, hpast, hr⟩ := hp
    refine ⟨h.ever he, ?_, h.childDone hst hr⟩
    rw [h.cas_eq he]
    exact h.pastChild _ _ hpast
  | markedLeft a => exact ⟨h.splice hp.1, h.markedRet hst hp.2⟩
  | markedRight a =>
    obtain ⟨hs, hr, hn⟩ := hp
    refine ⟨h.splice hs, h.markedRet hst hr, ?_⟩
    rw [h.child_of_marked hs.marked]
    exact hn
  | markedRef a d =>
    obtain ⟨hs, hr, hn⟩ := hp
    refine ⟨h.splice hs, h.markedRet hst hr, ?_⟩
    rw [h.child_of_marked hs.marked, h.replacement_of_marked hs.marked]
    exact hn
  | markedNew a w =>
    obtain ⟨hs, hr, hn⟩ := hp
    refine ⟨h.splice hs, h.markedRet hst hr, ?_⟩
    rw [h.replacement_of_marked hs.marked]
    exact hn
  | markedCas a r =>
    obtain ⟨hs, hr, hpriv, he, hu, hslot⟩ := hp
    have hcas := h.cas hpriv.taken
    refine ⟨h.splice hs, h.markedRet hst hr, h.hidden_keep hpriv (hown r (by simp)),
      ?_, ?_, fun hx => ?_⟩
    · rw [hcas]
      exact he
    · rw [hcas, h.replacement_of_marked hs.marked]
      exact hu
    · rw [hcas, h.child_eq hs.link.seen hx]
      exact hslot (h.op_back hs.link.seen.ever hx)
  | relocState op a | relocDest op a =>
    exact ⟨h.helping hp.1, h.relocRet hst hp.1.installed hp.2⟩
  | relocSucceed op a =>
    obtain ⟨hh, hr, hc⟩ := hp
    exact ⟨h.helping hh, h.relocRet hst hh.installed hr, h.committed_mono hh.installed hc⟩
  | relocFail op a =>
    obtain ⟨hh, hr, hpast, hne⟩ := hp
    refine ⟨h.helping hh, h.relocRet hst hh.installed hr, ?_, ?_⟩
    · rw [(h.reloc_eq hh.installed).1, (h.reloc_eq hh.installed).2]
      exact h.pastOp _ hpast
    · rw [(h.reloc_eq hh.installed).1]
      intro hop
      rcases h.rel (.inl hop) with (he | he) | hpub | ⟨hd, _⟩
      · exact hne he
      · exact h.after.op_fresh _ (hop ▸ h.pastOp _ he)
      · exact hpub (h.before.rel_public hh.installed)
      · exact h.before.op_fresh _ (hd ▸ hpast)
  | relocKey op a =>
    obtain ⟨hh, hr, hs⟩ := hp
    exact ⟨h.helping hh, h.relocRet hst hh.installed hr,
      (h.state_eq hh.installed (by simp [hs])).trans hs⟩
  | relocClear op a =>
    obtain ⟨hh, hr, hw⟩ := hp
    exact ⟨h.helping hh, h.relocRet hst hh.installed hr, h.rewritten hw⟩
  | relocCurr op a result =>
    obtain ⟨hh, hr, hq, htrue, hfalse⟩ := hp
    refine ⟨h.helping hh, h.relocRet hst hh.installed hr, ?_, fun hres => ?_, fun hres => ?_⟩
    · rw [h.replace (h.before.taken (h.before.rel_public hh.installed))]
      exact hq
    · rw [(h.reloc_eq hh.installed).1]
      exact h.pastOp _ (htrue hres)
    · exact (h.state_eq hh.installed (by simp [hfalse hres])).trans (hfalse hres)
  | ret r => exact done hst hp

end Evolution

end LockFree
