-- SUMMARY: The functions of Lock_Free_BST.cpp as a step function on program points.
import ConcurrentBST.Library.Transition
import ConcurrentBST.LockFree.Memory

/-!
# The lock-free program

`add`, `find`, `remove` and their helpers, one shared access at a time. A
program point names the access a thread performs next and carries the locals
that are still live. Local computation, allocation and the writes to a record
that no other thread can see yet are part of the step of the neighbouring
access. The fields of a `Child_CAS_OP` and all fields of a `Relocate_OP` but
`state` are written once, before the record is published, and are read in the
step that uses them.
-/

namespace LockFree

-- ---------------------------------------------------------------------------
-- Calls and locals
-- ---------------------------------------------------------------------------

/-- `find_result_type`. -/
inductive FindResult where
  | abort
  | notFoundL
  | notFoundR
  | found
deriving DecidableEq, Repr

/-- The calls a client can make. -/
inductive Call where
  | add (key : Int)
  | remove (key : Int)
  | find (key : Int)
deriving DecidableEq, Repr

def Call.key : Call → Int
  | .add k | .remove k | .find k => k

/-- How a call returns. `add` returns nothing, but from two different lines. -/
inductive Result where
  /-- `add` at line 119. -/
  | added
  /-- `add` at line 80. -/
  | alreadyPresent
  | removed (b : Bool)
  | found (r : FindResult)
deriving DecidableEq, Repr

/-- The two ways `find` is called: from `base_root`, or by `remove` at line 283
    from the node `curr` that its first `find` returned together with `curr_op`. -/
inductive FindCaller where
  | root
  | replacement (curr : Addr) (currOp : Word)
deriving DecidableEq, Repr

def FindCaller.auxRoot : FindCaller → Addr
  | .root => baseRoot
  | .replacement curr _ => curr

/-- The locals and reference parameters of `find`. They survive `goto retry`,
    and `pred` and `pred_op` also survive from one `find` of `remove` to the next. -/
structure FindVars where
  caller : FindCaller
  pred : Addr
  predOp : Word
  curr : Addr
  currOp : Word
  lastRight : Addr
  lastRightOp : Word
deriving DecidableEq, Repr

def FindVars.initial : FindVars :=
  ⟨.root, 0, .ptr 0, 0, .ptr 0, 0, .ptr 0⟩

/-- Where a helper returns to: `goto retry` in `find`, line 119 of `add`, or
    lines 269 and 311 of `remove`. -/
inductive HelpRet where
  | retry (f : FindVars)
  | add
  | remove (f : FindVars)
deriving DecidableEq, Repr

/-- The arguments `helpMarked` and `helpRelocate` share. -/
structure HelpArgs where
  pred : Addr
  predOp : Word
  curr : Addr
  ret : HelpRet
deriving DecidableEq, Repr

/-- Program points: the next shared access. -/
inductive PC where
  /-- Read the child field passed to `add_to_hp_list`. -/
  | hpChild (n : Addr) (isLeft : Bool) (next : PC)
  /-- Line 341. -/
  | hpPut (w : Word) (next : PC)
  /-- Line 141. -/
  | findOp (f : FindVars)
  /-- Line 167. -/
  | findNext (f : FindVars)
  /-- Line 175. -/
  | findCurrOp (f : FindVars)
  /-- Line 189. -/
  | findKey (f : FindVars)
  /-- Lines 196 and 203. -/
  | findChild (f : FindVars) (isLeft : Bool)
  /-- Line 222. -/
  | findLastRight (f : FindVars) (result : FindResult)
  /-- Line 229. -/
  | findCurr (f : FindVars) (result : FindResult)
  /-- Line 84. -/
  | addNew (f : FindVars) (isLeft : Bool)
  /-- Line 99, and the allocation of lines 104 to 107. -/
  | addOld (f : FindVars) (isLeft : Bool) (newNode : Addr)
  /-- Line 112. -/
  | addCas (f : FindVars) (newNode casOp : Addr)
  /-- Line 252. -/
  | removeRight (f : FindVars)
  /-- Line 256. -/
  | removeLeft (f : FindVars)
  /-- Line 265, `curr->right`. -/
  | removeTestRight (f : FindVars)
  /-- Line 265, `curr->left`. -/
  | removeTestLeft (f : FindVars)
  /-- Line 267. -/
  | removeMark (f : FindVars)
  /-- Line 283, `curr->op`. -/
  | removeCheck (f : FindVars) (curr : Addr) (currOp : Word)
  /-- Lines 299 to 304. -/
  | removeNew (f : FindVars) (curr : Addr) (currOp : Word)
  /-- Line 310. -/
  | removeInstall (f : FindVars) (relocOp : Addr)
  /-- Line 314. -/
  | removeDelete (f : FindVars) (relocOp : Addr)
  /-- Line 365. -/
  | childSlot (op dest : Addr) (ret : HelpRet)
  /-- Line 384: the slot `i` is compared with `retired`. -/
  | childScan (retired : Addr) (rest : List Addr) (i : Nat) (op dest : Addr) (ret : HelpRet)
  /-- Line 402. -/
  | childOp (op dest : Addr) (ret : HelpRet)
  /-- Line 413. -/
  | markedLeft (a : HelpArgs)
  /-- Line 415. -/
  | markedRight (a : HelpArgs)
  /-- Lines 422 and 429. -/
  | markedRef (a : HelpArgs) (isLeft : Bool)
  /-- Lines 433 to 436. -/
  | markedNew (a : HelpArgs) (newRef : Word)
  /-- Line 438. -/
  | markedCas (a : HelpArgs) (casOp : Addr)
  /-- Line 460. -/
  | relocState (op : Addr) (a : HelpArgs)
  /-- Line 472. -/
  | relocDest (op : Addr) (a : HelpArgs)
  /-- Line 482. -/
  | relocSucceed (op : Addr) (a : HelpArgs)
  /-- Line 486. -/
  | relocFail (op : Addr) (a : HelpArgs)
  /-- Line 496. -/
  | relocKey (op : Addr) (a : HelpArgs)
  /-- Line 497. -/
  | relocClear (op : Addr) (a : HelpArgs)
  /-- Line 511. -/
  | relocCurr (op : Addr) (a : HelpArgs) (result : Bool)
  /-- The call is about to return. -/
  | ret (r : Result)
deriving DecidableEq, Repr

-- ---------------------------------------------------------------------------
-- Control flow between shared accesses
-- ---------------------------------------------------------------------------

/-- `if (hazard_pointers) add_to_hp_list(thread_num, w);`. -/
def PC.hp (cfg : Config) (w : Word) (next : PC) : PC :=
  if cfg.hazardPointers then .hpPut w next else next

/-- The same for a child field of `n`. -/
def PC.hpField (cfg : Config) (n : Addr) (isLeft : Bool) (next : PC) : PC :=
  if cfg.hazardPointers then .hpChild n isLeft next else next

/-- From the label `retry` to line 141. -/
def findStart (cfg : Config) (f : FindVars) : PC :=
  .hp cfg (.ptr f.caller.auxRoot) (.findOp { f with curr := f.caller.auxRoot })

/-- The first `find` of a call. -/
def callStart (cfg : Config) (f : FindVars) : PC :=
  findStart cfg { f with caller := .root }

/-- From a return of `find` to the next access of its caller. -/
def findReturn (cfg : Config) (call : Call) (f : FindVars) (result : FindResult) : PC :=
  match f.caller, call with
  | .root, .find _ => .ret (.found result)
  | .root, .add _ =>
      .hp cfg (.ptr f.curr) <|
        if result = .found then .ret .alreadyPresent
        else .addNew f (result == .notFoundL)
  | .root, .remove _ =>
      if result = .found then .removeRight f else .ret (.removed false)
  | .replacement curr currOp, _ =>
      if result = .abort then callStart cfg f else .removeCheck f curr currOp

/-- From the end of the loop of `find` to line 222 or 229. -/
def findEnd (f : FindVars) (result : FindResult) : PC :=
  if result = .found then .findCurr f result else .findLastRight f result

/-- The loop test at line 171 and the assignments at lines 172 to 174. -/
def findLoop (f : FindVars) (next : Word) (result : FindResult) : PC :=
  if !isNull next && next != .ptr 0 then
    .findCurrOp { f with pred := f.curr, predOp := f.currOp, curr := next.addr }
  else
    findEnd f result

/-- Back from `helpChildCAS` or `helpMarked`. -/
def helpReturn (cfg : Config) : HelpRet → PC
  | .retry f => findStart cfg f
  | .add => .ret .added
  | .remove _ => .ret (.removed true)

/-- Lines 358 to 362, where `add_to_hp_list` is called in both modes. -/
def childStart (m : Mem) (op dest : Addr) (ret : HelpRet) : PC :=
  .hpChild dest (m.cas op).isLeft (.childSlot op dest ret)

/-- The loop at line 379. -/
def scanNext (op dest : Addr) (ret : HelpRet) : List Addr → PC
  | [] => .childOp op dest ret
  | a :: rest => .childScan a rest 0 op dest ret

/-- Back from `helpRelocate` with `result`, when it did not go on to `helpMarked`. -/
def relocReturn (cfg : Config) (op : Addr) (result : Bool) : HelpRet → PC
  | .retry f => findStart cfg f
  | .add => .ret .added
  | .remove f => if result then .ret (.removed true) else .removeDelete f op

/-- Lines 500 to 504. -/
def relocTail (cfg : Config) (m : Mem) (op : Addr) (a : HelpArgs) (result : Bool) : PC :=
  if (m.reloc op).dest = a.curr then relocReturn cfg op result a.ret
  else .relocCurr op a result

/-- `help`: the helper is chosen by the flag of `curr_op`. -/
def help (cfg : Config) (m : Mem) (a : HelpArgs) (currOp : Word) : PC :=
  match getFlag currOp with
  | .childCas => childStart m (unflag currOp).addr a.curr a.ret
  | .relocate => .relocState (unflag currOp).addr a
  | .mark => .markedLeft a
  | .none => helpReturn cfg a.ret

-- ---------------------------------------------------------------------------
-- The shared accesses
-- ---------------------------------------------------------------------------

/-- Execute the access of a program point for thread `t`. An allocating step
    receives the address `fresh` from the allocator. -/
def exec (cfg : Config) (t : Tid) (call : Call) (fresh : Addr) (m : Mem) : PC → Option (Mem × PC)
  | .hpChild n isLeft next =>
      some (m, .hpPut (m.child n isLeft) next)
  | .hpPut w next =>
      some (m.addToHpList t w, next)
  | .findOp f =>
      let f := { f with currOp := m.op f.curr }
      if getFlag f.currOp ≠ .none then
        if f.caller.auxRoot = baseRoot then
          some (m, childStart m (unflag f.currOp).addr f.curr (.retry f))
        else
          some (m, findReturn cfg call f .abort)
      else
        some (m, .hpField cfg f.curr false (.findNext f))
  | .findNext f =>
      let f := { f with lastRight := f.curr, lastRightOp := f.currOp }
      some (m, findLoop f (m.child f.curr false) .notFoundR)
  | .findCurrOp f =>
      let f := { f with currOp := m.op f.curr }
      if getFlag f.currOp ≠ .none then
        some (m, help cfg m ⟨f.pred, f.predOp, f.curr, .retry f⟩ f.currOp)
      else
        some (m, .findKey f)
  | .findKey f =>
      let currKey := m.key f.curr
      if call.key < currKey then
        some (m, .hpField cfg f.curr true (.findChild f true))
      else if call.key > currKey then
        some (m, .hpField cfg f.curr false (.findChild f false))
      else
        some (m, findEnd f .found)
  | .findChild f isLeft =>
      let next := m.child f.curr isLeft
      if isLeft then
        some (m, findLoop f next .notFoundL)
      else
        some (m, findLoop { f with lastRight := f.curr, lastRightOp := f.currOp } next .notFoundR)
  | .findLastRight f result =>
      if f.lastRightOp ≠ m.op f.lastRight then some (m, findStart cfg f)
      else some (m, .findCurr f result)
  | .findCurr f result =>
      if f.currOp ≠ m.op f.curr then some (m, findStart cfg f)
      else some (m, findReturn cfg call f result)
  | .addNew f isLeft =>
      if m.allocatable cfg fresh then
        some (m.newNode fresh (createLFNode call.key),
          .hp cfg (.ptr fresh) (.hpField cfg f.curr isLeft (.addOld f isLeft fresh)))
      else none
  | .addOld f isLeft newNode =>
      if m.allocatable cfg fresh then
        some (m.newCas fresh ⟨isLeft, m.child f.curr isLeft, .ptr newNode⟩,
          .addCas f newNode fresh)
      else none
  | .addCas f newNode casOp =>
      if m.op f.curr = f.currOp then
        let m := m.setOp f.curr (setFlag (.ptr casOp) .childCas)
        some (m, childStart m casOp f.curr .add)
      else
        some ((m.delete newNode).delete casOp, callStart cfg f)
  | .removeRight f =>
      if !isNull (m.child f.curr false) then
        some (m, .hpField cfg f.curr false (.removeLeft f))
      else
        some (m, .removeLeft f)
  | .removeLeft f =>
      if !isNull (m.child f.curr true) then
        some (m, .hpField cfg f.curr true (.removeTestRight f))
      else
        some (m, .removeTestRight f)
  | .removeTestRight f =>
      if isNull (m.child f.curr false) then some (m, .removeMark f)
      else some (m, .removeTestLeft f)
  | .removeTestLeft f =>
      if isNull (m.child f.curr true) then some (m, .removeMark f)
      else some (m, findStart cfg { f with caller := .replacement f.curr f.currOp })
  | .removeMark f =>
      if m.op f.curr = f.currOp then
        some (m.setOp f.curr (setFlag f.currOp .mark),
          .markedLeft ⟨f.pred, f.predOp, f.curr, .remove f⟩)
      else
        some (m, callStart cfg f)
  | .removeCheck f curr currOp =>
      if m.op curr ≠ currOp then some (m, callStart cfg f)
      else
        some (m, .hp cfg (.ptr f.pred) (.hp cfg (.ptr curr) (.hp cfg (.ptr f.curr)
          (.removeNew f curr currOp))))
  | .removeNew f curr currOp =>
      if m.allocatable cfg fresh then
        some (m.newReloc fresh ⟨.ongoing, curr, currOp, call.key, m.key f.curr⟩,
          .removeInstall f fresh)
      else none
  | .removeInstall f relocOp =>
      if m.op f.curr = f.currOp then
        some (m.setOp f.curr (setFlag (.ptr relocOp) .relocate),
          .relocState relocOp ⟨f.pred, f.predOp, f.curr, .remove f⟩)
      else
        some (m.delete relocOp, callStart cfg f)
  | .removeDelete f relocOp =>
      some (m.delete relocOp, callStart cfg f)
  | .childSlot op dest ret =>
      let r := m.cas op
      if m.child dest r.isLeft = r.expected then
        let m := m.setChild dest r.isLeft r.update
        if cfg.hazardPointers then
          let m := m.retire t r.expected
          if (m.rlist t).length > hpThreshold then some (m, scanNext op dest ret (m.rlist t))
          else some (m, .childOp op dest ret)
        else
          some (m, .childOp op dest ret)
      else
        some (m, .childOp op dest ret)
  | .childScan retired rest i op dest ret =>
      if Word.ptr retired = unflag (m.hp i) then
        some (m, scanNext op dest ret rest)
      else if i + 1 < maxThreads * numHpPerThread then
        some (m, .childScan retired rest (i + 1) op dest ret)
      else
        some (m.deleteRetired t retired, scanNext op dest ret rest)
  | .childOp op dest ret =>
      if m.op dest = setFlag (.ptr op) .childCas then
        some (m.setOp dest (setFlag (.ptr op) .none), helpReturn cfg ret)
      else
        some (m, helpReturn cfg ret)
  | .markedLeft a =>
      if isNull (m.child a.curr true) then some (m, .markedRight a)
      else some (m, .hpField cfg a.curr true (.markedRef a true))
  | .markedRight a =>
      if isNull (m.child a.curr false) then some (m, .markedNew a (setNull (.ptr a.curr)))
      else some (m, .hpField cfg a.curr false (.markedRef a false))
  | .markedRef a isLeft =>
      some (m, .markedNew a (m.child a.curr isLeft))
  | .markedNew a newRef =>
      if m.allocatable cfg fresh then
        some (m.newCas fresh ⟨Word.ptr a.curr == m.child a.pred true, .ptr a.curr, newRef⟩,
          .markedCas a fresh)
      else none
  | .markedCas a casOp =>
      if m.op a.pred = a.predOp then
        let m := m.setOp a.pred (setFlag (.ptr casOp) .childCas)
        some (m, childStart m casOp a.pred a.ret)
      else
        some (m.delete casOp, helpReturn cfg a.ret)
  | .relocState op a =>
      let r := m.reloc op
      some (m, .hp cfg (.ptr r.dest) <|
        match r.state with
        | .ongoing => .relocDest op a
        | .successful => .relocKey op a
        | .failed => relocTail cfg m op a false)
  | .relocDest op a =>
      let r := m.reloc op
      let seenOp := m.op r.dest
      let m := if seenOp = r.destOp then m.setOp r.dest (setFlag (.ptr op) .relocate) else m
      if seenOp = r.destOp ∨ seenOp = setFlag (.ptr op) .relocate then
        some (m, .relocSucceed op a)
      else
        some (m, .relocFail op a)
  | .relocSucceed op a =>
      let m := if m.state op = .ongoing then m.setState op .successful else m
      some (m, .relocKey op a)
  | .relocFail op a =>
      let seenState := m.state op
      let m := if seenState = .ongoing then m.setState op .failed else m
      some (m, if seenState = .successful then .relocKey op a else relocTail cfg m op a false)
  | .relocKey op a =>
      let r := m.reloc op
      let m := if m.key r.dest = r.removeKey then m.setKey r.dest r.replaceKey else m
      some (m, .relocClear op a)
  | .relocClear op a =>
      let r := m.reloc op
      let m := if m.op r.dest = setFlag (.ptr op) .relocate
        then m.setOp r.dest (setFlag (.ptr op) .none) else m
      some (m, relocTail cfg m op a true)
  | .relocCurr op a result =>
      let m := if m.op a.curr = setFlag (.ptr op) .relocate
        then m.setOp a.curr (setFlag (.ptr op) (if result then .mark else .none)) else m
      if result then
        let predOp := if (m.reloc op).dest = a.pred then setFlag (.ptr op) .none else a.predOp
        some (m, .markedLeft { a with predOp := predOp })
      else
        some (m, relocReturn cfg op result a.ret)
  | .ret _ => none

attribute [local simp] exec in
/-- A call that has returned makes no access. -/
@[simp] theorem exec_ret {cfg : Config} {t : Tid} {call : Call} {fresh : Addr} {m : Mem} {r : Result} :
    exec cfg t call fresh m (.ret r) = none := by
  simp

-- ---------------------------------------------------------------------------
-- The system
-- ---------------------------------------------------------------------------

inductive Thread where
  | idle
  | running (call : Call) (pc : PC)
deriving DecidableEq, Repr

/-- The shared memory and where each thread is. -/
structure State where
  mem : Mem
  thread : Tid → Thread

def State.initial : State :=
  ⟨.initial, fun _ => .idle⟩

/-- What a thread does in one step of the system. -/
inductive Action where
  | invoke (call : Call)
  /-- Perform the next shared access; `fresh` is what the allocator returns if it is asked. -/
  | access (fresh : Addr)
  | respond
deriving DecidableEq, Repr

def State.next (cfg : Config) (s : State) : Tid × Action → Option State
  | (t, .invoke call) =>
      match s.thread t with
      | .idle => some { s with
          thread := Function.update s.thread t (.running call (callStart cfg .initial)) }
      | .running _ _ => none
  | (t, .access fresh) =>
      match s.thread t with
      | .idle => none
      | .running call pc => (exec cfg t call fresh s.mem pc).map fun (m, pc) =>
          ⟨m, Function.update s.thread t (.running call pc)⟩
  | (t, .respond) =>
      match s.thread t with
      | .running _ (.ret _) => some { s with thread := Function.update s.thread t .idle }
      | _ => none

/-- The lock-free tree with any number of threads, each making any calls. -/
def system (cfg : Config) : Lts State (Tid × Action) :=
  ⟨.initial, State.next cfg⟩

/-- `--hazard-pointers` is off and every allocation gets a new address. -/
def Config.plain : Config where
  hazardPointers := false
  reuse := false

/-- `--hazard-pointers` is off and deleted addresses may be handed out again. -/
def Config.reusing : Config where
  hazardPointers := false
  reuse := true

/-- `--hazard-pointers` is on and deleted addresses may be handed out again. -/
def Config.guarded : Config where
  hazardPointers := true
  reuse := true

/-- `n` accesses of thread `t`, where an allocation at the `i`-th gets the address `a + i`. -/
def accesses (t : Tid) (a n : Nat) : List (Tid × Action) :=
  (List.range n).map fun i => (t, .access (a + i))

/-- A call of `n` accesses that no other thread interrupts. -/
def soloCall (t : Tid) (call : Call) (a n : Nat) : List (Tid × Action) :=
  (t, .invoke call) :: accesses t a n ++ [(t, .respond)]

/-- A run of a single `add`. -/
def runOfAdd : (system .plain).Exec 13 :=
  .ofLabels (0, .respond) (soloCall 0 (.add 5) 2 11) (by decide)

/-- The three kinds of steps. -/
inductive Steps (cfg : Config) (s : State) : Tid × Action → State → Prop where
  | invoke {t : Tid} {call : Call} : s.thread t = .idle →
      Steps cfg s (t, .invoke call)
        ⟨s.mem, Function.update s.thread t (.running call (callStart cfg .initial))⟩
  | access {t : Tid} {call : Call} {pc pc' : PC} {m' : Mem} {fresh : Addr} :
      s.thread t = .running call pc → exec cfg t call fresh s.mem pc = some (m', pc') →
      Steps cfg s (t, .access fresh) ⟨m', Function.update s.thread t (.running call pc')⟩
  | respond {t : Tid} {call : Call} {r : Result} : s.thread t = .running call (.ret r) →
      Steps cfg s (t, .respond) ⟨s.mem, Function.update s.thread t .idle⟩

theorem steps_of_next {cfg : Config} {s s' : State} {l : Tid × Action}
    (h : (system cfg).next s l = some s') : Steps cfg s l s' := by
  obtain ⟨t, act⟩ := l
  cases act with
  | invoke call =>
    simp only [system, State.next] at h
    split at h
    · next ht =>
      cases h
      exact .invoke ht
    · cases h
  | access fresh =>
    simp only [system, State.next] at h
    split at h
    · cases h
    · next call pc ht =>
      obtain ⟨⟨m', pc'⟩, he, rfl⟩ := Option.map_eq_some_iff.mp h
      exact .access ht he
  | respond =>
    simp only [system, State.next] at h
    split at h
    · next call r ht =>
      cases h
      exact .respond ht
    · cases h

/-- A thread that takes no step stays where it is. -/
theorem thread_of_next {cfg : Config} {s s' : State} {l : Tid × Action} {t : Tid}
    (h : (system cfg).next s l = some s') (ht : l.1 ≠ t) : s'.thread t = s.thread t := by
  cases steps_of_next h with
  | invoke | access | respond => exact Function.update_of_ne (Ne.symm ht) ..

theorem idle_of_labels {cfg : Config} {n i : Nat} (e : (system cfg).Exec n) {t : Tid} (hi : i ≤ n)
    (h : ∀ j < i, (e.label j).1 ≠ t) : (e.state i).thread t = .idle := by
  induction i with
  | zero =>
    rw [e.start]
    rfl
  | succ i ih =>
    rw [thread_of_next (e.step i hi) (h i (Nat.lt_succ_self i))]
    exact ih (by omega) fun j hj => h j (by omega)

end LockFree
