-- SUMMARY: With hazard pointers and fresh addresses the lock-free tree does what it does without hazard pointers.
import ConcurrentBST.Library.Stuttering
import ConcurrentBST.LockFree.Clients

/-!
# Hazard pointers and fresh addresses

With `--hazard-pointers` the functions write hazard slots, keep lists of retired
nodes, scan the slots and delete nodes. If no address is handed out again, and a
deleted node keeps its contents until then, all of this is to no effect: what is
left of a run without these steps is a run without hazard pointers.
-/

open Filter

namespace LockFree

/-- `--hazard-pointers` is on and every allocation gets a new address. -/
def Config.guardedFresh : Config where
  hazardPointers := true
  reuse := false

variable {D D' : Addr → Prop} {m m' p : Mem} {pc pc' : PC} {t : Tid} {call : Call} {fresh : Addr} {w : Word} {x a : Addr}
  {s s' : State} {l : Tid × Action}

-- ---------------------------------------------------------------------------
-- Program points
-- ---------------------------------------------------------------------------

/-- `add_to_hp_list` is called in both modes before line 365. -/
def PC.isSlot : PC → Bool
  | .childSlot .. => true
  | _ => false

/-- The program point without the steps that only `--hazard-pointers` makes. -/
def PC.plain : PC → PC
  | .hpChild n isLeft next => if next.isSlot then .hpChild n isLeft next else next.plain
  | .hpPut w next => if next.isSlot then .hpPut w next else next.plain
  | .childScan _ _ _ op dest back => .childOp op dest back
  | pc => pc

/-- The retired nodes that a scan may still delete. -/
def PC.scans : PC → List Addr
  | .hpChild _ _ next | .hpPut _ next => next.scans
  | .childScan a rest _ _ _ _ => a :: rest
  | _ => []

/-- How many of these steps are still to be made before the next other one. -/
def PC.chores : PC → Nat
  | .hpChild _ _ next => next.chores + 2
  | .hpPut _ next => next.chores + 1
  | .childScan _ rest i _ _ _ =>
      rest.length * (maxThreads * numHpPerThread + 1) + (maxThreads * numHpPerThread - i) + 1
  | _ => 0

-- ---------------------------------------------------------------------------
-- Memory
-- ---------------------------------------------------------------------------

/-- The records are the same. The scans have deleted addresses of `D` only. -/
structure Mem.Alike (D : Addr → Prop) (m p : Mem) : Prop where
  node : p.node = m.node
  cas : p.cas = m.cas
  reloc : p.reloc = m.reloc
  unused : ∀ a, m.cell a = .unused → p.cell a = .unused
  cell : ∀ a, ¬ D a → p.cell a = m.cell a

namespace Mem.Alike

theorem refl (m : Mem) : Alike D m m := ⟨rfl, rfl, rfl, fun _ ha => ha, fun _ _ => rfl⟩

variable (h : Alike D m p)

include h

theorem key : p.key = m.key := by
  unfold Mem.key
  rw [h.node]

theorem op : p.op = m.op := by
  unfold Mem.op
  rw [h.node]

theorem child : p.child = m.child := by
  unfold Mem.child
  rw [h.node]

theorem state : p.state = m.state := by
  unfold Mem.state
  rw [h.reloc]

theorem allocatable (ha : m.allocatable .guardedFresh a = true) : p.allocatable .plain a = true := by
  simp only [Mem.allocatable, Config.guardedFresh, Config.plain, Bool.false_and, Bool.or_false,
    Bool.and_eq_true, bne_iff_ne, beq_iff_eq] at ha ⊢
  exact ⟨ha.1, h.unused a ha.2⟩

theorem setKey (x : Addr) (k : Int) : Alike D (m.setKey x k) (p.setKey x k) :=
  ⟨by simp only [Mem.setKey, h.node], h.cas, h.reloc, h.unused, h.cell⟩

theorem setOp (x : Addr) (w : Word) : Alike D (m.setOp x w) (p.setOp x w) :=
  ⟨by simp only [Mem.setOp, h.node], h.cas, h.reloc, h.unused, h.cell⟩

theorem setChild (x : Addr) (d : Bool) (w : Word) :
    Alike D (m.setChild x d w) (p.setChild x d w) :=
  ⟨by simp only [Mem.setChild, h.node], h.cas, h.reloc, h.unused, h.cell⟩

theorem setState (x : Addr) (o : OpState) : Alike D (m.setState x o) (p.setState x o) :=
  ⟨h.node, h.cas, by simp only [Mem.setState, h.reloc], h.unused, h.cell⟩

/-- Both allocators give the same to an address. -/
theorem update_cell (b : Addr) (k : Cell) :
    (∀ a, Function.update m.cell b k a = .unused → Function.update p.cell b k a = .unused) ∧
      ∀ a, ¬ D a → Function.update p.cell b k a = Function.update m.cell b k a := by
  refine ⟨fun a ha => ?_, fun a ha => ?_⟩
  · by_cases hab : a = b
    · subst hab
      simpa using ha
    · rw [Function.update_of_ne hab] at ha ⊢
      exact h.unused a ha
  · by_cases hab : a = b
    · subst hab
      simp
    · rw [Function.update_of_ne hab, Function.update_of_ne hab]
      exact h.cell a ha

theorem newNode (a : Addr) (n : Node) : Alike D (m.newNode a n) (p.newNode a n) :=
  ⟨by simp only [Mem.newNode, h.node], h.cas, h.reloc, (h.update_cell a _).1, (h.update_cell a _).2⟩

theorem newCas (a : Addr) (o : ChildCasOp) : Alike D (m.newCas a o) (p.newCas a o) :=
  ⟨h.node, by simp only [Mem.newCas, h.cas], h.reloc, (h.update_cell a _).1, (h.update_cell a _).2⟩

theorem newReloc (a : Addr) (o : RelocateOp) : Alike D (m.newReloc a o) (p.newReloc a o) :=
  ⟨h.node, h.cas, by simp only [Mem.newReloc, h.reloc], (h.update_cell a _).1, (h.update_cell a _).2⟩

theorem delete (a : Addr) : Alike D (m.delete a) (p.delete a) :=
  ⟨h.node, h.cas, h.reloc, (h.update_cell a _).1, (h.update_cell a _).2⟩

theorem addToHpList (t : Tid) (w : Word) : Alike D (m.addToHpList t w) (p.addToHpList t w) :=
  ⟨h.node, h.cas, h.reloc, h.unused, h.cell⟩

omit h in
theorem ite {c : Prop} [Decidable c] {m₁ m₂ p₁ p₂ : Mem} (h₁ : Alike D m₁ p₁) (h₂ : Alike D m₂ p₂) :
    Alike D (if c then m₁ else m₂) (if c then p₁ else p₂) := by
  split
  · exact h₁
  · exact h₂

-- What the plain mode does not do.

theorem put (t : Tid) (w : Word) : Alike D (m.addToHpList t w) p :=
  ⟨h.node, h.cas, h.reloc, h.unused, h.cell⟩

theorem retire (t : Tid) (w : Word) : Alike D (m.retire t w) p := by
  obtain ⟨as, has⟩ := m.exists_retire w t
  rw [has]
  exact ⟨h.node, h.cas, h.reloc, h.unused, h.cell⟩

theorem deleteRetired (t : Tid) (a : Addr) (ha : D a) : Alike D (m.deleteRetired t a) p := by
  refine ⟨h.node, h.cas, h.reloc, fun b hb => h.unused b ?_, fun b hb => ?_⟩
  · by_cases hab : b = a
    · subst hab
      simp [Mem.deleteRetired, Mem.delete] at hb
    · simpa [Mem.deleteRetired, Mem.delete, hab] using hb
  · have hab : b ≠ a := fun heq => hb (heq ▸ ha)
    simpa [Mem.deleteRetired, Mem.delete, hab] using h.cell b hb

theorem mono (hD : ∀ a, D a → D' a) : Alike D' m p :=
  ⟨h.node, h.cas, h.reloc, h.unused, fun a ha => h.cell a fun hDa => ha (hD a hDa)⟩

end Mem.Alike

-- ---------------------------------------------------------------------------
-- Control flow
-- ---------------------------------------------------------------------------

theorem plain_hp {next : PC} (h : next.isSlot = false) :
    (PC.hp .guardedFresh w next).plain = next.plain := by
  simp [PC.hp, Config.guardedFresh, PC.plain, h]

theorem plain_callStart {f : FindVars} : (callStart .guardedFresh f).plain = callStart .plain f := rfl

theorem plain_findReturn {f : FindVars} {result : FindResult} :
    (findReturn .guardedFresh call f result).plain = findReturn .plain call f result := by
  unfold findReturn
  split
  · rfl
  · rw [plain_hp (by split <;> rfl)]
    split <;> rfl
  · split <;> rfl
  · split <;> rfl

theorem plain_findEnd {f : FindVars} {result : FindResult} :
    (findEnd f result).plain = findEnd f result := by
  unfold findEnd
  split <;> rfl

theorem plain_findLoop {f : FindVars} {next : Word} {result : FindResult} :
    (findLoop f next result).plain = findLoop f next result := by
  unfold findLoop
  split
  · rfl
  · exact plain_findEnd

theorem plain_helpReturn {back : HelpRet} :
    (helpReturn .guardedFresh back).plain = helpReturn .plain back := by
  cases back <;> rfl

theorem plain_relocReturn {op : Addr} {result : Bool} {back : HelpRet} :
    (relocReturn .guardedFresh op result back).plain = relocReturn .plain op result back := by
  cases back with
  | remove => cases result <;> rfl
  | _ => rfl

theorem plain_scanNext {op dest : Addr} {back : HelpRet} {as : List Addr} :
    (scanNext op dest back as).plain = .childOp op dest back := by
  cases as <;> rfl

theorem Mem.Alike.childStart (h : Mem.Alike D m p) {op dest : Addr} {back : HelpRet} :
    (childStart m op dest back).plain = childStart p op dest back := by
  rw [LockFree.childStart, LockFree.childStart, h.cas]
  rfl

theorem Mem.Alike.relocTail (h : Mem.Alike D m p) {op : Addr} {args : HelpArgs} {result : Bool} :
    (relocTail .guardedFresh m op args result).plain = relocTail .plain p op args result := by
  rw [LockFree.relocTail, LockFree.relocTail, h.reloc]
  split
  · exact plain_relocReturn
  · rfl

theorem isSlot_relocTail {cfg : Config} {op : Addr} {args : HelpArgs} {result : Bool} :
    (LockFree.relocTail cfg m op args result).isSlot = false := by
  have hstart : ∀ f, (findStart cfg f).isSlot = false := by
    intro f
    unfold findStart PC.hp
    split <;> rfl
  unfold LockFree.relocTail relocReturn
  split
  · split
    · exact hstart _
    · rfl
    · split <;> rfl
  · rfl

theorem Mem.Alike.help (h : Mem.Alike D m p) {args : HelpArgs} :
    (help .guardedFresh m args w).plain = help .plain p args w := by
  unfold LockFree.help
  split
  · exact h.childStart
  · rfl
  · rfl
  · exact plain_helpReturn

-- ---------------------------------------------------------------------------
-- One step
-- ---------------------------------------------------------------------------

/-- What a step does here it does in the plain mode too. -/
def Matches (D : Addr → Prop) (guarded plain : Option (Mem × PC)) : Prop :=
  ∀ m' pc', guarded = some (m', pc') → ∃ p', plain = some (p', pc'.plain) ∧ Mem.Alike D m' p'

namespace Matches

variable {r r' r₁ r₁' : Option (Mem × PC)} {c c' : Prop} [Decidable c] [Decidable c']

theorem step (h : Mem.Alike D m p) (hpc : pc.plain = pc') :
    Matches D (some (m, pc)) (some (p, pc')) := by
  intro m' pc₁ he
  cases he
  exact ⟨p, by rw [hpc], h⟩

theorem ite (h : Matches D r r') (h₁ : Matches D r₁ r₁') :
    Matches D (if c then r else r₁) (if c then r' else r₁') := by
  split
  · exact h
  · exact h₁

/-- An address that can be had here can be had in the plain mode. -/
theorem alloc (hc : c → c') (h : Matches D r r') :
    Matches D (if c then r else none) (if c' then r' else none) := by
  split
  · next ha =>
    rw [if_pos (hc ha)]
    exact h
  · intro m' pc' he
    cases he

end Matches

/-- The steps that both modes have. -/
theorem Mem.Alike.exec_matches (h : Mem.Alike D m p) (hpc : pc.chores = 0) :
    Matches D (exec .guardedFresh t call fresh m pc) (exec .plain t call fresh p pc.plain) := by
  cases pc with
  | hpChild | hpPut | childScan => simp [PC.chores] at hpc
  | findOp f =>
    simp only [LockFree.exec, PC.plain, h.op]
    exact .ite (.ite (.step h h.childStart) (.step h plain_findReturn)) (.step h rfl)
  | findNext f =>
    simp only [LockFree.exec, PC.plain, h.child]
    exact .step h plain_findLoop
  | findCurrOp f =>
    simp only [LockFree.exec, PC.plain, h.op]
    exact .ite (.step h h.help) (.step h rfl)
  | findKey f =>
    simp only [LockFree.exec, PC.plain, h.key]
    exact .ite (.step h rfl) (.ite (.step h rfl) (.step h plain_findEnd))
  | findChild f isLeft =>
    simp only [LockFree.exec, PC.plain, h.child]
    exact .ite (.step h plain_findLoop) (.step h plain_findLoop)
  | findLastRight f result =>
    simp only [LockFree.exec, PC.plain, h.op]
    exact .ite (.step h rfl) (.step h rfl)
  | findCurr f result =>
    simp only [LockFree.exec, PC.plain, h.op]
    exact .ite (.step h rfl) (.step h plain_findReturn)
  | addNew f isLeft =>
    simp only [LockFree.exec, PC.plain]
    exact .alloc h.allocatable (.step (h.newNode fresh _) rfl)
  | addOld f isLeft newNode =>
    simp only [LockFree.exec, PC.plain, h.child]
    exact .alloc h.allocatable (.step (h.newCas fresh _) rfl)
  | addCas f newNode casOp =>
    simp only [LockFree.exec, PC.plain, h.op]
    have hset := h.setOp f.curr (setFlag (.ptr casOp) .childCas)
    exact .ite (.step hset hset.childStart) (.step ((h.delete newNode).delete casOp) rfl)
  | removeRight f | removeLeft f | removeTestRight f | removeTestLeft f =>
    simp only [LockFree.exec, PC.plain, h.child]
    exact .ite (.step h rfl) (.step h rfl)
  | removeMark f =>
    simp only [LockFree.exec, PC.plain, h.op]
    exact .ite (.step (h.setOp f.curr _) rfl) (.step h rfl)
  | removeCheck f curr currOp =>
    simp only [LockFree.exec, PC.plain, h.op]
    exact .ite (.step h rfl) (.step h rfl)
  | removeNew f curr currOp =>
    simp only [LockFree.exec, PC.plain, h.key]
    exact .alloc h.allocatable (.step (h.newReloc fresh _) rfl)
  | removeInstall f relocOp =>
    simp only [LockFree.exec, PC.plain, h.op]
    exact .ite (.step (h.setOp f.curr _) rfl) (.step (h.delete relocOp) rfl)
  | removeDelete f relocOp => exact .step (h.delete relocOp) rfl
  | childSlot op dest back =>
    simp only [LockFree.exec, PC.plain, h.child, h.cas]
    -- Only this mode retires the node, and goes on to a scan if there are too many.
    have hset := (h.setChild dest (m.cas op).isLeft (m.cas op).update).retire t (m.cas op).expected
    refine .ite ?_ (.step h rfl)
    rw [if_pos (show Config.guardedFresh.hazardPointers = true from rfl),
      if_neg (show ¬ Config.plain.hazardPointers = true by decide)]
    split
    · exact .step hset plain_scanNext
    · exact .step hset rfl
  | childOp op dest back =>
    simp only [LockFree.exec, PC.plain, h.op]
    exact .ite (.step (h.setOp dest _) plain_helpReturn) (.step h plain_helpReturn)
  | markedLeft args | markedRight args =>
    simp only [LockFree.exec, PC.plain, h.child]
    exact .ite (.step h rfl) (.step h rfl)
  | markedRef args isLeft =>
    simp only [LockFree.exec, PC.plain, h.child]
    exact .step h rfl
  | markedNew args newRef =>
    simp only [LockFree.exec, PC.plain, h.child]
    exact .alloc h.allocatable (.step (h.newCas fresh _) rfl)
  | markedCas args casOp =>
    simp only [LockFree.exec, PC.plain, h.op]
    have hset := h.setOp args.pred (setFlag (.ptr casOp) .childCas)
    exact .ite (.step hset hset.childStart) (.step (h.delete casOp) plain_helpReturn)
  | relocState op args =>
    simp only [LockFree.exec, PC.plain, h.reloc]
    refine .step h ?_
    cases (m.reloc op).state with
    | ongoing | successful => rfl
    | failed => rw [plain_hp isSlot_relocTail, h.relocTail]; rfl
  | relocDest op args =>
    simp only [LockFree.exec, PC.plain, h.reloc, h.op]
    have hset := Alike.ite (c := m.op (m.reloc op).dest = (m.reloc op).destOp)
      (h.setOp (m.reloc op).dest (setFlag (.ptr op) .relocate)) h
    exact .ite (.step hset rfl) (.step hset rfl)
  | relocSucceed op args =>
    simp only [LockFree.exec, PC.plain, h.state]
    exact .step (.ite (h.setState op .successful) h) rfl
  | relocFail op args =>
    simp only [LockFree.exec, PC.plain, h.state]
    have hset := Alike.ite (c := m.state op = .ongoing) (h.setState op .failed) h
    refine .step hset ?_
    by_cases hstate : m.state op = .successful
    · rw [if_pos hstate, if_pos hstate]
      rfl
    · rw [if_neg hstate, if_neg hstate, hset.relocTail]
  | relocKey op args =>
    simp only [LockFree.exec, PC.plain, h.reloc, h.key]
    exact .step (.ite (h.setKey _ _) h) rfl
  | relocClear op args =>
    simp only [LockFree.exec, PC.plain, h.reloc, h.op]
    have hset := Alike.ite (c := m.op (m.reloc op).dest = setFlag (.ptr op) .relocate)
      (h.setOp (m.reloc op).dest (setFlag (.ptr op) .none)) h
    exact .step hset hset.relocTail
  | relocCurr op args result =>
    simp only [LockFree.exec, PC.plain, h.op]
    have hset := fun flag => Alike.ite (c := m.op args.curr = setFlag (.ptr op) .relocate)
      (h.setOp args.curr (setFlag (.ptr op) flag)) h
    cases result with
    | true =>
      simp only [if_true, (hset .mark).reloc]
      exact .step (hset .mark) rfl
    | false =>
      simp only [Bool.false_eq_true, if_false]
      exact .step (hset .none) plain_relocReturn
  | ret r =>
    intro m' pc' he
    cases he

/-- A step is one of the plain mode, or one that this mode does not know. -/
theorem Mem.Alike.exec (h : Mem.Alike D m p) (hD : ∀ a ∈ pc.scans, D a)
    (he : exec .guardedFresh t call fresh m pc = some (m', pc')) :
    (∃ p', LockFree.exec .plain t call fresh p pc.plain = some (p', pc'.plain) ∧ Alike D m' p') ∨
      Alike D m' p ∧ pc'.plain = pc.plain ∧ pc'.chores < pc.chores := by
  cases pc with
  | hpChild n isLeft next =>
    cases he
    by_cases hslot : next.isSlot = true
    · left
      simp only [PC.plain, hslot, if_true]
      exact ⟨p, by rw [LockFree.exec, h.child], h⟩
    · right
      simp only [PC.plain, hslot, Bool.false_eq_true, if_false]
      exact ⟨h, trivial, Nat.lt_succ_self _⟩
  | hpPut w next =>
    cases he
    by_cases hslot : pc'.isSlot = true
    · left
      simp only [PC.plain, hslot, if_true]
      cases pc' with
      | childSlot => exact ⟨_, rfl, h.addToHpList t w⟩
      | _ => cases hslot
    · right
      simp only [PC.plain, hslot, Bool.false_eq_true, if_false]
      exact ⟨h.put t w, trivial, Nat.lt_succ_self _⟩
  | childScan retired rest i op dest back =>
    right
    simp only [LockFree.exec] at he
    have hscan : ∀ {as : List Addr}, (scanNext op dest back as).chores ≤
        as.length * (maxThreads * numHpPerThread + 1) := by
      intro as
      cases as with
      | nil => exact Nat.le_refl 0
      | cons a as =>
        simp only [scanNext, PC.chores, List.length_cons, Nat.succ_mul]
        omega
    split at he
    · cases he
      exact ⟨h, plain_scanNext, Nat.lt_succ_of_le (hscan.trans (Nat.le_add_right _ _))⟩
    · split at he <;> cases he
      · next hlt =>
        refine ⟨h, rfl, ?_⟩
        simp only [PC.chores]
        omega
      · exact ⟨h.deleteRetired t retired (hD _ (.head _)), plain_scanNext,
          Nat.lt_succ_of_le (hscan.trans (Nat.le_add_right _ _))⟩
  | _ => exact .inl (h.exec_matches rfl _ _ he)

-- ---------------------------------------------------------------------------
-- The system
-- ---------------------------------------------------------------------------

def Thread.plain : Thread → Thread
  | .idle => .idle
  | .running call pc => .running call pc.plain

def Thread.chores : Thread → Nat
  | .idle => 0
  | .running _ pc => pc.chores

/-- A state with hazard pointers, and the state without them. -/
structure State.Alike (s p : State) : Prop where
  mem : Mem.Alike (fun _ => True) s.mem p.mem
  thread : ∀ t, p.thread t = (s.thread t).plain

/-- The threads stay alike when both change one of them. -/
theorem State.Alike.update {p : State} {m' p' : Mem} {u u' : Thread} (h : s.Alike p)
    (hmem : Mem.Alike (fun _ => True) m' p')
    (t : Tid) (hu : u' = u.plain) : State.Alike ⟨m', Function.update s.thread t u⟩
      ⟨p', Function.update p.thread t u'⟩ := by
  refine ⟨hmem, fun v => ?_⟩
  by_cases hv : v = t
  · subst hv
    simpa using hu
  · simpa [hv] using h.thread v

/-- The tree with hazard pointers refines the tree without them. -/
theorem refines : (system .guardedFresh).Refines (system .plain) observe observe Prod.fst State.Alike
    fun s t => (s.thread t).chores where
  init := ⟨.refl _, fun _ => rfl⟩
  step := by
    intro s p l s' _ h hnext
    cases steps_of_next hnext with
    | @invoke t call ht =>
      have hp : p.thread t = .idle := by rw [h.thread, ht]; rfl
      refine ⟨⟨p.mem, Function.update p.thread t (.running call (callStart .plain .initial))⟩,
        h.update h.mem t ?_, .same ?_ rfl⟩
      · rw [Thread.plain, plain_callStart]
      · simp only [system, State.next, hp]
    | @access t call pc pc' m' fresh ht he =>
      have hp : p.thread t = .running call pc.plain := by rw [h.thread, ht]; rfl
      rcases h.mem.exec (fun _ _ => trivial) he with ⟨p', he', hmem⟩ | ⟨hmem, hpc, hlt⟩
      · refine ⟨⟨p', Function.update p.thread t (.running call pc'.plain)⟩,
          h.update hmem t rfl, .same ?_ rfl⟩
        simp only [system, State.next, hp, he', Option.map_some]
      · refine ⟨p, ⟨hmem, fun u => ?_⟩, .chore rfl ?_ fun u hu => ?_⟩
        · by_cases hu : u = t
          · subst hu
            simp [hp, Thread.plain, hpc]
          · simpa [hu] using h.thread u
        · simpa [ht, Thread.chores] using hlt
        · exact congrArg Thread.chores (Function.update_of_ne hu ..)
    | @respond t call r ht =>
      have hp : p.thread t = .running call (.ret r) := by rw [h.thread, ht]; rfl
      refine ⟨⟨p.mem, Function.update p.thread t .idle⟩, h.update h.mem t rfl, .same ?_ ?_⟩
      · simp only [system, State.next, hp]
      · simp only [observe, hp, ht]

/-- A run with hazard pointers has a run without them in it. Both look the same to the
    clients, and they come to the same nodes, records and program points. -/
theorem guarded_agrees {n : Nat} (e : (system .guardedFresh).Exec n) :
    ∃ m, ∃ e' : (system .plain).Exec m, m ≤ n ∧ e'.history observe m = e.history observe n ∧
      (e'.state m).mem.node = (e.state n).mem.node ∧ (e'.state m).mem.cas = (e.state n).mem.cas ∧
      (e'.state m).mem.reloc = (e.state n).mem.reloc ∧
      ∀ t, (e'.state m).thread t = ((e.state n).thread t).plain := by
  obtain ⟨m, e', hm, hrel, hhist⟩ := refines.exists_exec e (0, .respond)
  exact ⟨m, e', hm, hhist, hrel.mem.node, hrel.mem.cas, hrel.mem.reloc, hrel.thread⟩

/-- With hazard pointers and fresh addresses, every history of `add`, `remove` and
    `find` is one of an atomic set. -/
theorem guarded_history_linearizable {n : Nat} (e : (system .guardedFresh).Exec n) :
    Linearizable setObject (e.history observe n) :=
  (refines.simulates (simulates rfl rfl)).linearizable e

/-- And as long as any of finitely many threads take steps, calls return. -/
theorem guarded_some_call_returns (r : (system .guardedFresh).Run) (T : Finset Tid)
    (hT : ∀ i, (r.label i).1 ∈ T) (n : Nat) : ∃ i, n ≤ i ∧ ∃ t, r.label i = (t, .respond) := by
  by_contra hno
  obtain ⟨r', φ, hφ, hr'⟩ := refines.exists_run r hT
  obtain ⟨H⟩ := exists_endless r'
  refine H.not_quiet (T := T) (fun j => (hr' j).1 ▸ hT (φ j)) ?_
  refine eventually_atTop.mpr ⟨n, fun j hj t hl => hno ⟨φ j, hj.trans (hφ.id_le j), t, ?_⟩⟩
  rw [← (hr' j).1, hl]

-- ---------------------------------------------------------------------------
-- A run that goes on for ever
-- ---------------------------------------------------------------------------

/-- A step looks at the memory and at one thread. -/
theorem next_eq_map {cfg : Config} {thread : Tid → Thread} :
    State.next cfg ⟨m, thread⟩ l = (State.next cfg ⟨m, fun _ => thread l.1⟩ l).map fun s =>
      ⟨s.mem, Function.update thread l.1 (s.thread l.1)⟩ := by
  obtain ⟨t, act⟩ := l
  cases act with
  | invoke call =>
    simp only [State.next]
    split <;> simp
  | access fresh =>
    simp only [State.next]
    split <;> simp [Option.map_map, Function.comp_def]
  | respond =>
    simp only [State.next]
    split <;> simp

/-- A `find` in the empty tree. -/
def actionsOfFind : List Action := .invoke (.find 5) :: List.replicate 7 (.access 0) ++ [.respond]

/-- Where thread 0 is before step `k` of it. -/
def threadOfFind (k : Nat) : Thread :=
  (((system .guardedFresh).runFrom .initial ((actionsOfFind.take k).map fun act => (0, act))).getD
    .initial).thread 0

/-- The thread goes round and the nodes stay as they are. The hazard slots do not. -/
theorem next_find {k : Nat} (hk : k < 9) (hnode : s.mem.node = Mem.initial.node)
    (ht : s.thread 0 = threadOfFind k) :
    ∃ s', (system .guardedFresh).next s (0, actionsOfFind.getD k .respond) = some s' ∧
      s'.mem.node = Mem.initial.node ∧
        s'.thread 0 = threadOfFind (if k + 1 < 9 then k + 1 else 0) := by
  obtain ⟨⟨node, cas, reloc, cell, hp, hpOff, rlist⟩, thread⟩ := s
  dsimp only at hnode ht
  subst hnode
  simp only [system]
  rw [next_eq_map]
  dsimp only
  rw [ht]
  obtain rfl | rfl | rfl | rfl | rfl | rfl | rfl | rfl | rfl : k = 0 ∨ k = 1 ∨ k = 2 ∨ k = 3 ∨
      k = 4 ∨ k = 5 ∨ k = 6 ∨ k = 7 ∨ k = 8 := by omega
  all_goals exact ⟨_, rfl, rfl, rfl⟩

/-- One thread that calls `find` over and over. -/
def runOfGuardedFinds : (system .guardedFresh).Run :=
  .ofInvariant (fun i => (0, actionsOfFind.getD (Lts.Run.turn 9 i) .respond))
    (fun i s => s.mem.node = Mem.initial.node ∧ s.thread 0 = threadOfFind (Lts.Run.turn 9 i))
    ⟨rfl, rfl⟩ fun i _ h => next_find (Lts.Run.turn_lt (by decide) i) h.1 h.2

theorem guarded_some_call_returns_finds :
    ∃ i, 100 ≤ i ∧ ∃ t, runOfGuardedFinds.label i = (t, .respond) :=
  guarded_some_call_returns runOfGuardedFinds {0} (fun _ => Finset.mem_singleton.mpr rfl) 100

end LockFree
