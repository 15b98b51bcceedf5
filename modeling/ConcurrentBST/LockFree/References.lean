-- SUMMARY: What the threads of the lock-free tree can still get to, and what only one of them knows.
import ConcurrentBST.LockFree.Releases

/-!
# References

A garbage collector's view of the program, for both modes and any allocator. The
objects are nodes and records. Child pointers, installed records and the
fields of records are references between them, and every program point holds
references of its own. A step can only reach what was accessible before, except
for objects it has just allocated.
-/

namespace LockFree

variable {cfg : Config} {m m' : Mem} {s : State} {x a : Addr} {d : Bool} {w : Word} {pc pc' : PC}
  {t : Tid} {call : Call} {P : Obj → Prop}

/-- What an address is used as. -/
inductive Obj where
  | node (a : Addr)
  | cas (a : Addr)
  | reloc (a : Addr)
deriving DecidableEq

namespace Obj

def addr : Obj → Addr
  | .node a | .cas a | .reloc a => a

def kind : Obj → Cell
  | .node _ => .node
  | .cas _ => .childCasOp
  | .reloc _ => .relocateOp

def isReloc : Obj → Bool
  | .reloc _ => true
  | _ => false

end Obj

/-- The object is still allocated, and as what it is used as. -/
def Allocated (m : Mem) (o : Obj) : Prop := m.cell o.addr = o.kind

-- ---------------------------------------------------------------------------
-- References of a program point
-- ---------------------------------------------------------------------------

/-- A node that may be `base_root`, which needs no reference. -/
def nodeRef (a : Addr) : List Obj :=
  if a = baseRoot then [] else [.node a]

/-- A pointer that is followed unless it is null-flagged. -/
def Word.refs (w : Word) : List Obj :=
  if isNull w then [] else [.node w.addr]

/-- The nodes `find` needs when it starts over. -/
def FindVars.kept (f : FindVars) : List Obj :=
  match f.caller with
  | .root => []
  | .replacement curr _ => .node curr :: nodeRef f.pred

/-- `curr` before the first step down, and after a search that did not find its key. -/
def FindVars.top (f : FindVars) : List Obj :=
  match f.caller with
  | .root => nodeRef f.curr
  | .replacement _ _ => [.node f.curr]

/-- What the caller of `find` is given. -/
def FindVars.answer (f : FindVars) (result : FindResult) : List Obj :=
  if result = .found then .node f.curr :: nodeRef f.pred else f.top

def HelpRet.refs : HelpRet → List Obj
  | .retry f => f.kept
  | .add | .remove _ => []

def HelpArgs.refs (a : HelpArgs) : List Obj :=
  nodeRef a.pred ++ .node a.curr :: a.ret.refs

/-- The objects that a thread uses from here on through its own variables. -/
def PC.refs (m : Mem) : PC → List Obj
  | .hpChild n _ next => nodeRef n ++ next.refs m
  | .hpPut _ next => next.refs m
  | .findOp f | .findNext f => f.top ++ f.kept
  | .findCurrOp f | .findKey f | .findChild f _ =>
      nodeRef f.pred ++ .node f.curr :: nodeRef f.lastRight ++ f.kept
  | .findLastRight f result => nodeRef f.lastRight ++ f.answer result ++ f.kept
  | .findCurr f result => f.answer result ++ f.kept
  | .addNew f _ | .addOld f _ _ | .addCas f _ _ => nodeRef f.curr
  | .removeRight f | .removeLeft f | .removeTestRight f | .removeTestLeft f | .removeMark f =>
      .node f.curr :: nodeRef f.pred
  | .removeCheck f curr _ | .removeNew f curr _ => .node curr :: .node f.curr :: nodeRef f.pred
  | .removeInstall f r => .reloc r :: .node f.curr :: nodeRef f.pred
  | .removeDelete _ _ => []
  | .childSlot op dest k => .cas op :: nodeRef dest ++ k.refs
  | .childScan _ _ _ _ dest k | .childOp _ dest k => nodeRef dest ++ k.refs
  | .markedLeft a | .markedRight a | .markedRef a _ => a.refs
  | .markedNew a newRef => newRef.refs ++ a.refs
  | .markedCas a r => (m.cas r).update.refs ++ a.refs
  | .relocState op a | .relocDest op a | .relocSucceed op a | .relocFail op a
  | .relocKey op a | .relocClear op a | .relocCurr op a _ => .reloc op :: a.refs
  | .ret _ => []

/-- The record that `remove` deletes if its relocation fails. -/
def HelpRet.owned (op : Addr) : HelpRet → List Obj
  | .remove _ => [.reloc op]
  | .retry _ | .add => []

/-- The objects that the thread has allocated and may still delete. -/
def PC.owned : PC → List Obj
  | .hpChild _ _ next | .hpPut _ next => next.owned
  | .addOld _ _ newNode => [.node newNode]
  | .addCas _ newNode casOp => [.node newNode, .cas casOp]
  | .markedCas _ casOp => [.cas casOp]
  | .removeInstall _ r | .removeDelete _ r => [.reloc r]
  | .relocState op a | .relocDest op a | .relocSucceed op a | .relocFail op a
  | .relocKey op a | .relocClear op a | .relocCurr op a _ => a.ret.owned op
  | _ => []

/-- One object holds a reference to another one. -/
inductive Edge (m : Mem) : Obj → Obj → Prop where
  | child {x : Addr} {d : Bool} : isNull (m.child x d) = false →
      Edge m (.node x) (.node (m.child x d).addr)
  | cas {x r : Addr} : m.op x = .cas r → Edge m (.node x) (.cas r)
  | reloc {x r : Addr} : m.op x = .rel r → Edge m (.node x) (.reloc r)
  | update {r : Addr} : isNull (m.cas r).update = false →
      Edge m (.cas r) (.node (m.cas r).update.addr)
  | dest {r : Addr} : Edge m (.reloc r) (.node (m.reloc r).dest)

/-- What some thread can get to from `base_root` or from its own variables.
    `base_root` itself is not among it. -/
inductive Accessible (s : State) : Obj → Prop where
  | root {o : Obj} : Edge s.mem (.node baseRoot) o → Accessible s o
  | ref {t : Tid} {call : Call} {pc : PC} {o : Obj} : s.thread t = .running call pc →
      o ∈ pc.refs s.mem → Accessible s o
  | edge {o o' : Obj} : Accessible s o → Edge s.mem o o' → Accessible s o'

/-- `base_root` is known to all threads. -/
def Known (s : State) (o : Obj) : Prop := o = .node baseRoot ∨ Accessible s o

theorem Known.edge {o o' : Obj} (h : Known s o) (he : Edge s.mem o o') : Accessible s o' := by
  rcases h with rfl | h
  · exact .root he
  · exact .edge h he

def Owned (s : State) (t : Tid) (o : Obj) : Prop :=
  ∃ call pc, s.thread t = .running call pc ∧ o ∈ pc.owned

/-- No thread can get to the address or has it in its hands. -/
def Unreferenced (s : State) (a : Addr) : Prop :=
  ∀ o : Obj, o.addr = a → (Known s o → o.isReloc = true) ∧ ∀ t, ¬ Owned s t o

/-- A new node refers to nothing. -/
def Blank (m : Mem) (n : Addr) : Prop :=
  (m.op n).flag = .none ∧ ∀ d, isNull (m.child n d) = true

/-- Where a search starts, that it has seen no flag, and what the thread has
    written to the objects it has just allocated. -/
def PC.Prepared (m : Mem) : PC → Prop
  | .findOp f => f.curr = f.caller.auxRoot
  | .findNext f | .findKey f | .findChild f _ | .findLastRight f _ | .findCurr f _
  | .removeRight f | .removeLeft f | .removeTestRight f | .removeTestLeft f | .removeMark f =>
      f.currOp.flag = .none
  | .hpChild _ _ next | .hpPut _ next => next.Prepared m
  | .addOld _ _ newNode => Blank m newNode
  | .addCas _ newNode casOp => Blank m newNode ∧ (m.cas casOp).update = .ptr newNode
  | _ => True

/-- Everything known is allocated, and what a thread owns it owns alone. -/
structure RefInv (s : State) : Prop where
  allocated : ∀ {o}, Known s o → o.isReloc = false → Allocated s.mem o
  owned : ∀ {t o}, Owned s t o → Allocated s.mem o ∧ (Known s o → o.isReloc = true)
  apart : ∀ {t u o}, t ≠ u → Owned s t o → ¬ Owned s u o
  prepared : ∀ {t call pc}, s.thread t = .running call pc → pc.Prepared s.mem
  /-- `base_root` is nobody's child, and it is never marked or relocated. -/
  root : ¬ Accessible s (.node baseRoot)
  rootOp : (s.mem.op baseRoot).flag = .none ∨ (s.mem.op baseRoot).flag = .childCas

-- ---------------------------------------------------------------------------
-- The step rule
-- ---------------------------------------------------------------------------

attribute [local simp] PC.refs PC.owned in
theorem refs_congr (h : ∀ r, .cas r ∈ pc.owned → m'.cas r = m.cas r) : pc.refs m' = pc.refs m := by
  induction pc with
  | hpChild n d next ih => simp [ih h]
  | hpPut w next ih => exact ih h
  | markedCas a r => simp [h r (by simp)]
  | _ => rfl

theorem prepared_congr (hnode : ∀ n, .node n ∈ pc.owned → m'.node n = m.node n)
    (hcas : ∀ r, .cas r ∈ pc.owned → m'.cas r = m.cas r) (h : pc.Prepared m) : pc.Prepared m' := by
  have hblank : ∀ n, m'.node n = m.node n → Blank m n → Blank m' n := by
    intro n heq hb
    unfold Blank Mem.op Mem.child at *
    rwa [heq]
  induction pc with
  | hpChild n d next ih => exact ih hnode hcas h
  | hpPut w next ih => exact ih hnode hcas h
  | findOp | findNext | findKey | findChild | findLastRight | findCurr | removeRight | removeLeft
  | removeTestRight | removeTestLeft | removeMark => exact h
  | addOld f d n => exact hblank n (hnode n (by simp [PC.owned])) h
  | addCas f n r =>
    refine ⟨hblank n (hnode n (by simp [PC.owned])) h.1, ?_⟩
    rw [hcas r (by simp [PC.owned])]
    exact h.2
  | _ => trivial

/-- A step of `t` that publishes the objects in `P`. -/
structure RefStep (s : State) (t : Tid) (pc : PC) (P : Obj → Prop) (m' : Mem) (pc' : PC) :
    Prop where
  published : ∀ o, P o → o.isReloc = false → o ∈ pc.owned ∧ o ∉ pc'.owned
  edges : ∀ o o', Known s o ∨ P o → Edge m' o o' → Accessible s o' ∨ P o'
  refs : ∀ o ∈ pc'.refs m', Accessible s o ∨ P o
  /-- What the others and the tree use stays allocated. -/
  keeps : ∀ o, Allocated s.mem o →
    Known s o ∧ o.isReloc = false ∨ P o ∨ (∃ u, u ≠ t ∧ Owned s u o) → Allocated m' o
  node : ∀ n, (∃ u, u ≠ t ∧ Owned s u (.node n)) → m'.node n = s.mem.node n
  cas : ∀ r, (∃ u, u ≠ t ∧ Owned s u (.cas r)) → m'.cas r = s.mem.cas r
  /-- What the thread owns it owned before or has just allocated. -/
  owned : ∀ o ∈ pc'.owned,
    Allocated m' o ∧ (o ∈ pc.owned ∨ ∀ o', o'.addr = o.addr → ¬ Allocated s.mem o')
  prepared : pc'.Prepared m'
  rootOp : (m'.op baseRoot).flag = .none ∨ (m'.op baseRoot).flag = .childCas

theorem RefInv.step (h : RefInv s) (ht : s.thread t = .running call pc)
    (hs : RefStep s t pc P m' pc') :
    RefInv ⟨m', Function.update s.thread t (.running call pc')⟩ := by
  have hother : ∀ {u c p}, u ≠ t → s.thread u = .running c p → p.refs m' = p.refs s.mem :=
    fun hut hu => refs_congr fun r hr => hs.cas r ⟨_, hut, _, _, hu, hr⟩
  -- Nothing becomes accessible but what is published.
  have hacc : ∀ {o}, Accessible ⟨m', Function.update s.thread t (.running call pc')⟩ o →
      Accessible s o ∨ P o := by
    intro o ho
    induction ho with
    | root he => exact hs.edges _ _ (.inl (.inl rfl)) he
    | @ref u c p o hu ho =>
      by_cases hut : u = t
      · subst hut
        simp only [Function.update_self, Thread.running.injEq] at hu
        obtain ⟨rfl, rfl⟩ := hu
        exact hs.refs o ho
      · simp only [Function.update_of_ne hut] at hu
        exact .inl (.ref hu (hother hut hu ▸ ho))
    | edge _ he ih => exact hs.edges _ _ (ih.imp_left .inr) he
  have hknown : ∀ {o}, Known ⟨m', Function.update s.thread t (.running call pc')⟩ o →
      Known s o ∨ P o := by
    rintro o (rfl | ho)
    · exact .inl (.inl rfl)
    · exact (hacc ho).imp_left .inr
  have howned : ∀ {u o}, u ≠ t →
      Owned ⟨m', Function.update s.thread t (.running call pc')⟩ u o → Owned s u o := by
    rintro u o hut ⟨c, p, hu, ho⟩
    exact ⟨c, p, by simpa [hut] using hu, ho⟩
  have hself : ∀ {o}, Owned ⟨m', Function.update s.thread t (.running call pc')⟩ t o →
      o ∈ pc'.owned := by
    rintro o ⟨c, p, hu, ho⟩
    simp only [Function.update_self, Thread.running.injEq] at hu
    exact hu.2 ▸ ho
  have hmine : ∀ {o}, o ∈ pc.owned → Owned s t o := fun ho => ⟨_, _, ht, ho⟩
  refine ⟨fun {o} ho hk => ?_, fun {u o} ho => ?_, fun {u v o} huv hu hv => ?_,
    fun {u c p} hu => ?_, fun ho => ?_, hs.rootOp⟩
  · rcases hknown ho with ha | hp
    · exact hs.keeps o (h.allocated ha hk) (.inl ⟨ha, hk⟩)
    · exact hs.keeps o (h.owned (hmine (hs.published o hp hk).1)).1 (.inr (.inl hp))
  · by_cases hut : u = t
    · subst hut
      obtain ⟨hal, hold⟩ := hs.owned o (hself ho)
      refine ⟨hal, fun ha => ?_⟩
      rcases hknown ha with ha | hp
      · rcases hold with hold | hnew
        · exact (h.owned (hmine hold)).2 ha
        · by_contra hk
          exact hnew o rfl (h.allocated ha (by simpa using hk))
      · by_contra hk
        exact (hs.published o hp (by simpa using hk)).2 (hself ho)
    · have hu := howned hut ho
      refine ⟨hs.keeps o (h.owned hu).1 (.inr (.inr ⟨u, hut, hu⟩)), fun ha => ?_⟩
      rcases hknown ha with ha | hp
      · exact (h.owned hu).2 ha
      · by_contra hk
        exact h.apart hut hu (hmine (hs.published o hp (by simpa using hk)).1)
  · -- A new object is not yet owned by another thread.
    have hnot : ∀ {v}, v ≠ t → o ∈ pc'.owned → ¬ Owned s v o := by
      intro v hvt ho hv
      rcases (hs.owned o ho).2 with hold | hnew
      · exact h.apart hvt hv (hmine hold)
      · exact hnew o rfl (h.owned hv).1
    by_cases hut : u = t
    · subst hut
      exact hnot (Ne.symm huv) (hself hu) (howned (Ne.symm huv) hv)
    · by_cases hvt : v = t
      · subst hvt
        exact hnot hut (hself hv) (howned hut hu)
      · exact h.apart huv (howned hut hu) (howned hvt hv)
  · by_cases hut : u = t
    · subst hut
      simp only [Function.update_self, Thread.running.injEq] at hu
      obtain ⟨rfl, rfl⟩ := hu
      exact hs.prepared
    · simp only [Function.update_of_ne hut] at hu
      exact prepared_congr (fun n hn => hs.node n ⟨u, hut, _, _, hu, hn⟩)
        (fun r hr => hs.cas r ⟨u, hut, _, _, hu, hr⟩) (h.prepared hu)
  · rcases hacc ho with ha | hp
    · exact h.root ha
    · have hpub := (h.owned (hmine (hs.published _ hp rfl).1)).2 (.inl rfl)
      cases hpub

-- ---------------------------------------------------------------------------
-- Kinds of steps
-- ---------------------------------------------------------------------------

/-- A thread may go on at `pc` with the references in `acc` and its own objects. -/
structure Follows (acc : Obj → Prop) (m : Mem) (own : List Obj) (pc : PC) : Prop where
  refs : ∀ o ∈ pc.refs m, acc o
  owned : ∀ o ∈ pc.owned, o ∈ own
  prepared : pc.Prepared m

theorem Obj.eq_of_allocated {o o' : Obj} (h : Allocated m o) (h' : Allocated m o')
    (ha : o.addr = o'.addr) : o = o' := by
  unfold Allocated at h h'
  rw [ha, h'] at h
  cases o <;> cases o' <;> simp_all [Obj.kind, Obj.addr]

theorem RefInv.ne_baseRoot (h : RefInv s) (hx : Accessible s (.node x)) : x ≠ baseRoot :=
  fun heq => h.root (heq ▸ hx)

theorem known_of_nodeRef (h : ∀ o ∈ nodeRef a, Accessible s o) : Known s (.node a) := by
  unfold nodeRef at h
  split at h
  · next ha => exact .inl (by rw [ha])
  · exact .inr (h _ (by simp))

/-- Cells that nobody else refers to are freed. -/
theorem RefInv.free (h : RefInv s) (hcas : m'.cas = s.mem.cas) (hnode : m'.node = s.mem.node)
    (hreloc : m'.reloc = s.mem.reloc)
    (hcell : ∀ o, Allocated s.mem o → Known s o ∧ o.isReloc = false ∨
      (∃ u, u ≠ t ∧ Owned s u o) → m'.cell o.addr = s.mem.cell o.addr)
    (hf : Follows (Accessible s) m' [] pc') : RefStep s t pc (fun _ => False) m' pc' := by
  have hop : m'.op = s.mem.op := by
    unfold Mem.op
    rw [hnode]
  have hchild : m'.child = s.mem.child := by
    unfold Mem.child
    rw [hnode]
  refine ⟨fun _ hp => hp.elim, ?_, fun o ho => .inl (hf.refs o ho), fun o ho hk => ?_,
    fun n _ => by rw [hnode], fun r _ => by rw [hcas], fun o ho => by simpa using hf.owned o ho,
    hf.prepared, by rw [hop]; exact h.rootOp⟩
  · rintro o o' (ho | hp) he
    · refine .inl (ho.edge ?_)
      cases he with
      | child hn => exact hchild ▸ .child (hchild ▸ hn)
      | cas hc => exact .cas (hop ▸ hc)
      | reloc hr => exact .reloc (hop ▸ hr)
      | update hu => exact hcas ▸ .update (hcas ▸ hu)
      | dest => exact hreloc ▸ .dest
    · exact hp.elim
  · rw [Allocated, hcell o ho (hk.imp_right fun h => h.resolve_left id)]
    exact ho

section Kinds

variable (h : RefInv s) (ht : s.thread t = .running call pc)

include h ht

/-- No cell changes, and of the nodes only known ones do. -/
theorem RefInv.frame (hcell : m'.cell = s.mem.cell) (hcas : m'.cas = s.mem.cas)
    (hnode : ∀ n, ¬ Known s (.node n) → m'.node n = s.mem.node n)
    (hroot : (m'.op baseRoot).flag = .none ∨ (m'.op baseRoot).flag = .childCas)
    (hpub : ∀ o, P o → o.isReloc = false → o ∈ pc.owned ∧ o ∉ pc'.owned)
    (hedges : ∀ o o', Known s o ∨ P o → Edge m' o o' → Accessible s o' ∨ P o')
    (hf : Follows (fun o => Accessible s o ∨ P o) m' pc.owned pc') : RefStep s t pc P m' pc' where
  published := hpub
  edges := hedges
  refs := hf.refs
  keeps := fun o ho _ => by rwa [Allocated, hcell]
  node := fun n ⟨u, _, hu⟩ => hnode n fun ha => by simpa [Obj.isReloc] using (h.owned hu).2 ha
  cas := fun r _ => by rw [hcas]
  owned := fun o ho => by
    refine ⟨?_, .inl (hf.owned o ho)⟩
    rw [Allocated, hcell]
    exact (h.owned ⟨_, _, ht, hf.owned o ho⟩).1
  prepared := hf.prepared
  rootOp := hroot

/-- Keys, states, slots and lists hold no references. -/
theorem RefInv.inert (hcell : m'.cell = s.mem.cell) (hcas : m'.cas = s.mem.cas)
    (hnode : ∀ n, ¬ Known s (.node n) → m'.node n = s.mem.node n)
    (hop : m'.op = s.mem.op) (hchild : m'.child = s.mem.child)
    (hdest : ∀ r, (m'.reloc r).dest = (s.mem.reloc r).dest)
    (hf : Follows (Accessible s) m' pc.owned pc') : RefStep s t pc (fun _ => False) m' pc' := by
  refine h.frame ht hcell hcas hnode (by rw [hop]; exact h.rootOp) (fun _ hp => hp.elim) ?_
    ⟨fun o ho => .inl (hf.refs o ho), hf.owned, hf.prepared⟩
  rintro o o' (ho | hp) he
  · refine .inl (ho.edge ?_)
    cases he with
    | child hn => exact hchild ▸ .child (hchild ▸ hn)
    | cas hc => exact .cas (hop ▸ hc)
    | reloc hr => exact .reloc (hop ▸ hr)
    | update hu => exact hcas ▸ .update (hcas ▸ hu)
    | dest => exact hdest _ ▸ .dest
  · exact hp.elim

theorem RefInv.read (hf : Follows (Accessible s) s.mem pc.owned pc') :
    RefStep s t pc (fun _ => False) s.mem pc' :=
  h.inert ht rfl rfl (fun _ _ => rfl) rfl rfl (fun _ => rfl) hf

/-- A change of the `op` field of a known node. -/
theorem RefInv.setOp (hx : Known s (.node x))
    (hroot : x = baseRoot → w.flag = .none ∨ w.flag = .childCas)
    (hcas : ∀ r, w = .cas r → Accessible s (.cas r) ∨ P (.cas r))
    (hrel : ∀ r, w = .rel r → Accessible s (.reloc r))
    (hpub : ∀ o, P o → (o ∈ pc.owned ∧ o ∉ pc'.owned) ∧
      ∀ o', Edge (s.mem.setOp x w) o o' → Accessible s o' ∨ P o')
    (hf : Follows (fun o => Accessible s o ∨ P o) (s.mem.setOp x w) pc.owned pc') :
    RefStep s t pc P (s.mem.setOp x w) pc' := by
  refine h.frame ht rfl rfl (fun n hn => ?_) ?_ (fun o hp _ => (hpub o hp).1) ?_ hf
  · have hnx : n ≠ x := fun heq => hn (heq ▸ hx)
    exact Function.update_of_ne hnx ..
  · rw [Mem.setOp_op]
    split
    · next heq => exact hroot heq.symm
    · exact h.rootOp
  · rintro o o' (ho | hp) he
    · cases he with
      | child hn =>
        rw [Mem.setOp_child] at hn ⊢
        exact .inl (ho.edge (.child hn))
      | cas hc =>
        rw [Mem.setOp_op] at hc
        split at hc
        · exact hcas _ hc
        · exact .inl (ho.edge (.cas hc))
      | reloc hr =>
        rw [Mem.setOp_op] at hr
        split at hr
        · exact .inl (hrel _ hr)
        · exact .inl (ho.edge (.reloc hr))
      | update hu => exact .inl (ho.edge (.update hu))
      | dest => exact .inl (ho.edge .dest)
    · exact (hpub o hp).2 o' he

/-- A change of the `op` field of a known node to a word that refers to nothing new. -/
theorem RefInv.resetOp (hx : Known s (.node x))
    (hroot : x = baseRoot → w.flag = .none ∨ w.flag = .childCas)
    (hcas : w.flag ≠ .childCas) (hrel : ∀ r, w = .rel r → Accessible s (.reloc r))
    (hf : Follows (Accessible s) (s.mem.setOp x w) pc.owned pc') :
    RefStep s t pc (fun _ => False) (s.mem.setOp x w) pc' :=
  h.setOp ht hx hroot (fun r hw => absurd (by rw [hw]) hcas) hrel (fun _ hp => hp.elim)
    ⟨fun o ho => .inl (hf.refs o ho), hf.owned, hf.prepared⟩

/-- Line 365: a child field takes what the record has for it. -/
theorem RefInv.setChild (hx : Known s (.node x))
    (hw : isNull w = false → Accessible s (.node w.addr)) {as : Tid → List Addr}
    (hf : Follows (Accessible s) { s.mem.setChild x d w with rlist := as } pc.owned pc') :
    RefStep s t pc (fun _ => False) { s.mem.setChild x d w with rlist := as } pc' := by
  have hop : ∀ y, ({ s.mem.setChild x d w with rlist := as } : Mem).op y = s.mem.op y :=
    congrFun (Mem.setChild_op s.mem x d w)
  have hchild : ∀ y e, ({ s.mem.setChild x d w with rlist := as } : Mem).child y e =
      if y = x ∧ e = d then w else s.mem.child y e := fun y e => Mem.setChild_child s.mem x y d e w
  refine h.frame ht rfl rfl (fun n hn => ?_) (by rw [hop]; exact h.rootOp)
    (fun _ hp => hp.elim) ?_ ⟨fun o ho => .inl (hf.refs o ho), hf.owned, hf.prepared⟩
  · have hnx : n ≠ x := fun heq => hn (heq ▸ hx)
    exact Function.update_of_ne hnx ..
  · rintro o o' (ho | hp) he
    · left
      cases he with
      | child hn =>
        rw [hchild] at hn ⊢
        split at hn
        · next hxd =>
          rw [if_pos hxd]
          exact hw hn
        · next hxd =>
          rw [if_neg hxd]
          exact ho.edge (.child hn)
      | cas hc => exact ho.edge (.cas (hop _ ▸ hc))
      | reloc hr => exact ho.edge (.reloc (hop _ ▸ hr))
      | update hu => exact ho.edge (.update hu)
      | dest => exact ho.edge .dest
    · exact hp.elim

/-- The objects that a thread owns may be deleted by it. -/
theorem RefInv.delete (as : List Addr) (has : ∀ a ∈ as, ∃ o ∈ pc.owned, o.addr = a)
    (hf : Follows (Accessible s) (as.foldl Mem.delete s.mem) [] pc') :
    RefStep s t pc (fun _ => False) (as.foldl Mem.delete s.mem) pc' := by
  obtain ⟨hnode, hcas, hreloc⟩ := foldl_delete (m := s.mem) as
  refine h.free hcas hnode hreloc (fun o ho hk => ?_) hf
  have hcell : ∀ (as : List Addr) (m : Mem) (b : Addr), b ∉ as →
      (as.foldl Mem.delete m).cell b = m.cell b := by
    intro as
    induction as with
    | nil => exact fun _ _ _ => rfl
    | cons a as ih =>
      intro m b hb
      rw [List.mem_cons, not_or] at hb
      exact (ih _ b hb.2).trans (Function.update_of_ne hb.1 ..)
  refine hcell as s.mem _ fun hmem => ?_
  obtain ⟨o', ho', haddr⟩ := has _ hmem
  have hmine : Owned s t o' := ⟨_, _, ht, ho'⟩
  obtain rfl : o = o' := Obj.eq_of_allocated ho (h.owned hmine).1 haddr.symm
  rcases hk with ⟨ha, hk⟩ | ⟨u, hut, hu⟩
  · simp [(h.owned hmine).2 ha] at hk
  · exact h.apart hut hu hmine

/-- A new object, which the thread owns. A relocation record counts as published at once. -/
theorem RefInv.new {o : Obj} (halloc : s.mem.allocatable cfg o.addr = true)
    (hcell : m'.cell = Function.update s.mem.cell o.addr o.kind)
    (hnode : ∀ n, o ≠ .node n → m'.node n = s.mem.node n)
    (hcas : ∀ r, o ≠ .cas r → m'.cas r = s.mem.cas r)
    (hreloc : ∀ r, o ≠ .reloc r → m'.reloc r = s.mem.reloc r)
    (hdest : ∀ r, o = .reloc r → Accessible s (.node (m'.reloc r).dest))
    (hf : Follows (fun o' => Accessible s o' ∨ o' = o ∧ o.isReloc = true) m' (o :: pc.owned) pc') :
    RefStep s t pc (fun o' => o' = o ∧ o.isReloc = true) m' pc' := by
  have hnew : ∀ o' : Obj, o'.addr = o.addr → ¬ Allocated s.mem o' := by
    intro o' ha hal
    unfold Allocated at hal
    rw [ha] at hal
    unfold Mem.allocatable at halloc
    rw [hal] at halloc
    cases o' <;> simp [Obj.kind] at halloc
  have hkeep : ∀ {o'}, Allocated s.mem o' → Allocated m' o' := by
    intro o' ho'
    have hne : o'.addr ≠ o.addr := fun heq => hnew o' heq ho'
    rw [Allocated, hcell, Function.update_of_ne hne]
    exact ho'
  -- A known object is not the new one.
  have hold : ∀ {o'}, Known s o' → o'.isReloc = false → o ≠ o' := by
    rintro o' ha hk rfl
    exact hnew o rfl (h.allocated ha hk)
  have hop : ∀ {y}, Known s (.node y) → m'.op y = s.mem.op y := by
    intro y hy
    unfold Mem.op
    rw [hnode y (hold hy rfl)]
  refine ⟨?_, ?_, hf.refs, fun o' ho' _ => hkeep ho', ?_, ?_, fun o' ho' => ?_, hf.prepared,
    by rw [hop (.inl rfl)]; exact h.rootOp⟩
  · rintro o' ⟨rfl, hk⟩ hk'
    rw [hk] at hk'
    cases hk'
  · rintro o₁ o₂ (ho | ⟨rfl, hk⟩) he
    · left
      cases he with
      | @child y d hn =>
        have hc : m'.child y d = s.mem.child y d := by
          unfold Mem.child
          rw [hnode y (hold ho rfl)]
        rw [hc] at hn ⊢
        exact ho.edge (.child hn)
      | cas hc => exact ho.edge (.cas (hop ho ▸ hc))
      | reloc hr => exact ho.edge (.reloc (hop ho ▸ hr))
      | @update r hu =>
        rw [hcas r (hold ho rfl)] at hu ⊢
        exact ho.edge (.update hu)
      | @dest r =>
        by_cases hr : o = .reloc r
        · exact hdest r hr
        · rw [hreloc r hr]
          exact ho.edge .dest
    · cases he with
      | child | cas | reloc | update => cases hk
      | dest => exact .inl (hdest _ rfl)
  · rintro n ⟨u, _, hu⟩
    exact hnode n fun heq => hnew _ (heq ▸ rfl) (h.owned hu).1
  · rintro r ⟨u, _, hu⟩
    exact hcas r fun heq => hnew _ (heq ▸ rfl) (h.owned hu).1
  · rcases List.mem_cons.mp (hf.owned o' ho') with rfl | hmem
    · refine ⟨?_, .inr hnew⟩
      rw [Allocated, hcell, Function.update_self]
    · exact ⟨hkeep (h.owned ⟨_, _, ht, hmem⟩).1, .inl hmem⟩

end Kinds

end LockFree
