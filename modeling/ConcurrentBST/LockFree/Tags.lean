-- SUMMARY: The tag of an op word says what record it points to, and no CAS tags a tagged word.
import ConcurrentBST.LockFree.Deletion
import ConcurrentBST.LockFree.Sequential

/-!
# Tags

`help` and `find` cast the address of an `op` word to the record type its tag
stands for, and `SET_FLAG` only ORs. Both are right because a record is
installed by the thread that has allocated it, is deleted when no `op` word
leads to it, and takes the place of a word without a tag.
-/

namespace LockFree

variable {cfg : Config} {m m' : Mem} {g g' : Ghost} {s s' : State} {x y r : Addr} {w : Word} {t : Tid}
  {call : Call} {fresh : Addr} {pc pc' next : PC} {f : FindVars} {args : HelpArgs} {ret : HelpRet}
  {d : Bool} {result : FindResult}

/-- The words that line 112, 267, 310, 438 or 472 expects in an `op` field. -/
def PC.expectedOp (m : Mem) : PC → Option Word
  | .addCas f _ _ | .removeMark f | .removeInstall f _ => some f.currOp
  | .markedCas a _ => some a.predOp
  | .relocDest op _ => some (m.reloc op).destOp
  | _ => none

/-- The calls of `SET_FLAG`. -/
def PC.setFlags : PC → List (Word × Flag)
  | .addCas _ _ casOp | .markedCas _ casOp => [(.ptr casOp, .childCas)]
  | .removeMark f => [(f.currOp, .mark)]
  | .removeInstall _ relocOp => [(.ptr relocOp, .relocate)]
  | .childOp op _ _ => [(.ptr op, .childCas), (.ptr op, .none)]
  | .relocDest op _ => [(.ptr op, .relocate)]
  | .relocClear op _ => [(.ptr op, .relocate), (.ptr op, .none)]
  | .relocCurr op _ true => [(.ptr op, .relocate), (.ptr op, .mark), (.ptr op, .none)]
  | .relocCurr op _ false => [(.ptr op, .relocate), (.ptr op, .none)]
  | _ => []

/-- What `find` returns if the next access is its last one. -/
def PC.findResult (m : Mem) : PC → Option (FindVars × FindResult)
  | .findOp f =>
      if getFlag (m.op f.curr) ≠ .none ∧ f.caller.auxRoot ≠ baseRoot then some (f, .abort) else none
  | .findCurr f result => if f.currOp = m.op f.curr then some (f, result) else none
  | _ => none

/-- What holds of the tags in a state. -/
structure WellTagged (s : State) : Prop where
  cas : ∀ x, getFlag (s.mem.op x) = .childCas → s.mem.cell (unflag (s.mem.op x)).addr = .childCasOp
  relocation : ∀ x, getFlag (s.mem.op x) = .relocate →
    s.mem.cell (unflag (s.mem.op x)).addr = .relocateOp
  expected : ∀ t call pc w, s.thread t = .running call pc → pc.expectedOp s.mem = some w →
    getFlag w = .none
  flags : ∀ t call pc w state, s.thread t = .running call pc → (w, state) ∈ pc.setFlags →
    getFlag (setFlag w state) = state
  rootOp : getFlag (s.mem.op baseRoot) = .none ∨ getFlag (s.mem.op baseRoot) = .childCas
  rootKey : s.mem.key baseRoot = Mem.initial.key baseRoot
  rootLeft : s.mem.child baseRoot true = Mem.initial.child baseRoot true
  /-- The cast in the retry branch of `find`. -/
  retry : ∀ t call f, s.thread t = .running call (.findOp f) → f.caller.auxRoot = baseRoot →
    getFlag (s.mem.op f.curr) ≠ .none →
    f.curr = baseRoot ∧ s.mem.cell (unflag (s.mem.op f.curr)).addr = .childCasOp
  /-- `ABORT` is for the `find` of line 283 only. -/
  result : ∀ t call pc f r, s.thread t = .running call pc → pc.findResult s.mem = some (f, r) →
    f.caller.auxRoot = baseRoot → r ≠ .abort
  found : ∀ t call r, s.thread t = .running call (.ret (.found r)) → r ≠ .abort

/-- The access at which `find` returns. -/
theorem exec_of_findResult (h : pc.findResult m = some (f, result)) :
    exec cfg t call fresh m pc =
      some (m, findReturn cfg call { f with currOp := m.op f.curr } result) := by
  cases pc with
  | findOp f' =>
    simp only [PC.findResult, Option.ite_none_right_eq_some, Option.some.injEq, Prod.mk.injEq] at h
    obtain ⟨⟨hflag, haux⟩, rfl, rfl⟩ := h
    simp only [exec]
    rw [if_pos hflag, if_neg haux]
  | findCurr f' result' =>
    simp only [PC.findResult, Option.ite_none_right_eq_some, Option.some.injEq, Prod.mk.injEq] at h
    obtain ⟨hop, rfl, rfl⟩ := h
    simp only [exec]
    rw [if_neg (not_not.mpr hop), ← hop]
  | _ => cases h

-- ---------------------------------------------------------------------------
-- The types of records
-- ---------------------------------------------------------------------------

/-- The type of the record that a program point is about to install, and that
    what is deleted at line 314 is not installed any more. -/
def PC.Typed (m : Mem) (g : Ghost) : PC → Prop
  | .hpChild _ _ next | .hpPut _ next => next.Typed m g
  | .addCas _ _ casOp | .markedCas _ casOp => m.cell casOp = .childCasOp
  | .removeInstall _ relocOp => m.cell relocOp = .relocateOp
  | .removeDelete _ relocOp =>
      installed m g relocOp ∧ m.state relocOp = .failed ∧ m.op (g.replace relocOp) ≠ .rel relocOp
  | .ret (.found result) => result ≠ .abort
  | _ => True

/-- Every record has the type it is used with. -/
structure Typed (s : State) (g : Ghost) : Prop where
  cas : ∀ {x r}, s.mem.op x = .cas r → s.mem.cell r = .childCasOp
  rel : ∀ {x r}, s.mem.op x = .rel r → s.mem.cell r = .relocateOp
  pc : ∀ {t call pc}, s.thread t = .running call pc → pc.Typed s.mem g

@[simp] theorem typed_hp : (PC.hp cfg w next).Typed m g ↔ next.Typed m g := by
  unfold PC.hp
  split <;> rfl

@[simp] theorem typed_hpField : (PC.hpField cfg x d next).Typed m g ↔ next.Typed m g := by
  unfold PC.hpField
  split <;> rfl

@[simp] theorem typed_findStart : (findStart cfg f).Typed m g :=
  typed_hp.mpr trivial

@[simp] theorem typed_callStart : (callStart cfg f).Typed m g :=
  typed_findStart

@[simp] theorem typed_childStart {m₀ : Mem} : (childStart m₀ x y ret).Typed m g :=
  trivial

@[simp] theorem typed_scanNext {as : List Addr} : (scanNext x y ret as).Typed m g := by
  cases as <;> trivial

@[simp] theorem typed_helpReturn : (helpReturn cfg ret).Typed m g := by
  cases ret with
  | retry f => exact typed_findStart
  | add | remove => trivial

@[simp] theorem typed_findEnd : (findEnd f result).Typed m g := by
  unfold findEnd
  split <;> trivial

@[simp] theorem typed_findLoop : (findLoop f w result).Typed m g := by
  unfold findLoop
  split
  · trivial
  · exact typed_findEnd

theorem typed_help {m₀ : Mem} : (help cfg m₀ args w).Typed m g := by
  unfold help
  split
  · exact typed_childStart
  · trivial
  · trivial
  · exact typed_helpReturn

theorem typed_findReturn (h : f.caller = .root → result ≠ .abort) :
    (findReturn cfg call f result).Typed m g := by
  unfold findReturn
  split
  · next hc => exact h hc
  · apply typed_hp.mpr
    split <;> trivial
  · split <;> trivial
  · split
    · exact typed_callStart
    · trivial

/-- `helpRelocate` has returned. -/
theorem typed_relocReturn (h : ∀ f, ret = .remove f → d = false →
    installed m g r ∧ m.state r = .failed ∧ m.op (g.replace r) ≠ .rel r) :
    (relocReturn cfg r d ret).Typed m g := by
  cases ret with
  | retry f => exact typed_findStart
  | add => trivial
  | remove f =>
    cases d with
    | true => trivial
    | false => exact h f rfl rfl

theorem typed_relocTail {m₀ : Mem} (hdest : ∀ f, args.ret = .remove f → (m₀.reloc r).dest ≠ args.curr) :
    (relocTail cfg m₀ r args d).Typed m g := by
  unfold relocTail
  split
  · next heq => exact typed_relocReturn fun f hret => absurd heq (hdest f hret)
  · trivial

/-- A `remove` that calls `helpRelocate` passes the node its record is installed on. -/
theorem Helping.dest_ne {op : Addr} (hh : Helping m g op args)
    (hr : RelocRet m g t call op args.curr args.ret) (h : MemInv cfg m g) (hret : args.ret = .remove f) :
    (m.reloc op).dest ≠ args.curr := by
  rw [hret] at hr
  obtain ⟨_, hcurr, _⟩ := hr
  rw [hcurr]
  exact (h.record hh.installed).dest_ne_replace

theorem Evolution.typed {spent : Addr → Prop} (h : Evolution cfg spent m g m' g')
    (hcell : ∀ r ∈ pc.owns, m'.cell r = m.cell r) (hpc : pc.Typed m g) : pc.Typed m' g' := by
  induction pc with
  | hpChild _ _ _ ih | hpPut _ _ ih => exact ih hcell hpc
  | addCas _ newNode casOp => exact (hcell casOp (by simp [PC.owns])).trans hpc
  | removeInstall _ relocOp => exact (hcell relocOp (by simp [PC.owns])).trans hpc
  | markedCas _ casOp => exact (hcell casOp (by simp [PC.owns])).trans hpc
  | removeDelete _ relocOp =>
    obtain ⟨hinst, hfail, hop⟩ := hpc
    refine ⟨h.installed_mono hinst, (h.state_eq hinst (by simp [hfail])).trans hfail, ?_⟩
    rw [h.replace (h.before.taken (h.before.rel_public hinst))]
    exact fun heq => hop (h.op_back hinst heq)
  | ret r => cases r <;> exact hpc
  | _ => trivial

theorem exec_typed {spent : Addr → Prop} (h : Evolution cfg spent m g m' g')
    (hp : PcInv cfg m g t call pc) (hpc : pc.Typed m g)
    (he : exec cfg t call fresh m pc = some (m', pc')) : pc'.Typed m' g' := by
  cases pc with
  | hpChild _ _ next =>
    cases he
    exact Evolution.typed h (fun _ _ => rfl) hpc
  | hpPut _ next =>
    cases he
    exact Evolution.typed h (fun _ _ => rfl) hpc
  | findOp f =>
    simp only [exec] at he
    split at he
    · split at he <;> cases he
      · exact typed_childStart
      · next haux =>
        refine typed_findReturn fun hc => absurd ?_ haux
        change f.caller = .root at hc
        simp [hc, FindCaller.auxRoot]
    · cases he
      exact typed_hpField.mpr trivial
  | findCurr f result =>
    simp only [exec] at he
    split at he <;> cases he
    · exact typed_findStart
    · refine typed_findReturn fun hc => ?_
      have hans := hp.2
      rw [Answer, hc] at hans
      rcases hans with ⟨rfl, _⟩ | ⟨rfl, _⟩ | ⟨rfl, _⟩ <;> simp
  | findCurrOp f =>
    simp only [exec] at he
    split at he <;> cases he
    · exact typed_help
    · trivial
  | childScan => exact hp.elim
  | childSlot op dest ret =>
    simp only [exec] at he
    split at he
    · split at he
      · split at he <;> cases he
        · exact typed_scanNext
        · trivial
      · cases he
        trivial
    · cases he
      trivial
  | relocState op a =>
    obtain ⟨hh, hr⟩ := hp
    simp only [exec, Option.some.injEq, Prod.mk.injEq] at he
    obtain ⟨_, rfl⟩ := he
    apply typed_hp.mpr
    split
    · trivial
    · trivial
    · exact typed_relocTail fun f => hh.dest_ne hr h.before
  | relocFail op a =>
    obtain ⟨hh, hr, _⟩ := hp
    simp only [exec, Option.some.injEq, Prod.mk.injEq] at he
    obtain ⟨hm, rfl⟩ := he
    split
    · trivial
    · refine typed_relocTail fun f hret => ?_
      rw [show ((if m.state op = .ongoing then m.setState op .failed else m).reloc op).dest =
        (m.reloc op).dest by split <;> simp]
      exact hh.dest_ne hr h.before hret
  | relocClear op a =>
    obtain ⟨hh, hr, _⟩ := hp
    simp only [exec, Option.some.injEq, Prod.mk.injEq] at he
    obtain ⟨hm, rfl⟩ := he
    refine typed_relocTail fun f hret => ?_
    rw [show ((if m.op (m.reloc op).dest = setFlag (.ptr op) .relocate
        then m.setOp (m.reloc op).dest (setFlag (.ptr op) .none) else m).reloc op).dest =
      (m.reloc op).dest by split <;> simp]
    exact hh.dest_ne hr h.before hret
  | relocCurr op a result =>
    obtain ⟨hh, hr, hcurr, _, hfail⟩ := hp
    simp only [exec] at he
    split at he
    · cases he
      trivial
    · next hres =>
      rw [Bool.not_eq_true] at hres
      subst hres
      simp only [Option.some.injEq, Prod.mk.injEq] at he
      obtain ⟨hm, rfl⟩ := he
      refine typed_relocReturn fun f hret _ => ?_
      have hst := hfail rfl
      refine ⟨h.installed_mono hh.installed, (h.state_eq hh.installed (by simp [hst])).trans hst, ?_⟩
      rw [h.replace (h.before.taken (h.before.rel_public hh.installed)), ← hcurr, ← hm]
      split
      · simp
      · next hne => exact hne
  | ret => simp at he
  | _ =>
    simp only [exec] at he
    (repeat' split at he) <;> cases he <;> simp [PC.Typed, Mem.newCas, Mem.newReloc]

-- ---------------------------------------------------------------------------
-- Allocation and deletion
-- ---------------------------------------------------------------------------

/-- An access only deletes what its thread owns, but for line 314. -/
theorem exec_cell (hp : PcInv cfg m g t call pc) (he : exec cfg t call fresh m pc = some (m', pc'))
    (hr : Taken cfg m r) (hown : r ∉ pc.owns) (hdel : ∀ f, pc ≠ .removeDelete f r) :
    m'.cell r = m.cell r := by
  cases pc with
  | addNew | addOld | removeNew | markedNew =>
    simp only [exec] at he
    split at he <;> cases he
    next halloc => exact Function.update_of_ne (taken_of_ne_alloc halloc hr) ..
  | addCas f newNode casOp =>
    simp only [PC.owns, List.mem_cons, List.not_mem_nil, or_false, not_or] at hown
    simp only [exec] at he
    split at he <;> cases he
    · rfl
    · exact (Function.update_of_ne hown.2 ..).trans (Function.update_of_ne hown.1 ..)
  | removeInstall f relocOp =>
    simp only [PC.owns, List.mem_singleton] at hown
    simp only [exec] at he
    split at he <;> cases he
    · rfl
    · exact Function.update_of_ne hown ..
  | markedCas a casOp =>
    simp only [PC.owns, List.mem_singleton] at hown
    simp only [exec] at he
    split at he <;> cases he
    · rfl
    · exact Function.update_of_ne hown ..
  | removeDelete f relocOp =>
    cases he
    exact Function.update_of_ne (fun heq : r = relocOp => hdel f (by rw [heq])) ..
  | childScan => exact hp.elim
  | childSlot op dest ret =>
    simp only [exec] at he
    split at he
    · split at he
      · split at he <;> cases he <;> exact congrFun (Mem.retire_cell ..) r
      · cases he
        rfl
    · cases he
      rfl
  | _ =>
    simp only [exec] at he
    (repeat' split at he) <;> cases he <;> rfl

/-- A relocation that has failed is on no node once it is off the replacing one. -/
theorem MemInv.not_rel_of_failed (h : MemInv cfg m g) (hinst : installed m g r)
    (hfail : m.state r = .failed) (hrep : m.op (g.replace r) ≠ .rel r) : m.op x ≠ .rel r := by
  intro hop
  rcases (h.place (.inl hop)).2 with rfl | rfl
  · exact hrep hop
  · exact ((h.record hinst).commit_past (.inl hop)).2 hfail

/-- The record that line 472 is about to put on `dest` is on the replacing node. -/
theorem MemInv.held_of_commits (h : MemInv cfg m g) (hinst : installed m g r)
    (hop : m.op (m.reloc r).dest = (m.reloc r).destOp) : m.op (g.replace r) = .rel r := by
  have hR := h.record hinst
  have hnew : (m.reloc r).destOp ∉ g.pastOp (m.reloc r).dest := hop ▸ h.op_fresh _
  cases hst : m.state r with
  | ongoing => exact hR.ongoing_held hst
  | successful => exact absurd (hR.commit_past (hR.succeeded hst)).1 hnew
  | failed => exact absurd (hR.failed hst) hnew

/-- A record that is referred to is not deleted. -/
theorem Typed.cell_eq (h : Typed s g) (hinv : Inv cfg s g) (ht : s.thread t = .running call pc)
    (he : exec cfg t call fresh s.mem pc = some (m', pc'))
    (hr : s.mem.op x = .cas r ∨ s.mem.op x = .rel r) : m'.cell r = s.mem.cell r := by
  have hword : (s.mem.op x).addr = r := by rcases hr with hr | hr <;> rw [hr]
  refine exec_cell (hinv.pc ht) he (hword ▸ hinv.mem.taken_op) (fun hown => ?_) ?_
  · have hpriv := (hinv.pc ht).private r hown
    have hpub : Public s.mem g (s.mem.op x).addr := .op (.inl rfl) (hword ▸ hpriv.ne_zero)
    exact hpriv.hidden (hword ▸ hpub)
  · rintro f rfl
    obtain ⟨hinst, hfail, hrep⟩ := h.pc ht
    rcases hr with hr | hr
    · exact hinv.mem.typed (.inl hr) hinst
    · exact hinv.mem.not_rel_of_failed hinst hfail hrep hr

theorem Typed.access {spent : Addr → Prop} (h : Typed s g) (hinv : Inv cfg s g)
    (hev : Evolution cfg spent s.mem g m' g') (ht : s.thread t = .running call pc)
    (he : exec cfg t call fresh s.mem pc = some (m', pc')) :
    Typed ⟨m', Function.update s.thread t (.running call pc')⟩ g' := by
  have hp := hinv.pc ht
  have hpc := h.pc ht
  refine ⟨fun {x r} hop => ?_, fun {x r} hop => ?_, fun {u c p} hu => ?_⟩
  · by_cases hold : s.mem.op x = .cas r
    · exact (h.cell_eq hinv ht he (.inl hold)).trans (h.cas hold)
    · have hw := exec_op_ne he (x := x) fun heq => hold (heq.symm.trans hop)
      change m'.op x = .cas r at hop
      rw [hop] at hw
      generalize hv : Word.cas r = v at hw
      cases hw with
      | add hcurr | splice hcurr =>
        cases hv
        simp only [exec, hcurr, if_true] at he
        cases he
        exact hpc
      | mark => simp [setFlag, hp.2.2.1.flag] at hv
      | _ => cases hv
  · by_cases hold : s.mem.op x = .rel r
    · exact (h.cell_eq hinv ht he (.inr hold)).trans (h.rel hold)
    · have hw := exec_op_ne he (x := x) fun heq => hold (heq.symm.trans hop)
      change m'.op x = .rel r at hop
      rw [hop] at hw
      generalize hv : Word.rel r = v at hw
      cases hw with
      | install hcurr =>
        cases hv
        simp only [exec, hcurr, if_true] at he
        cases he
        exact hpc
      | commit hdest =>
        cases hv
        have hrep := hinv.mem.held_of_commits hp.1.installed hdest
        exact (h.cell_eq hinv ht he (.inr hrep)).trans (h.rel hrep)
      | mark => simp [setFlag, hp.2.2.1.flag] at hv
      | _ => cases hv
  · by_cases hut : u = t
    · subst hut
      simp only [Function.update_self, Thread.running.injEq] at hu
      obtain ⟨rfl, rfl⟩ := hu
      exact exec_typed hev hp hpc he
    · simp only [Function.update_of_ne hut] at hu
      refine hev.typed (fun r hown => ?_) (h.pc hu)
      have hpriv := (hinv.pc hu).private r hown
      apply exec_cell hp he hpriv.taken (hinv.apart hut hu ht r hown)
      rintro f rfl
      exact hpriv.hidden (hinv.mem.rel_public hpc.1)

/-- The call of a thread begins or ends. -/
theorem Typed.setThread {spent : Addr → Prop} {th : Thread} (h : Typed s g)
    (hev : Evolution cfg spent s.mem g s.mem g')
    (hth : ∀ c p, th = .running c p → p.Typed s.mem g') :
    Typed { s with thread := Function.update s.thread t th } g' := by
  refine ⟨h.cas, h.rel, fun {u c p} hu => ?_⟩
  by_cases hut : u = t
  · subst hut
    simp only [Function.update_self] at hu
    exact hth c p hu
  · simp only [Function.update_of_ne hut] at hu
    exact hev.typed (fun _ _ => rfl) (h.pc hu)

-- ---------------------------------------------------------------------------
-- `base_root`
-- ---------------------------------------------------------------------------

/-- Nothing is linked in on the left of `base_root`, and nothing can be spliced out there. -/
theorem Change.root_child {spent : Addr → Prop} (hc : Change cfg t spent m g m' g')
    (h : MemInv cfg m g) : m'.child baseRoot true = m.child baseRoot true := by
  by_contra hne
  obtain ⟨r, hop, hside, hexp, _⟩ := hc.child_cases h hne
  rw [hside] at hexp
  rcases h.slot hop with ⟨_, hpend⟩ | ⟨_, hpast⟩
  · cases hpend with
    | insertion a n _ _ _ _ hgap => cases hside.trans (hgap.root rfl)
    | splice c hptr =>
      have hchild := h.childPtr_eq_some.mpr (hexp.trans hptr)
      rw [← hside] at hchild
      cases h.root_left.symm.trans hchild
  · exact h.child_fresh baseRoot _ (hexp ▸ hpast)

namespace History

variable {n i : Nat} {e : (system cfg).Exec n} (H : History e)

include H

theorem typed (hi : i ≤ n) : Typed (e.state i) (H.ghost i) := by
  induction i with
  | zero =>
    rw [e.start]
    refine ⟨fun h => ?_, fun h => ?_, fun h => ?_⟩ <;> cases h
  | succ i ih =>
    have h := ih (by omega)
    have hinv := H.inv i (by omega)
    obtain ⟨spent, hev⟩ := H.evolution hi
    have hstep := steps_of_next (e.step i hi)
    generalize e.state (i + 1) = s' at hstep hev
    generalize e.label i = l at hstep
    cases hstep with
    | invoke ht =>
      apply h.setThread hev
      rintro c p hth
      cases hth
      exact typed_callStart
    | access ht he => exact h.access hinv hev ht he
    | respond ht =>
      apply h.setThread hev
      rintro c p hth
      cases hth

theorem root_child (hi : i ≤ n) : (e.state i).mem.child baseRoot true = .null 0 := by
  induction i with
  | zero =>
    rw [e.start]
    rfl
  | succ i ih =>
    obtain ⟨_, _, _, _, hc, _⟩ := (H.traces i hi).change
    exact (hc.root_child (H.mem (by omega))).trans (ih (by omega))

end History

-- ---------------------------------------------------------------------------
-- What the casts and the ORs rely on
-- ---------------------------------------------------------------------------

/-- Only words without a tag are expected. -/
theorem PcInv.expected (hp : PcInv cfg m g t call pc) (h : MemInv cfg m g)
    (hw : pc.expectedOp m = some w) : getFlag w = .none := by
  cases pc with
  | addCas f newNode casOp =>
    cases hw
    exact hp.2.2.1.flag
  | removeMark f =>
    cases hw
    exact hp.2.2.1.flag
  | removeInstall f relocOp =>
    cases hw
    exact hp.2.2.2.1.seen.flag
  | markedCas a casOp =>
    cases hw
    exact hp.1.link.seen.flag
  | relocDest op a =>
    cases hw
    exact (h.record hp.1.installed).destOp_flag
  | _ => cases hw

theorem PcInv.flags {state : Flag} (hp : PcInv cfg m g t call pc) (hw : (w, state) ∈ pc.setFlags) :
    getFlag (setFlag w state) = state := by
  have hor : ∀ {v : Word}, v.flag = .none → getFlag (setFlag v state) = state := fun hv => by
    simp [setFlag, hv]
  cases pc with
  | removeMark f =>
    obtain ⟨rfl, rfl⟩ := Prod.mk.inj (List.mem_singleton.mp hw)
    exact hor hp.2.2.1.flag
  | relocCurr op a result =>
    apply hor
    cases result <;> simp only [PC.setFlags, List.mem_cons, Prod.mk.injEq] at hw <;> grind
  | _ =>
    apply hor
    simp only [PC.setFlags, List.mem_cons, Prod.mk.injEq] at hw
    grind

theorem PcInv.not_abort (hp : PcInv cfg m g t call pc) (hres : pc.findResult m = some (f, result))
    (haux : f.caller.auxRoot = baseRoot) : result ≠ .abort := by
  cases pc with
  | findOp f' =>
    simp only [PC.findResult, Option.ite_none_right_eq_some, Option.some.injEq, Prod.mk.injEq] at hres
    obtain ⟨⟨_, hne⟩, rfl, _⟩ := hres
    exact absurd haux hne
  | findCurr f' result' =>
    simp only [PC.findResult, Option.ite_none_right_eq_some, Option.some.injEq, Prod.mk.injEq] at hres
    obtain ⟨_, rfl, rfl⟩ := hres
    have hans := hp.2
    unfold Answer at hans
    split at hans
    · rcases hans with ⟨rfl, _⟩ | ⟨rfl, _⟩ | ⟨rfl, _⟩ <;> simp
    · exact hans.2.1
  | _ => cases hres

/-- In every state of every run the tags tell the types. -/
theorem well_tagged {n i : Nat} (e : (system .plain).Exec n) (hi : i ≤ n) : WellTagged (e.state i) := by
  obtain ⟨H⟩ := exists_history rfl e fun i _ => careful_of_fresh rfl
  have hinv := H.inv i hi
  have htyped := H.typed hi
  have hcas : ∀ x, getFlag ((e.state i).mem.op x) = .childCas →
      (e.state i).mem.cell (unflag ((e.state i).mem.op x)).addr = .childCasOp := fun x hf =>
    htyped.cas (Word.ext rfl hf)
  refine ⟨hcas, fun x hf => htyped.rel (Word.ext rfl hf), fun t call pc w ht => (hinv.pc ht).expected hinv.mem,
    fun t call pc w state ht => (hinv.pc ht).flags, hinv.mem.root_op, H.root_key hi, H.root_child hi,
    fun t call f ht haux hflag => ?_, fun t call pc f r ht => (hinv.pc ht).not_abort,
    fun t call r ht => htyped.pc ht⟩
  have hcurr : f.curr = baseRoot := (hinv.pc ht).2.trans haux
  rw [hcurr] at hflag ⊢
  exact ⟨rfl, hcas _ (hinv.mem.root_op.resolve_left hflag)⟩

theorem well_tagged_relocation : WellTagged (runOfRelocation.state 60) :=
  well_tagged runOfRelocation (by decide)

end LockFree
