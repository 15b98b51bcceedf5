-- SUMMARY: A thread that only makes steps nobody else can see restarts at most twice and then returns.
import ConcurrentBST.LockFree.Acyclic

/-!
# Restarts

Suppose no step changes an `op` field or the state of a relocation any more. A
thread may still be on its way with locals that are out of date, and start over
because of that. From then on what it reads is what is in memory: only the node
`remove` looks for a replacement of may be out of date, which costs one more
restart. A thread whose locals are up to date gets to a CAS that succeeds, or
to the end of its call.
-/

namespace LockFree

variable {cfg : Config} {m m' : Mem} {g : Ghost} {t : Tid} {call : Call} {pc pc' : PC}
  {fresh op dest : Addr} {f : FindVars} {ret : HelpRet} {a : HelpArgs} {result : FindResult}
  {rk : Addr → Nat} {b d : Bool}

-- ---------------------------------------------------------------------------
-- Locals that are up to date
-- ---------------------------------------------------------------------------

/-- What the thread has read since its last restart is what is in memory now. -/
def Current (m : Mem) : PC → Prop
  | .hpChild _ _ next | .hpPut _ next => Current m next
  | .findOp _ | .ret _ => True
  | .findCurrOp f => m.op f.pred = f.predOp ∧ m.op f.lastRight = f.lastRightOp
  | .findKey f | .findChild f _ => m.op f.pred = f.predOp ∧ m.op f.lastRight = f.lastRightOp ∧
      m.op f.curr = f.currOp
  | .findLastRight f _ => m.op f.lastRight = f.lastRightOp ∧ m.op f.curr = f.currOp
  | .findNext f | .findCurr f _ | .addNew f _ | .addOld f _ _ | .addCas f _ _ | .removeRight f
  | .removeLeft f | .removeTestRight f | .removeTestLeft f | .removeMark f | .removeCheck f _ _
  | .removeNew f _ _ | .removeInstall f _ => m.op f.curr = f.currOp
  | .removeDelete _ _ | .childScan _ _ _ _ _ _ => False
  | .childSlot op dest _ | .childOp op dest _ => m.op dest = .cas op
  | .markedLeft a | .markedRight a | .markedRef a _ | .markedNew a _ | .markedCas a _ =>
      m.op a.pred = a.predOp
  | .relocState op a | .relocCurr op a _ => m.op a.curr = .rel op
  | .relocDest op _ | .relocSucceed op _ | .relocFail op _ => m.state op = .ongoing
  | .relocKey op a | .relocClear op a => m.op a.curr = .rel op ∧ m.state op = .successful

theorem Current.congr (hc : Current m pc) (hop : m'.op = m.op) (hst : m'.state = m.state) :
    Current m' pc := by
  induction pc with
  | hpChild n d next ih => exact ih hc
  | hpPut w next ih => exact ih hc
  | findOp | ret | removeDelete | childScan => exact hc
  | _ => simpa only [Current, hop, hst] using hc

theorem Anchored.congr {fc : FindCaller} (ha : Anchored m fc) (hop : m'.op = m.op) :
    Anchored m' fc := by
  cases fc with
  | root => trivial
  | replacement aux auxOp => exact (congrFun hop aux).trans ha

/-- The `find` that a helper returns to. -/
def HelpRet.caller : HelpRet → FindCaller
  | .retry f => f.caller
  | .add | .remove _ => .root

/-- The node whose word `remove` has read before it looks for a replacement. -/
def PC.caller : PC → FindCaller
  | .hpChild _ _ next | .hpPut _ next => next.caller
  | .findOp f | .findNext f | .findCurrOp f | .findKey f | .findChild f _ | .findLastRight f _
  | .findCurr f _ => f.caller
  | .removeCheck _ curr currOp => .replacement curr currOp
  | .childSlot _ _ ret | .childOp _ _ ret => ret.caller
  | .markedLeft a | .markedRight a | .markedRef a _ | .markedNew a _ | .markedCas a _
  | .relocState _ a | .relocDest _ a | .relocSucceed _ a | .relocFail _ a | .relocKey _ a
  | .relocClear _ a | .relocCurr _ a _ => a.ret.caller
  | _ => .root

-- ---------------------------------------------------------------------------
-- How far a thread is from a restart or a return
-- ---------------------------------------------------------------------------

/-- The height of the loop of `find`. A `find` from `base_root` may be followed by one
    for a replacement. -/
def FindVars.height (rk : Addr → Nat) (f : FindVars) : Nat :=
  match f.caller with
  | .root => 8 * rk f.curr + 32
  | .replacement _ _ => 4 * rk f.curr + 21

/-- The height of the end of `find`. -/
def FindVars.exitHeight (rk : Addr → Nat) (f : FindVars) : Nat :=
  match f.caller with
  | .root => 4 * rk f.curr + 30
  | .replacement _ _ => 19

/-- A bound on the steps to the next restart or return, if `rk` decreases along child fields. -/
def PC.height (rk : Addr → Nat) : PC → Nat
  | .hpChild _ _ next => next.height rk + 2
  | .hpPut _ next => next.height rk + 1
  | .findOp f => f.height rk + 4
  | .findNext f => f.height rk + 3
  | .findCurrOp f => f.height rk + 2
  | .findKey f => f.height rk + 1
  | .findChild f _ => f.height rk
  | .findLastRight f _ => f.exitHeight rk + 1
  | .findCurr f _ => f.exitHeight rk
  | .removeRight f => 4 * rk f.curr + 29
  | .removeLeft f => 4 * rk f.curr + 28
  | .removeTestRight f => 4 * rk f.curr + 27
  | .removeTestLeft f => 4 * rk f.curr + 26
  | .removeCheck _ _ _ => 18
  | .removeNew _ _ _ => 17
  | .removeInstall _ _ => 16
  | .relocState _ _ => 15
  | .relocDest _ _ => 14
  | .relocSucceed _ _ | .relocFail _ _ => 13
  | .relocKey _ _ => 12
  | .relocClear _ _ => 11
  | .relocCurr _ _ _ | .removeMark _ => 10
  | .markedLeft _ => 9
  | .markedRight _ => 8
  | .markedRef _ _ | .addNew _ _ => 7
  | .markedNew _ _ | .addOld _ _ _ => 6
  | .markedCas _ _ | .addCas _ _ _ => 5
  | .childSlot _ _ _ => 2
  | .childOp _ _ _ | .removeDelete _ _ => 1
  | .childScan _ _ _ _ _ _ | .ret _ => 0

/-- A step that changes no `op` field and no state of an installed relocation. -/
structure Still (m : Mem) (g : Ghost) (m' : Mem) : Prop where
  op : m'.op = m.op
  state : ∀ r, installed m g r → m'.state r = m.state r

/-- How a thread goes on: it restarts because a local is out of date, or it gets
    closer to a restart or a return. -/
inductive Proceeds (cfg : Config) (rk : Addr → Nat) (m : Mem) (pc : PC) (m' : Mem) (pc' : PC) :
    Prop where
  | restart {f : FindVars} : pc' = findStart cfg f →
      (Current m pc → f.caller = .root ∧ ¬ Anchored m pc.caller) → Proceeds cfg rk m pc m' pc'
  | descend : pc'.height rk < pc.height rk →
      (Current m pc → Current m' pc' ∧ (Anchored m pc.caller → Anchored m' pc'.caller)) →
      Proceeds cfg rk m pc m' pc'

/-! ## Program points that are put together -/

theorem lt_height : 15 < f.height rk := by
  unfold FindVars.height
  split <;> omega

theorem height_findEnd : (findEnd f result).height rk < f.height rk := by
  have hexit : f.exitHeight rk + 1 < f.height rk := by
    unfold FindVars.exitHeight FindVars.height
    split <;> omega
  unfold findEnd
  split
  · exact Nat.lt_of_succ_lt hexit
  · exact hexit

theorem caller_findEnd : (findEnd f result).caller = f.caller := by
  unfold findEnd
  split <;> rfl

theorem current_findEnd (hlast : m.op f.lastRight = f.lastRightOp)
    (hcurr : m.op f.curr = f.currOp) : Current m (findEnd f result) := by
  unfold findEnd
  split
  · exact hcurr
  · exact ⟨hlast, hcurr⟩

theorem height_findLoop (h : TreeInv m g) (hrk : Ranked m rk) :
    (findLoop f (m.child f.curr d) result).height rk < f.height rk := by
  unfold findLoop
  split
  · next hnext =>
    simp only [Bool.and_eq_true, Bool.not_eq_true'] at hnext
    have hlt := hrk f.curr d _ (h.child_eq_ptr hnext.1)
    change FindVars.height rk _ + 2 < f.height rk
    simp only [FindVars.height]
    split <;> omega
  · exact height_findEnd

theorem caller_findLoop {next : Word} : (findLoop f next result).caller = f.caller := by
  unfold findLoop
  split
  · rfl
  · exact caller_findEnd

theorem current_findLoop {next : Word} (hlast : m.op f.lastRight = f.lastRightOp)
    (hcurr : m.op f.curr = f.currOp) : Current m (findLoop f next result) := by
  unfold findLoop
  split
  · exact ⟨hcurr, hlast⟩
  · exact current_findEnd hlast hcurr

/-- A helper is close to its end. -/
theorem height_help {w : Word} (hw : w.flag ≠ .none) : (help cfg m a w).height rk ≤ 15 := by
  unfold help
  split
  · exact (show 4 ≤ 15 by decide)
  · exact Nat.le_refl 15
  · exact (show 9 ≤ 15 by decide)
  · next hnone => exact absurd hnone hw

theorem caller_help {w : Word} (hw : w.flag ≠ .none) : (help cfg m a w).caller = a.ret.caller := by
  unfold help
  split
  · rfl
  · rfl
  · rfl
  · next hnone => exact absurd hnone hw

theorem current_help (hpred : m.op a.pred = a.predOp) (hf : (m.op a.curr).flag ≠ .none) :
    Current m (help cfg m a (m.op a.curr)) := by
  unfold help
  generalize hw : m.op a.curr = w at hf
  obtain ⟨r, fl⟩ := w
  cases fl with
  | none => exact absurd rfl hf
  | mark => exact hpred
  | childCas => exact hw
  | relocate => exact hw

-- ---------------------------------------------------------------------------
-- Steps
-- ---------------------------------------------------------------------------

section Steps

variable (hcfg : cfg.hazardPointers = false) (h : MemInv cfg m g) (hrk : Ranked m rk)

theorem Proceeds.callStart (hno : Current m pc → ¬ Anchored m pc.caller) :
    Proceeds cfg rk m pc m' (callStart cfg f) :=
  .restart rfl fun hc => ⟨rfl, hno hc⟩

/-! ### `find` -/

include hcfg h in
theorem proceeds_findOp (hp : PcInv cfg m g t call (.findOp f))
    (he : exec cfg t call fresh m (.findOp f) = some (m', pc')) :
    Proceeds cfg rk m (.findOp f) m' pc' := by
  obtain ⟨⟨_, hcall⟩, hcurr⟩ := hp
  simp only [exec, PC.hpField, hcfg, Bool.false_eq_true, if_false] at he
  split at he
  · next hflag =>
    split at he
    · next hroot =>
      cases he
      refine .descend (Nat.lt_add_of_pos_left (Nat.zero_lt_of_lt lt_height)) fun _ => ⟨?_, id⟩
      -- Nobody removes `base_root`, so a flag there is that of a child CAS.
      rw [hcurr, hroot] at hflag ⊢
      exact Word.ext rfl (h.root_op.resolve_left hflag)
    · next hroot =>
      cases he
      cases hc : f.caller with
      | root => exact absurd (by rw [hc]; rfl) hroot
      | replacement aux auxOp =>
        simp only [findReturn, if_true]
        refine .callStart fun _ ha => ?_
        have hop : Anchored m (.replacement aux auxOp) := hc ▸ ha
        rw [hc] at hcall hcurr
        rw [hcurr] at hflag
        exact hflag ((congrArg Word.flag hop).trans hcall.2.1.flag)
  · cases he
    exact .descend (Nat.lt_succ_self _) fun _ => ⟨rfl, id⟩

include h hrk in
theorem proceeds_findNext (he : exec cfg t call fresh m (.findNext f) = some (m', pc')) :
    Proceeds cfg rk m (.findNext f) m' pc' := by
  cases he
  refine .descend ?_ fun hc => ⟨current_findLoop hc hc, ?_⟩
  · exact (height_findLoop (f := { f with lastRight := f.curr, lastRightOp := f.currOp })
      h.toTreeInv hrk).trans (Nat.lt_add_of_pos_right (by decide))
  · rw [caller_findLoop]
    exact id

theorem proceeds_findCurrOp (he : exec cfg t call fresh m (.findCurrOp f) = some (m', pc')) :
    Proceeds cfg rk m (.findCurrOp f) m' pc' := by
  simp only [exec] at he
  split at he
  · next hflag =>
    cases he
    refine .descend ?_ fun hc => ⟨current_help (a := ⟨f.pred, f.predOp, f.curr, _⟩) hc.1 hflag, ?_⟩
    · exact (height_help hflag).trans_lt (lt_height.trans (Nat.lt_add_of_pos_right (by decide)))
    · rw [caller_help hflag]
      exact id
  · cases he
    exact .descend (Nat.lt_succ_self _) fun hc => ⟨⟨hc.1, hc.2, rfl⟩, id⟩

include hcfg in
theorem proceeds_findKey (he : exec cfg t call fresh m (.findKey f) = some (m', pc')) :
    Proceeds cfg rk m (.findKey f) m' pc' := by
  simp only [exec, PC.hpField, hcfg, Bool.false_eq_true, if_false] at he
  split at he
  · cases he
    exact .descend (Nat.lt_succ_self _) fun hc => ⟨hc, id⟩
  · split at he
    · cases he
      exact .descend (Nat.lt_succ_self _) fun hc => ⟨hc, id⟩
    · cases he
      refine .descend (height_findEnd.trans (Nat.lt_succ_self _)) fun hc =>
        ⟨current_findEnd hc.2.1 hc.2.2, ?_⟩
      rw [caller_findEnd]
      exact id

include h hrk in
theorem proceeds_findChild (he : exec cfg t call fresh m (.findChild f d) = some (m', pc')) :
    Proceeds cfg rk m (.findChild f d) m' pc' := by
  cases d with
  | true =>
    cases he
    refine .descend (height_findLoop h.toTreeInv hrk) fun hc => ⟨current_findLoop hc.2.1 hc.2.2, ?_⟩
    rw [caller_findLoop]
    exact id
  | false =>
    cases he
    refine .descend (height_findLoop (f := { f with lastRight := f.curr, lastRightOp := f.currOp })
      h.toTreeInv hrk) fun hc => ⟨current_findLoop hc.2.2 hc.2.2, ?_⟩
    rw [caller_findLoop]
    exact id

include hcfg in
theorem proceeds_findCurr (hp : PcInv cfg m g t call (.findCurr f result))
    (he : exec cfg t call fresh m (.findCurr f result) = some (m', pc')) :
    Proceeds cfg rk m (.findCurr f result) m' pc' := by
  simp only [exec] at he
  split at he
  · next hop =>
    cases he
    exact .restart rfl fun hc => absurd hc.symm hop
  · cases he
    cases hc : f.caller with
    | root =>
      have hheight : f.exitHeight rk = 4 * rk f.curr + 30 := by simp [FindVars.exitHeight, hc]
      cases call with
      | find k =>
        simp only [findReturn, hc]
        exact .descend (show 0 < f.exitHeight rk by omega) fun _ => ⟨trivial, fun _ => trivial⟩
      | add k =>
        simp only [findReturn, hc, PC.hp, hcfg, Bool.false_eq_true, if_false]
        split
        · exact .descend (show 0 < f.exitHeight rk by omega) fun _ => ⟨trivial, fun _ => trivial⟩
        · exact .descend (show 7 < f.exitHeight rk by omega) fun hcur => ⟨hcur, fun _ => trivial⟩
      | remove k =>
        simp only [findReturn, hc]
        split
        · exact .descend (show 4 * rk f.curr + 29 < f.exitHeight rk by omega) fun hcur =>
            ⟨hcur, fun _ => trivial⟩
        · exact .descend (show 0 < f.exitHeight rk by omega) fun _ => ⟨trivial, fun _ => trivial⟩
    | replacement aux auxOp =>
      have hp' := hp.2
      simp only [Answer, hc] at hp'
      simp only [findReturn, hc, if_neg hp'.2.1]
      have hheight : f.exitHeight rk = 19 := by simp [FindVars.exitHeight, hc]
      refine .descend (show 18 < f.exitHeight rk by omega) fun hcur => ⟨hcur, fun ha => ?_⟩
      have hop : Anchored m f.caller := ha
      rwa [hc] at hop

/-! ### `add` and `remove` -/

variable (hs : Still m g m')

/-- A word that is written is not the one that was there. -/
theorem Still.absurd_setOp {P : Prop} {x : Addr} {w : Word} (hs : Still m g (m.setOp x w))
    (hne : m.op x ≠ w) : P := by
  have := congrFun hs.op x
  rw [Mem.setOp_op, if_pos rfl] at this
  exact absurd this.symm hne

theorem Still.absurd_setState {P : Prop} {r : Addr} {st : OpState} (hs : Still m g (m.setState r st))
    (hr : installed m g r) (hne : m.state r ≠ st) : P := by
  have := hs.state r hr
  rw [Mem.setState_state, if_pos rfl] at this
  exact absurd this.symm hne

include hcfg in
theorem proceeds_addNew (hs : Still m g m')
    (he : exec cfg t call fresh m (.addNew f d) = some (m', pc')) :
    Proceeds cfg rk m (.addNew f d) m' pc' := by
  simp only [exec, PC.hp, PC.hpField, hcfg, Bool.false_eq_true, if_false] at he
  split at he <;> cases he
  exact .descend (Nat.lt_succ_self _) fun hc => ⟨(congrFun hs.op _).trans hc, fun _ => trivial⟩

include hs in
theorem proceeds_addCas {n r : Addr} (hp : PcInv cfg m g t call (.addCas f n r))
    (he : exec cfg t call fresh m (.addCas f n r) = some (m', pc')) :
    Proceeds cfg rk m (.addCas f n r) m' pc' := by
  simp only [exec] at he
  split at he
  · next hop =>
    cases he
    have hflag := hp.2.2.1.flag
    refine hs.absurd_setOp fun heq => ?_
    rw [← hop, heq] at hflag
    cases hflag
  · next hop =>
    cases he
    exact .callStart fun hc => absurd hc hop

include hs in
theorem proceeds_removeMark (hp : PcInv cfg m g t call (.removeMark f))
    (he : exec cfg t call fresh m (.removeMark f) = some (m', pc')) :
    Proceeds cfg rk m (.removeMark f) m' pc' := by
  simp only [exec] at he
  split at he
  · next hop =>
    cases he
    have hflag := hp.2.2.1.flag
    refine hs.absurd_setOp fun heq => ?_
    simpa [setFlag, hflag] using congrArg Word.flag (hop.symm.trans heq)
  · next hop =>
    cases he
    exact .callStart fun hc => absurd hc hop

include hs in
theorem proceeds_removeInstall {r : Addr} (hp : PcInv cfg m g t call (.removeInstall f r))
    (he : exec cfg t call fresh m (.removeInstall f r) = some (m', pc')) :
    Proceeds cfg rk m (.removeInstall f r) m' pc' := by
  simp only [exec] at he
  split at he
  · next hop =>
    cases he
    have hflag := hp.2.2.2.1.seen.flag
    refine hs.absurd_setOp fun heq => ?_
    rw [← hop, heq] at hflag
    cases hflag
  · next hop =>
    cases he
    exact .callStart fun hc => absurd hc hop

include hcfg in
theorem proceeds_removeTestLeft
    (he : exec cfg t call fresh m (.removeTestLeft f) = some (m', pc')) :
    Proceeds cfg rk m (.removeTestLeft f) m' pc' := by
  simp only [exec] at he
  split at he
  · cases he
    exact .descend (show 10 < 4 * rk f.curr + 26 by omega) fun hc => ⟨hc, id⟩
  · cases he
    simp only [findStart, PC.hp, hcfg, Bool.false_eq_true, if_false]
    exact .descend (Nat.lt_succ_self _) fun hc => ⟨trivial, fun _ => hc⟩

include hcfg in
theorem proceeds_removeCheck {aux : Addr} {auxOp : Word}
    (he : exec cfg t call fresh m (.removeCheck f aux auxOp) = some (m', pc')) :
    Proceeds cfg rk m (.removeCheck f aux auxOp) m' pc' := by
  simp only [exec, PC.hp, hcfg, Bool.false_eq_true, if_false] at he
  split at he
  · next hne =>
    cases he
    exact .callStart fun _ ha => hne ha
  · cases he
    exact .descend (Nat.lt_succ_self _) fun hc => ⟨hc, fun _ => trivial⟩

/-! ### The helpers -/

theorem proceeds_helpReturn (hc : ¬ Current m pc) (hpos : 0 < pc.height rk) :
    Proceeds cfg rk m pc m' (helpReturn cfg ret) := by
  cases ret with
  | retry f => exact .restart rfl fun hc' => absurd hc' hc
  | add => exact .descend hpos fun hc' => absurd hc' hc
  | remove f => exact .descend hpos fun hc' => absurd hc' hc

include hcfg in
theorem proceeds_childSlot (he : exec cfg t call fresh m (.childSlot op dest ret) = some (m', pc')) :
    Proceeds cfg rk m (.childSlot op dest ret) m' pc' := by
  simp only [exec, hcfg, Bool.false_eq_true, if_false] at he
  split at he <;> cases he
  · refine .descend (Nat.lt_succ_self _) fun hc => ⟨?_, (.congr · (by simp))⟩
    have hop : m.op dest = .cas op := hc
    exact (show (m.setChild dest _ _).op dest = .cas op by simpa using hop)
  · exact .descend (Nat.lt_succ_self _) fun hc => ⟨hc, id⟩

include hs in
theorem proceeds_childOp (he : exec cfg t call fresh m (.childOp op dest ret) = some (m', pc')) :
    Proceeds cfg rk m (.childOp op dest ret) m' pc' := by
  simp only [exec] at he
  split at he
  · next hop =>
    cases he
    exact hs.absurd_setOp (by simp [hop])
  · next hop =>
    cases he
    exact proceeds_helpReturn hop Nat.one_pos

include hcfg in
theorem proceeds_marked (he : exec cfg t call fresh m pc = some (m', pc'))
    (hpc : pc = .markedLeft a ∨ pc = .markedRight a ∨ pc = .markedRef a d) :
    Proceeds cfg rk m pc m' pc' := by
  rcases hpc with rfl | rfl | rfl
  · simp only [exec, PC.hpField, hcfg, Bool.false_eq_true, if_false] at he
    split at he <;> cases he
    · exact .descend (show 8 < 9 by decide) fun hc => ⟨hc, id⟩
    · exact .descend (show 7 < 9 by decide) fun hc => ⟨hc, id⟩
  · simp only [exec, PC.hpField, hcfg, Bool.false_eq_true, if_false] at he
    split at he <;> cases he
    · exact .descend (show 6 < 8 by decide) fun hc => ⟨hc, id⟩
    · exact .descend (show 7 < 8 by decide) fun hc => ⟨hc, id⟩
  · cases he
    exact .descend (show 6 < 7 by decide) fun hc => ⟨hc, id⟩

include hs in
theorem proceeds_markedCas {r : Addr} (hp : PcInv cfg m g t call (.markedCas a r))
    (he : exec cfg t call fresh m (.markedCas a r) = some (m', pc')) :
    Proceeds cfg rk m (.markedCas a r) m' pc' := by
  simp only [exec] at he
  split at he
  · next hop =>
    cases he
    have hflag := hp.1.link.seen.flag
    refine hs.absurd_setOp fun heq => ?_
    rw [← hop, heq] at hflag
    cases hflag
  · next hop =>
    cases he
    exact proceeds_helpReturn hop (show 0 < 5 by decide)

/-! ### `helpRelocate` -/

theorem proceeds_relocReturn (hc : ¬ Current m pc) (hpos : 1 < pc.height rk) :
    Proceeds cfg rk m pc m' (relocReturn cfg op b ret) := by
  cases ret with
  | retry f => exact .restart rfl fun hc' => absurd hc' hc
  | add => exact .descend (Nat.zero_lt_of_lt hpos) fun hc' => absurd hc' hc
  | remove f =>
    cases b with
    | true => exact .descend (Nat.zero_lt_of_lt hpos) fun hc' => absurd hc' hc
    | false => exact .descend hpos fun hc' => absurd hc' hc

/-- A thread whose locals are up to date has something to do at `curr`, too. -/
theorem proceeds_relocTail (hpos : 10 < pc.height rk) (hcaller : pc.caller = a.ret.caller)
    (hc : Current m pc → (m.reloc op).dest ≠ a.curr ∧ m.op a.curr = .rel op) :
    Proceeds cfg rk m pc m (relocTail cfg m op a b) := by
  unfold relocTail
  split
  · next hd =>
    exact proceeds_relocReturn (fun hcur => (hc hcur).1 hd) (by omega)
  · refine .descend hpos fun hcur => ⟨(hc hcur).2, ?_⟩
    rw [hcaller]
    exact id

include hs in
theorem proceeds_relocDest (h : MemInv cfg m g) (hp : PcInv cfg m g t call (.relocDest op a))
    (he : exec cfg t call fresh m (.relocDest op a) = some (m', pc')) :
    Proceeds cfg rk m (.relocDest op a) m' pc' := by
  simp only [exec] at he
  by_cases hop : m.op (m.reloc op).dest = (m.reloc op).destOp
  · simp only [hop, if_true, true_or] at he
    cases he
    have hflag := (h.record hp.1.installed).destOp_flag
    refine hs.absurd_setOp fun heq => ?_
    rw [← hop, heq] at hflag
    cases hflag
  · simp only [hop, if_false, false_or] at he
    split at he <;> cases he <;> exact .descend (Nat.lt_succ_self _) fun hc => ⟨hc, id⟩

include hcfg in
theorem proceeds_relocState (h : MemInv cfg m g) (hp : PcInv cfg m g t call (.relocState op a))
    (he : exec cfg t call fresh m (.relocState op a) = some (m', pc')) :
    Proceeds cfg rk m (.relocState op a) m' pc' := by
  simp only [exec, PC.hp, hcfg, Bool.false_eq_true, if_false] at he
  cases he
  cases hst : (m.reloc op).state with
  | ongoing => exact .descend (show 14 < 15 by decide) fun _ => ⟨hst, id⟩
  | successful => exact .descend (show 12 < 15 by decide) fun hc => ⟨⟨hc, hst⟩, id⟩
  | failed =>
    refine proceeds_relocTail (show 10 < 15 by decide) rfl fun hc => ⟨fun hd => ?_, hc⟩
    -- A relocation that has failed was never installed on `dest`.
    exact ((h.record hp.1.installed).commit_past (.inl (hd ▸ hc))).2 hst

include hs in
theorem proceeds_relocSucceed (hp : PcInv cfg m g t call (.relocSucceed op a))
    (he : exec cfg t call fresh m (.relocSucceed op a) = some (m', pc')) :
    Proceeds cfg rk m (.relocSucceed op a) m' pc' := by
  simp only [exec] at he
  split at he
  · next hst =>
    cases he
    exact hs.absurd_setState hp.1.installed (by simp [hst])
  · next hst =>
    cases he
    exact .descend (Nat.lt_succ_self _) fun hc => absurd hc hst

include hs in
theorem proceeds_relocFail (hp : PcInv cfg m g t call (.relocFail op a))
    (he : exec cfg t call fresh m (.relocFail op a) = some (m', pc')) :
    Proceeds cfg rk m (.relocFail op a) m' pc' := by
  simp only [exec] at he
  by_cases hst : m.state op = .ongoing
  · simp only [hst, if_true] at he
    cases he
    exact hs.absurd_setState hp.1.installed (by simp [hst])
  · simp only [hst, if_false] at he
    cases he
    split
    · exact .descend (Nat.lt_succ_self _) fun hc => absurd hc hst
    · have hno : ¬ Current m (.relocFail op a) := hst
      exact proceeds_relocTail (show 10 < 13 by decide) rfl fun hc => absurd hc hno

theorem proceeds_relocKey (he : exec cfg t call fresh m (.relocKey op a) = some (m', pc')) :
    Proceeds cfg rk m (.relocKey op a) m' pc' := by
  simp only [exec] at he
  split at he <;> cases he
  · refine .descend (Nat.lt_succ_self _) fun hc => ⟨?_, (.congr · (by simp))⟩
    exact Current.congr hc (by simp) rfl
  · exact .descend (Nat.lt_succ_self _) fun hc => ⟨hc, id⟩

include hs in
theorem proceeds_relocClear (he : exec cfg t call fresh m (.relocClear op a) = some (m', pc')) :
    Proceeds cfg rk m (.relocClear op a) m' pc' := by
  simp only [exec] at he
  split at he
  · next hop =>
    cases he
    exact hs.absurd_setOp (by simp [hop])
  · next hop =>
    cases he
    exact proceeds_relocTail (show 10 < 11 by decide) rfl fun hc => ⟨fun hd => hop (hd ▸ hc.1), hc.1⟩

include hs in
theorem proceeds_relocCurr (he : exec cfg t call fresh m (.relocCurr op a b) = some (m', pc')) :
    Proceeds cfg rk m (.relocCurr op a b) m' pc' := by
  simp only [exec] at he
  by_cases hop : m.op a.curr = setFlag (.ptr op) .relocate
  · simp only [hop, if_true] at he
    cases b <;> cases he <;> exact hs.absurd_setOp (by simp [hop])
  · simp only [hop, if_false] at he
    cases b with
    | true =>
      cases he
      exact .descend (Nat.lt_succ_self _) fun hc => absurd hc hop
    | false =>
      cases he
      exact proceeds_relocReturn hop (show 1 < 10 by decide)

/-! ### All steps -/

include hcfg h hrk hs

theorem exec_proceeds (hp : PcInv cfg m g t call pc)
    (he : exec cfg t call fresh m pc = some (m', pc')) : Proceeds cfg rk m pc m' pc' := by
  cases pc with
  | hpChild n d next =>
    cases he
    exact .descend (Nat.lt_succ_self _) fun hc => ⟨hc, id⟩
  | hpPut w next =>
    cases he
    exact .descend (Nat.lt_succ_self _) fun hc => ⟨hc.congr rfl rfl, (.congr · rfl)⟩
  | findOp f => exact proceeds_findOp hcfg h hp he
  | findNext f => exact proceeds_findNext h hrk he
  | findCurrOp f => exact proceeds_findCurrOp he
  | findKey f => exact proceeds_findKey hcfg he
  | findChild f d => exact proceeds_findChild h hrk he
  | findLastRight f result =>
    simp only [exec] at he
    split at he <;> cases he
    · next hop => exact .restart rfl fun hc => absurd hc.1.symm hop
    · exact .descend (Nat.lt_succ_self _) fun hc => ⟨hc.2, id⟩
  | findCurr f result => exact proceeds_findCurr hcfg hp he
  | addNew f d => exact proceeds_addNew hcfg hs he
  | addOld f d n =>
    simp only [exec] at he
    split at he <;> cases he
    exact .descend (Nat.lt_succ_self _) fun hc => ⟨hc, id⟩
  | addCas f n r => exact proceeds_addCas hs hp he
  | removeRight f =>
    simp only [exec, PC.hpField, hcfg, Bool.false_eq_true, if_false, ite_self] at he
    cases he
    exact .descend (Nat.lt_succ_self _) fun hc => ⟨hc, id⟩
  | removeLeft f =>
    simp only [exec, PC.hpField, hcfg, Bool.false_eq_true, if_false, ite_self] at he
    cases he
    exact .descend (Nat.lt_succ_self _) fun hc => ⟨hc, id⟩
  | removeTestRight f =>
    simp only [exec] at he
    split at he <;> cases he
    · exact .descend (show 10 < 4 * rk f.curr + 27 by omega) fun hc => ⟨hc, id⟩
    · exact .descend (Nat.lt_succ_self _) fun hc => ⟨hc, id⟩
  | removeTestLeft f => exact proceeds_removeTestLeft hcfg he
  | removeMark f => exact proceeds_removeMark hs hp he
  | removeCheck f aux auxOp => exact proceeds_removeCheck hcfg he
  | removeNew f aux auxOp =>
    simp only [exec] at he
    split at he <;> cases he
    exact .descend (Nat.lt_succ_self _) fun hc => ⟨hc, id⟩
  | removeInstall f r => exact proceeds_removeInstall hs hp he
  | removeDelete f r =>
    cases he
    exact .callStart fun hc => absurd hc id
  | childSlot op dest ret => exact proceeds_childSlot hcfg he
  | childScan a rest i op dest ret => exact hp.elim
  | childOp op dest ret => exact proceeds_childOp hs he
  | markedLeft a => exact proceeds_marked (d := true) hcfg he (.inl rfl)
  | markedRight a => exact proceeds_marked (d := true) hcfg he (.inr (.inl rfl))
  | markedRef a d => exact proceeds_marked hcfg he (.inr (.inr rfl))
  | markedNew a w =>
    simp only [exec] at he
    split at he <;> cases he
    exact .descend (Nat.lt_succ_self _) fun hc => ⟨hc, id⟩
  | markedCas a r => exact proceeds_markedCas hs hp he
  | relocState op a => exact proceeds_relocState hcfg h hp he
  | relocDest op a => exact proceeds_relocDest hs h hp he
  | relocSucceed op a => exact proceeds_relocSucceed hs hp he
  | relocFail op a => exact proceeds_relocFail hs hp he
  | relocKey op a => exact proceeds_relocKey he
  | relocClear op a => exact proceeds_relocClear hs he
  | relocCurr op a b => exact proceeds_relocCurr hs he
  | ret r => simp at he

end Steps

-- ---------------------------------------------------------------------------
-- Levels
-- ---------------------------------------------------------------------------

open Classical in
/-- How many times the thread may still restart. -/
noncomputable def level (m : Mem) (pc : PC) : Nat :=
  if Current m pc then if Anchored m pc.caller then 0 else 1 else 2

theorem level_le : level m pc ≤ 2 := by
  unfold level
  split
  · split <;> simp
  · simp

theorem level_le_one (hc : Current m pc) : level m pc ≤ 1 := by
  unfold level
  rw [if_pos hc]
  split <;> simp

theorem level_eq_zero (hc : Current m pc) (ha : Anchored m pc.caller) : level m pc = 0 := by
  rw [level, if_pos hc, if_pos ha]

theorem level_eq_one (hc : Current m pc) (ha : ¬ Anchored m pc.caller) : level m pc = 1 := by
  rw [level, if_pos hc, if_neg ha]

theorem level_eq_two (hc : ¬ Current m pc) : level m pc = 2 := if_neg hc

/-- What is up to date stays so. -/
theorem level_mono (h : Current m pc → Current m' pc' ∧
    (Anchored m pc.caller → Anchored m' pc'.caller)) : level m' pc' ≤ level m pc := by
  by_cases hc : Current m pc
  · obtain ⟨hc', ha'⟩ := h hc
    by_cases ha : Anchored m pc.caller
    · exact (level_eq_zero hc' (ha' ha)).trans_le (Nat.zero_le _)
    · exact (level_le_one hc').trans (level_eq_one hc ha).ge
  · exact level_le.trans (level_eq_two hc).ge

/-- A restart costs a level, and between restarts the thread gets closer to its next one. -/
theorem Proceeds.level (hcfg : cfg.hazardPointers = false) (hp : Proceeds cfg rk m pc m' pc') :
    level m' pc' < level m pc ∨ level m' pc' ≤ level m pc ∧ pc'.height rk < pc.height rk := by
  cases hp with
  | @restart f heq hno =>
    left
    subst heq
    have hc' : Current m' (findStart cfg f) := by
      simp only [findStart, PC.hp, hcfg, Bool.false_eq_true, if_false]
      trivial
    by_cases hc : Current m pc
    · obtain ⟨hroot, ha⟩ := hno hc
      have ha' : Anchored m' (findStart cfg f).caller := by
        simp only [findStart, PC.hp, hcfg, Bool.false_eq_true, if_false]
        exact (show Anchored m' f.caller by rw [hroot]; trivial)
      rw [level_eq_zero hc' ha', level_eq_one hc ha]
      exact Nat.one_pos
    · rw [level_eq_two hc]
      exact Nat.lt_succ_of_le (level_le_one hc')
  | descend hlt hkeep => exact .inr ⟨level_mono hkeep, hlt⟩

/-- Steps of other threads leave a thread at its level. -/
theorem Still.level (hs : Still m g m') (hp : PcInv cfg m g t call pc) :
    LockFree.level m' pc ≤ LockFree.level m pc := by
  refine level_mono fun hc => ⟨?_, (.congr · hs.op)⟩
  induction pc with
  | hpChild n d next ih => exact ih hp hc
  | hpPut w next ih => exact ih hp hc
  | relocDest op a | relocSucceed op a | relocFail op a =>
    exact (hs.state op hp.1.installed).trans hc
  | relocKey op a | relocClear op a =>
    exact ⟨(congrFun hs.op _).trans hc.1, (hs.state op hp.1.installed).trans hc.2⟩
  | findOp | ret | removeDelete | childScan => exact hc
  | _ => simpa only [Current, hs.op] using hc

end LockFree
