-- SUMMARY: One thread with hazard pointers: which nodes of a search are still in its slots.
import ConcurrentBST.Library.RingBuffer
import ConcurrentBST.LockFree.Program
import Mathlib.Logic.Relation

/-!
# The hazard slots of a search

The slots of a thread are a ring in which `find` puts every node it comes to.
It keeps `last_right`, and `remove` keeps `curr`, for as long as the search goes
on, so how long the path is decides whether they are still in the ring.
-/

namespace LockFree

variable {cfg : Config} {m m' : Mem} {t : Tid} {call : Call} {fresh x : Addr} {pc pc' : PC}
  {f : FindVars} {result : FindResult} {w : Word} {d : Bool} {key : Int}

-- ---------------------------------------------------------------------------
-- What has to be in a slot
-- ---------------------------------------------------------------------------

/-- What `find` dereferences of `last_right`, `pred` and `curr`, and `curr` where
    `remove` dereferences it at line 283. `pred` is dereferenced by `help`. -/
def PC.traverses : PC → List Addr
  | .hpChild n _ (.findNext _) | .hpChild n _ (.findChild _ _) => [n]
  | .findOp f | .findNext f | .findKey f | .findChild f _ | .findCurr f _ => [f.curr]
  | .findCurrOp f => [f.pred, f.curr]
  | .findLastRight f _ => [f.lastRight]
  | .removeCheck _ curr _ => [curr]
  | _ => []

/-- Thread `t` has the address of `x` in one of its slots. -/
def Mem.protects (m : Mem) (t : Tid) (x : Addr) : Prop :=
  ∃ j < numHpPerThread, unflag (m.hp (t * numHpPerThread + j)) = .ptr x

instance : Decidable (m.protects t x) :=
  inferInstanceAs (Decidable (∃ j < numHpPerThread, _))

/-- Whatever thread `t` dereferences in a search is in one of its slots. -/
def State.Covered (s : State) (t : Tid) : Prop :=
  ∀ call pc, s.thread t = .running call pc →
    ∀ x ∈ pc.traverses, x ≠ baseRoot → s.mem.protects t x

-- ---------------------------------------------------------------------------
-- The path of a search
-- ---------------------------------------------------------------------------

/-- Where a search is: it has come `depth` nodes down, and `left` nodes since it
    left `lastRight`. -/
structure Position where
  lastRight : Addr
  curr : Addr
  left : Nat
  depth : Nat
deriving DecidableEq, Repr

/-- The side to which a search leaves `curr`, if it does not stop there. The node
    it starts from is left to the right. -/
def Mem.side (m : Mem) (key : Int) (p : Position) : Option Bool :=
  if getFlag (m.op p.curr) ≠ .none then none
  else if p.depth = 0 then some false
  else if key < m.key p.curr then some true
  else if key > m.key p.curr then some false
  else none

/-- The next position of a search. -/
def Mem.advance (m : Mem) (key : Int) (p : Position) : Option Position :=
  match m.side key p with
  | none => none
  | some isLeft =>
    let next := m.child p.curr isLeft
    if !isNull next && next != .ptr 0 then
      some (if isLeft then ⟨p.lastRight, next.addr, p.left + 1, p.depth + 1⟩
        else ⟨p.curr, next.addr, 1, p.depth + 1⟩)
    else none

/-- The last turn to the right, and for `remove` the node it started from, are not
    too far back when the search ends. A search that does not find its key has
    put one more child field, the empty one, in the ring. -/
structure Mem.EndsNear (m : Mem) (key : Int) (caller : FindCaller) (p : Position) : Prop where
  lastRight : m.side key p = some true → p.lastRight ≠ baseRoot → p.left + 1 < numHpPerThread
  auxRoot : caller ≠ .root → caller.auxRoot ≠ baseRoot → getFlag (m.op p.curr) = .none →
    p.depth + (m.side key p).toList.length < numHpPerThread

/-- The search of `find` for `key` ends near enough to what it keeps. -/
def Mem.ShortSearch (m : Mem) (key : Int) (caller : FindCaller) : Prop :=
  ∀ p, Relation.ReflTransGen (fun p q => m.advance key p = some q)
      ⟨caller.auxRoot, caller.auxRoot, 0, 0⟩ p →
    m.advance key p = none → m.EndsNear key caller p

/-- If the step is at line 141, the search that begins there is short. -/
def State.SearchesShort (s : State) (t : Tid) : Prop :=
  ∀ call f, s.thread t = .running call (.findOp f) → s.mem.ShortSearch call.key f.caller

-- ---------------------------------------------------------------------------
-- The ring of a thread
-- ---------------------------------------------------------------------------

/-- The hazard slots of a thread. -/
abbrev Slots (t : Tid) := RingBuffer Word (t * numHpPerThread) numHpPerThread

variable {r : Slots t} {a : Nat} {p : Position}

/-- The slots and the offset in memory are those of `r`. -/
structure Slots.Models (r : Slots t) (m : Mem) : Prop where
  cell : m.hp = r.cell
  off : m.hpOff t = r.off

/-- `x` was put in the ring `a` writes before the last one, if that is not too long ago. -/
def Slots.Recent (r : Slots t) (a : Nat) (x : Addr) : Prop :=
  a < numHpPerThread → (r.last a).addr = x

/-- `x` is one of the last writes, unless it is `base_root`. -/
def Slots.Kept (r : Slots t) (x : Addr) : Prop :=
  x ≠ baseRoot → ∃ a < numHpPerThread, (r.last a).addr = x

namespace Slots

theorem Models.addToHpList (h : r.Models m) : Models (r.put w) (m.addToHpList t w) where
  cell := by simp [Mem.addToHpList, RingBuffer.put, h.cell, h.off]
  off := by simp [Mem.addToHpList, RingBuffer.put, h.off]

theorem Models.congr (h : r.Models m) (hhp : m'.hp = m.hp) (hoff : m'.hpOff = m.hpOff) :
    r.Models m' :=
  ⟨hhp.trans h.cell, (congrFun hoff t).trans h.off⟩

theorem recent_put : Recent (r.put w) 0 w.addr := fun _ => by
  rw [RingBuffer.last_put_zero]

theorem Recent.put (h : r.Recent a x) : Recent (r.put w) (a + 1) x := fun ha => by
  rw [RingBuffer.last_put_succ ha]
  exact h (by omega)

theorem Recent.kept (h : r.Recent a x) (ha : x ≠ baseRoot → a < numHpPerThread) : r.Kept x :=
  fun hx => ⟨a, ha hx, h (ha hx)⟩

theorem Kept.protects (h : r.Kept x) (hm : r.Models m) (hx : x ≠ baseRoot) : m.protects t x := by
  obtain ⟨a, ha, rfl⟩ := h hx
  obtain ⟨j, hj, hcell⟩ := r.exists_cell ha
  refine ⟨j, hj, ?_⟩
  rw [hm.cell, hcell]
  rfl

end Slots

-- ---------------------------------------------------------------------------
-- What a search knows about its slots
-- ---------------------------------------------------------------------------

/-- `find` is at `p`, and has put `s` words in the ring since it put `curr` there. -/
structure Descends (m : Mem) (r : Slots t) (key : Int) (f : FindVars) (p : Position) (s : Nat) :
    Prop where
  short : m.ShortSearch key f.caller
  search : Relation.ReflTransGen (fun p q => m.advance key p = some q)
    ⟨f.caller.auxRoot, f.caller.auxRoot, 0, 0⟩ p
  curr : f.curr = p.curr
  last : r.Recent s f.curr
  lastRight : r.Recent (p.left + s) p.lastRight
  auxRoot : r.Recent (p.depth + s) f.caller.auxRoot

/-- `find` is inside its loop. -/
structure Loops (m : Mem) (r : Slots t) (key : Int) (f : FindVars) (p : Position) (s : Nat) :
    Prop extends Descends m r key f p s where
  below : p.depth ≠ 0
  atRight : f.lastRight = p.lastRight
  pred : r.Recent (s + 1) f.pred

/-- The caller still has the node it needs when `find` returns. -/
def Slots.Serves (r : Slots t) (caller : FindCaller) : Prop :=
  caller ≠ .root → r.Kept caller.auxRoot

/-- What `w` is, if `next` begins a search. -/
def PC.Starts (w : Word) : PC → Prop
  | .findOp f => w = .ptr f.curr ∧ f.curr = f.caller.auxRoot
  | _ => False

/-- The program point is not in a search. -/
def PC.Outside : PC → Prop
  | .hpChild _ _ next => next.Outside
  | .hpPut w next => next.Outside ∨ next.Starts w
  | .findOp _ | .findNext _ | .findCurrOp _ | .findKey _ | .findChild _ _ | .findLastRight _ _
  | .findCurr _ _ | .removeCheck _ _ _ => False
  | _ => True

/-- What is in the ring at a program point. -/
inductive Tracks (m : Mem) (r : Slots t) (key : Int) : PC → Prop where
  | outside {pc : PC} : pc.Outside → Tracks m r key pc
  | findOp {f : FindVars} : f.curr = f.caller.auxRoot → r.Recent 0 f.curr → Tracks m r key (.findOp f)
  | hpNext {f : FindVars} {p : Position} : Descends m r key f p 0 → m.side key p = some false →
      p.depth = 0 → Tracks m r key (.hpChild f.curr false (.findNext f))
  | putNext {f : FindVars} {p : Position} : Descends m r key f p 0 → m.side key p = some false →
      p.depth = 0 → Tracks m r key (.hpPut (m.child f.curr false) (.findNext f))
  | findNext {f : FindVars} {p : Position} : Descends m r key f p 1 → m.side key p = some false →
      p.depth = 0 → r.Recent 0 (m.child f.curr false).addr → Tracks m r key (.findNext f)
  | findCurrOp {f : FindVars} {p : Position} : Loops m r key f p 0 → Tracks m r key (.findCurrOp f)
  | findKey {f : FindVars} {p : Position} : Loops m r key f p 0 → getFlag (m.op f.curr) = .none →
      Tracks m r key (.findKey f)
  | hpTurn {f : FindVars} {p : Position} {d : Bool} : Loops m r key f p 0 →
      m.side key p = some d → Tracks m r key (.hpChild f.curr d (.findChild f d))
  | putTurn {f : FindVars} {p : Position} {d : Bool} : Loops m r key f p 0 →
      m.side key p = some d → Tracks m r key (.hpPut (m.child f.curr d) (.findChild f d))
  | findChild {f : FindVars} {p : Position} {d : Bool} : Loops m r key f p 1 →
      m.side key p = some d → r.Recent 0 (m.child f.curr d).addr → Tracks m r key (.findChild f d)
  | findLastRight {f : FindVars} {result : FindResult} : r.Kept f.lastRight → r.Kept f.curr →
      r.Serves f.caller → Tracks m r key (.findLastRight f result)
  | findCurr {f : FindVars} {result : FindResult} : r.Kept f.curr → r.Serves f.caller →
      Tracks m r key (.findCurr f result)
  | removeCheck {f : FindVars} {curr : Addr} {currOp : Word} : r.Kept curr →
      Tracks m r key (.removeCheck f curr currOp)

-- ---------------------------------------------------------------------------
-- Steps outside a search
-- ---------------------------------------------------------------------------

section Outside

variable {y : Addr} {b : Bool} {next : PC} {ret : HelpRet} {args : HelpArgs}

@[simp] theorem outside_hp (hcfg : cfg.hazardPointers = true) :
    (PC.hp cfg w next).Outside ↔ next.Outside ∨ next.Starts w := by
  rw [PC.hp, if_pos hcfg]
  rfl

@[simp] theorem outside_hpField (hcfg : cfg.hazardPointers = true) :
    (PC.hpField cfg x d next).Outside ↔ next.Outside := by
  rw [PC.hpField, if_pos hcfg]
  rfl

@[simp] theorem outside_findStart (hcfg : cfg.hazardPointers = true) : (findStart cfg f).Outside := by
  rw [findStart, PC.hp, if_pos hcfg]
  exact .inr ⟨rfl, rfl⟩

@[simp] theorem outside_callStart (hcfg : cfg.hazardPointers = true) : (callStart cfg f).Outside :=
  outside_findStart hcfg

@[simp] theorem outside_scanNext {as : List Addr} : (scanNext x y ret as).Outside := by
  cases as <;> trivial

@[simp] theorem outside_helpReturn (hcfg : cfg.hazardPointers = true) : (helpReturn cfg ret).Outside := by
  cases ret with
  | retry => exact outside_findStart hcfg
  | add | remove => trivial

@[simp] theorem outside_relocReturn (hcfg : cfg.hazardPointers = true) :
    (relocReturn cfg x b ret).Outside := by
  cases ret with
  | retry => exact outside_findStart hcfg
  | add => trivial
  | remove => cases b <;> trivial

@[simp] theorem outside_relocTail (hcfg : cfg.hazardPointers = true) :
    (relocTail cfg m x args b).Outside := by
  unfold relocTail
  split
  · exact outside_relocReturn hcfg
  · trivial

@[simp] theorem outside_help (hcfg : cfg.hazardPointers = true) : (help cfg m args w).Outside := by
  unfold help
  split
  · trivial
  · trivial
  · trivial
  · exact outside_helpReturn hcfg

/-- Only `add_to_hp_list` changes the slots. -/
theorem exec_hp (he : exec cfg t call fresh m pc = some (m', pc'))
    (hpc : ∀ w next, pc ≠ .hpPut w next) : m'.hp = m.hp ∧ m'.hpOff = m.hpOff := by
  cases pc with
  | hpPut w next => exact absurd rfl (hpc w next)
  | childSlot op dest ret =>
    have hretire : ∀ {m₁ : Mem} {w}, (m₁.retire t w).hp = m₁.hp ∧ (m₁.retire t w).hpOff = m₁.hpOff := by
      intro m₁ w
      obtain ⟨as, heq⟩ := m₁.exists_retire w t
      rw [heq]
      exact ⟨rfl, rfl⟩
    simp only [exec] at he
    (repeat' split at he) <;> cases he
    · exact hretire
    · exact hretire
    · exact ⟨rfl, rfl⟩
    · exact ⟨rfl, rfl⟩
  | ret => simp at he
  | _ =>
    simp only [exec] at he
    (repeat' split at he) <;> cases he <;> exact ⟨rfl, rfl⟩

/-- A step outside a search ends outside or begins one. -/
theorem exec_outside (hcfg : cfg.hazardPointers = true) (h : pc.Outside)
    (he : exec cfg t call fresh m pc = some (m', pc')) :
    pc'.Outside ∨ ∃ w, pc = .hpPut w pc' ∧ pc'.Starts w := by
  cases pc with
  | hpPut w next =>
    cases he
    exact h.imp_right fun hs => ⟨w, rfl, hs⟩
  | hpChild y d next =>
    cases he
    exact .inl (.inl h)
  | findOp | findNext | findCurrOp | findKey | findChild | findLastRight | findCurr | removeCheck =>
    exact h.elim
  | ret => simp at he
  | addNew f isLeft =>
    simp only [exec] at he
    split at he <;> cases he
    simp [PC.Outside, hcfg]
  | relocState op args =>
    simp only [exec, Option.some.injEq, Prod.mk.injEq] at he
    obtain ⟨_, rfl⟩ := he
    refine .inl ((outside_hp hcfg).mpr (.inl ?_))
    split
    · trivial
    · trivial
    · exact outside_relocTail hcfg
  | relocFail op args =>
    simp only [exec, Option.some.injEq, Prod.mk.injEq] at he
    obtain ⟨_, rfl⟩ := he
    left
    split
    · trivial
    · exact outside_relocTail hcfg
  | _ =>
    left
    simp only [exec] at he
    (repeat' split at he) <;> cases he <;> simp [PC.Outside, childStart, hcfg]

end Outside

-- ---------------------------------------------------------------------------
-- Steps of a search
-- ---------------------------------------------------------------------------

theorem Mem.ShortSearch.addToHpList {caller : FindCaller} (h : m.ShortSearch key caller) :
    (m.addToHpList t w).ShortSearch key caller := fun p hp hend =>
  ⟨(h p hp hend).lastRight, (h p hp hend).auxRoot⟩

theorem Descends.put {s : Nat} (h : Descends m r key f p s) :
    Descends (m.addToHpList t w) (r.put w) key f p (s + 1) where
  short := h.short.addToHpList
  search := h.search
  curr := h.curr
  last := h.last.put
  lastRight := h.lastRight.put
  auxRoot := h.auxRoot.put

theorem Loops.put {s : Nat} (h : Loops m r key f p s) :
    Loops (m.addToHpList t w) (r.put w) key f p (s + 1) where
  toDescends := h.toDescends.put
  below := h.below
  atRight := h.atRight
  pred := h.pred.put

theorem flag_of_side (h : m.side key p = some d) : getFlag (m.op p.curr) = .none := by
  unfold Mem.side at h
  split at h
  · cases h
  · next hflag => exact not_not.mp hflag

theorem side_of_lt (hflag : getFlag (m.op p.curr) = .none) (hp : p.depth ≠ 0)
    (h : key < m.key p.curr) : m.side key p = some true := by
  rw [Mem.side, if_neg (not_not.mpr hflag), if_neg hp, if_pos h]

theorem side_of_gt (hflag : getFlag (m.op p.curr) = .none) (hp : p.depth ≠ 0)
    (h : m.key p.curr < key) : m.side key p = some false := by
  rw [Mem.side, if_neg (not_not.mpr hflag), if_neg hp, if_neg (by omega), if_pos h]

theorem side_of_eq (hp : p.depth ≠ 0) (h : m.key p.curr = key) : m.side key p = none := by
  simp [Mem.side, hp, h]

theorem advance_of_side (hside : m.side key p = some d) : m.advance key p =
    if !isNull (m.child p.curr d) && m.child p.curr d != .ptr 0 then
      some (if d then ⟨p.lastRight, (m.child p.curr d).addr, p.left + 1, p.depth + 1⟩
        else ⟨p.curr, (m.child p.curr d).addr, 1, p.depth + 1⟩)
    else none := by
  unfold Mem.advance
  rw [hside]

/-- The end of the loop, or its next round. `d` is the side to which `curr` is left. -/
theorem Descends.findLoop {f' : FindVars} (h : Descends m r key f p 1) (hside : m.side key p = some d)
    (hnext : r.Recent 0 (m.child f.curr d).addr) (hcaller : f'.caller = f.caller)
    (hcurr : f'.curr = f.curr) (hright : f'.lastRight = if d then p.lastRight else p.curr)
    (hres : result ≠ .found) : Tracks m r key (findLoop f' (m.child f.curr d) result) := by
  have hlast : r.Recent 1 p.curr := h.curr ▸ h.last
  have hadv := advance_of_side hside
  rw [h.curr] at hnext hcurr ⊢
  unfold LockFree.findLoop
  split
  · next hlive =>
    rw [if_pos hlive] at hadv
    have hsearch := h.search.tail hadv
    refine .findCurrOp (p := if d then ⟨p.lastRight, (m.child p.curr d).addr, p.left + 1, p.depth + 1⟩
      else ⟨p.curr, (m.child p.curr d).addr, 1, p.depth + 1⟩) ⟨⟨?_, ?_, ?_, ?_, ?_, ?_⟩, ?_, ?_, ?_⟩
    · exact hcaller ▸ h.short
    · exact hcaller ▸ hsearch
    · cases d <;> rfl
    · exact hnext
    · cases d with
      | true => exact h.lastRight
      | false => exact hlast
    · rw [hcaller]
      cases d <;> exact h.auxRoot
    · cases d <;> exact Nat.succ_ne_zero _
    · cases d <;> exact hright
    · exact hcurr ▸ hlast
  · next hdead =>
    rw [if_neg hdead] at hadv
    have hnear := h.short p h.search hadv
    unfold findEnd
    rw [if_neg hres]
    refine .findLastRight ?_ ?_ ?_
    · rw [hright]
      cases d with
      | true => exact h.lastRight.kept (hnear.lastRight hside)
      | false => exact hlast.kept fun _ => by decide
    · rw [hcurr]
      exact hlast.kept fun _ => by decide
    · intro hroot
      rw [hcaller] at hroot ⊢
      refine h.auxRoot.kept fun hbase => ?_
      simpa [hside] using hnear.auxRoot hroot hbase (flag_of_side hside)

theorem tracks_findReturn (hcfg : cfg.hazardPointers = true)
    (h : result ≠ .abort → r.Serves f.caller) :
    Tracks m r call.key (findReturn cfg call f result) := by
  unfold findReturn
  split
  · exact .outside trivial
  · refine .outside ((outside_hp hcfg).mpr (.inl ?_))
    split <;> trivial
  · refine .outside ?_
    split <;> trivial
  · next curr currOp hcaller =>
    split
    · exact .outside (outside_callStart hcfg)
    · next hres =>
      refine .removeCheck ?_
      have hserves := h hres
      rw [hcaller] at hserves
      exact hserves (by simp)

/-- What `find` reads of `base_root` or of the node that `remove` replaces. -/
theorem tracks_findOp (hcfg : cfg.hazardPointers = true) (hcurr : f.curr = f.caller.auxRoot)
    (hlast : r.Recent 0 f.curr) (hok : m.ShortSearch call.key f.caller)
    (he : exec cfg t call fresh m (.findOp f) = some (m', pc')) :
    m' = m ∧ Tracks m r call.key pc' := by
  simp only [exec] at he
  split at he
  · split at he <;> cases he
    · exact ⟨rfl, .outside trivial⟩
    · exact ⟨rfl, tracks_findReturn hcfg (absurd rfl)⟩
  · next hflag =>
    cases he
    rw [PC.hpField, if_pos hcfg]
    refine ⟨rfl, .hpNext (f := { f with currOp := m.op f.curr })
      (p := ⟨f.caller.auxRoot, f.caller.auxRoot, 0, 0⟩) ⟨hok, .refl, hcurr, hlast, ?_, ?_⟩ ?_ rfl⟩
    · exact hcurr ▸ hlast
    · exact hcurr ▸ hlast
    · rw [hcurr] at hflag
      rw [Mem.side, if_neg hflag, if_pos rfl]

theorem tracks_findKey (hcfg : cfg.hazardPointers = true) (h : Loops m r call.key f p 0)
    (hflag : getFlag (m.op f.curr) = .none)
    (he : exec cfg t call fresh m (.findKey f) = some (m', pc')) :
    m' = m ∧ Tracks m r call.key pc' := by
  have hcurr := h.curr
  rw [hcurr] at hflag
  simp only [exec, PC.hpField, if_pos hcfg] at he
  rw [hcurr] at he
  split at he
  · next hlt =>
    cases he
    rw [← hcurr]
    exact ⟨rfl, .hpTurn h (side_of_lt hflag h.below hlt)⟩
  · split at he <;> cases he
    · next hgt =>
      rw [← hcurr]
      exact ⟨rfl, .hpTurn h (side_of_gt hflag h.below hgt)⟩
    · have hkey : m.key p.curr = call.key := by omega
      have hside := side_of_eq h.below hkey
      have hnear := h.short p h.search (by rw [Mem.advance, hside])
      refine ⟨rfl, .findCurr (h.last.kept fun _ => by decide) fun hroot => ?_⟩
      refine h.auxRoot.kept fun hbase => ?_
      simpa [hside] using hnear.auxRoot hroot hbase hflag

theorem tracks_findChild (h : Loops m r call.key f p 1) (hside : m.side call.key p = some d)
    (hnext : r.Recent 0 (m.child f.curr d).addr)
    (he : exec cfg t call fresh m (.findChild f d) = some (m', pc')) :
    m' = m ∧ Tracks m r call.key pc' := by
  cases d with
  | true =>
    cases he
    exact ⟨rfl, h.findLoop hside hnext rfl rfl h.atRight (by simp)⟩
  | false =>
    cases he
    exact ⟨rfl, h.findLoop hside hnext rfl rfl h.curr (by simp)⟩

/-- A step that is not in `add_to_hp_list`. -/
theorem tracks_read (hcfg : cfg.hazardPointers = true) (h : Tracks m r call.key pc)
    (hok : ∀ f, pc = .findOp f → m.ShortSearch call.key f.caller)
    (hpc : ∀ w next, pc ≠ .hpPut w next)
    (he : exec cfg t call fresh m pc = some (m', pc')) : Tracks m' r call.key pc' := by
  cases h with
  | outside h =>
    rcases exec_outside hcfg h he with h | ⟨w, rfl, _⟩
    · exact .outside h
    · exact absurd rfl (hpc w pc')
  | findOp hcurr hlast =>
    obtain ⟨rfl, h⟩ := tracks_findOp hcfg hcurr hlast (hok _ rfl) he
    exact h
  | hpNext h hside hroot =>
    cases he
    exact .putNext h hside hroot
  | putNext | putTurn => exact absurd rfl (hpc _ _)
  | findNext h hside hroot hnext =>
    cases he
    exact h.findLoop hside hnext rfl rfl h.curr (by simp)
  | @findCurrOp f p h =>
    simp only [exec] at he
    split at he <;> cases he
    · exact .outside (outside_help hcfg)
    · next hflag =>
      exact .findKey (f := { f with currOp := m.op f.curr }) { h with } (not_not.mp hflag)
  | findKey h hflag =>
    obtain ⟨rfl, h⟩ := tracks_findKey hcfg h hflag he
    exact h
  | hpTurn h hside =>
    cases he
    exact .putTurn h hside
  | findChild h hside hnext =>
    obtain ⟨rfl, h⟩ := tracks_findChild h hside hnext he
    exact h
  | findLastRight _ hcurr hserves =>
    simp only [exec] at he
    split at he <;> cases he
    · exact .outside (outside_findStart hcfg)
    · exact .findCurr hcurr hserves
  | findCurr hcurr hserves =>
    simp only [exec] at he
    split at he <;> cases he
    · exact .outside (outside_findStart hcfg)
    · exact tracks_findReturn hcfg fun _ => hserves
  | removeCheck =>
    simp only [exec] at he
    split at he <;> cases he
    · exact .outside (outside_callStart hcfg)
    · simp only [PC.hp, if_pos hcfg]
      exact .outside (.inl (.inl (.inl trivial)))

/-- A step of `add_to_hp_list`. -/
theorem tracks_put {next : PC} (h : Tracks m r key (.hpPut w next)) :
    Tracks (m.addToHpList t w) (r.put w) key next := by
  cases h with
  | outside h =>
    rcases h with h | h
    · exact .outside h
    · cases next with
      | findOp f =>
        obtain ⟨rfl, hroot⟩ := h
        exact .findOp hroot Slots.recent_put
      | _ => exact h.elim
  | putNext h hside hroot => exact .findNext h.put hside hroot Slots.recent_put
  | putTurn h hside => exact .findChild h.put hside Slots.recent_put

theorem exec_tracks (hcfg : cfg.hazardPointers = true) (hr : r.Models m)
    (h : Tracks m r call.key pc) (hok : ∀ f, pc = .findOp f → m.ShortSearch call.key f.caller)
    (he : exec cfg t call fresh m pc = some (m', pc')) :
    ∃ r' : Slots t, r'.Models m' ∧ Tracks m' r' call.key pc' := by
  by_cases hpc : ∃ w next, pc = .hpPut w next
  · obtain ⟨w, next, rfl⟩ := hpc
    cases he
    exact ⟨r.put w, hr.addToHpList, tracks_put h⟩
  · have hread : ∀ w next, pc ≠ .hpPut w next := fun w next heq => hpc ⟨w, next, heq⟩
    obtain ⟨hhp, hoff⟩ := exec_hp he hread
    exact ⟨r, hr.congr hhp hoff, tracks_read hcfg h hok hread he⟩

/-- What is dereferenced in a search has been put in the ring lately. -/
theorem Tracks.kept (h : Tracks m r key pc) : ∀ x ∈ pc.traverses, r.Kept x := by
  cases h with
  | outside h =>
    cases pc with
    | hpChild _ _ next => cases next <;> first | exact h.elim | simp [PC.traverses]
    | _ => first | exact h.elim | simp [PC.traverses]
  | putNext | putTurn => simp [PC.traverses]
  | findOp _ hlast => simpa [PC.traverses] using hlast.kept fun _ => by decide
  | hpNext h | findNext h => simpa [PC.traverses] using h.last.kept fun _ => by decide
  | findCurrOp h =>
    simpa [PC.traverses] using
      And.intro (h.pred.kept fun _ => by decide) (h.last.kept fun _ => by decide)
  | findKey h | hpTurn h | findChild h =>
    simpa [PC.traverses] using h.last.kept fun _ => by decide
  | findLastRight h | findCurr h | removeCheck h => simpa [PC.traverses] using h

-- ---------------------------------------------------------------------------
-- Runs
-- ---------------------------------------------------------------------------

variable {s s' : State} {l : Tid × Action} {n i : Nat}

/-- The slots of `t` are a ring that its program point keeps track of. -/
def State.Tracked (s : State) (t : Tid) : Prop :=
  ∃ r : Slots t, r.Models s.mem ∧
    ∀ call pc, s.thread t = .running call pc → Tracks s.mem r call.key pc

theorem tracked_initial : State.initial.Tracked t :=
  ⟨⟨Mem.initial.hp, t * numHpPerThread, Nat.le_refl _, by simp [numHpPerThread]⟩, ⟨rfl, rfl⟩,
    fun _ _ ht => by cases ht⟩

theorem State.Tracked.step (hcfg : cfg.hazardPointers = true) (h : s.Tracked t) (hl : l.1 = t)
    (hok : s.SearchesShort t) (hnext : (system cfg).next s l = some s') : s'.Tracked t := by
  subst hl
  obtain ⟨r, hr, h⟩ := h
  cases steps_of_next hnext with
  | invoke =>
    refine ⟨r, hr, fun call pc ht => ?_⟩
    simp only [Function.update_self] at ht
    cases ht
    exact .outside (outside_callStart hcfg)
  | access ht he =>
    obtain ⟨r', hr', h'⟩ := exec_tracks hcfg hr (h _ _ ht) (fun f hf => hok _ f (hf ▸ ht)) he
    refine ⟨r', hr', fun call pc ht' => ?_⟩
    simp only [Function.update_self] at ht'
    cases ht'
    exact h'
  | respond =>
    refine ⟨r, hr, fun call pc ht => ?_⟩
    simp only [Function.update_self] at ht
    cases ht

theorem tracked_of_exec (hcfg : cfg.hazardPointers = true) (e : (system cfg).Exec n)
    (ht : ∀ j < n, (e.label j).1 = t) (hok : ∀ j < n, (e.state j).SearchesShort t) (hi : i ≤ n) :
    (e.state i).Tracked t := by
  induction i with
  | zero => exact e.start ▸ tracked_initial
  | succ i ih => exact (ih (by omega)).step hcfg (ht i hi) (hok i hi) (e.step i hi)

/-- As long as all searches are short, a thread that is alone has in its slots what it
    dereferences in a search. -/
theorem covers_traversal (hcfg : cfg.hazardPointers = true) (e : (system cfg).Exec n)
    (ht : ∀ j < n, (e.label j).1 = t) (hok : ∀ j < n, (e.state j).SearchesShort t) (hi : i ≤ n) :
    (e.state i).Covered t := by
  obtain ⟨r, hr, h⟩ := tracked_of_exec hcfg e ht hok hi
  exact fun call pc hpc x hx hbase => ((h call pc hpc).kept x hx).protects hr hbase

-- ---------------------------------------------------------------------------
-- A short search and a long one
-- ---------------------------------------------------------------------------

variable {caller : FindCaller} {fuel : Nat}

instance : Decidable (m.EndsNear key caller p) :=
  decidable_of_iff ((m.side key p = some true → p.lastRight ≠ baseRoot →
      p.left + 1 < numHpPerThread) ∧
    (caller ≠ .root → caller.auxRoot ≠ baseRoot → getFlag (m.op p.curr) = .none →
      p.depth + (m.side key p).toList.length < numHpPerThread))
    ⟨fun h => ⟨h.1, h.2⟩, fun h => ⟨h.lastRight, h.auxRoot⟩⟩

/-- `Mem.EndsNear` where the search from `p` ends, if it does so in `fuel` rounds. -/
def Mem.endsNear (m : Mem) (key : Int) (caller : FindCaller) : Nat → Position → Bool
  | 0, _ => false
  | fuel + 1, p =>
    match m.advance key p with
    | none => decide (m.EndsNear key caller p)
    | some q => m.endsNear key caller fuel q

theorem endsNear_of_fuel {q : Position} (h : m.endsNear key caller fuel p = true)
    (hq : Relation.ReflTransGen (fun p q => m.advance key p = some q) p q)
    (hend : m.advance key q = none) : m.EndsNear key caller q := by
  induction fuel generalizing p with
  | zero => cases h
  | succ fuel ih =>
    rw [Mem.endsNear] at h
    rcases hq.cases_head with rfl | ⟨p', hp', hq'⟩
    · rw [hend] at h
      exact of_decide_eq_true h
    · rw [hp'] at h
      exact ih h hq'

/-- `State.SearchesShort`, to be evaluated. -/
def State.searchesShortNow (s : State) (t : Tid) : Bool :=
  match s.thread t with
  | .running call (.findOp f) =>
      s.mem.endsNear call.key f.caller 12 ⟨f.caller.auxRoot, f.caller.auxRoot, 0, 0⟩
  | _ => true

theorem searchesShort {e : (system cfg).Exec n}
    (h : ∀ j < n, (e.state j).searchesShortNow t = true) :
    ∀ j < n, (e.state j).SearchesShort t := by
  intro j hj call f ht p hp hend
  have hnow := h j hj
  rw [State.searchesShortNow, ht] at hnow
  exact endsNear_of_fuel hnow hp hend

/-- A node with two children is removed. At state 99 the thread is at line 283. -/
def runOfSuccession : (system .guarded).Exec 121 :=
  .ofLabels (0, .respond) (soloCall 0 (.add 5) 2 18 ++ soloCall 0 (.add 3) 20 23 ++
    soloCall 0 (.add 8) 43 23 ++ soloCall 0 (.remove 5) 66 49) (by decide +kernel)

theorem covers_traversal_remove : (runOfSuccession.state 99).Covered 0 :=
  covers_traversal rfl runOfSuccession (by decide +kernel) (searchesShort (by decide +kernel))
    (by decide)

/-- The keys 10 to 2 are added in descending order below the node of 0, and the
    search for 1 comes to the end of the chain. -/
def labelsOfChain : List (Tid × Action) :=
  soloCall 0 (.add 0) 2 18 ++ soloCall 0 (.add 10) 20 23 ++ soloCall 0 (.add 9) 43 28 ++
    soloCall 0 (.add 8) 71 33 ++ soloCall 0 (.add 7) 104 38 ++ soloCall 0 (.add 6) 142 43 ++
    soloCall 0 (.add 5) 185 48 ++ soloCall 0 (.add 4) 233 53 ++ soloCall 0 (.add 3) 286 58 ++
    soloCall 0 (.add 2) 344 63 ++ (0, .invoke (.find 1)) :: accesses 0 407 55

def runOfChain : (system .guarded).Exec labelsOfChain.length :=
  .ofLabels (0, .respond) labelsOfChain (by decide +kernel)

/-- Where the search is in the end. -/
def varsOfChain : FindVars where
  caller := .root
  pred := 334
  predOp := .ptr 401
  curr := 397
  currOp := .ptr 0
  lastRight := 10
  lastRightOp := .ptr 37

/-- Node 10 has left the ring when line 222 reads its `op`. -/
theorem not_covers_traversal : ¬ ∀ (n : Nat) (t : Tid) (e : (system .guarded).Exec n),
    (∀ j < n, (e.label j).1 = t) → ∀ i ≤ n, (e.state i).Covered t := by
  intro h
  have hzero : ∀ l ∈ labelsOfChain, l.1 = 0 := by decide +kernel
  have hlabel : ∀ j < labelsOfChain.length, (runOfChain.label j).1 = 0 := fun j hj => by
    rw [runOfChain, Lts.Exec.label_ofLabels _ hj]
    exact hzero _ (List.getElem_mem hj)
  have hrun : (runOfChain.state labelsOfChain.length).thread 0 =
      .running (.find 1) (.findLastRight varsOfChain .notFoundL) := by decide +kernel
  have hslots : ¬ (runOfChain.state labelsOfChain.length).mem.protects 0 10 := by decide +kernel
  have hcovered := h _ 0 runOfChain hlabel _ (Nat.le_refl _)
  exact hslots (hcovered _ _ hrun 10 (.head _) (by decide))

end LockFree
