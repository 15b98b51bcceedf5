-- SUMMARY: remove replaces a key by its successor.
import ConcurrentBST.LockFree.Shape
import ConcurrentBST.LockFree.Agreement

/-!
# The replacement

When line 310 succeeds while `curr->op` is still `curr_op`, the node it installs
the record on holds the next larger key. What `find` returned at line 283 is a
fact about an earlier step of the thread, so this step is kept next to the
program points that go on with its result.
-/

namespace LockFree

variable {cfg : Config} {m m' : Mem} {g g' : Ghost} {s : State} {x r : Addr} {n i j k : Nat}
  {t u : Tid} {call : Call} {f : FindVars} {pc pc' : PC} {result : FindResult} {spent : Addr → Prop}
  {fresh aux : Addr} {auxOp : Word}

/-- Step `k` is the last one before step `i` in which thread `t` is at line 229,
    and `find` returns `result` there. -/
structure LastReturn (e : (system cfg).Exec n) (t : Tid) (k i : Nat) (f : FindVars)
    (result : FindResult) : Prop where
  before : k < i
  thread : (e.label k).1 = t
  line229 : (e.state k).at (e.label k) = some (.findCurr f result)
  unchanged : (e.state k).mem.op f.curr = f.currOp
  last : ∀ j, k < j → j < i → (e.label j).1 = t → ∀ f' result',
    (e.state j).at (e.label j) ≠ some (.findCurr f' result')

/-- What thread `t` has found when it is about to install `r` for `key` at step `i`.
    The keys of the nodes `among` are considered. -/
structure SelectsSuccessor (e : (system cfg).Exec n) (i : Nat) (t : Tid) (f : FindVars) (r : Addr)
    (key : Int) (among : Set Addr) : Prop where
  removeKey : ((e.state i).mem.reloc r).removeKey = key
  /-- The find of line 283 started at `curr` and returned `NOTFOUND_L`. -/
  returned : f.caller = .replacement ((e.state i).mem.reloc r).dest ((e.state i).mem.reloc r).destOp ∧
    ∃ k, LastReturn e t k i f .notFoundL
  ne : f.curr ≠ ((e.state i).mem.reloc r).dest
  right : Leads (e.state i).mem.childPtr
    ((e.state i).mem.childPtr ((e.state i).mem.reloc r).dest false) f.curr
  empty : isNull ((e.state i).mem.child f.curr true)
  between : ∀ x ∈ among, (e.state i).mem.reaches x →
    ¬ (key < (e.state i).mem.key x ∧ (e.state i).mem.key x < ((e.state i).mem.reloc r).replaceKey)

-- ---------------------------------------------------------------------------
-- What `find` has compared
-- ---------------------------------------------------------------------------

/-- What the comparison at the end of a search says about the key of `curr`. -/
structure Compared (m : Mem) (g : Ghost) (call : Call) (f : FindVars) (result : FindResult) :
    Prop where
  seen : Seen m g f.curr f.currOp
  found : result = .found → m.op f.curr = f.currOp → m.key f.curr = call.key
  right : result = .notFoundR → m.op f.curr = f.currOp → f.curr ≠ f.caller.auxRoot →
    m.key f.curr < call.key

theorem Evolution.compared (h : Evolution cfg spent m g m' g') (hc : Compared m g call f result) :
    Compared m' g' call f result where
  seen := h.seen hc.seen
  found := by
    intro hr hop
    rw [h.key_eq_of_seen hc.seen hop]
    exact hc.found hr (h.op_back hc.seen.ever hop)
  right := by
    intro hr hop hne
    rw [h.key_eq_of_seen hc.seen hop]
    exact hc.right hr (h.op_back hc.seen.ever hop) hne

-- ---------------------------------------------------------------------------
-- The steps of a search that reach its caller
-- ---------------------------------------------------------------------------

/-- The program point is neither at line 229 nor between lines 283 and 310. -/
def PC.Quiet : PC → Prop
  | .hpChild _ _ next | .hpPut _ next => next.Quiet
  | .findCurr _ _ | .removeCheck _ _ _ | .removeNew _ _ _ | .removeInstall _ _ => False
  | _ => True

/-- The steps to the other program points. -/
inductive Selects (cfg : Config) (call : Call) (m : Mem) : PC → Mem → PC → Prop where
  | hpChild {y : Addr} {d : Bool} {w : Word} {next : PC} :
      Selects cfg call m (.hpChild y d next) m (.hpPut w next)
  | hpPut {w : Word} {next : PC} {m' : Mem} : m'.reloc = m.reloc →
      Selects cfg call m (.hpPut w next) m' next
  | key {f : FindVars} : m.key f.curr = call.key →
      Selects cfg call m (.findKey f) m (.findCurr f .found)
  | lastRight {f : FindVars} {result : FindResult} : m.op f.lastRight = f.lastRightOp →
      Selects cfg call m (.findLastRight f result) m (.findCurr f result)
  | curr {f : FindVars} {result : FindResult} {aux : Addr} {auxOp : Word} :
      m.op f.curr = f.currOp → result ≠ .abort → f.caller = .replacement aux auxOp →
      Selects cfg call m (.findCurr f result) m (.removeCheck f aux auxOp)
  | check {f : FindVars} {aux : Addr} {auxOp : Word} : Selects cfg call m (.removeCheck f aux auxOp) m
      (.hp cfg (.ptr f.pred) (.hp cfg (.ptr aux) (.hp cfg (.ptr f.curr) (.removeNew f aux auxOp))))
  | new {f : FindVars} {aux r : Addr} {auxOp : Word} {m' : Mem} : (m'.reloc r).dest = aux →
      (m'.reloc r).destOp = auxOp →
      Selects cfg call m (.removeNew f aux auxOp) m' (.removeInstall f r)

section Quiet

variable {w : Word} {y : Addr} {d b : Bool} {next : PC} {ret : HelpRet} {a : HelpArgs}

@[simp] theorem quiet_hp : (PC.hp cfg w next).Quiet ↔ next.Quiet := by
  unfold PC.hp
  split <;> rfl

@[simp] theorem quiet_hpField : (PC.hpField cfg y d next).Quiet ↔ next.Quiet := by
  unfold PC.hpField
  split <;> rfl

@[simp] theorem quiet_findStart : (findStart cfg f).Quiet :=
  quiet_hp.mpr trivial

@[simp] theorem quiet_callStart : (callStart cfg f).Quiet :=
  quiet_findStart

@[simp] theorem quiet_childStart : (childStart m x y ret).Quiet :=
  trivial

@[simp] theorem quiet_scanNext {as : List Addr} : (scanNext x y ret as).Quiet := by
  cases as <;> trivial

@[simp] theorem quiet_helpReturn : (helpReturn cfg ret).Quiet := by
  cases ret with
  | retry f => exact quiet_findStart
  | add | remove f => trivial

@[simp] theorem quiet_relocReturn : (relocReturn cfg x b ret).Quiet := by
  cases ret with
  | retry f => exact quiet_findStart
  | add => trivial
  | remove f => cases b <;> trivial

@[simp] theorem quiet_relocTail : (relocTail cfg m x a b).Quiet := by
  unfold relocTail
  split
  · exact quiet_relocReturn
  · trivial

@[simp] theorem quiet_help : (help cfg m a w).Quiet := by
  unfold help
  split
  · exact quiet_childStart
  · trivial
  · trivial
  · exact quiet_helpReturn

theorem quiet_findLoop (h : result ≠ .found) : (findLoop f w result).Quiet := by
  unfold findLoop findEnd
  rw [if_neg h]
  split <;> trivial

theorem findReturn_cases : (findReturn cfg call f result).Quiet ∨ result ≠ .abort ∧
    ∃ aux auxOp, f.caller = .replacement aux auxOp ∧
      findReturn cfg call f result = .removeCheck f aux auxOp := by
  unfold findReturn
  split
  · exact .inl trivial
  · refine .inl (quiet_hp.mpr ?_)
    split <;> trivial
  · left
    split <;> trivial
  · next _ aux auxOp hc =>
    split
    · exact .inl quiet_callStart
    · next hr => exact .inr ⟨hr, aux, auxOp, hc, rfl⟩

theorem exec_quiet (he : exec cfg t call fresh m pc = some (m', pc')) :
    pc'.Quiet ∨ Selects cfg call m pc m' pc' := by
  cases pc with
  | hpChild y d next =>
    cases he
    exact .inr .hpChild
  | hpPut w next =>
    cases he
    exact .inr (.hpPut rfl)
  | findOp f =>
    simp only [exec] at he
    split at he
    · split at he <;> cases he
      · exact .inl quiet_childStart
      · exact .inl (findReturn_cases.resolve_right fun h => h.1 rfl)
    · cases he
      exact .inl (quiet_hpField.mpr trivial)
  | findNext f =>
    cases he
    exact .inl (quiet_findLoop (by simp))
  | findKey f =>
    simp only [exec] at he
    split at he
    · cases he
      exact .inl (quiet_hpField.mpr trivial)
    · split at he <;> cases he
      · exact .inl (quiet_hpField.mpr trivial)
      · exact .inr (.key (by omega))
  | findChild f isLeft =>
    simp only [exec] at he
    split at he <;> cases he
    · exact .inl (quiet_findLoop (by simp))
    · exact .inl (quiet_findLoop (by simp))
  | findLastRight f result =>
    simp only [exec] at he
    split at he <;> cases he
    · exact .inl quiet_findStart
    · next hop => exact .inr (.lastRight (not_not.mp hop).symm)
  | findCurr f result =>
    simp only [exec] at he
    split at he <;> cases he
    · exact .inl quiet_findStart
    · next hop =>
      rcases @findReturn_cases cfg call f result with hq | ⟨hr, aux, auxOp, hc, heq⟩
      · exact .inl hq
      · rw [heq]
        exact .inr (.curr (not_not.mp hop).symm hr hc)
  | removeCheck f aux auxOp =>
    simp only [exec] at he
    split at he <;> cases he
    · exact .inl quiet_callStart
    · exact .inr .check
  | removeNew f aux auxOp =>
    simp only [exec] at he
    split at he <;> cases he
    exact .inr (.new (by simp) (by simp))
  | childScan retired rest i op dest ret =>
    simp only [exec] at he
    left
    split at he
    · cases he
      exact quiet_scanNext
    · split at he <;> cases he
      · trivial
      · exact quiet_scanNext
  | childSlot op dest ret =>
    simp only [exec] at he
    left
    split at he
    · split at he
      · split at he <;> cases he
        · exact quiet_scanNext
        · trivial
      · cases he
        trivial
    · cases he
      trivial
  | relocState op a =>
    simp only [exec, Option.some.injEq, Prod.mk.injEq] at he
    obtain ⟨_, rfl⟩ := he
    refine .inl (quiet_hp.mpr ?_)
    split
    · trivial
    · trivial
    · exact quiet_relocTail
  | relocFail op a =>
    simp only [exec, Option.some.injEq, Prod.mk.injEq] at he
    obtain ⟨_, rfl⟩ := he
    left
    split
    · trivial
    · exact quiet_relocTail
  | ret => simp at he
  | _ =>
    left
    simp only [exec] at he
    (repeat' split at he) <;> cases he <;> first | trivial | (simp <;> trivial)

end Quiet

-- ---------------------------------------------------------------------------
-- What is known of the search at each program point
-- ---------------------------------------------------------------------------

/-- A search that is about to return has compared the key of `curr`. -/
def PC.Compares (m : Mem) (g : Ghost) (call : Call) : PC → Prop
  | .hpChild _ _ next | .hpPut _ next => next.Compares m g call
  | .findCurr f result => Compared m g call f result
  | _ => True

/-- The program point goes on with the result `f` of the find at line 283 from `aux`. -/
def PC.Chose (m : Mem) (f : FindVars) (aux : Addr) (auxOp : Word) : PC → Prop
  | .hpChild _ _ next | .hpPut _ next => next.Chose m f aux auxOp
  | .removeCheck f' aux' auxOp' | .removeNew f' aux' auxOp' => f' = f ∧ aux' = aux ∧ auxOp' = auxOp
  | .removeInstall f' r => f' = f ∧ (m.reloc r).dest = aux ∧ (m.reloc r).destOp = auxOp
  | _ => False

theorem PC.Quiet.compares (h : pc.Quiet) : pc.Compares m g call := by
  induction pc with
  | hpChild _ _ _ ih | hpPut _ _ ih => exact ih h
  | findCurr => exact h.elim
  | _ => trivial

theorem PC.Quiet.not_chose (h : pc.Quiet) : ¬ pc.Chose m f aux auxOp := by
  induction pc with
  | hpChild _ _ _ ih | hpPut _ _ ih => exact ih h
  | removeCheck | removeNew | removeInstall => exact h.elim
  | _ => exact id

theorem chose_congr (h : ∀ a ∈ pc.owns, m'.reloc a = m.reloc a) :
    pc.Chose m' f aux auxOp ↔ pc.Chose m f aux auxOp := by
  induction pc with
  | hpChild _ _ _ ih | hpPut _ _ ih => exact ih h
  | removeInstall f' r => simp only [PC.Chose, h r (.head _)]
  | _ => exact .rfl

@[simp] theorem compares_hp {w : Word} {next : PC} :
    (PC.hp cfg w next).Compares m g call ↔ next.Compares m g call := by
  unfold PC.hp
  split <;> rfl

@[simp] theorem chose_hp {w : Word} {next : PC} :
    (PC.hp cfg w next).Chose m f aux auxOp ↔ next.Chose m f aux auxOp := by
  unfold PC.hp
  split <;> rfl

theorem Evolution.compares (h : Evolution cfg spent m g m' g') (hc : pc.Compares m g call) :
    pc.Compares m' g' call := by
  induction pc with
  | hpChild _ _ _ ih | hpPut _ _ ih => exact ih hc
  | findCurr => exact h.compared hc
  | _ => trivial

/-- The record that a thread has not installed yet stays as it is. -/
theorem Evolution.chose (h : Evolution cfg spent m g m' g') (hp : PcInv cfg m g t call pc)
    (hc : pc.Chose m' f aux auxOp) : pc.Chose m f aux auxOp := by
  refine (chose_congr fun a ha => ?_).mp hc
  have hpriv := hp.private a ha
  obtain ⟨st, hreloc, hst | ⟨_, hpub⟩⟩ := h.reloc hpriv.taken
  · rw [hreloc, hst]
    rfl
  · exact absurd hpub hpriv.hidden

theorem Selects.compares (h : Selects cfg call m pc m' pc') (hp : PcInv cfg m g t call pc)
    (hc : pc.Compares m g call) : pc'.Compares m g call := by
  cases h with
  | hpChild | hpPut => exact hc
  | key hkey => exact ⟨hp.2.2, fun _ _ => hkey, by simp⟩
  | lastRight hlast =>
    obtain ⟨_, _, hcurr, _, hlt, hslot⟩ := hp
    refine ⟨hcurr, ?_, fun _ hop => ?_⟩
    · rintro rfl
      rcases hslot with ⟨hr, _⟩ | ⟨hr, _⟩ <;> cases hr
    · rcases hslot with ⟨rfl, _⟩ | ⟨_, hl, hlop, _⟩
      · contradiction
      · rw [← hl]
        exact hlt hlast
  | curr | new => trivial
  | check =>
    simp only [compares_hp]
    trivial

theorem Selects.chose (h : Selects cfg call m pc m' pc') (hc : pc'.Chose m' f aux auxOp) :
    pc.Chose m f aux auxOp ∨ ∃ result, pc = .findCurr f result ∧ m.op f.curr = f.currOp ∧
      result ≠ .abort ∧ f.caller = .replacement aux auxOp := by
  cases h with
  | hpChild => exact .inl hc
  | hpPut hreloc => exact .inl ((chose_congr fun a _ => congrFun hreloc a).mp hc)
  | key | lastRight => exact hc.elim
  | curr hop hr hcall =>
    obtain ⟨rfl, rfl, rfl⟩ := hc
    exact .inr ⟨_, rfl, hop, hr, hcall⟩
  | check =>
    simp only [chose_hp] at hc
    exact .inl hc
  | new hdest hdestOp =>
    obtain ⟨rfl, rfl, rfl⟩ := hc
    exact .inl ⟨rfl, hdest.symm, hdestOp.symm⟩

-- ---------------------------------------------------------------------------
-- Runs
-- ---------------------------------------------------------------------------

theorem LastReturn.succ {e : (system cfg).Exec n} (h : LastReturn e t k i f result)
    (hi : (e.label i).1 = t → ∀ f' result', (e.state i).at (e.label i) ≠ some (.findCurr f' result')) :
    LastReturn e t k (i + 1) f result where
  before := by
    have := h.before
    omega
  thread := h.thread
  line229 := h.line229
  unchanged := h.unchanged
  last := by
    intro j hkj hji
    rcases Nat.lt_succ_iff_lt_or_eq.mp hji with hji | rfl
    · exact h.last j hkj hji
    · exact hi

/-- What step `i` of a run knows about the searches of the thread. -/
structure Searched (e : (system cfg).Exec n) (i : Nat) (g : Ghost) (t : Tid) (call : Call) (pc : PC) :
    Prop where
  compares : pc.Compares (e.state i).mem g call
  chose : ∀ f aux auxOp, pc.Chose (e.state i).mem f aux auxOp → f.caller = .replacement aux auxOp ∧
    ∃ k result, LastReturn e t k i f result ∧ result ≠ .abort ∧
      Compared (e.state i).mem g call f result

theorem PC.Quiet.searched {e : (system cfg).Exec n} (h : pc.Quiet) : Searched e i g t call pc :=
  ⟨h.compares, fun _ _ _ hf => absurd hf h.not_chose⟩

theorem History.searched {e : (system cfg).Exec n} (H : History e) (hi : i ≤ n)
    (ht : (e.state i).thread t = .running call pc) :
    Searched e i (H.ghost i) t call pc := by
  induction i generalizing call pc with
  | zero =>
    rw [e.start] at ht
    cases ht
  | succ i ih =>
    obtain ⟨spent, hev⟩ := H.evolution hi
    have hstep := steps_of_next (e.step i hi)
    -- Nothing changes for a thread that does not move.
    have hkeep : (e.state i).thread t = .running call pc →
        ((e.label i).1 = t → ∀ f' result', (e.state i).at (e.label i) ≠ some (.findCurr f' result')) →
        Searched e (i + 1) (H.ghost (i + 1)) t call pc := by
      intro ht hat
      obtain ⟨hcomp, hchose⟩ := ih (by omega) ht
      refine ⟨hev.compares hcomp, fun f aux auxOp hf => ?_⟩
      obtain ⟨hcall, k, result, hk, hr, hc⟩ :=
        hchose f aux auxOp (hev.chose ((H.inv i (by omega)).pc ht) hf)
      exact ⟨hcall, k, result, hk.succ hat, hr, hev.compared hc⟩
    generalize hs : e.state (i + 1) = s' at hstep ht
    generalize hl : e.label i = l at hstep hkeep
    cases hstep with
    | @invoke u c hu =>
      by_cases htu : t = u
      · subst htu
        simp only [Function.update_self, Thread.running.injEq] at ht
        obtain ⟨-, rfl⟩ := ht
        exact quiet_callStart.searched
      · simp only [Function.update_of_ne htu] at ht
        exact hkeep ht fun heq => absurd heq.symm htu
    | @respond u c r hu =>
      by_cases htu : t = u
      · subst htu
        simp at ht
      · simp only [Function.update_of_ne htu] at ht
        exact hkeep ht fun heq => absurd heq.symm htu
    | @access u c p p' m' fresh hu he =>
      by_cases htu : t = u
      · subst htu
        simp only [Function.update_self, Thread.running.injEq] at ht
        obtain ⟨rfl, rfl⟩ := ht
        have hm : (e.state (i + 1)).mem = m' := by rw [hs]
        have hat : (e.state i).at (e.label i) = some p := by rw [hl, State.at, hu]
        have hpc := (H.inv i (by omega)).pc hu
        obtain ⟨hcomp, hchose⟩ := ih (by omega) hu
        rcases exec_quiet he with hq | hsel
        · exact hq.searched
        · have hcomp' := hsel.compares hpc hcomp
          refine ⟨hev.compares hcomp', fun f aux auxOp hf => ?_⟩
          rw [hm] at hf
          rcases hsel.chose hf with hf | ⟨result, rfl, hop, hr, hcall⟩
          · obtain ⟨hcall, k, result, hk, hr, hc⟩ := hchose f aux auxOp hf
            refine ⟨hcall, k, result, hk.succ fun _ f' result' hat' => ?_, hr, hev.compared hc⟩
            cases hat.symm.trans hat'
            exact hf.elim
          · refine ⟨hcall, i, result, ⟨by omega, by rw [hl], hat, hop, ?_⟩, hr, hev.compared hcomp⟩
            intro j hij hji
            omega
      · simp only [Function.update_of_ne htu] at ht
        exact hkeep ht fun heq => absurd heq.symm htu

/-- When line 310 succeeds, `replace` holds the next larger key. -/
theorem selects_successor {key : Int} (e : (system .plain).Exec n) (hi : i ≤ n)
    (ht : (e.state i).thread t = .running (.remove key) (.removeInstall f r))
    (hreplace : (e.state i).mem.op f.curr = f.currOp)
    (hcurr : (e.state i).mem.op ((e.state i).mem.reloc r).dest = ((e.state i).mem.reloc r).destOp) :
    SelectsSuccessor e i t f r key {x | x ≠ baseRoot} := by
  obtain ⟨H⟩ := exists_history rfl e fun i _ => careful_of_fresh rfl
  have h := H.mem hi
  have hpc := (H.inv i hi).pc ht
  have hsearch := H.searched hi ht
  have hr := hpc.relocating h hreplace
  obtain ⟨_, hkey, ⟨_, htarget, _⟩, hcand, _⟩ := hpc
  obtain ⟨hcall, k, result, hk, habort, hcomp⟩ := hsearch.chose f _ _ ⟨rfl, rfl, rfl⟩
  obtain ⟨hadj, _⟩ := hr.ready hcurr
  have hdestMem := h.mem_of_seen htarget.toSeen hcurr
  have hmem := h.mem_of_seen hcand.seen hreplace
  have hdestKey := htarget.key hcurr
  -- The keys to the right of `curr` are larger than its own.
  have hlt := (h.sorted hdestMem hmem htarget.ne_root hr.ne_root (.inr (.inl hadj.1))).2
    (MemInv.not_gone_of_seen htarget.toSeen hcurr) (MemInv.not_gone_of_seen hcand.seen hreplace)
  rw [hdestKey] at hlt
  have hresult : result = .notFoundL := by
    cases result with
    | abort => contradiction
    | notFoundL => rfl
    | notFoundR =>
      have haux : f.curr ≠ f.caller.auxRoot := by
        rw [hcall]
        exact hr.dest_ne.symm
      exact absurd (hcomp.right rfl hreplace haux) hlt.not_gt
    | found => exact absurd (hcomp.found rfl hreplace) hlt.ne'
  refine ⟨hkey, ⟨hcall, k, hresult ▸ hk⟩, hr.dest_ne.symm, (h.leads_child_iff hmem hdestMem).mpr hadj.1,
    hr.empty, ?_⟩
  rintro x hx hreach ⟨hlo, hhi⟩
  have hxmem := h.reaches_iff.mp hreach
  rw [← hr.key] at hhi
  rcases h.lawful.before_total hdestMem hxmem with rfl | hb | hb
  · exact absurd hdestKey hlo.ne'
  · rcases h.lawful.before_total hmem hxmem with rfl | hb' | hb'
    · exact absurd hhi (lt_irrefl _)
    · exact absurd (h.sorted hmem hxmem hr.ne_root hx hb').1 hhi.not_ge
    · exact hadj.2 x hxmem hb hb'
  · have hle := (h.sorted hxmem hdestMem hx htarget.ne_root hb).1
    rw [hdestKey] at hle
    exact absurd hle hlo.not_ge

theorem selects_successor_remove : SelectsSuccessor runOfRelocation 64 0
    ⟨.replacement 6 (.ptr 35), 6, .ptr 35, 34, .ptr 0, 6, .ptr 35⟩ 58 5 {x | x ≠ baseRoot} :=
  selects_successor runOfRelocation (by decide) (by decide +kernel) (by decide +kernel)
    (by decide +kernel)

/-- A run in which `remove` is about to replace the key -5 by 3. -/
def runOfNegativeKey : (system .plain).Exec 64 :=
  .ofLabels (0, .respond) (soloCall 0 (.add (-5)) 2 11 ++ soloCall 0 (.add (-7)) 13 14 ++
    soloCall 0 (.add 3) 27 14 ++ (0, .invoke (.remove (-5))) :: accesses 0 41 18) (by decide +kernel)

/-- The key -1 of `base_root` may lie between the two keys. -/
theorem not_selects_among_all : ¬ ∀ (n : Nat) (e : (system .plain).Exec n) (i : Nat) (t : Tid)
    (f : FindVars) (r : Addr) (key : Int), i ≤ n →
    (e.state i).thread t = .running (.remove key) (.removeInstall f r) →
    (e.state i).mem.op f.curr = f.currOp →
    (e.state i).mem.op ((e.state i).mem.reloc r).dest = ((e.state i).mem.reloc r).destOp →
    SelectsSuccessor e i t f r key Set.univ := by
  intro h
  have hbetween := (h 64 runOfNegativeKey 64 0
    ⟨.replacement 6 (.ptr 35), 6, .ptr 35, 34, .ptr 0, 6, .ptr 35⟩ 58 (-5) (by decide)
    (by decide +kernel) (by decide +kernel) (by decide +kernel)).between
  exact hbetween baseRoot trivial ⟨[], rfl⟩ (by decide +kernel)

end LockFree
