-- SUMMARY: When no call is running, no record is left half done.
import ConcurrentBST.LockFree.ChildCas
import ConcurrentBST.LockFree.Agreement

/-!
# Quiescent states

A thread that publishes a record stays in the helper for this record until the
`op` field has moved on, no matter which of its own CASes fail. So as long as a
record is installed some thread is still responsible for it.
-/

namespace LockFree

variable {cfg : Config} {m m' : Mem} {g g' : Ghost} {s s' : State} {l : Tid × Action} {x r : Addr}
  {n i j k : Nat} {t : Tid} {call : Call} {fresh : Addr} {pc pc' : PC}

/-- The program point is in a call of `helpChildCAS` on the record `r` in `x->op`. -/
def PC.finishesCas (x r : Addr) : PC → Prop
  | .hpChild _ _ next | .hpPut _ next => next.finishesCas x r
  | .childSlot op dest _ | .childScan _ _ _ op dest _ | .childOp op dest _ => op = r ∧ dest = x
  | _ => False

/-- The program point is in a call of `helpRelocate` on the record `r` with `curr = x`. -/
def PC.finishesRelocation (x r : Addr) : PC → Prop
  | .hpChild _ _ next | .hpPut _ next => next.finishesRelocation x r
  | .relocState op a | .relocDest op a | .relocSucceed op a | .relocFail op a
  | .relocKey op a | .relocClear op a | .relocCurr op a _ => op = r ∧ a.curr = x
  | _ => False

/-- For every installed record some thread is in the helper that takes it out. -/
structure Responsible (s : State) : Prop where
  cas : ∀ x r, s.mem.op x = .cas r →
    ∃ t call pc, s.thread t = .running call pc ∧ pc.finishesCas x r
  relocation : ∀ x r, s.mem.op x = .rel r → (s.mem.reloc r).dest ≠ x →
    ∃ t call pc, s.thread t = .running call pc ∧ pc.finishesRelocation x r

/-- What holds when no thread is inside a call. -/
structure Quiescent (e : (system cfg).Exec n) (i : Nat) : Prop where
  op : ∀ x, ((e.state i).mem.op x).flag = .none ∨ ((e.state i).mem.op x).flag = .mark
  /-- The child CAS of every record installed so far has been applied. -/
  cas : ∀ j x r, j < i → (e.state j).installsChildCas (e.label j) x r → ∃ k, j < k ∧ k < i ∧
    (e.state k).mem.child x ((e.state j).mem.cas r).isLeft = ((e.state j).mem.cas r).expected ∧
    (e.state (k + 1)).mem.child x ((e.state j).mem.cas r).isLeft = ((e.state j).mem.cas r).update
  relocation : ∀ j x r, j < i → (e.state j).installsRelocation (e.label j) x r →
    (e.state i).mem.state r ≠ .ongoing ∧ ((e.state i).mem.state r = .successful →
      (e.state i).mem.marked x ∧
        (e.state i).mem.key ((e.state j).mem.reloc r).dest ≠ ((e.state j).mem.reloc r).removeKey)

-- ---------------------------------------------------------------------------
-- One access
-- ---------------------------------------------------------------------------

section Access

variable {w : Word} {next : PC}

@[simp] theorem finishesCas_childStart {m : Mem} {op dest : Addr} {ret : HelpRet} :
    (childStart m op dest ret).finishesCas x r ↔ op = r ∧ dest = x := .rfl

@[simp] theorem finishesRelocation_hp :
    (PC.hp cfg w next).finishesRelocation x r ↔ next.finishesRelocation x r := by
  unfold PC.hp
  split <;> rfl

/-- The thread that publishes a child CAS record goes on in `helpChildCAS`. -/
theorem exec_publishesCas (he : exec cfg t call fresh m pc = some (m', pc'))
    (hp : PcInv cfg m g t call pc) (hne : m.op x ≠ .cas r) (hop : m'.op x = .cas r) :
    pc'.finishesCas x r := by
  have hw := exec_op_ne he (by rw [hop]; exact Ne.symm hne)
  rw [hop] at hw
  generalize hv : Word.cas r = w at hw
  cases hw with
  | add | splice => exact ⟨(congrArg Word.addr hv).symm, rfl⟩
  | mark =>
    have hflag := congrArg Word.flag hv
    rw [setFlag, hp.2.2.1.flag] at hflag
    cases hflag
  | _ => cases congrArg Word.flag hv

/-- It leaves `helpChildCAS` when the record is not installed any more. -/
theorem exec_finishesCas (he : exec cfg t call fresh m pc = some (m', pc'))
    (hpc : pc.finishesCas x r) (hop : m'.op x = .cas r) : pc'.finishesCas x r := by
  have hscan : ∀ {op dest : Addr} {ret : HelpRet} {as : List Addr}, op = r ∧ dest = x →
      (scanNext op dest ret as).finishesCas x r := by
    intro op dest ret as h
    cases as <;> exact h
  cases pc with
  | hpChild | hpPut =>
    cases he
    exact hpc
  | childSlot op dest ret =>
    simp only [exec] at he
    split at he
    · split at he
      · split at he <;> cases he
        · exact hscan hpc
        · exact hpc
      · cases he
        exact hpc
    · cases he
      exact hpc
  | childScan retired rest i op dest ret =>
    simp only [exec] at he
    split at he
    · cases he
      exact hscan hpc
    · split at he <;> cases he
      · exact hpc
      · exact hscan hpc
  | childOp op dest ret =>
    obtain ⟨rfl, rfl⟩ := hpc
    simp only [exec] at he
    split at he <;> cases he
    · simp at hop
    · contradiction
  | _ => exact hpc.elim

/-- The same for a relocation record and `helpRelocate`, where `x` is not its `dest`. -/
theorem exec_publishesRelocation (he : exec cfg t call fresh m pc = some (m', pc'))
    (hp : PcInv cfg m g t call pc) (hne : m.op x ≠ .rel r) (hop : m'.op x = .rel r)
    (hdest : (m'.reloc r).dest ≠ x) : pc'.finishesRelocation x r := by
  have hw := exec_op_ne he (by rw [hop]; exact Ne.symm hne)
  rw [hop] at hw
  generalize hv : Word.rel r = w at hw
  cases hw with
  | install => exact ⟨(congrArg Word.addr hv).symm, rfl⟩
  | commit =>
    obtain rfl := congrArg Word.addr hv
    have hreloc : m'.reloc = m.reloc := by
      simp only [exec] at he
      split at he <;> cases he
      rfl
    exact absurd (by rw [hreloc]) hdest
  | mark =>
    have hflag := congrArg Word.flag hv
    rw [setFlag, hp.2.2.1.flag] at hflag
    cases hflag
  | _ => cases congrArg Word.flag hv

theorem exec_finishesRelocation (he : exec cfg t call fresh m pc = some (m', pc'))
    (hpc : pc.finishesRelocation x r) (hop : m'.op x = .rel r) (hdest : (m'.reloc r).dest ≠ x) :
    pc'.finishesRelocation x r := by
  cases pc with
  | hpChild | hpPut =>
    cases he
    exact hpc
  | relocState op a =>
    obtain ⟨rfl, rfl⟩ := hpc
    cases he
    rw [finishesRelocation_hp]
    split
    · exact ⟨rfl, rfl⟩
    · exact ⟨rfl, rfl⟩
    · rw [relocTail, if_neg hdest]
      exact ⟨rfl, rfl⟩
  | relocDest op a =>
    simp only [exec] at he
    split at he <;> cases he <;> exact hpc
  | relocSucceed op a | relocKey op a =>
    cases he
    exact hpc
  | relocFail op a =>
    obtain ⟨rfl, rfl⟩ := hpc
    cases he
    split
    · exact ⟨rfl, rfl⟩
    · rw [relocTail, if_neg hdest]
      exact ⟨rfl, rfl⟩
  | relocClear op a =>
    obtain ⟨rfl, rfl⟩ := hpc
    cases he
    rw [relocTail, if_neg hdest]
    exact ⟨rfl, rfl⟩
  | relocCurr op a result =>
    obtain ⟨rfl, rfl⟩ := hpc
    have hold : m.op a.curr = .rel op := by
      by_contra hne
      have hw := exec_op_ne he (by rw [hop]; exact Ne.symm hne)
      generalize m'.op a.curr = w at hw
      cases hw <;> contradiction
    simp only [exec, setFlag_ptr, hold, if_true] at he
    split at he <;> cases he <;> simp at hop
  | _ => exact hpc.elim

end Access

-- ---------------------------------------------------------------------------
-- Runs
-- ---------------------------------------------------------------------------

/-- A call begins or returns. -/
theorem Responsible.setThread {th : Thread} (h : Responsible s)
    (ht : ∀ c pc, s.thread t = .running c pc → ∃ res, pc = .ret res) :
    Responsible { s with thread := Function.update s.thread t th } := by
  have hkeep : ∀ {u c pc}, s.thread u = .running c pc → (∀ res, pc ≠ .ret res) →
      Function.update s.thread t th u = .running c pc := by
    intro u c pc hu hpc
    rw [Function.update_of_ne, hu]
    rintro rfl
    obtain ⟨res, rfl⟩ := ht c pc hu
    exact hpc res rfl
  refine ⟨fun x r hop => ?_, fun x r hop hdest => ?_⟩
  · obtain ⟨u, c, pc, hu, hpc⟩ := h.cas x r hop
    exact ⟨u, c, pc, hkeep hu (by rintro _ rfl; exact hpc), hpc⟩
  · obtain ⟨u, c, pc, hu, hpc⟩ := h.relocation x r hop hdest
    exact ⟨u, c, pc, hkeep hu (by rintro _ rfl; exact hpc), hpc⟩

/-- The record stays as it is while it is installed. -/
theorem Evolution.dest_eq {spent : Addr → Prop} (h : Evolution cfg spent m g m' g')
    (hop : m.op x = .rel r) : (m'.reloc r).dest = (m.reloc r).dest :=
  (h.reloc_eq (h.before.place (.inl hop)).1).1

theorem Responsible.step {spent : Addr → Prop} (h : Responsible s) (hinv : Inv cfg s g)
    (hev : Evolution cfg spent s.mem g s'.mem g') (hstep : Steps cfg s l s') : Responsible s' := by
  cases hstep with
  | invoke ht =>
    refine h.setThread fun c pc hu => ?_
    cases ht.symm.trans hu
  | @respond t c res ht =>
    refine h.setThread fun c pc hu => ?_
    cases ht.symm.trans hu
    exact ⟨res, rfl⟩
  | @access t c p p' m' fresh ht he =>
    have hp := hinv.pc ht
    refine ⟨fun x r hop => ?_, fun x r hop hdest => ?_⟩
    · by_cases hold : s.mem.op x = .cas r
      · obtain ⟨u, c', pc, hu, hpc⟩ := h.cas x r hold
        by_cases hut : u = t
        · subst hut
          cases ht.symm.trans hu
          exact ⟨u, c, p', Function.update_self .., exec_finishesCas he hpc hop⟩
        · exact ⟨u, c', pc, (Function.update_of_ne hut ..).trans hu, hpc⟩
      · exact ⟨t, c, p', Function.update_self .., exec_publishesCas he hp hold hop⟩
    · by_cases hold : s.mem.op x = .rel r
      · obtain ⟨u, c', pc, hu, hpc⟩ := h.relocation x r hold (hev.dest_eq hold ▸ hdest)
        by_cases hut : u = t
        · subst hut
          cases ht.symm.trans hu
          exact ⟨u, c, p', Function.update_self .., exec_finishesRelocation he hpc hop hdest⟩
        · exact ⟨u, c', pc, (Function.update_of_ne hut ..).trans hu, hpc⟩
      · exact ⟨t, c, p', Function.update_self .., exec_publishesRelocation he hp hold hop hdest⟩

namespace History

variable {e : (system cfg).Exec n} (H : History e)

include H

theorem responsible (hi : i ≤ n) : Responsible (e.state i) := by
  induction i with
  | zero =>
    rw [e.start]
    constructor <;> intro x r hop <;> cases hop
  | succ i ih =>
    obtain ⟨spent, hev⟩ := H.evolution hi
    exact (ih (by omega)).step (H.inv i (by omega)) hev (steps_of_next (e.step i hi))

/-- An installed child CAS record that is not installed any more has been applied. -/
theorem applied (hj : j < i) (hi : i ≤ n)
    (h : (e.state j).installsChildCas (e.label j) x r) (hop : (e.state i).mem.op x ≠ .cas r) :
    ∃ k, j < k ∧ k < i ∧
      (e.state k).mem.child x ((e.state j).mem.cas r).isLeft = ((e.state j).mem.cas r).expected ∧
      (e.state (k + 1)).mem.child x ((e.state j).mem.cas r).isLeft =
        ((e.state j).mem.cas r).update := by
  obtain ⟨hr, hset, hslot⟩ := H.installs (by omega) h
  have hinst : (e.state (j + 1)).mem.op x = .cas r := by simp [hset]
  have hcas : (e.state (j + 1)).mem.cas r = (e.state j).mem.cas r := by simp [hset]
  generalize (e.state j).mem.cas r = op at *
  have hslot' : (e.state (j + 1)).mem.child x op.isLeft = op.expected := by simp [hset, hslot]
  -- Once the record has left the field the slot does not hold `expected` any more.
  have hmoved : ∀ k, j + 1 ≤ k → k ≤ n → (e.state k).mem.op x ≠ .cas r →
      (e.state k).mem.child x op.isLeft ≠ op.expected := by
    intro k hjk hk hne heq
    have hpast := (H.ever hjk hk (.inl hinst)).resolve_left hne
    have hdone := (H.mem hk).done hpast
    rw [H.cas_eq hjk hk (.inl hinst) hr, hcas, ← heq] at hdone
    exact (H.mem hk).child_fresh x _ hdone
  obtain ⟨k, hjk, hki, hk, hk'⟩ := Lts.exists_step
    (P := fun k => (e.state k).mem.child x op.isLeft ≠ op.expected) hj (by simpa using hslot')
    (hmoved i hj hi hop)
  rw [not_not] at hk
  obtain ⟨_, _, _, _, hc, _⟩ := (H.traces k (by omega)).change
  obtain ⟨r', hr', _, _, hupd⟩ := hc.child_cases (H.mem (by omega)) (fun heq => hk' (heq.trans hk))
  have hopk : (e.state k).mem.op x = .cas r := by
    by_contra hne
    exact hmoved k hjk (by omega) hne hk
  obtain rfl : r = r' := congrArg Word.addr (hopk.symm.trans hr')
  rw [H.cas_eq hjk (by omega) (.inl hinst) hr, hcas] at hupd
  exact ⟨k, hjk, hki, hk, hupd⟩

/-- Nobody is responsible for a record when no call is running. -/
theorem not_cas_of_idle (hi : i ≤ n) (hidle : ∀ t, (e.state i).thread t = .idle) :
    (e.state i).mem.op x ≠ .cas r := by
  intro hop
  obtain ⟨t, c, pc, ht, _⟩ := (H.responsible hi).cas x r hop
  cases (hidle t).symm.trans ht

theorem not_rel_of_idle (hi : i ≤ n) (hidle : ∀ t, (e.state i).thread t = .idle) :
    (e.state i).mem.op x ≠ .rel r := by
  intro hop
  -- A record that is installed on `dest` is still installed on `replace`.
  have hplace := (H.mem hi).place (.inl hop)
  have hR := (H.mem hi).record hplace.1
  have hrep : (e.state i).mem.op ((H.ghost i).replace r) = .rel r := by
    rcases hplace.2 with rfl | rfl
    · exact hop
    · exact (hR.busy hop).1
  obtain ⟨t, c, pc, ht, _⟩ := (H.responsible hi).relocation _ r hrep hR.dest_ne_replace
  cases (hidle t).symm.trans ht

theorem flag_of_idle (hi : i ≤ n) (hidle : ∀ t, (e.state i).thread t = .idle) :
    ((e.state i).mem.op x).flag = .none ∨ ((e.state i).mem.op x).flag = .mark := by
  cases hf : ((e.state i).mem.op x).flag with
  | none => exact .inl rfl
  | mark => exact .inr rfl
  | childCas => exact (H.not_cas_of_idle hi hidle (Word.ext rfl hf)).elim
  | relocate => exact (H.not_rel_of_idle hi hidle (Word.ext rfl hf)).elim

end History

/-- When no call is running, nothing is pending but marks. -/
theorem quiescent (e : (system .plain).Exec n) (hi : i ≤ n)
    (hidle : ∀ t, (e.state i).thread t = .idle) : Quiescent e i := by
  obtain ⟨H⟩ := exists_history rfl e fun i _ => careful_of_fresh rfl
  have h := H.mem hi
  refine ⟨fun x => H.flag_of_idle hi hidle,
    fun j x r hj hinst => H.applied hj hi hinst (H.not_cas_of_idle hi hidle), fun j x r hj hinst => ?_⟩
  obtain ⟨hinst', hrep, hreloc⟩ := H.relocation_after hj hi hinst
  have hR := h.record hinst'
  have hpast := hinst'.resolve_left (H.not_rel_of_idle hi hidle)
  refine ⟨fun hst => H.not_rel_of_idle hi hidle (hR.ongoing_held hst), fun hst => ?_⟩
  rcases hR.released hpast with hfail | ⟨hpast', hmark⟩
  · cases hst.symm.trans hfail
  · have hlt := (hR.rewritten (hR.finished hpast').1).2.2.1
    rw [hreloc] at hlt
    rw [hrep] at hmark
    exact ⟨congrArg Word.flag hmark, hlt.ne'⟩

theorem quiescent_relocation : Quiescent runOfRelocation 80 := by
  refine quiescent runOfRelocation (by decide) fun t => ?_
  by_cases ht : t = 0
  · rw [ht]
    decide +kernel
  · have hlabel : ∀ j < 80, (runOfRelocation.label j).1 = 0 := by decide +kernel
    exact idle_of_labels runOfRelocation (by decide) fun j hj heq => ht (heq ▸ hlabel j hj)

end LockFree
