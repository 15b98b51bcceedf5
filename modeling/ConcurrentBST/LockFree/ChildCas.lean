-- SUMMARY: An installed child CAS record takes effect exactly once.
import ConcurrentBST.LockFree.Releases

/-!
# Child CAS records

From line 112 or 438 on, the `op` field of `dest` holds the record until it is
cleared at line 402. In that time the slot moves once, whoever performs line
365. Afterwards the slot cannot hold `expected` again, because a null-flagged
pointer carries the address of a node that is gone for good.
-/

namespace LockFree

variable {cfg : Config} {m : Mem} {g : Ghost} {s : State} {l : Tid × Action} {x y r : Addr}
  {d : Bool} {n i j k : Nat} {pc : PC}

/-- The CAS of line 112 or 438 is about to put the record `r` into `x->op`. -/
def State.installsChildCas (s : State) (l : Tid × Action) (x r : Addr) : Prop :=
  (∃ f newNode, s.at l = some (.addCas f newNode r) ∧ f.curr = x ∧ s.mem.op x = f.currOp) ∨
  ∃ a, s.at l = some (.markedCas a r) ∧ a.pred = x ∧ s.mem.op x = a.predOp

/-- What becomes of the record `op` at address `r` that step `i` installs on `dest`. -/
structure TakesEffectOnce (e : (system cfg).Exec n) (i : Nat) (dest r : Addr) (op : ChildCasOp) :
    Prop where
  installed : (e.state (i + 1)).mem.op dest = .cas r
  record : ∀ j, i ≤ j → j ≤ n → (e.state j).mem.cas r = op
  /-- At installation. -/
  slot : (e.state i).mem.child dest op.isLeft = op.expected ∧
    (e.state (i + 1)).mem.child dest op.isLeft = op.expected
  /-- The record stays in `dest->op` without a break. -/
  held : ∀ j k, i < j → j ≤ k → k ≤ n → (e.state k).mem.op dest = .cas r →
    (e.state j).mem.op dest = .cas r
  moves : ∀ j, i < j → j < n → (e.state j).mem.op dest = .cas r →
    (e.state (j + 1)).mem.child dest op.isLeft ≠ (e.state j).mem.child dest op.isLeft →
    (e.state j).mem.child dest op.isLeft = op.expected ∧
      (e.state (j + 1)).mem.child dest op.isLeft = op.update
  once : ∀ j k, i < j → i < k → j < n → k < n →
    (e.state j).mem.op dest = .cas r → (e.state k).mem.op dest = .cas r →
    (e.state (j + 1)).mem.child dest op.isLeft ≠ (e.state j).mem.child dest op.isLeft →
    (e.state (k + 1)).mem.child dest op.isLeft ≠ (e.state k).mem.child dest op.isLeft → j = k
  /-- Before the tag goes back to `NONE` the slot has moved. -/
  leaves : ∀ j, i < j → j < n → (e.state j).mem.op dest = .cas r →
    (e.state (j + 1)).mem.op dest ≠ .cas r → (e.state (j + 1)).mem.op dest = .ptr r ∧
      ∃ k, i < k ∧ k < j ∧
        (e.state (k + 1)).mem.child dest op.isLeft ≠ (e.state k).mem.child dest op.isLeft
  other : ∀ j, i ≤ j → j ≤ n → (e.state j).mem.op dest = .cas r ∨ j = i →
    (e.state j).mem.child dest (!op.isLeft) = (e.state i).mem.child dest (!op.isLeft)
  /-- A late helper changes nothing. -/
  late : ∀ j k pc, i < j → j ≤ k → k < n → (e.state j).mem.op dest ≠ .cas r →
    (e.state k).at (e.label k) = some pc → pc.childCas = some r →
    (e.state (k + 1)).mem.node = (e.state k).mem.node

-- ---------------------------------------------------------------------------
-- One step
-- ---------------------------------------------------------------------------

/-- Installation finds the slot as the record expects it. -/
theorem History.installs {e : (system cfg).Exec n} (H : History e) (hi : i < n)
    (h : (e.state i).installsChildCas (e.label i) x r) : r ≠ 0 ∧
      (e.state (i + 1)).mem = (e.state i).mem.setOp x (.cas r) ∧
      (e.state i).mem.child x ((e.state i).mem.cas r).isLeft = ((e.state i).mem.cas r).expected := by
  rcases h with ⟨f, newNode, hat, rfl, hop⟩ | ⟨a, hat, rfl, hop⟩
  · obtain ⟨t, call, fresh, pc', hpc, he⟩ := H.access hi hat
    obtain ⟨_, _, _, _, _, hr, _, _, hslot⟩ := hpc
    simp only [exec, if_pos hop, setFlag_ptr, Option.some.injEq, Prod.mk.injEq] at he
    exact ⟨hr.ne_zero, he.1.symm, hslot hop⟩
  · obtain ⟨t, call, fresh, pc', hpc, he⟩ := H.access hi hat
    obtain ⟨_, _, hr, hexp, _, hslot⟩ := hpc
    simp only [exec, if_pos hop, setFlag_ptr, Option.some.injEq, Prod.mk.injEq] at he
    exact ⟨hr.ne_zero, he.1.symm, (hslot hop).trans hexp.symm⟩

/-- After the record has been cleared, no access of `helpChildCAS` for it succeeds. -/
theorem History.late {e : (system .plain).Exec n} (H : History e) (hk : k < n)
    (hpast : .cas r ∈ (H.ghost k).pastOp x) (hat : (e.state k).at (e.label k) = some pc)
    (hpc : pc.childCas = some r) : (e.state (k + 1)).mem.node = (e.state k).mem.node := by
  obtain ⟨t, call, fresh, pc', hp, he⟩ := H.access hk hat
  have h := H.mem hk.le
  generalize (e.state (k + 1)).mem = m' at he ⊢
  cases pc with
  | hpChild y d next =>
    cases he
    rfl
  | hpPut w next =>
    cases he
    rfl
  | childSlot op dest ret =>
    obtain rfl : op = r := Option.some.inj hpc
    obtain rfl : dest = x := h.unique hp.1 (.inr hpast)
    have hslot : (e.state k).mem.child dest ((e.state k).mem.cas op).isLeft ≠
        ((e.state k).mem.cas op).expected := by
      intro heq
      exact h.child_fresh dest _ (heq ▸ h.done hpast)
    rw [exec, if_neg hslot] at he
    cases he
    rfl
  | childScan a rest i op dest ret => exact hp.elim
  | childOp op dest ret =>
    obtain rfl : op = r := Option.some.inj hpc
    obtain rfl : dest = x := h.unique hp.1 (.inr hpast)
    have hop : (e.state k).mem.op dest ≠ setFlag (.ptr op) .childCas :=
      fun heq => h.op_fresh dest (heq ▸ hpast)
    rw [exec, if_neg hop] at he
    cases he
    rfl
  | _ => cases hpc

-- ---------------------------------------------------------------------------
-- Runs
-- ---------------------------------------------------------------------------

/-- Every child CAS that is installed takes effect exactly once. -/
theorem takes_effect_once (e : (system .plain).Exec n) (hi : i < n)
    (h : (e.state i).installsChildCas (e.label i) x r) :
    TakesEffectOnce e i x r ((e.state i).mem.cas r) := by
  obtain ⟨H⟩ := exists_history rfl e fun i _ => careful_of_fresh rfl
  obtain ⟨hr, hset, hslot⟩ := H.installs hi h
  generalize hop : (e.state i).mem.cas r = op at *
  have hinst : (e.state (i + 1)).mem.op x = .cas r := by simp [hset]
  have hcas : (e.state (i + 1)).mem.cas r = op := by simp [hset, hop]
  have hslot' : (e.state (i + 1)).mem.child x op.isLeft = op.expected := by simp [hset, hslot]
  have hever : ∀ {j}, i < j → j ≤ n → everOp (e.state j).mem (H.ghost j) x (.cas r) :=
    fun hij hj => H.ever hij hj (.inl hinst)
  have hrec : ∀ {j}, i < j → j ≤ n → (e.state j).mem.cas r = op :=
    fun hij hj => (H.cas_eq hij hj (.inl hinst) hr).trans hcas
  have hheld : ∀ j k, i < j → j ≤ k → k ≤ n → (e.state k).mem.op x = .cas r →
      (e.state j).mem.op x = .cas r := by
    intro j k hij hjk hk hopk
    refine (hever hij (by omega)).resolve_right fun hpast => ?_
    exact (H.mem hk).op_fresh x (hopk ▸ H.pastOp hjk hk hpast)
  -- While the record is installed a change of the slot is the move it describes.
  have hmoves : ∀ j d, i < j → j < n → (e.state j).mem.op x = .cas r →
      (e.state (j + 1)).mem.child x d ≠ (e.state j).mem.child x d → d = op.isLeft ∧
      (e.state j).mem.child x d = op.expected ∧ (e.state (j + 1)).mem.child x d = op.update := by
    intro j d hij hj hopj hne
    obtain ⟨_, _, _, _, hc, _⟩ := (H.traces j hj).change
    obtain ⟨r', hr', hd, hexp, hupd⟩ := hc.child_cases (H.mem hj.le) hne
    obtain rfl : r = r' := congrArg Word.addr (hopj.symm.trans hr')
    rw [hrec hij hj.le] at hd hexp hupd
    exact ⟨hd, hexp, hupd⟩
  -- Once it has moved, the slot never holds `expected` again.
  have hgone : ∀ j k, i < j → j < k → k ≤ n → (e.state j).mem.op x = .cas r →
      (e.state (j + 1)).mem.child x op.isLeft ≠ (e.state j).mem.child x op.isLeft →
      (e.state k).mem.child x op.isLeft ≠ op.expected := by
    intro j k hij hjk hk hopj hne heq
    obtain ⟨spent, hev⟩ := H.evolution (i := j) (by omega)
    rcases hev.child x op.isLeft with hsame | ⟨_, _, hpast, _⟩
    · exact hne hsame
    · rw [(hmoves j _ hij (by omega) hopj hne).2.1] at hpast
      have hpast' := H.preserved (P := fun _ g => op.expected ∈ g.pastChild x op.isLeft)
        (fun _ _ _ _ _ hev h => hev.pastChild _ _ h) hjk hk hpast
      exact (H.mem hk).child_fresh x _ (heq ▸ hpast')
  refine ⟨hinst, fun j hij hj => ?_, ⟨hslot, hslot'⟩, hheld, fun j hij hj hopj hne => ?_,
    fun j k hij hik hj hk hopj hopk hnej hnek => ?_, fun j hij hj hopj hne => ?_,
    fun j hij hj hopj => ?_, fun j k pc hij hjk hk hnop hat hpc => ?_⟩
  · rcases hij.eq_or_lt with rfl | hij
    · exact hop
    · exact hrec hij hj
  · exact (hmoves j _ hij hj hopj hne).2
  · rcases Nat.lt_trichotomy j k with hjk | hjk | hjk
    · exact absurd (hmoves k _ hik hk hopk hnek).2.1 (hgone j k hij hjk hk.le hopj hnej)
    · exact hjk
    · exact absurd (hmoves j _ hij hj hopj hnej).2.1 (hgone k j hik hjk hj.le hopk hnek)
  · have hrel := H.releases hj (hopj ▸ hne) (by simp [hopj])
    generalize hw : (e.state (j + 1)).mem.op x = w at hrel
    cases hrel with
    | @cas r' hr' hpast =>
      obtain rfl : r = r' := congrArg Word.addr (hopj.symm.trans hr')
      rw [hrec hij hj.le] at hpast
      obtain ⟨k, hik, hkj, hk, hk'⟩ := Lts.exists_step
        (P := fun k => (e.state k).mem.child x op.isLeft ≠ op.expected) hij (by simpa using hslot')
        fun heq => (H.mem hj.le).child_fresh x _ (heq ▸ hpast)
      rw [not_not] at hk
      exact ⟨rfl, k, hik, hkj, fun heq => hk' (heq.trans hk)⟩
    | dest hr' | mark hr' | failed hr' => cases congrArg Word.flag (hopj.symm.trans hr')
  · rcases hij.eq_or_lt with rfl | hij
    · rfl
    · have hopj := hopj.resolve_right (by omega)
      clear hslot hslot' hop
      induction j, hij using Nat.le_induction with
      | base => simp [hset]
      | succ j hlt ih =>
        have hij : i < j := hlt
        have hopj' := hheld j (j + 1) hij (by omega) hj hopj
        refine Eq.trans ?_ (ih (by omega) (by omega) (.inl hopj') hopj')
        by_contra hne
        have := (hmoves j _ hij hj hopj' hne).1
        simp at this
  · have hpast := (hever hij (by omega)).resolve_left hnop
    exact H.late hk (H.pastOp hjk hk.le hpast) hat hpc

theorem takes_effect_once_add :
    TakesEffectOnce runOfAdd 7 baseRoot 7 ⟨false, .null 0, .ptr 6⟩ :=
  takes_effect_once runOfAdd (by decide) (.inl ⟨_, _, rfl, rfl, rfl⟩)

end LockFree
