-- SUMMARY: Every allocated node is in the tree, was in it, or belongs to the call that has made it.
import ConcurrentBST.LockFree.Quiescence
import ConcurrentBST.LockFree.Reclamation

/-!
# Holders of nodes

No node is lost on its way into the tree. Between line 103 and line 112 the thread
of `add` has it. From then on the record does, until line 365 links it in.
-/

namespace LockFree

variable {cfg : Config} {m m' : Mem} {g g' : Ghost} {s s' : State} {pc pc' : PC} {t : Tid}
  {call : Call} {fresh : Addr} {a b x : Addr} {spent : Addr → Prop} {l : Tid × Action}

/-- The record is installed and its update is the node. -/
def InRecord (m : Mem) (a : Addr) : Prop := ∃ x r, m.op x = .cas r ∧ (m.cas r).update = .ptr a

/-- What an allocated node is there for. -/
inductive Held (s : State) (g : Ghost) (a : Addr) : Prop where
  | born : a ∈ g.born → Held s g a
  | owned {t : Tid} : Owned s t (.node a) → Held s g a
  | record : InRecord s.mem a → Held s g a

-- ---------------------------------------------------------------------------
-- One access
-- ---------------------------------------------------------------------------

@[simp] theorem owned_hp {w : Word} : (PC.hp cfg w pc).owned = pc.owned := by
  unfold PC.hp
  split <;> rfl

@[simp] theorem owned_hpField {d : Bool} : (PC.hpField cfg x d pc).owned = pc.owned := by
  unfold PC.hpField
  split <;> rfl

theorem cell_of_update {k : Cell} (hk : k ≠ .node) (h : Function.update m.cell b k a = .node) :
    m.cell a = .node := by
  by_cases hab : a = b
  · subst hab
    exact absurd (by simpa using h) hk
  · simpa [hab] using h

theorem cell_delete (h : (m.delete b).cell a = .node) : m.cell a = .node :=
  cell_of_update (by simp) h

/-- A new node belongs to the thread that has asked for it. -/
theorem exec_newNode (he : exec cfg t call fresh m pc = some (m', pc')) (ha : m'.cell a = .node) :
    m.cell a = .node ∨ .node a ∈ pc'.owned := by
  cases pc with
  | addNew f isLeft =>
    simp only [exec] at he
    split at he <;> cases he
    by_cases hab : a = fresh
    · right
      simp [PC.owned, hab]
    · left
      simpa [Mem.newNode, hab] using ha
  | addOld | removeNew | markedNew =>
    simp only [exec] at he
    split at he <;> cases he
    exact .inl (cell_of_update (by simp) ha)
  | addCas f newNode casOp =>
    simp only [exec] at he
    split at he <;> cases he
    · exact .inl ha
    · exact .inl (cell_delete (cell_delete ha))
  | removeInstall f relocOp =>
    simp only [exec] at he
    split at he <;> cases he
    · exact .inl ha
    · exact .inl (cell_delete ha)
  | removeDelete f relocOp =>
    cases he
    exact .inl (cell_delete ha)
  | markedCas args casOp =>
    simp only [exec] at he
    split at he <;> cases he
    · exact .inl ha
    · exact .inl (cell_delete ha)
  | childSlot op dest ret =>
    simp only [exec] at he
    split at he
    · split at he
      · split at he <;> cases he <;> exact .inl (by simpa using ha)
      · cases he
        exact .inl ha
    · cases he
      exact .inl ha
  | childScan retired rest i op dest ret =>
    simp only [exec] at he
    split at he
    · cases he
      exact .inl ha
    · split at he <;> cases he
      · exact .inl ha
      · exact .inl (cell_delete ha)
  | _ =>
    left
    simp only [exec] at he
    (repeat' split at he) <;> cases he <;> simpa using ha

/-- It gives up the node by putting it into a record or by deleting it. -/
theorem exec_owned (he : exec cfg t call fresh m pc = some (m', pc')) (hprep : pc.Prepared m)
    (ho : .node a ∈ pc.owned) (ha : m'.cell a = .node) : .node a ∈ pc'.owned ∨ InRecord m' a := by
  cases pc with
  | hpChild | hpPut =>
    cases he
    exact .inl ho
  | addOld f isLeft newNode =>
    obtain rfl : a = newNode := by simpa [PC.owned] using ho
    simp only [exec] at he
    split at he <;> cases he
    left
    simp [PC.owned]
  | addCas f newNode casOp =>
    obtain rfl : a = newNode := by simpa [PC.owned] using ho
    simp only [exec] at he
    split at he <;> cases he
    · exact .inr ⟨f.curr, casOp, by simp [setFlag], hprep.2⟩
    · have hgone := cell_delete ha
      simp [Mem.delete] at hgone
  | relocState | relocDest | relocSucceed | relocFail | relocKey | relocClear | relocCurr =>
    simp only [PC.owned, HelpRet.owned] at ho
    split at ho <;> simp at ho
  | _ => simp [PC.owned] at ho

-- ---------------------------------------------------------------------------
-- Runs
-- ---------------------------------------------------------------------------

/-- The update of a record that is not installed any more is linked in. -/
theorem InRecord.evolves (h : InRecord m a) (hev : Evolution cfg spent m g m' g') :
    InRecord m' a ∨ a ∈ g'.born := by
  obtain ⟨x, r, hop, hupd⟩ := h
  have hcas : m'.cas r = m.cas r := hev.cas (hev.before.taken_cas (.inl hop))
  rcases hev.op x with hsame | hpast
  · exact .inl ⟨x, r, hsame.trans hop, hcas.symm ▸ hupd⟩
  · rw [hop] at hpast
    have hdone := hev.after.done hpast
    have hne : m'.op x ≠ m.op x := fun heq => hev.after.op_fresh x (heq ▸ hop ▸ hpast)
    rw [hcas] at hdone
    have hslot := hev.after.child_fresh x (m.cas r).isLeft
    rw [(hev.child x _).resolve_right fun hmoved => hne hmoved.2.1] at hslot
    rcases hev.before.slot hop with ⟨hexp, -⟩ | ⟨hnew, -⟩
    · exact absurd (hexp ▸ hdone) hslot
    · exact .inr (hev.born (hev.before.child_born (hnew.trans hupd)))

/-- What holds without hazard pointers. -/
structure Accounts (s : State) (g : Ghost) : Prop where
  inv : Inv .plain s g
  refs : RefInv s
  responsible : Responsible s
  held : ∀ a, s.mem.cell a = .node → Held s g a

namespace Accounts

theorem initial : Accounts .initial .initial where
  inv := Inv.initial
  refs := refInv_initial
  responsible := by constructor <;> intro x r hop <;> cases hop
  held := by
    intro a ha
    by_cases hroot : a = baseRoot
    · exact .born hroot
    · simp [State.initial, Mem.initial, hroot] at ha

theorem held_step (h : Accounts s g) (hev : Evolution .plain spent s.mem g s'.mem g')
    (hstep : Steps .plain s l s') (ha : s'.mem.cell a = .node) : Held s' g' a := by
  -- A thread that does not take the step keeps what it owns.
  have hother : ∀ {u v : Tid} {m' : Mem} {th : Thread}, u ≠ v → Owned s u (.node a) →
      Held ⟨m', Function.update s.thread v th⟩ g' a := by
    rintro u v m' th huv ⟨call, pc, hu, ho⟩
    exact .owned (t := u) ⟨call, pc, by simpa [huv] using hu, ho⟩
  cases hstep with
  | @invoke t call ht =>
    cases h.held a ha with
    | born hb => exact .born (hev.born hb)
    | record hr => exact .record hr
    | @owned u hu =>
      refine hother ?_ hu
      rintro rfl
      obtain ⟨_, _, hrun, -⟩ := hu
      cases hrun.symm.trans ht
  | @respond t call r ht =>
    cases h.held a ha with
    | born hb => exact .born (hev.born hb)
    | record hr => exact .record hr
    | @owned u hu =>
      refine hother ?_ hu
      rintro rfl
      obtain ⟨_, _, hrun, ho⟩ := hu
      cases hrun.symm.trans ht
      simp [PC.owned] at ho
  | @access t call pc pc' m' fresh ht he =>
    rcases exec_newNode he ha with hold | hnew
    · cases h.held a hold with
      | born hb => exact .born (hev.born hb)
      | record hr => exact (hr.evolves hev).elim .record .born
      | @owned u hu =>
        by_cases hut : u = t
        · subst hut
          obtain ⟨call', pc₁, hrun, ho⟩ := hu
          cases hrun.symm.trans ht
          rcases exec_owned he (h.refs.prepared ht) ho ha with ho | hr
          · exact .owned ⟨call, pc', Function.update_self .., ho⟩
          · exact .record hr
        · exact hother hut hu
    · exact .owned ⟨call, pc', Function.update_self .., hnew⟩

theorem step (h : Accounts s g) (hnext : (system .plain).next s l = some s') :
    ∃ g', Accounts s' g' ∧ Traces .plain s.mem g l s'.mem g' := by
  obtain ⟨g', hinv, htrace⟩ := h.inv.step rfl (careful_of_fresh rfl) hnext
  obtain ⟨spent, hev⟩ := htrace.evolves h.inv.mem
  have hev : Evolution .plain spent s.mem g s'.mem g' :=
    { hev with before := h.inv.mem, after := hinv.mem }
  have hstep := steps_of_next hnext
  refine ⟨g', ⟨hinv, h.refs.next (fun a hdel => ?_) hnext, h.responsible.step h.inv hev hstep,
    fun a => h.held_step hev hstep⟩, htrace⟩
  obtain ⟨rest, i, op, dest, ret, hat, -⟩ := hdel
  obtain ⟨t, call, _, _, ht, -⟩ := access_of_at hat hnext
  exact (h.inv.pc ht).elim

/-- When no call is running, an allocated node is in the tree or was in it. -/
theorem born_of_idle (h : Accounts s g) (hidle : ∀ t, s.thread t = .idle) (ha : s.mem.cell a = .node) :
    a ∈ g.born := by
  cases h.held a ha with
  | born hb => exact hb
  | @owned t ho =>
    obtain ⟨_, _, hrun, -⟩ := ho
    cases hrun.symm.trans (hidle t)
  | record hr =>
    obtain ⟨x, r, hop, -⟩ := hr
    obtain ⟨t, _, _, hrun, -⟩ := h.responsible.cas x r hop
    cases hrun.symm.trans (hidle t)

end Accounts

end LockFree
