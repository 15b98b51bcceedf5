-- SUMMARY: Which accesses write an op field, and where the thread goes on.
import ConcurrentBST.LockFree.Program

/-!
# Writes of `op` fields

One list of the accesses that write an `op` field, with the word written and
the next program point. What the program does to these fields is read off from
it.
-/

namespace LockFree

variable {cfg : Config} {m m' : Mem} {t : Tid} {call : Call} {fresh x : Addr} {pc pc' : PC} {w : Word}

/-- The access at `pc` writes `w` into the `op` field of a node and goes on at `pc'`. -/
inductive WritesOp (cfg : Config) (m : Mem) : PC → Addr → Word → PC → Prop where
  /-- The initialisation of a new node at line 84. -/
  | create {f : FindVars} {isLeft : Bool} {fresh : Addr} {pc' : PC} :
      WritesOp cfg m (.addNew f isLeft) fresh (.ptr 0) pc'
  /-- Line 112. -/
  | add {f : FindVars} {newNode r : Addr} : m.op f.curr = f.currOp →
      WritesOp cfg m (.addCas f newNode r) f.curr ⟨r, .childCas⟩ (childStart m r f.curr .add)
  /-- Line 267. -/
  | mark {f : FindVars} : m.op f.curr = f.currOp →
      WritesOp cfg m (.removeMark f) f.curr (setFlag f.currOp .mark)
        (.markedLeft ⟨f.pred, f.predOp, f.curr, .remove f⟩)
  /-- Line 310. -/
  | install {f : FindVars} {r : Addr} : m.op f.curr = f.currOp →
      WritesOp cfg m (.removeInstall f r) f.curr ⟨r, .relocate⟩
        (.relocState r ⟨f.pred, f.predOp, f.curr, .remove f⟩)
  /-- Line 402. -/
  | clearCas {r dest : Addr} {ret : HelpRet} : m.op dest = ⟨r, .childCas⟩ →
      WritesOp cfg m (.childOp r dest ret) dest (.ptr r) (helpReturn cfg ret)
  /-- Line 438. -/
  | splice {a : HelpArgs} {r : Addr} : m.op a.pred = a.predOp →
      WritesOp cfg m (.markedCas a r) a.pred ⟨r, .childCas⟩ (childStart m r a.pred a.ret)
  /-- Line 472. -/
  | commit {r : Addr} {a : HelpArgs} : m.op (m.reloc r).dest = (m.reloc r).destOp →
      WritesOp cfg m (.relocDest r a) (m.reloc r).dest ⟨r, .relocate⟩ (.relocSucceed r a)
  /-- Line 497. -/
  | clearRelocation {r : Addr} {a : HelpArgs} : m.op (m.reloc r).dest = ⟨r, .relocate⟩ →
      WritesOp cfg m (.relocClear r a) (m.reloc r).dest (.ptr r) (relocTail cfg m r a true)
  /-- Line 511 after a success. -/
  | releaseMark {r : Addr} {a : HelpArgs} : m.op a.curr = ⟨r, .relocate⟩ →
      WritesOp cfg m (.relocCurr r a true) a.curr ⟨r, .mark⟩ (.markedLeft { a with
        predOp := if (m.reloc r).dest = a.pred then .ptr r else a.predOp })
  /-- Line 511 after a failure. -/
  | releaseFailed {r : Addr} {a : HelpArgs} : m.op a.curr = ⟨r, .relocate⟩ →
      WritesOp cfg m (.relocCurr r a false) a.curr (.ptr r) (relocReturn cfg r false a.ret)

/-- An access leaves the `op` fields alone or makes one of these writes. -/
theorem exec_op (he : exec cfg t call fresh m pc = some (m', pc')) :
    m'.op = m.op ∨ ∃ x w, m'.op = (m.setOp x w).op ∧ WritesOp cfg m pc x w pc' := by
  cases pc with
  | addNew f isLeft =>
    simp only [exec] at he
    split at he <;> cases he
    refine .inr ⟨fresh, .ptr 0, ?_, .create⟩
    funext y
    simp [createLFNode]
  | addCas f newNode casOp =>
    simp only [exec] at he
    split at he <;> cases he
    · next hop => exact .inr ⟨_, _, rfl, .add hop⟩
    · exact .inl rfl
  | removeMark f =>
    simp only [exec] at he
    split at he <;> cases he
    · next hop => exact .inr ⟨_, _, rfl, .mark hop⟩
    · exact .inl rfl
  | removeInstall f r =>
    simp only [exec] at he
    split at he <;> cases he
    · next hop => exact .inr ⟨_, _, rfl, .install hop⟩
    · exact .inl rfl
  | childOp op dest ret =>
    simp only [exec] at he
    split at he <;> cases he
    · next hop => exact .inr ⟨_, _, rfl, .clearCas hop⟩
    · exact .inl rfl
  | markedCas a casOp =>
    simp only [exec] at he
    split at he <;> cases he
    · next hop => exact .inr ⟨_, _, rfl, .splice hop⟩
    · exact .inl rfl
  | relocDest op a =>
    simp only [exec] at he
    by_cases hop : m.op (m.reloc op).dest = (m.reloc op).destOp
    · simp only [hop, if_true, true_or] at he
      cases he
      exact .inr ⟨_, _, rfl, .commit hop⟩
    · simp only [hop, if_false, false_or] at he
      split at he <;> cases he <;> exact .inl rfl
  | relocClear op a =>
    simp only [exec] at he
    split at he <;> cases he
    · next hop => exact .inr ⟨_, _, rfl, .clearRelocation hop⟩
    · exact .inl rfl
  | relocCurr op a result =>
    simp only [exec] at he
    by_cases hop : m.op a.curr = setFlag (.ptr op) .relocate
    · simp only [hop, if_true] at he
      cases result <;> cases he
      · exact .inr ⟨_, _, rfl, .releaseFailed hop⟩
      · exact .inr ⟨_, _, rfl, .releaseMark hop⟩
    · simp only [hop, if_false] at he
      split at he <;> cases he <;> exact .inl rfl
  | childSlot op dest ret =>
    simp only [exec] at he
    left
    split at he
    · split at he
      · split at he <;> cases he <;> simp
      · cases he
        simp
    · cases he
      rfl
  | _ =>
    left
    simp only [exec] at he
    repeat' split at he
    all_goals cases he
    all_goals first | rfl | simp

/-- The write behind a change of the `op` field of `x`. -/
theorem exec_op_ne (he : exec cfg t call fresh m pc = some (m', pc')) (hne : m'.op x ≠ m.op x) :
    WritesOp cfg m pc x (m'.op x) pc' := by
  rcases exec_op he with hop | ⟨y, w, hop, hw⟩
  · exact absurd (congrFun hop x) hne
  · rw [hop, Mem.setOp_op] at hne ⊢
    split at hne
    · next hxy =>
      subst hxy
      rwa [if_pos rfl]
    · exact absurd rfl hne

end LockFree
