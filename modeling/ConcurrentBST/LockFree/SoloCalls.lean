-- SUMMARY: A call that runs alone returns, whatever other threads have left unfinished.
import ConcurrentBST.LockFree.Agreement
import ConcurrentBST.LockFree.Shape
import ConcurrentBST.LockFree.SoloHelpers

/-!
# Calls running alone

A search goes down the tree and either gets to its end or finds a flag. Then it
calls a helper, and afterwards less work is pending than before. A call starts
again only when less work is pending, or when the node whose replacement it was
looking for has changed, which it does not do a second time.
-/

namespace LockFree

variable {cfg : Config} {m m' : Mem} {g g' : Ghost} {t : Tid} {call : Call} {pc : PC}
  {Q : Mem → PC → Prop} {f : FindVars} {caller : FindCaller} {result : FindResult}

theorem findStart_eq (hcfg : cfg.hazardPointers = false) :
    findStart cfg f = .findOp { f with curr := f.caller.auxRoot } := by
  simp [findStart, PC.hp, hcfg]

-- ---------------------------------------------------------------------------
-- find
-- ---------------------------------------------------------------------------

/-- The ways a search can leave `find`. -/
structure FindExits (cfg : Config) (t : Tid) (call : Call) (Q : Mem → PC → Prop) (m : Mem)
    (g : Ghost) (caller : FindCaller) : Prop where
  /-- Back at the label `retry` after a helper. -/
  retry : ∀ f m' g', f.caller = caller → Ready cfg t call m' g' (findStart cfg f) →
    pending m' g' < pending m g → Ends cfg t call Q m' (findStart cfg f)
  answer : ∀ f result g', f.caller = caller → result ≠ .abort → m.op f.curr = f.currOp →
    f.curr = caller.auxRoot ∨ m.op f.pred = f.predOp →
    Ready cfg t call m g' (findReturn cfg call f result) → Later g g' →
    Ends cfg t call Q m (findReturn cfg call f result)
  abort : ∀ f g', f.caller = caller → caller.auxRoot ≠ baseRoot →
    (m.op caller.auxRoot).flag ≠ .none → Ready cfg t call m g' (findReturn cfg call f .abort) →
    Later g g' → Ends cfg t call Q m (findReturn cfg call f .abort)

theorem Later.pending_le (hl : Later g g') (h : TreeInv m g) (h' : TreeInv m g') :
    pending m g' ≤ pending m g :=
  h.pending_le h' hl (.of_eq rfl)

/-- What the thread has learnt does not matter for the memory. -/
theorem FindExits.later (hx : FindExits cfg t call Q m g caller) (hl : Later g g')
    (h : TreeInv m g) (h' : TreeInv m g') : FindExits cfg t call Q m g' caller where
  retry f m₁ g₁ hf h₁ hlt := hx.retry f m₁ g₁ hf h₁ (hlt.trans_le (hl.pending_le h h'))
  answer f result g₁ hf hr hc hp h₁ hl₁ := hx.answer f result g₁ hf hr hc hp h₁ (hl.trans hl₁)
  abort f g₁ hf ha hfl h₁ hl₁ := hx.abort f g₁ hf ha hfl h₁ (hl.trans hl₁)

namespace Ready

variable (hcfg : cfg.hazardPointers = false)

include hcfg

/-- `help` takes the flag away, and in the case of a mark the node. -/
theorem ends_help {pred curr : Addr} {predOp : Word}
    (h : Ready cfg t call m g (help cfg m ⟨pred, predOp, curr, .retry f⟩ (m.op curr)))
    (hflag : (m.op curr).flag ≠ .none) (hmem : curr ∈ g.tree.nodes) (hpred : m.op pred = predOp)
    (hnext : ∀ m' g', Ready cfg t call m' g' (findStart cfg f) →
      pending m' g' < pending m g → Ends cfg t call Q m' (findStart cfg f)) :
    Ends cfg t call Q m (help cfg m ⟨pred, predOp, curr, .retry f⟩ (m.op curr)) := by
  cases hf : (m.op curr).flag with
  | none => exact absurd hf hflag
  | childCas =>
    simp only [help, getFlag_eq, hf] at h ⊢
    refine h.ends_childStart hcfg (Word.ext rfl hf) fun m' g' h' hl' hop _ => ?_
    refine hnext m' g' h' (h.mem.pending_lt h'.mem.toTreeInv hl' (.of_ptr hop) hmem (.inl ?_))
    rw [hop, hf, Function.update_self]
    simp [Flag.weight]
  | relocate =>
    simp only [help, getFlag_eq, hf] at h ⊢
    exact h.ends_relocState hcfg rfl (Word.ext rfl hf) fun m' g' h' _ => hnext m' g' h'
  | mark =>
    simp only [help, getFlag_eq, hf] at h ⊢
    refine h.ends_markedLeft hcfg fun m' g' h' hl' hlight hgone => ?_
    refine hnext m' g' h' (h.mem.pending_lt h'.mem.toTreeInv hl' hlight hmem (.inr ⟨hgone hpred, ?_⟩))
    simp [hf, Flag.weight]

/-- Lines 222 and 229 find what they have found before. -/
theorem ends_findEnd (h : Ready cfg t call m g (findEnd f result)) (hres : result ≠ .abort)
    (hx : FindExits cfg t call Q m g f.caller) (hcurr : m.op f.curr = f.currOp)
    (hlast : m.op f.lastRight = f.lastRightOp)
    (hpred : f.curr = f.caller.auxRoot ∨ m.op f.pred = f.predOp) :
    Ends cfg t call Q m (findEnd f result) := by
  have hfinish : ∀ g₁, Ready cfg t call m g₁ (.findCurr f result) → Later g g₁ →
      Ends cfg t call Q m (.findCurr f result) := by
    intro g₁ h₁ hl₁
    have he : ∀ fresh, exec cfg t call fresh m (.findCurr f result) =
        some (m, findReturn cfg call f result) := fun _ => by simp [exec, hcurr]
    refine h₁.step hcfg (by simp) he fun g₂ h₂ hl₂ => ?_
    exact hx.answer f result g₂ rfl hres hcurr hpred h₂ (hl₁.trans hl₂)
  unfold findEnd at h ⊢
  split
  · next hfound =>
    rw [if_pos hfound] at h
    exact hfinish g h .refl
  · next hfound =>
    rw [if_neg hfound] at h
    have he : ∀ fresh, exec cfg t call fresh m (.findLastRight f result) =
        some (m, .findCurr f result) := fun _ => by simp [exec, hlast]
    exact h.step hcfg (by simp) he fun g₁ h₁ hl₁ => hfinish g₁ h₁ hl₁

/-- Line 171. -/
theorem ends_findLoop {d : Bool} (h : Ready cfg t call m g (findLoop f (m.child f.curr d) result))
    (hres : result ≠ .abort) (hx : FindExits cfg t call Q m g f.caller)
    (hcurr : m.op f.curr = f.currOp) (hlast : m.op f.lastRight = f.lastRightOp)
    (hpred : f.curr = f.caller.auxRoot ∨ m.op f.pred = f.predOp)
    (hgo : ∀ c, m.childPtr f.curr d = some c →
      Ready cfg t call m g (.findCurrOp { f with pred := f.curr, predOp := f.currOp, curr := c }) →
      Ends cfg t call Q m (.findCurrOp { f with pred := f.curr, predOp := f.currOp, curr := c })) :
    Ends cfg t call Q m (findLoop f (m.child f.curr d) result) := by
  by_cases hnull : isNull (m.child f.curr d) = true
  · have hloop : findLoop f (m.child f.curr d) result = findEnd f result := by
      simp [findLoop, hnull]
    rw [hloop] at h ⊢
    exact h.ends_findEnd hcfg hres hx hcurr hlast hpred
  · rw [Bool.not_eq_true] at hnull
    have hc := h.mem.child_eq_ptr hnull
    have h0 : m.child f.curr d ≠ .ptr 0 := by
      intro heq
      exact h.mem.zero_unborn (h.mem.child_born heq)
    have hloop : findLoop f (m.child f.curr d) result = .findCurrOp { f with
        pred := f.curr, predOp := f.currOp, curr := (m.child f.curr d).addr } := by
      simp [findLoop, hnull, h0]
    rw [hloop] at h ⊢
    exact hgo _ (h.mem.childPtr_eq_some.mpr hc) h

/-- The loop of `find`, by induction on the tree below `curr`. -/
theorem ends_findCurrOp {tr : BinaryTree Addr} (hu : Unfolds m.childPtr (some f.curr) tr)
    (h : Ready cfg t call m g (.findCurrOp f)) (hx : FindExits cfg t call Q m g f.caller)
    (hpred : m.op f.pred = f.predOp) (hlast : m.op f.lastRight = f.lastRightOp) :
    Ends cfg t call Q m (.findCurrOp f) := by
  generalize hc : some f.curr = c at hu
  induction hu generalizing f g with
  | nil => cases hc
  | @node x l r _ _ ihl ihr =>
    obtain rfl := Option.some.inj hc
    obtain ⟨hmem, _⟩ := h.pc.2.link.below h.mem hpred
    by_cases hflag : (m.op f.curr).flag = .none
    · -- line 189
      have he : ∀ fresh, exec cfg t call fresh m (.findCurrOp f) =
          some (m, .findKey { f with currOp := m.op f.curr }) := fun _ => by simp [exec, hflag]
      refine h.step hcfg (by simp) he fun g₁ h₁ hl₁ => ?_
      generalize hf' : ({ f with currOp := m.op f.curr } : FindVars) = f' at h₁ ⊢
      have hx₁ : FindExits cfg t call Q m g₁ f'.caller := by
        rw [← hf']
        exact hx.later hl₁ h.mem.toTreeInv h₁.mem.toTreeInv
      have hcurr : m.op f'.curr = f'.currOp := by rw [← hf']
      have hpred' : f'.curr = f'.caller.auxRoot ∨ m.op f'.pred = f'.predOp :=
        .inr (by rw [← hf', hpred])
      have hlast' : m.op f'.lastRight = f'.lastRightOp := by rw [← hf', hlast]
      rcases lt_trichotomy call.key (m.key f'.curr) with hk | hk | hk
      · have he : ∀ fresh, exec cfg t call fresh m (.findKey f') = some (m, .findChild f' true) :=
          fun _ => by simp [exec, hk, PC.hpField, hcfg]
        refine h₁.step hcfg (by simp) he fun g₂ h₂ hl₂ => ?_
        have hx₂ := hx₁.later hl₂ h₁.mem.toTreeInv h₂.mem.toTreeInv
        refine h₂.step hcfg (by simp) (fun _ => rfl) fun g₃ h₃ hl₃ => ?_
        have hx₃ := hx₂.later hl₃ h₂.mem.toTreeInv h₃.mem.toTreeInv
        refine h₃.ends_findLoop hcfg (by simp) hx₃ hcurr hlast' hpred' fun c hc h₄ => ?_
        exact ihl h₄ hx₃ hcurr hlast' (by rw [← hc, ← hf'])
      · have he : ∀ fresh, exec cfg t call fresh m (.findKey f') = some (m, findEnd f' .found) :=
          fun _ => by simp [exec, hk]
        refine h₁.step hcfg (by simp) he fun g₂ h₂ hl₂ => ?_
        exact h₂.ends_findEnd hcfg (by simp) (hx₁.later hl₂ h₁.mem.toTreeInv h₂.mem.toTreeInv) hcurr
          hlast' hpred'
      · have he : ∀ fresh, exec cfg t call fresh m (.findKey f') = some (m, .findChild f' false) :=
          fun _ => by simp [exec, hk, hk.not_gt, PC.hpField, hcfg]
        refine h₁.step hcfg (by simp) he fun g₂ h₂ hl₂ => ?_
        have hx₂ := hx₁.later hl₂ h₁.mem.toTreeInv h₂.mem.toTreeInv
        refine h₂.step hcfg (by simp) (fun _ => rfl) fun g₃ h₃ hl₃ => ?_
        have hx₃ := hx₂.later hl₃ h₂.mem.toTreeInv h₃.mem.toTreeInv
        refine h₃.ends_findLoop hcfg (by simp) hx₃ hcurr hcurr hpred' fun c hc h₄ => ?_
        exact ihr h₄ hx₃ hcurr hcurr (by rw [← hc, ← hf'])
    · -- line 178
      have he : ∀ fresh, exec cfg t call fresh m (.findCurrOp f) =
          some (m, help cfg m ⟨f.pred, f.predOp, f.curr, .retry { f with currOp := m.op f.curr }⟩
            (m.op f.curr)) := fun _ => by simp [exec, hflag]
      refine h.step hcfg (by simp) he fun g₁ h₁ hl₁ => ?_
      have hx₁ := hx.later hl₁ h.mem.toTreeInv h₁.mem.toTreeInv
      have hmem₁ : f.curr ∈ g₁.tree.nodes := h₁.mem.reaches_iff.mp (h.mem.reaches_iff.mpr hmem)
      exact h₁.ends_help hcfg hflag hmem₁ hpred fun m' g' => hx₁.retry _ m' g' rfl

/-- `find` from the label `retry`. -/
theorem ends_find (h : Ready cfg t call m g (findStart cfg f))
    (hx : FindExits cfg t call Q m g f.caller) : Ends cfg t call Q m (findStart cfg f) := by
  rw [findStart_eq hcfg] at h ⊢
  obtain ⟨⟨_, hcaller⟩, -⟩ := h.pc
  generalize hf' : ({ f with curr := f.caller.auxRoot } : FindVars) = f' at h hcaller ⊢
  have haux : f'.curr = f'.caller.auxRoot := by rw [← hf']
  have hx : FindExits cfg t call Q m g f'.caller := by rwa [← hf']
  clear hf'
  by_cases hflag : (m.op f'.curr).flag = .none
  · have he : ∀ fresh, exec cfg t call fresh m (.findOp f') =
        some (m, .findNext { f' with currOp := m.op f'.curr }) := fun _ => by
      simp [exec, hflag, PC.hpField, hcfg]
    refine h.step hcfg (by simp) he fun g₁ h₁ hl₁ => ?_
    have hx₁ := hx.later hl₁ h.mem.toTreeInv h₁.mem.toTreeInv
    refine h₁.step hcfg (by simp) (fun _ => rfl) fun g₂ h₂ hl₂ => ?_
    have hx₂ := hx₁.later hl₂ h₁.mem.toTreeInv h₂.mem.toTreeInv
    refine ends_findLoop hcfg h₂ (by simp) hx₂ rfl rfl (.inl haux) fun c hc h₃ => ?_
    obtain ⟨hmem, _⟩ := h₃.pc.2.link.below h₃.mem rfl
    obtain ⟨tr, htr⟩ := h₃.mem.fits.exists_spans h₃.mem.lawful h₃.mem.finite hmem
    exact ends_findCurrOp hcfg htr.unfolds h₃ hx₂ rfl rfl
  · by_cases hroot : f'.caller.auxRoot = baseRoot
    · -- line 145
      have hcas := (h.mem.root_op.resolve_left (hroot ▸ haux ▸ hflag))
      rw [← hroot, ← haux] at hcas
      have he : ∀ fresh, exec cfg t call fresh m (.findOp f') =
          some (m, childStart m (m.op f'.curr).addr f'.curr
            (.retry { f' with currOp := m.op f'.curr })) := fun _ => by
        simp [exec, hcas, hroot]
      refine h.step hcfg (by simp) he fun g₁ h₁ hl₁ => ?_
      have hx₁ := hx.later hl₁ h.mem.toTreeInv h₁.mem.toTreeInv
      refine h₁.ends_childStart hcfg (Word.ext rfl hcas) fun m' g' h' hl' hop _ => ?_
      refine hx₁.retry _ m' g' rfl h' ?_
      have hmem : f'.curr ∈ g₁.tree.nodes := by
        rw [haux, hroot]
        exact h₁.mem.root
      refine h₁.mem.pending_lt h'.mem.toTreeInv hl' (.of_ptr hop) hmem (.inl ?_)
      rw [hop, hcas, Function.update_self]
      simp [Flag.weight]
    · have he : ∀ fresh, exec cfg t call fresh m (.findOp f') =
          some (m, findReturn cfg call { f' with currOp := m.op f'.curr } .abort) := fun _ => by
        simp [exec, hflag, hroot]
      refine h.step hcfg (by simp) he fun g₁ h₁ hl₁ => ?_
      exact hx.abort _ g₁ rfl hroot (haux ▸ hflag) h₁ hl₁

end Ready

-- ---------------------------------------------------------------------------
-- Calls
-- ---------------------------------------------------------------------------

/-- The call is about to return, and no more than `p` is pending. -/
def Returns (cfg : Config) (t : Tid) (call : Call) (p : Nat) (m : Mem) (pc : PC) : Prop :=
  (∃ r, pc = .ret r) ∧ ∃ g, Ready cfg t call m g pc ∧ pending m g ≤ p

/-- A call that starts again with less pending work returns. -/
def Retries (cfg : Config) (t : Tid) (call : Call) (Q : Mem → PC → Prop) (m : Mem) (g : Ghost) :
    Prop :=
  ∀ f m' g', Ready cfg t call m' g' (findStart cfg f) → pending m' g' < pending m g →
    Ends cfg t call Q m' (findStart cfg f)

theorem Retries.later (h : Retries cfg t call Q m g) (hl : Later g g') (hm : TreeInv m g)
    (hm' : TreeInv m g') : Retries cfg t call Q m g' :=
  fun f m₁ g₁ h₁ hlt => h f m₁ g₁ h₁ (hlt.trans_le (hl.pending_le hm hm'))

namespace Ready

variable {p : Nat}

theorem ends_ret {r : Result} (h : Ready cfg t call m g (.ret r)) (hp : pending m g ≤ p) :
    Ends cfg t call (Returns cfg t call p) m (.ret r) :=
  .done ⟨⟨r, rfl⟩, g, h, hp⟩

variable (hcfg : cfg.hazardPointers = false)

include hcfg

/-- `remove` from line 283, when the node that loses its key has not changed. -/
theorem ends_removeCheck {aux : Addr} {auxOp : Word}
    (h : Ready cfg t call m g (.removeCheck f aux auxOp)) (haux : m.op aux = auxOp)
    (hcurr : m.op f.curr = f.currOp) (hpred : f.curr = aux ∨ m.op f.pred = f.predOp)
    (hp : pending m g ≤ p) :
    Ends cfg t call (Returns cfg t call p) m (.removeCheck f aux auxOp) := by
  have he : ∀ fresh, exec cfg t call fresh m (.removeCheck f aux auxOp) =
      some (m, .removeNew f aux auxOp) := fun _ => by simp [exec, haux, PC.hp, hcfg]
  refine h.step hcfg (by simp) he fun g₁ h₁ hl₁ => ?_
  obtain ⟨_, _, hcand⟩ := h₁.pc
  have hne := (hcand.slot hcurr).1
  replace hpred := hpred.resolve_left hne
  have hpc := hcand.link.ne h₁.mem hpred
  refine h₁.alloc hcfg (by simp) (fun _ => rfl) fun r g₂ _ h₂ hl₂ => ?_
  -- line 310
  have he : ∀ fresh, exec cfg t call fresh (m.newReloc r ⟨.ongoing, aux, auxOp, call.key,
      m.key f.curr⟩) (.removeInstall f r) = some ((m.newReloc r ⟨.ongoing, aux, auxOp, call.key,
      m.key f.curr⟩).setOp f.curr (.rel r), .relocState r ⟨f.pred, f.predOp, f.curr, .remove f⟩) :=
    fun _ => by simp [exec, hcurr]
  refine h₂.step hcfg (by simp) he fun g₃ h₃ hl₃ => ?_
  refine h₃.ends_relocState_own hcfg ?_ ?_ ?_ ?_ ?_ fun m' g' h' hl' hlight hgone => ?_
  · simp [Mem.state]
  · simp
  · simp [hne.symm, haux]
  · simp [hne.symm]
  · simp [hpc, hpred]
  · refine h'.ends_ret (le_trans ?_ hp)
    refine h.mem.pending_le h'.mem.toTreeInv (hl₁.trans (hl₂.trans (hl₃.trans hl'))) fun y hy => ?_
    have hyc : y ≠ f.curr := by
      rintro rfl
      exact hgone hy
    apply (hlight y hy).trans
    simp [hyc]

/-- A `remove` that looks for a replacement. -/
theorem ends_replacement {aux : Addr} {auxOp : Word}
    (h : Ready cfg t call m g (findStart cfg f)) (hf : f.caller = .replacement aux auxOp)
    (haux : m.op aux = auxOp) (hp : pending m g ≤ p)
    (hr : Retries cfg t call (Returns cfg t call p) m g) :
    Ends cfg t call (Returns cfg t call p) m (findStart cfg f) := by
  have hcaller : CallerInv m g call f.caller := by
    rw [findStart_eq hcfg] at h
    exact h.pc.1.2
  refine h.ends_find hcfg ⟨fun f' m' g' _ => hr f' m' g', fun f' result g' hf' hres hcurr hpred h' hl' => ?_,
    fun f' g' _ _ hflag => absurd ?_ hflag⟩
  · rw [hf] at hf' hpred
    simp only [findReturn, hf', hres, if_false] at h' ⊢
    exact h'.ends_removeCheck hcfg haux hcurr hpred ((hl'.pending_le h.mem.toTreeInv
      h'.mem.toTreeInv).trans hp)
  · rw [hf] at hcaller ⊢
    simp only [FindCaller.auxRoot, haux]
    exact hcaller.2.1.flag

/-- `add` from line 84. -/
theorem ends_addNew {d : Bool} (h : Ready cfg t call m g (.addNew f d))
    (hcurr : m.op f.curr = f.currOp) (hp : pending m g ≤ p) :
    Ends cfg t call (Returns cfg t call p) m (.addNew f d) := by
  have he : ∀ fresh, exec cfg t call fresh m (.addNew f d) =
      if m.allocatable cfg fresh then some (m.newNode fresh (createLFNode call.key),
        .addOld f d fresh) else none := fun _ => by simp [exec, PC.hp, PC.hpField, hcfg]
  refine h.alloc hcfg (by simp) he fun n g₁ ha h₁ hl₁ => ?_
  -- A new node looks like one that was never there.
  have hop₁ : (m.newNode n (createLFNode call.key)).op = m.op :=
    funext (MemInv.newNode_op (fun hb => h.mem.not_public_of_allocatable ha (.node hb)) h.mem)
  simp only at h₁ ⊢
  generalize m.newNode n _ = m₁ at h₁ hop₁ ⊢
  refine h₁.alloc hcfg (by simp) (fun _ => rfl) fun r g₂ _ h₂ hl₂ => ?_
  simp only at h₂ ⊢
  generalize hm₂ : m₁.newCas r _ = m₂ at h₂ ⊢
  have hop₂ : m₂.op = m.op := by rw [← hm₂, Mem.newCas_op, hop₁]
  -- line 112
  have he : ∀ fresh, exec cfg t call fresh m₂ (.addCas f n r) =
      some (m₂.setOp f.curr (.cas r), childStart (m₂.setOp f.curr (.cas r)) r f.curr .add) :=
    fun _ => by simp [exec, hop₂, hcurr]
  refine h₂.step hcfg (by simp) he fun g₃ h₃ hl₃ => ?_
  refine h₃.ends_childStart hcfg (by simp) fun m' g' h' hl' hop' _ => ?_
  refine h'.ends_ret (le_trans ?_ hp)
  refine h.mem.pending_le h'.mem.toTreeInv (hl₁.trans (hl₂.trans (hl₃.trans hl')))
    (.of_ptr (x := f.curr) (r := r) ?_)
  rw [hop', ← hop₂]
  funext y
  by_cases hy : y = f.curr <;> simp [hy]

/-- `remove` from line 267. -/
theorem ends_removeMark (h : Ready cfg t call m g (.removeMark f))
    (hcurr : m.op f.curr = f.currOp) (hpred : m.op f.pred = f.predOp) (hp : pending m g ≤ p) :
    Ends cfg t call (Returns cfg t call p) m (.removeMark f) := by
  have hpc := h.pc.2.2.2.1.ne h.mem hpred
  have he : ∀ fresh, exec cfg t call fresh m (.removeMark f) =
      some (m.setOp f.curr (setFlag f.currOp .mark),
        .markedLeft ⟨f.pred, f.predOp, f.curr, .remove f⟩) := fun _ => by simp [exec, hcurr]
  refine h.step hcfg (by simp) he fun g₁ h₁ hl₁ => ?_
  refine h₁.ends_markedLeft hcfg fun m' g' h' hl' hlight hgone => ?_
  refine h'.ends_ret (le_trans ?_ hp)
  refine h.mem.pending_le h'.mem.toTreeInv (hl₁.trans hl') fun y hy => ?_
  have hyc : y ≠ f.curr := by
    rintro rfl
    exact hgone (by simp [hpc, hpred]) hy
  apply (hlight y hy).trans
  simp [hyc]

/-- `remove` from line 252. -/
theorem ends_removeRight (h : Ready cfg t call m g (.removeRight f))
    (hcurr : m.op f.curr = f.currOp) (hpred : m.op f.pred = f.predOp) (hp : pending m g ≤ p)
    (hr : Retries cfg t call (Returns cfg t call p) m g) :
    Ends cfg t call (Returns cfg t call p) m (.removeRight f) := by
  have he : ∀ fresh, exec cfg t call fresh m (.removeRight f) = some (m, .removeLeft f) :=
    fun _ => by simp [exec, PC.hpField, hcfg]
  refine h.step hcfg (by simp) he fun g₁ h₁ hl₁ => ?_
  have he : ∀ fresh, exec cfg t call fresh m (.removeLeft f) = some (m, .removeTestRight f) :=
    fun _ => by simp [exec, PC.hpField, hcfg]
  refine h₁.step hcfg (by simp) he fun g₂ h₂ hl₂ => ?_
  have hmark : ∀ g', Ready cfg t call m g' (.removeMark f) → Later g g' →
      Ends cfg t call (Returns cfg t call p) m (.removeMark f) := fun g' h' hl' =>
    h'.ends_removeMark hcfg hcurr hpred ((hl'.pending_le h.mem.toTreeInv h'.mem.toTreeInv).trans hp)
  -- line 265
  by_cases hright : isNull (m.child f.curr false) = true
  · have he : ∀ fresh, exec cfg t call fresh m (.removeTestRight f) = some (m, .removeMark f) :=
      fun _ => by simp [exec, hright]
    exact h₂.step hcfg (by simp) he fun g₃ h₃ hl₃ => hmark g₃ h₃ (hl₁.trans (hl₂.trans hl₃))
  have he : ∀ fresh, exec cfg t call fresh m (.removeTestRight f) = some (m, .removeTestLeft f) :=
    fun _ => by simp [exec, hright]
  refine h₂.step hcfg (by simp) he fun g₃ h₃ hl₃ => ?_
  by_cases hleft : isNull (m.child f.curr true) = true
  · have he : ∀ fresh, exec cfg t call fresh m (.removeTestLeft f) = some (m, .removeMark f) :=
      fun _ => by simp [exec, hleft]
    exact h₃.step hcfg (by simp) he fun g₄ h₄ hl₄ =>
      hmark g₄ h₄ (hl₁.trans (hl₂.trans (hl₃.trans hl₄)))
  · have he : ∀ fresh, exec cfg t call fresh m (.removeTestLeft f) =
        some (m, findStart cfg { f with caller := .replacement f.curr f.currOp }) :=
      fun _ => by simp [exec, hleft]
    refine h₃.step hcfg (by simp) he fun g₄ h₄ hl₄ => ?_
    have hl := hl₁.trans (hl₂.trans (hl₃.trans hl₄))
    exact h₄.ends_replacement hcfg rfl hcurr
      ((hl.pending_le h.mem.toTreeInv h₄.mem.toTreeInv).trans hp)
      (hr.later hl h.mem.toTreeInv h₄.mem.toTreeInv)

/-- A call from its first search on. -/
theorem ends_root (h : Ready cfg t call m g (findStart cfg f)) (hf : f.caller = .root)
    (hp : pending m g ≤ p) (hr : Retries cfg t call (Returns cfg t call p) m g) :
    Ends cfg t call (Returns cfg t call p) m (findStart cfg f) := by
  refine h.ends_find hcfg ⟨fun f' m' g' _ => hr f' m' g', fun f' result g' hf' _ hcurr hpred h' hl' => ?_,
    fun f' g' _ hne => absurd (by rw [hf]; rfl) hne⟩
  rw [hf] at hf' hpred
  have hp' := (hl'.pending_le h.mem.toTreeInv h'.mem.toTreeInv).trans hp
  cases call with
  | find k =>
    simp only [findReturn, hf'] at h' ⊢
    exact h'.ends_ret hp'
  | add k =>
    by_cases hres : result = .found
    · simp only [findReturn, hf', hres, PC.hp, hcfg, if_true, Bool.false_eq_true, if_false] at h' ⊢
      exact h'.ends_ret hp'
    · simp only [findReturn, hf', hres, PC.hp, hcfg, Bool.false_eq_true, if_false] at h' ⊢
      exact h'.ends_addNew hcfg hcurr hp'
  | remove k =>
    by_cases hres : result = .found
    · simp only [findReturn, hf', hres, if_true] at h' ⊢
      have hne : f'.curr ≠ baseRoot := h'.pc.2.2.1.ne_root
      exact h'.ends_removeRight hcfg hcurr (hpred.resolve_left hne) hp'
        (hr.later hl' h.mem.toTreeInv h'.mem.toTreeInv)
    · simp only [findReturn, hf', hres, if_false] at h' ⊢
      exact h'.ends_ret hp'

/-- A search for a replacement that will not be used starts the call again. -/
theorem ends_abandoned {aux : Addr} {auxOp : Word}
    (h : Ready cfg t call m g (findStart cfg f)) (hf : f.caller = .replacement aux auxOp)
    (haux : m.op aux ≠ auxOp) (hp : pending m g ≤ p)
    (hr : Retries cfg t call (Returns cfg t call p) m g) :
    Ends cfg t call (Returns cfg t call p) m (findStart cfg f) := by
  have hroot : ∀ f' g', Ready cfg t call m g' (callStart cfg f') → Later g g' →
      Ends cfg t call (Returns cfg t call p) m (callStart cfg f') := fun f' g' h' hl' =>
    h'.ends_root hcfg rfl ((hl'.pending_le h.mem.toTreeInv h'.mem.toTreeInv).trans hp)
      (hr.later hl' h.mem.toTreeInv h'.mem.toTreeInv)
  refine h.ends_find hcfg ⟨fun f' m' g' _ => hr f' m' g', fun f' result g' hf' hres _ _ h' hl' => ?_,
    fun f' g' hf' _ _ h' hl' => ?_⟩
  · rw [hf] at hf'
    simp only [findReturn, hf', hres, if_false] at h' ⊢
    have he : ∀ fresh, exec cfg t call fresh m (.removeCheck f' aux auxOp) =
        some (m, callStart cfg f') := fun _ => by simp [exec, haux]
    exact h'.step hcfg (by simp) he fun g₁ h₁ hl₁ => hroot f' g₁ h₁ (hl'.trans hl₁)
  · rw [hf] at hf'
    simp only [findReturn, hf', if_true] at h' ⊢
    exact hroot f' g' h' hl'

/-- A call returns, by induction on the work that is pending. -/
theorem ends_call (h : Ready cfg t call m g (findStart cfg f)) (hp : pending m g ≤ p) :
    Ends cfg t call (Returns cfg t call p) m (findStart cfg f) := by
  generalize hn : pending m g = n at hp
  induction n using Nat.strong_induction_on generalizing m g f with
  | _ n ih =>
    have hr : Retries cfg t call (Returns cfg t call p) m g := fun f' m' g' h' hlt =>
      ih _ (hn ▸ hlt) h' rfl ((hn ▸ hlt).le.trans hp)
    rw [← hn] at hp
    cases hf : f.caller with
    | root => exact h.ends_root hcfg hf hp hr
    | replacement aux auxOp =>
      by_cases haux : m.op aux = auxOp
      · exact h.ends_replacement hcfg hf haux hp hr
      · exact h.ends_abandoned hcfg hf haux hp hr

end Ready

-- ---------------------------------------------------------------------------
-- The system
-- ---------------------------------------------------------------------------

/-- The steps of the system in which thread `t` makes an access. -/
def stepOf (cfg : Config) (t : Tid) (s : State) (fresh : Addr) : Option State :=
  (system cfg).next s (t, .access fresh)

theorem stepOf_eq {s : State} (ht : s.thread t = .running call pc) {fresh : Addr} :
    stepOf cfg t s fresh = (soloNext cfg t call (s.mem, pc) fresh).map fun r =>
      ⟨r.1, Function.update s.thread t (.running call r.2)⟩ := by
  simp only [stepOf, system, State.next, ht]
  rfl

/-- The same with the threads that stand still. -/
theorem Ends.system (h : Ends cfg t call Q m pc) {s : State} (hm : s.mem = m)
    (ht : s.thread t = .running call pc) :
    Until (stepOf cfg t) (fun s => ∀ fresh, Careful cfg s (t, .access fresh))
      (fun s => ∃ pc, s.thread t = .running call pc ∧ Q s.mem pc) s := by
  unfold Ends at h
  generalize hmp : (m, pc) = mp at h
  induction h generalizing m pc s with
  | done hQ =>
    subst hmp hm
    exact .done ⟨pc, ht, hQ⟩
  | step hok hex _ ih =>
    subst hmp hm
    refine .step (fun fresh call' pc' ht' => ?_) ?_ fun fresh s' he => ?_
    · obtain ⟨rfl, rfl⟩ := Thread.running.inj (ht.symm.trans ht')
      exact hok
    · obtain ⟨fresh, hf⟩ := hex
      exact ⟨fresh, by rw [stepOf_eq ht, Option.isSome_map]; exact hf⟩
    · rw [stepOf_eq ht] at he
      obtain ⟨_, he', rfl⟩ := Option.map_eq_some_iff.mp he
      exact ih fresh _ he' rfl (Function.update_self ..) rfl

theorem finite_of_reachable (hcfg : cfg.hazardPointers = false) (hre : cfg.reuse = false)
    {s : State} (hs : (LockFree.system cfg).Reachable s) :
    (∃ g, Inv cfg s g) ∧ {a | s.mem.cell a ≠ .unused}.Finite := by
  refine hs.invariant (P := fun s => (∃ g, Inv cfg s g) ∧ {a | s.mem.cell a ≠ .unused}.Finite)
    ⟨⟨_, Inv.initial⟩, ?_⟩ ?_
  · refine (Set.finite_singleton baseRoot).subset fun a ha => ?_
    by_contra hne
    exact ha (if_neg hne)
  · rintro s l s' ⟨⟨g, h⟩, hfin⟩ hnext
    obtain ⟨g', h', htrace⟩ := h.step hcfg (careful_of_fresh hre) hnext
    obtain ⟨_, _, _, _, hc, _⟩ := htrace.change
    exact ⟨⟨g', h'⟩, hc.finite hfin⟩

/-- A call that starts in any reachable state and from then on runs alone comes
    to its return, wherever the other threads have stopped. -/
theorem solo_returns {s s' : State} (hs : (system .plain).Reachable s)
    (hstart : (system .plain).next s (t, .invoke call) = some s') :
    Until (stepOf .plain t) (fun _ => True)
      (fun s => ∃ r, s.thread t = .running call (.ret r)) s' := by
  obtain ⟨⟨g, h⟩, hfin⟩ := finite_of_reachable rfl rfl
    (hs.step _ hstart : (system .plain).Reachable s')
  have ht : s'.thread t = .running call (callStart .plain .initial) := by
    cases steps_of_next hstart with
    | invoke => exact Function.update_self ..
  have hready : Ready .plain t call s'.mem g (callStart .plain .initial) :=
    ⟨h.mem, h.status, h.pc ht, hfin⟩
  refine ((hready.ends_call (p := pending s'.mem g) rfl le_rfl).system rfl ht).imp
    (fun _ _ => trivial) ?_
  rintro s₁ ⟨pc, hpc, ⟨r, rfl⟩, _⟩
  exact ⟨r, hpc⟩

/-- Another thread calls `find` when a relocation has just been installed. -/
theorem solo_returns_find : Until (stepOf .plain 1) (fun _ => True)
    (fun s => ∃ r, s.thread 1 = .running (.find 8) (.ret r))
    ⟨(runOfRelocation.state 65).mem, Function.update (runOfRelocation.state 65).thread 1
      (.running (.find 8) (callStart .plain .initial))⟩ := by
  refine solo_returns (runOfRelocation.reachable (i := 65) (by decide)) ?_
  have hidle : (runOfRelocation.state 65).thread 1 = .idle := by decide +kernel
  simp [system, State.next, hidle]

end LockFree
