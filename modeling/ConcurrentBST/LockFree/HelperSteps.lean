-- SUMMARY: The steps of helpChildCAS, helpMarked and helpRelocate keep what the thread knows.
import ConcurrentBST.LockFree.CallSteps

/-!
# The steps of the helpers

Any number of threads may run a helper on one record, each as late as it likes.
A CAS of a helper that succeeds is the first one for its record, because the
word it expects would otherwise be a past one.
-/

namespace LockFree

variable {cfg : Config} {m m' : Mem} {g g' : Ghost} {x y r s a b n c : Addr} {d e : Bool} {k : Int}
  {w v : Word} {t u : Tid} {spent : Addr → Prop} {call : Call} {f : FindVars} {pc pc' : PC}
  {fresh op dest : Addr} {ret : HelpRet} {args : HelpArgs} {result : Bool}

/-- The steps of a helper do not depend on the thread that makes them. -/
theorem resolves_helper (hc : ∀ t, Change cfg t (fun _ => False) m g m' g') (h : MemInv cfg m g)
    (hs : StatusInv m g) (u : Tid) : Resolves m' g' (g.status u) (g'.status u) :=
  (hc (u + 1)).resolves h hs (Nat.succ_ne_self u).symm

theorem Sound.helper (hc : ∀ t, Change cfg t (fun _ => False) m g m' g')
    {q : PC} (hp : PcInv cfg m' g' t call q) (hown : q.owns = []) :
    Sound cfg t call m g pc m' q :=
  ⟨g', _, hc t, fun _ h => h.elim, hp, by simp [hown]⟩

/-! ## `helpChildCAS` -/

theorem pcInv_helpReturn (h : ChildDone m g t call ret) :
    PcInv cfg m g t call (helpReturn cfg ret) := by
  cases ret with
  | retry f => exact pcInv_findStart h
  | add => exact h
  | remove f => exact h

@[simp] theorem owns_helpReturn : (helpReturn cfg ret).owns = [] := by
  cases ret with
  | retry f => exact owns_findStart
  | add => rfl
  | remove f => rfl

theorem MarkedRet.childDone (h : MarkedRet m g t call ret) : ChildDone m g t call ret := by
  cases ret with
  | retry f => exact h
  | add => exact h.elim
  | remove f => exact h

theorem MarkedRet.childRet (h : MarkedRet m g t call ret) : ChildRet m g t call op ret := by
  cases ret with
  | retry f => exact h
  | add => exact h.elim
  | remove f => exact h

/-- A call whose record has taken effect is done. -/
theorem ChildRet.childDone (hr : ChildRet m g t call op ret) (h : MemInv cfg m g)
    (hs : StatusInv m g) (he : everOp m g dest (.cas op))
    (hpast : (m.cas op).expected ∈ g.pastChild dest (m.cas op).isLeft) :
    ChildDone m g t call ret := by
  cases ret with
  | retry f => exact hr
  | remove f => exact hr
  | add =>
    obtain ⟨⟨k, rfl⟩, hp | hd⟩ := hr
    · exfalso
      obtain ⟨_, hu⟩ := (hs t _ op).mp hp
      cases hu with
      | add hop hslot _ _ =>
        obtain rfl := h.unique (.inl hop) he
        exact h.child_fresh _ _ (hslot ▸ hpast)
    · exact hd

/-- The slot has its old value only as long as the record is pending. -/
theorem pending_of_slot (h : MemInv cfg m g) (he : everOp m g dest (.cas op))
    (hslot : m.child dest (m.cas op).isLeft = (m.cas op).expected) :
    m.op dest = .cas op ∧ Pending m g dest op := by
  rcases he with hop | hpast
  · rcases h.slot hop with ⟨_, hp⟩ | ⟨_, hp⟩
    · exact ⟨hop, hp⟩
    · exact absurd hp (hslot ▸ h.child_fresh _ _)
  · exact absurd (h.done hpast) (hslot ▸ h.child_fresh _ _)

theorem past_of_slot (h : MemInv cfg m g) (he : everOp m g dest (.cas op))
    (hslot : m.child dest (m.cas op).isLeft ≠ (m.cas op).expected) :
    (m.cas op).expected ∈ g.pastChild dest (m.cas op).isLeft := by
  rcases he with hop | hpast
  · rcases h.slot hop with ⟨hs, _⟩ | ⟨_, hp⟩
    · exact absurd hs hslot
    · exact hp
  · exact h.done hpast

theorem sound_childSlot (hcfg : cfg.hazardPointers = false) (h : MemInv cfg m g)
    (hs : StatusInv m g) (hp : PcInv cfg m g t call (.childSlot op dest ret))
    (he : exec cfg t call fresh m (.childSlot op dest ret) = some (m', pc')) :
    Sound cfg t call m g (.childSlot op dest ret) m' pc' := by
  obtain ⟨hev, hr⟩ := hp
  simp only [exec, hcfg, Bool.false_eq_true, if_false] at he
  split at he <;> cases he
  · next hslot =>
    obtain ⟨hop, hpend⟩ := pending_of_slot h hev hslot
    -- What is left to do is the same for both kinds of records.
    have hfinish : ∀ {g'}, (∀ t, Change cfg t (fun _ => False) m g
        (m.setChild dest (m.cas op).isLeft (m.cas op).update) g') →
        (m.cas op).expected ∈ g'.pastChild dest (m.cas op).isLeft →
        Sound cfg t call m g (.childSlot op dest ret)
          (m.setChild dest (m.cas op).isLeft (m.cas op).update) (.childOp op dest ret) := by
      intro g' hc hpast
      have hevo := h.evolution (hc t)
      have hst := resolves_helper hc h hs t
      refine .helper hc ⟨hevo.ever hev, hpast, ?_⟩ rfl
      exact (hevo.childRet hst hr).childDone hevo.after ((hc t).statusInv h hs) (hevo.ever hev) hpast
    cases hpend with
    | insertion a n hexp hupd hn h0 hgap =>
      rw [hupd] at hfinish ⊢
      refine hfinish (fun t => .link hop hslot hexp hupd hn h0 hgap) (.inr ⟨⟨rfl, rfl⟩, ?_⟩)
      exact hslot.symm
    | splice c hexp hc hm hupd =>
      rw [hupd] at hfinish ⊢
      exact hfinish (fun t => .unlink hop hslot hexp hc hm hupd) (.inr ⟨⟨rfl, rfl⟩, hslot.symm⟩)
  · next hslot =>
    have hpast := past_of_slot h hev hslot
    exact .read (q := .childOp op dest ret) ⟨hev, hpast, hr.childDone h hs hev hpast⟩ rfl

theorem sound_childOp (h : MemInv cfg m g) (hs : StatusInv m g)
    (hp : PcInv cfg m g t call (.childOp op dest ret))
    (he : exec cfg t call fresh m (.childOp op dest ret) = some (m', pc')) :
    Sound cfg t call m g (.childOp op dest ret) m' pc' := by
  obtain ⟨_, hpast, hr⟩ := hp
  simp only [exec] at he
  split at he <;> cases he
  · next hop =>
    have hc : ∀ t, Change cfg t (fun _ => False) m g _ _ := fun _ => .clearCas hop hpast
    have hst := resolves_helper hc h hs t
    exact .helper hc (pcInv_helpReturn ((h.evolution (hc t)).childDone hst hr)) owns_helpReturn
  · exact .read (pcInv_helpReturn hr) owns_helpReturn

/-! ## `helpMarked` -/

theorem sound_markedLeft (hp : PcInv cfg m g t call (.markedLeft args))
    (he : exec cfg t call fresh m (.markedLeft args) = some (m', pc')) :
    Sound cfg t call m g (.markedLeft args) m' pc' := by
  obtain ⟨hsp, hr⟩ := hp
  simp only [exec] at he
  split at he <;> cases he
  · next hn => exact .read (q := .markedRight args) ⟨hsp, hr, hn⟩ rfl
  · next hn =>
    refine .read (pcInv_hpField.mpr ⟨hsp, hr, ?_⟩) (by simp [PC.owns])
    simp [Mem.replacement, hn]

theorem sound_markedRight (hp : PcInv cfg m g t call (.markedRight args))
    (he : exec cfg t call fresh m (.markedRight args) = some (m', pc')) :
    Sound cfg t call m g (.markedRight args) m' pc' := by
  obtain ⟨hsp, hr, hl⟩ := hp
  simp only [exec] at he
  split at he <;> cases he
  · next hn =>
    refine .read (q := .markedNew args _) ⟨hsp, hr, ?_⟩ rfl
    simp [Mem.replacement, hl, hn]
  · next hn =>
    refine .read (pcInv_hpField.mpr ⟨hsp, hr, ?_⟩) (by simp [PC.owns])
    simp [Mem.replacement, hl, hn]

theorem sound_markedRef (hp : PcInv cfg m g t call (.markedRef args d))
    (he : exec cfg t call fresh m (.markedRef args d) = some (m', pc')) :
    Sound cfg t call m g (.markedRef args d) m' pc' := by
  obtain ⟨hsp, hr, hn⟩ := hp
  simp only [exec] at he
  cases he
  exact .read (q := .markedNew args _) ⟨hsp, hr, hn.symm⟩ rfl

theorem sound_markedNew (h : MemInv cfg m g)
    (hp : PcInv cfg m g t call (.markedNew args w))
    (he : exec cfg t call fresh m (.markedNew args w) = some (m', pc')) :
    Sound cfg t call m g (.markedNew args w) m' pc' := by
  obtain ⟨hsp, hr, hn⟩ := hp
  simp only [exec] at he
  split at he <;> cases he
  next ha =>
  have hc : Change cfg t (fun _ => False) m g _ _ :=
    .newCas ⟨Word.ptr args.curr == m.child args.pred true, .ptr args.curr, w⟩ ha
  have hev := h.evolution hc
  refine ⟨_, _, hc, fun _ h => h.elim, ?_, by simp [PC.owns, Taken, ha]⟩
  refine ⟨hev.splice hsp, hev.markedRet .same hr, ?_, by simp, ?_, fun hx => ?_⟩
  · refine h.private_of_alloc ha rfl rfl rfl (fun hr => ?_) (taken_alloc rfl (by simp) (by simp))
    simp [taken_of_ne_alloc ha hr]
  · rw [hev.replacement_of_marked hsp.marked]
    simpa using hn
  · -- The side is right as long as `pred` has not moved on.
    obtain ⟨d, hd⟩ := hsp.link.slot hx
    simp only [Mem.newCas_child, Mem.newCas_cas, if_true]
    cases d with
    | true => simp [hd]
    | false =>
      by_cases hleft : m.child args.pred true = .ptr args.curr
      · simp [hleft]
      · have hne : (Word.ptr args.curr == m.child args.pred true) = false := by
          simpa using fun heq => hleft heq.symm
        rw [hne]
        exact hd

theorem sound_markedCas (h : MemInv cfg m g)
    (hp : PcInv cfg m g t call (.markedCas args r))
    (he : exec cfg t call fresh m (.markedCas args r) = some (m', pc')) :
    Sound cfg t call m g (.markedCas args r) m' pc' := by
  obtain ⟨hsp, hr, hpriv, hexp, hupd, hslot⟩ := hp
  have hspent : ∀ b, b = r → b ∈ (PC.markedCas args r).owns := by
    rintro b rfl
    simp [PC.owns]
  simp only [exec] at he
  split at he <;> cases he
  · next hx =>
    have hi : Splicing cfg m g args.pred r args.curr :=
      ⟨hsp.link.seen.born, by rw [hx, hsp.link.seen.flag], hpriv, (hslot hx).trans hexp.symm, hexp,
        hsp.marked, hupd⟩
    have hc : Change cfg t (fun b => b = r) m g _ _ := .publishSplicing hi rfl
    refine ⟨_, _, hc, hspent, ⟨.inl (by simp), ?_⟩, by simp [childStart, PC.owns]⟩
    exact ((h.evolution hc).markedRet .same hr).childRet
  · have hc : Change cfg t (fun b => b = r) m g ([r].foldl Mem.delete m) g := by
      refine .delete [r] fun b hb _ => ?_
      rw [List.mem_singleton] at hb
      exact ⟨hb, hb ▸ hpriv.hidden⟩
    have hev := h.evolution hc
    exact ⟨g, _, hc, hspent, pcInv_helpReturn (hev.markedRet .same hr).childDone, by simp⟩

/-! ## `helpRelocate` -/

theorem MemInv.state_of_committed (h : MemInv cfg m g) (hc : committed m g r) :
    m.state r ≠ .failed :=
  ((h.record (h.place hc).1).commit_past hc).2

/-- Once the record is decided, the thread whose call it belongs to knows how its call ends. -/
theorem RelocRet.done (hr : RelocRet m g t call op c (.remove f)) (h : MemInv cfg m g)
    (hs : StatusInv m g) (hc : committed m g op) : g.status t = .done (.removed true) := by
  obtain ⟨_, _, hp | ⟨hd, _⟩ | ⟨_, hf⟩⟩ := hr
  · obtain ⟨_, hu⟩ := (hs t _ op).mp hp
    cases hu with
    | add hop _ _ _ => exact absurd hc (h.typed (.inl hop))
    | remove _ hnc _ => exact absurd hc hnc
  · exact hd
  · exact absurd hf (h.state_of_committed hc)

theorem RelocRet.waiting (hr : RelocRet m g t call op c (.remove f)) (h : MemInv cfg m g)
    (hs : StatusInv m g) (hi : installed m g op) (hf : m.state op = .failed) :
    g.status t = .waiting call := by
  obtain ⟨_, _, hp | ⟨_, hc⟩ | ⟨hw, _⟩⟩ := hr
  · obtain ⟨_, hu⟩ := (hs t _ op).mp hp
    cases hu with
    | add hop _ _ _ => exact absurd hi (h.typed (.inl hop))
    | remove _ _ hnf => exact absurd hf hnf
  · exact absurd hf (h.state_of_committed hc)
  · exact hw

@[simp] theorem owns_relocReturn : (relocReturn cfg op result ret).owns = [] := by
  cases ret with
  | retry f => exact owns_findStart
  | add => rfl
  | remove f => cases result <;> rfl

@[simp] theorem owns_relocTail : (relocTail cfg m op args result).owns = [] := by
  unfold relocTail
  split
  · exact owns_relocReturn
  · rfl

theorem pcInv_relocReturn (h : MemInv cfg m g) (hs : StatusInv m g) (hi : installed m g op)
    (hr : RelocRet m g t call op c ret) (htrue : result = true → committed m g op)
    (hfalse : result = false → m.state op = .failed) :
    PcInv cfg m g t call (relocReturn cfg op result ret) := by
  cases ret with
  | retry f => exact pcInv_findStart hr
  | add => exact hr.elim
  | remove f =>
    cases result with
    | true => exact hr.done h hs (htrue rfl)
    | false => exact hr.waiting h hs hi (hfalse rfl)

/-- Lines 500 to 504, with the outcome known. -/
theorem pcInv_relocTail (h : MemInv cfg m g) (hs : StatusInv m g) (hh : Helping m g op args)
    (hr : RelocRet m g t call op args.curr args.ret)
    (htrue : result = true → .rel op ∈ g.pastOp (m.reloc op).dest)
    (hfalse : result = false → m.state op = .failed) :
    PcInv cfg m g t call (relocTail cfg m op args result) := by
  unfold relocTail
  split
  · exact pcInv_relocReturn h hs hh.installed hr (fun hres => .inr (htrue hres)) hfalse
  · next hne =>
    exact ⟨hh, hr, (h.place hh.curr).2.resolve_right (Ne.symm hne), htrue, hfalse⟩

theorem sound_relocState (h : MemInv cfg m g) (hs : StatusInv m g)
    (hp : PcInv cfg m g t call (.relocState op args))
    (he : exec cfg t call fresh m (.relocState op args) = some (m', pc')) :
    Sound cfg t call m g (.relocState op args) m' pc' := by
  obtain ⟨hh, hr⟩ := hp
  simp only [exec] at he
  cases he
  refine .read (pcInv_hp.mpr ?_) ?_
  · cases hst : (m.reloc op).state with
    | ongoing => exact ⟨hh, hr⟩
    | successful => exact ⟨hh, hr, hst⟩
    | failed => exact pcInv_relocTail h hs hh hr (by simp) fun _ => hst
  · rw [owns_hp]
    cases (m.reloc op).state with
    | ongoing => rfl
    | successful => rfl
    | failed => exact owns_relocTail

theorem sound_relocDest (h : MemInv cfg m g) (hs : StatusInv m g)
    (hp : PcInv cfg m g t call (.relocDest op args))
    (he : exec cfg t call fresh m (.relocDest op args) = some (m', pc')) :
    Sound cfg t call m g (.relocDest op args) m' pc' := by
  obtain ⟨hh, hr⟩ := hp
  have hR := h.record hh.installed
  simp only [exec, setFlag_ptr] at he
  by_cases hd : m.op (m.reloc op).dest = (m.reloc op).destOp
  · simp only [hd, if_true, true_or] at he
    cases he
    have hc : ∀ t, Change cfg t (fun _ => False) m g _ _ := fun _ => .commit hh.installed hd
    have hev := h.evolution (hc t)
    exact .helper hc (q := .relocSucceed op args) ⟨hev.helping hh,
      hev.relocRet (resolves_helper hc h hs t) hh.installed hr, .inl (by simp)⟩ rfl
  · simp only [hd, if_false, false_or] at he
    split at he <;> cases he
    · next hop => exact .read (q := .relocSucceed op args) ⟨hh, hr, .inl hop⟩ rfl
    · next hop =>
      refine .read (q := .relocFail op args) ⟨hh, hr, ?_, hop⟩ rfl
      exact hR.destOp_ever.resolve_left hd

theorem sound_relocSucceed (h : MemInv cfg m g) (hs : StatusInv m g)
    (hp : PcInv cfg m g t call (.relocSucceed op args))
    (he : exec cfg t call fresh m (.relocSucceed op args) = some (m', pc')) :
    Sound cfg t call m g (.relocSucceed op args) m' pc' := by
  obtain ⟨hh, hr, hcom⟩ := hp
  simp only [exec] at he
  cases he
  split
  · next hong =>
    have hc : ∀ t, Change cfg t (fun _ => False) m g _ _ := fun _ => .succeed hong hcom
    have hev := h.evolution (hc t)
    exact .helper hc (q := .relocKey op args) ⟨hev.helping hh,
      hev.relocRet (resolves_helper hc h hs t) hh.installed hr, by simp⟩ rfl
  · next hong =>
    refine .read (q := .relocKey op args) ⟨hh, hr, ?_⟩ rfl
    have hnf := h.state_of_committed hcom
    cases hst : m.state op with
    | ongoing => exact absurd hst hong
    | successful => rfl
    | failed => exact absurd hst hnf

theorem sound_relocFail (h : MemInv cfg m g) (hs : StatusInv m g)
    (hp : PcInv cfg m g t call (.relocFail op args))
    (he : exec cfg t call fresh m (.relocFail op args) = some (m', pc')) :
    Sound cfg t call m g (.relocFail op args) m' pc' := by
  obtain ⟨hh, hr, hpast, hne⟩ := hp
  simp only [exec] at he
  cases he
  cases hst : m.state op with
  | ongoing =>
    have hnc : ¬ committed m g op := by
      rintro (hop | hop)
      · exact hne hop
      · have hfin := (h.record hh.installed).finished hop
        simp [hst] at hfin
    have hc : ∀ t, Change cfg t (fun _ => False) m g _ _ := fun _ => .fail hh.installed hst hnc hpast
    have hev := h.evolution (hc t)
    simp only [if_true, reduceCtorEq, if_false]
    refine .helper hc (pcInv_relocTail hev.after ((hc t).statusInv h hs) (hev.helping hh)
      (hev.relocRet (resolves_helper hc h hs t) hh.installed hr) (by simp) (by simp)) owns_relocTail
  | successful =>
    simp only [reduceCtorEq, if_false, if_true]
    exact .read (q := .relocKey op args) ⟨hh, hr, hst⟩ rfl
  | failed =>
    simp only [reduceCtorEq, if_false]
    exact .read (pcInv_relocTail h hs hh hr (by simp) fun _ => hst) owns_relocTail

theorem sound_relocKey (h : MemInv cfg m g) (hs : StatusInv m g)
    (hp : PcInv cfg m g t call (.relocKey op args))
    (he : exec cfg t call fresh m (.relocKey op args) = some (m', pc')) :
    Sound cfg t call m g (.relocKey op args) m' pc' := by
  obtain ⟨hh, hr, hst⟩ := hp
  have hR := h.record hh.installed
  simp only [exec] at he
  cases he
  split
  · next hkey =>
    -- The old key is only there before the first write.
    have hop : m.op (m.reloc op).dest = .rel op := by
      rcases hR.succeeded hst with hop | hop
      · exact hop
      · have hlt := (hR.rewritten (hR.finished hop).1).2.2.1
        rw [hkey] at hlt
        exact absurd hlt (lt_irrefl _)
    have hc : ∀ t, Change cfg t (fun _ => False) m g _ _ := fun _ => .rewrite ⟨hop, hst, hkey⟩
    have hev := h.evolution (hc t)
    exact .helper hc (q := .relocClear op args) ⟨hev.helping hh,
      hev.relocRet (resolves_helper hc h hs t) hh.installed hr, .inl rfl⟩ rfl
  · next hkey =>
    refine .read (q := .relocClear op args) ⟨hh, hr, ?_⟩ rfl
    rcases hR.succeeded hst with hop | hop
    · exact (hR.busy hop).2.2.resolve_left hkey
    · exact (hR.finished hop).1

theorem sound_relocClear (h : MemInv cfg m g) (hs : StatusInv m g)
    (hp : PcInv cfg m g t call (.relocClear op args))
    (he : exec cfg t call fresh m (.relocClear op args) = some (m', pc')) :
    Sound cfg t call m g (.relocClear op args) m' pc' := by
  obtain ⟨hh, hr, hw⟩ := hp
  simp only [exec] at he
  cases he
  by_cases hop : m.op (m.reloc op).dest = setFlag (.ptr op) .relocate
  · rw [if_pos hop]
    have hc : ∀ t, Change cfg t (fun _ => False) m g _ _ := fun _ => .clearRelocation hop hw
    have hev := h.evolution (hc t)
    refine .helper hc (pcInv_relocTail hev.after ((hc t).statusInv h hs) (hev.helping hh)
      (hev.relocRet (resolves_helper hc h hs t) hh.installed hr) (fun _ => ?_) (by simp)) ?_
    · exact mem_setOp_pastOp.mpr (.inr ⟨rfl, hop.symm⟩)
    · exact owns_relocTail
  · rw [if_neg hop]
    refine .read (pcInv_relocTail h hs hh hr (fun _ => ?_) (by simp)) owns_relocTail
    exact (h.committed_of_rewritten hw).resolve_left hop

/-- After a success the stamp of the relocation on `dest` is as good as `pred_op`. -/
theorem Helping.link_succeeded (hh : Helping m g op args) (h : MemInv cfg m g)
    (hq : args.curr = g.replace op) (hpast : .rel op ∈ g.pastOp (m.reloc op).dest) :
    Link m g args.pred
      (if (m.reloc op).dest = args.pred then .ptr op else args.predOp) args.curr := by
  split
  · next hd =>
    obtain ⟨_, hst, hstamp⟩ := (h.record hh.installed).finished hpast
    refine ⟨⟨hh.link.seen.born, hd ▸ hstamp, rfl⟩, hh.link.born, fun hop => ?_, hh.link.above⟩
    rcases hh.direct hd hq with hc | hp | hf
    · exact hc
    · exact absurd hp (hop ▸ h.op_fresh _)
    · simp [hst] at hf
  · exact hh.link

theorem sound_relocCurr (h : MemInv cfg m g) (hs : StatusInv m g)
    (hp : PcInv cfg m g t call (.relocCurr op args result))
    (he : exec cfg t call fresh m (.relocCurr op args result) = some (m', pc')) :
    Sound cfg t call m g (.relocCurr op args result) m' pc' := by
  obtain ⟨hh, hr, hq, htrue, hfalse⟩ := hp
  have hret : result = true → ∀ g', (∀ f, Retrying m g t call f → Retrying m' g' t call f) →
      g'.status t = g.status t → MarkedRet m' g' t call args.ret := by
    intro hres g' hretry hst
    cases hret : args.ret with
    | retry f =>
      rw [hret] at hr
      exact hretry f hr
    | add =>
      rw [hret] at hr
      exact hr.elim
    | remove f =>
      rw [hret] at hr
      exact hst.trans (hr.done h hs (.inr (htrue hres)))
  simp only [exec] at he
  cases result with
  | true =>
    have hlink := hh.link_succeeded h hq (htrue rfl)
    simp only [if_true] at he
    cases he
    by_cases hop : m.op args.curr = setFlag (.ptr op) .relocate
    · rw [if_pos hop] at hret ⊢
      rw [hq] at hop
      have hc : ∀ t, Change cfg t (fun _ => False) m g _ _ := fun _ =>
        .releaseMark hop (htrue rfl)
      have hev := h.evolution (hc t)
      rw [← hq] at hc hev
      refine .helper hc ⟨⟨?_, by simp [Mem.marked]⟩, ?_⟩ rfl
      · exact hev.link hlink
      · exact hret rfl _ (fun f hf => hev.retrying .same hf) rfl
    · rw [if_neg hop] at hret ⊢
      refine .read (q := .markedLeft _) ⟨⟨hlink, ?_⟩, hret rfl g (fun _ => id) rfl⟩ rfl
      have hpast : .rel op ∈ g.pastOp (g.replace op) := by
        rw [hq] at hop
        exact hh.installed.resolve_left hop
      rcases (h.record hh.installed).released hpast with hf | ⟨_, hm⟩
      · exact absurd hf (h.state_of_committed (.inr (htrue rfl)))
      · rw [hq, Mem.marked, hm]
  | false =>
    simp only [Bool.false_eq_true, if_false] at he
    cases he
    by_cases hop : m.op args.curr = setFlag (.ptr op) .relocate
    · rw [if_pos hop]
      rw [hq] at hop
      have hc : ∀ t, Change cfg t (fun _ => False) m g _ _ := fun _ =>
        .releaseFailed hop (hfalse rfl)
      have hev := h.evolution (hc t)
      have hst := resolves_helper hc h hs t
      rw [← hq] at hc hev hst
      refine .helper hc (pcInv_relocReturn hev.after ((hc t).statusInv h hs)
        (hev.installed_mono hh.installed) (hev.relocRet hst hh.installed hr) (by simp) fun _ => ?_)
        owns_relocReturn
      exact hfalse rfl
    · rw [if_neg hop]
      exact .read (pcInv_relocReturn h hs hh.installed hr (by simp) hfalse) owns_relocReturn

/-! ## All program points -/

/-- A step that deletes a failed relocation while deleted addresses are handed out again. -/
def Reckless (cfg : Config) (pc : PC) : Prop :=
  cfg.reuse = true ∧ ∃ f r, pc = .removeDelete f r

theorem sound_exec (hcfg : cfg.hazardPointers = false) (h : MemInv cfg m g) (hs : StatusInv m g)
    (hp : PcInv cfg m g t call pc) (hok : ¬ Reckless cfg pc)
    (he : exec cfg t call fresh m pc = some (m', pc')) : Sound cfg t call m g pc m' pc' := by
  cases pc with
  | hpChild n d next =>
    cases he
    exact ⟨g, fun _ => False, .read, fun _ h => h.elim, hp, fun b hb => .inl hb⟩
  | hpPut w next =>
    cases he
    have hc : Change cfg t (fun _ => False) m g (m.addToHpList t w) g := .hpList w
    exact ⟨g, _, hc, fun _ h => h.elim, (h.evolution hc).pcInv .same (fun _ _ => id) hp,
      fun b hb => .inl hb⟩
  | findOp f => exact sound_findOp h hp he
  | findNext f => exact sound_findNext h hp he
  | findCurrOp f => exact sound_findCurrOp h hp he
  | findKey f => exact sound_findKey h hp he
  | findChild f d => exact sound_findChild h hp he
  | findLastRight f r => exact sound_findLastRight h hp he
  | findCurr f r => exact sound_findCurr h hp he
  | addNew f d => exact sound_addNew h hp he
  | addOld f d n => exact sound_addOld h hp he
  | addCas f n r => exact sound_addCas h hp he
  | removeRight f => exact sound_removeRight hp he
  | removeLeft f => exact sound_removeLeft hp he
  | removeTestRight f => exact sound_removeTestRight hp he
  | removeTestLeft f => exact sound_removeTestLeft hp he
  | removeMark f => exact sound_removeMark h hp he
  | removeCheck f aux auxOp => exact sound_removeCheck h hp he
  | removeNew f aux auxOp => exact sound_removeNew h hp he
  | removeInstall f r => exact sound_removeInstall h hp he
  | removeDelete f r =>
    refine sound_removeDelete ?_ hp he
    by_contra hre
    exact hok ⟨by simpa using hre, f, r, rfl⟩
  | childSlot op dest ret => exact sound_childSlot hcfg h hs hp he
  | childScan a rest i op dest ret => exact hp.elim
  | childOp op dest ret => exact sound_childOp h hs hp he
  | markedLeft a => exact sound_markedLeft hp he
  | markedRight a => exact sound_markedRight hp he
  | markedRef a d => exact sound_markedRef hp he
  | markedNew a w => exact sound_markedNew h hp he
  | markedCas a r => exact sound_markedCas h hp he
  | relocState op a => exact sound_relocState h hs hp he
  | relocDest op a => exact sound_relocDest h hs hp he
  | relocSucceed op a => exact sound_relocSucceed h hs hp he
  | relocFail op a => exact sound_relocFail h hs hp he
  | relocKey op a => exact sound_relocKey h hs hp he
  | relocClear op a => exact sound_relocClear h hs hp he
  | relocCurr op a r => exact sound_relocCurr h hs hp he
  | ret r => simp at he

end LockFree
