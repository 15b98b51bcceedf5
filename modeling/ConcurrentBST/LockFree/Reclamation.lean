-- SUMMARY: A scan that frees no referenced node is safe, and a run in which one frees a node in use.
import ConcurrentBST.LockFree.References

/-!
# Reclamation of nodes

Line 393 deletes a retired node that no hazard slot has shown. This is safe as
long as nobody can get to the node any more: every step of the program only
uses what was accessible before. The slots do not guarantee it, because `find`
publishes a child pointer and then reads the field again.
-/

namespace LockFree

variable {cfg : Config} {m m' : Mem} {s s' : State} {l : Tid × Action} {x r a n : Addr} {d b : Bool}
  {w : Word} {pc pc' : PC} {t : Tid} {call : Call} {fresh : Addr} {acc : Obj → Prop}
  {own : List Obj} {f : FindVars} {result : FindResult} {k : HelpRet} {args : HelpArgs}

-- ---------------------------------------------------------------------------
-- Program points that are put together
-- ---------------------------------------------------------------------------

theorem nodeRef_of (h : acc (.node a)) : ∀ o ∈ nodeRef a, acc o := by
  unfold nodeRef
  split
  · simp
  · simpa using h

theorem top_of (h : acc (.node f.curr)) : ∀ o ∈ f.top, acc o := by
  unfold FindVars.top
  split
  · exact nodeRef_of h
  · simpa using h

theorem nodeRef_of_top (h : ∀ o ∈ f.top, acc o) : ∀ o ∈ nodeRef f.curr, acc o := by
  unfold FindVars.top at h
  split at h
  · exact h
  · exact nodeRef_of (h _ (by simp))

theorem nodeRef_baseRoot : ∀ o ∈ nodeRef baseRoot, acc o := by
  simp [nodeRef]

theorem follows_hp : Follows acc m own (.hp cfg w pc) ↔ Follows acc m own pc := by
  unfold PC.hp
  split
  · exact ⟨fun h => ⟨h.refs, h.owned, h.prepared⟩, fun h => ⟨h.refs, h.owned, h.prepared⟩⟩
  · exact Iff.rfl

theorem Follows.hpChild (h : Follows acc m own pc) (hn : ∀ o ∈ nodeRef n, acc o) :
    Follows acc m own (.hpChild n d pc) where
  refs := by
    simp only [PC.refs, List.forall_mem_append]
    exact ⟨hn, h.refs⟩
  owned := h.owned
  prepared := h.prepared

theorem Follows.hpField (h : Follows acc m own pc) (hn : ∀ o ∈ nodeRef n, acc o) :
    Follows acc m own (.hpField cfg n d pc) := by
  unfold PC.hpField
  split
  · exact h.hpChild hn
  · exact h

/-- A thread that needs and owns nothing any more. -/
theorem follows_ret {res : Result} : Follows acc m own (.ret res) :=
  ⟨by simp [PC.refs], by simp [PC.owned], trivial⟩

theorem Follows.findStart (h : ∀ o ∈ f.kept, acc o) : Follows acc m own (findStart cfg f) := by
  refine follows_hp.mpr ⟨?_, by simp [PC.owned], rfl⟩
  simp only [PC.refs, List.forall_mem_append]
  refine ⟨?_, h⟩
  unfold FindVars.kept at h
  unfold FindVars.top FindCaller.auxRoot
  cases hc : f.caller with
  | root => simpa [hc] using nodeRef_baseRoot
  | replacement c op =>
    rw [hc] at h
    simp only [List.forall_mem_singleton]
    exact h _ (by simp)

theorem Follows.callStart : Follows acc m own (callStart cfg f) :=
  .findStart (by simp [FindVars.kept])

theorem Follows.helpReturn (h : ∀ o ∈ k.refs, acc o) : Follows acc m own (helpReturn cfg k) := by
  cases k with
  | retry f => exact .findStart h
  | add | remove => exact follows_ret

theorem Follows.childStart (hop : acc (.cas r)) (hx : ∀ o ∈ nodeRef x, acc o)
    (h : ∀ o ∈ k.refs, acc o) : Follows acc m own (childStart m r x k) := by
  refine .hpChild ⟨?_, by simp [PC.owned], trivial⟩ hx
  simp only [PC.refs, List.cons_append, List.forall_mem_cons, List.forall_mem_append]
  exact ⟨hop, hx, h⟩

theorem Follows.scanNext (hx : ∀ o ∈ nodeRef x, acc o) (h : ∀ o ∈ k.refs, acc o)
    (as : List Addr) : Follows acc m own (scanNext r x k as) := by
  have hrefs : ∀ o ∈ nodeRef x ++ k.refs, acc o := List.forall_mem_append.mpr ⟨hx, h⟩
  cases as <;> exact ⟨hrefs, by simp [LockFree.scanNext, PC.owned], trivial⟩

theorem Follows.relocReturn (h : ∀ o ∈ k.refs, acc o) (hown : ∀ o ∈ k.owned r, o ∈ own) :
    Follows acc m own (relocReturn cfg r b k) := by
  cases k with
  | retry f => exact .findStart h
  | add => exact follows_ret
  | remove f =>
    unfold LockFree.relocReturn
    cases b
    · exact ⟨by simp [PC.refs], hown, trivial⟩
    · exact follows_ret

theorem HelpArgs.of_refs (h : ∀ o ∈ args.refs, acc o) :
    (∀ o ∈ nodeRef args.pred, acc o) ∧ acc (.node args.curr) ∧ ∀ o ∈ args.ret.refs, acc o := by
  simpa only [HelpArgs.refs, List.forall_mem_append, List.forall_mem_cons] using h

theorem Follows.relocTail (hr : acc (.reloc r)) (h : ∀ o ∈ args.refs, acc o)
    (hown : ∀ o ∈ args.ret.owned r, o ∈ own) : Follows acc m' own (relocTail cfg m r args b) := by
  unfold LockFree.relocTail
  split
  · exact .relocReturn (HelpArgs.of_refs h).2.2 hown
  · exact ⟨List.forall_mem_cons.mpr ⟨hr, h⟩, hown, trivial⟩

/-- `find` may end with what it has. -/
theorem Follows.findEnd (hl : result ≠ .found → ∀ o ∈ nodeRef f.lastRight, acc o)
    (hq : f.currOp.flag = .none) (ha : ∀ o ∈ f.answer result, acc o) (h : ∀ o ∈ f.kept, acc o) :
    Follows acc m own (findEnd f result) := by
  unfold LockFree.findEnd
  split
  · exact ⟨List.forall_mem_append.mpr ⟨ha, h⟩, by simp [PC.owned], hq⟩
  · next hres =>
    refine ⟨?_, by simp [PC.owned], hq⟩
    simp only [PC.refs, List.forall_mem_append]
    exact ⟨⟨hl hres, ha⟩, h⟩

/-- One more step down, or the end of the search at `curr`. -/
theorem Follows.findLoop (hres : result ≠ .found) (hq : f.currOp.flag = .none) (hw : isNull w = false → acc (.node w.addr))
    (hl : ∀ o ∈ nodeRef f.lastRight, acc o) (ht : ∀ o ∈ f.top, acc o) (h : ∀ o ∈ f.kept, acc o) :
    Follows acc m own (findLoop f w result) := by
  unfold LockFree.findLoop
  split
  · next hnn =>
    simp only [Bool.and_eq_true, Bool.not_eq_true'] at hnn
    refine ⟨?_, by simp [PC.owned], trivial⟩
    simp only [PC.refs, List.forall_mem_append, List.forall_mem_cons]
    have hc := nodeRef_of_top ht
    refine ⟨⟨hc, hw hnn.1, hl⟩, ?_⟩
    unfold FindVars.kept at h ⊢
    cases hcaller : f.caller with
    | root => simp
    | replacement c op =>
      rw [hcaller] at h
      exact List.forall_mem_cons.mpr ⟨h _ (by simp), hc⟩
  · exact .findEnd (fun _ => hl) hq (by simpa [FindVars.answer, hres] using ht) h

theorem Follows.findReturn (hq : f.currOp.flag = .none) (ha : ∀ o ∈ f.answer result, acc o) (h : ∀ o ∈ f.kept, acc o) :
    Follows acc m own (findReturn cfg call f result) := by
  unfold LockFree.findReturn
  split
  · exact follows_ret
  · next key hcaller =>
    apply follows_hp.mpr
    split
    · exact follows_ret
    · next hres =>
      refine ⟨?_, by simp [PC.owned], trivial⟩
      simpa [PC.refs, FindVars.answer, FindVars.top, hres, hcaller] using ha
  · split
    · next hres =>
      refine ⟨?_, by simp [PC.owned], hq⟩
      simpa [PC.refs, FindVars.answer, hres] using ha
    · exact follows_ret
  · next c op _ hcaller =>
    split
    · exact .callStart
    · refine ⟨?_, by simp [PC.owned], trivial⟩
      simp only [FindVars.kept, hcaller, List.forall_mem_cons] at h
      simp only [PC.refs, List.forall_mem_cons]
      refine ⟨h.1, ?_, h.2⟩
      unfold FindVars.answer FindVars.top at ha
      rw [hcaller] at ha
      split at ha <;> exact ha _ (by simp)

-- ---------------------------------------------------------------------------
-- The accesses of `find`
-- ---------------------------------------------------------------------------

/-- What the references of a thread lead to. -/
theorem accessible_refs (ht : s.thread t = .running call pc) :
    ∀ o ∈ pc.refs s.mem, Accessible s o :=
  fun _ ho => .ref ht ho

theorem findReturn_abort (h : f.caller ≠ .root) :
    findReturn cfg call f .abort = callStart cfg f := by
  unfold findReturn
  split
  all_goals simp_all

theorem RefInv.findOp (h : RefInv s) (ht : s.thread t = .running call (.findOp f))
    (he : exec cfg t call fresh s.mem (.findOp f) = some (m', pc')) :
    RefStep s t (.findOp f) (fun _ => False) m' pc' := by
  obtain ⟨htop, hkept⟩ := List.forall_mem_append.mp (accessible_refs ht)
  have hcurr : f.curr = f.caller.auxRoot := h.prepared ht
  simp only [exec] at he
  split at he
  · next hflag =>
    split at he
    · next haux =>
      cases he
      refine h.read ht (.childStart ?_ (nodeRef_of_top htop) hkept)
      have hbase := hcurr.trans haux
      simp only [hbase] at hflag ⊢
      have hcas : s.mem.op baseRoot = .cas (s.mem.op baseRoot).addr :=
        Word.ext rfl (h.rootOp.resolve_left hflag)
      exact .root (.cas hcas)
    · next haux =>
      cases he
      have hcaller : f.caller ≠ .root := fun heq => haux (by rw [heq]; rfl)
      rw [findReturn_abort (f := { f with currOp := s.mem.op f.curr }) hcaller]
      exact h.read ht .callStart
  · next hflag =>
    cases he
    refine h.read ht (.hpField ⟨?_, by simp [PC.owned], by simpa [PC.Prepared] using hflag⟩
      (nodeRef_of_top htop))
    exact List.forall_mem_append.mpr ⟨htop, hkept⟩

theorem RefInv.findNext (h : RefInv s) (ht : s.thread t = .running call (.findNext f))
    (he : exec cfg t call fresh s.mem (.findNext f) = some (m', pc')) :
    RefStep s t (.findNext f) (fun _ => False) m' pc' := by
  obtain ⟨htop, hkept⟩ := List.forall_mem_append.mp (accessible_refs ht)
  have hq : f.currOp.flag = .none := h.prepared ht
  cases he
  have hc := nodeRef_of_top htop
  exact h.read ht (.findLoop (by simp) hq (fun hn => (known_of_nodeRef hc).edge (.child hn)) hc htop
    hkept)

theorem RefInv.findCurrOp (h : RefInv s) (ht : s.thread t = .running call (.findCurrOp f))
    (he : exec cfg t call fresh s.mem (.findCurrOp f) = some (m', pc')) :
    RefStep s t (.findCurrOp f) (fun _ => False) m' pc' := by
  have hr := accessible_refs ht
  simp only [PC.refs, List.forall_mem_append, List.forall_mem_cons] at hr
  obtain ⟨⟨hp, hc, hl⟩, hkept⟩ := hr
  simp only [exec] at he
  split at he
  · next hflag =>
    cases he
    have hargs : ∀ o ∈ HelpArgs.refs ⟨f.pred, f.predOp, f.curr,
        .retry { f with currOp := s.mem.op f.curr }⟩, Accessible s o := by
      simp only [HelpArgs.refs, List.forall_mem_append, List.forall_mem_cons]
      exact ⟨hp, hc, hkept⟩
    apply h.read ht
    unfold help
    split
    · next hcas =>
      have hop : s.mem.op f.curr = .cas (s.mem.op f.curr).addr := Word.ext rfl hcas
      exact .childStart (.edge hc (.cas hop)) (nodeRef_of hc) hkept
    · next hrel =>
      have hop : s.mem.op f.curr = .rel (s.mem.op f.curr).addr := Word.ext rfl hrel
      refine ⟨List.forall_mem_cons.mpr ⟨.edge hc (.reloc hop), hargs⟩, ?_, trivial⟩
      simp [PC.owned, HelpRet.owned]
    · exact ⟨hargs, by simp [PC.owned], trivial⟩
    · exact .helpReturn hkept
  · next hflag =>
    cases he
    refine h.read ht ⟨?_, by simp [PC.owned], by simpa [PC.Prepared] using hflag⟩
    simp only [PC.refs, List.forall_mem_append, List.forall_mem_cons]
    exact ⟨⟨hp, hc, hl⟩, hkept⟩

theorem RefInv.findKey (h : RefInv s) (ht : s.thread t = .running call (.findKey f))
    (he : exec cfg t call fresh s.mem (.findKey f) = some (m', pc')) :
    RefStep s t (.findKey f) (fun _ => False) m' pc' := by
  have hr := accessible_refs ht
  have hq : f.currOp.flag = .none := h.prepared ht
  have hgo : ∀ d, Follows (Accessible s) s.mem [] (.hpField cfg f.curr d (.findChild f d)) := by
    intro d
    refine .hpField ⟨hr, by simp [PC.owned], hq⟩ (nodeRef_of ?_)
    exact hr _ (by simp [PC.refs])
  simp only [PC.refs, List.forall_mem_append, List.forall_mem_cons] at hr
  obtain ⟨⟨hp, hc, hl⟩, hkept⟩ := hr
  simp only [exec] at he
  split at he
  · cases he
    exact h.read ht (hgo true)
  · split at he
    · cases he
      exact h.read ht (hgo false)
    · cases he
      refine h.read ht (.findEnd (by simp) hq ?_ hkept)
      simp only [FindVars.answer, if_true, List.forall_mem_cons]
      exact ⟨hc, hp⟩

theorem RefInv.findChild (h : RefInv s) (ht : s.thread t = .running call (.findChild f d))
    (he : exec cfg t call fresh s.mem (.findChild f d) = some (m', pc')) :
    RefStep s t (.findChild f d) (fun _ => False) m' pc' := by
  have hr := accessible_refs ht
  have hq : f.currOp.flag = .none := h.prepared ht
  simp only [PC.refs, List.forall_mem_append, List.forall_mem_cons] at hr
  obtain ⟨⟨-, hc, hl⟩, hkept⟩ := hr
  have hw : isNull (s.mem.child f.curr d) = false → Accessible s (.node (s.mem.child f.curr d).addr) :=
    fun hn => .edge hc (.child hn)
  cases d with
  | true =>
    cases he
    exact h.read ht (.findLoop (by simp) hq hw hl (top_of hc) hkept)
  | false =>
    cases he
    exact h.read ht (.findLoop (by simp) hq hw (nodeRef_of hc) (top_of hc) hkept)

theorem RefInv.findLastRight (h : RefInv s)
    (ht : s.thread t = .running call (.findLastRight f result))
    (he : exec cfg t call fresh s.mem (.findLastRight f result) = some (m', pc')) :
    RefStep s t (.findLastRight f result) (fun _ => False) m' pc' := by
  have hr := accessible_refs ht
  have hq : f.currOp.flag = .none := h.prepared ht
  simp only [PC.refs, List.forall_mem_append] at hr
  simp only [exec] at he
  split at he
  · cases he
    exact h.read ht (.findStart hr.2)
  · cases he
    exact h.read ht ⟨List.forall_mem_append.mpr ⟨hr.1.2, hr.2⟩, by simp [PC.owned], hq⟩

theorem RefInv.findCurr (h : RefInv s) (ht : s.thread t = .running call (.findCurr f result))
    (he : exec cfg t call fresh s.mem (.findCurr f result) = some (m', pc')) :
    RefStep s t (.findCurr f result) (fun _ => False) m' pc' := by
  have hr := accessible_refs ht
  simp only [PC.refs, List.forall_mem_append] at hr
  simp only [exec] at he
  split at he
  · cases he
    exact h.read ht (.findStart hr.2)
  · cases he
    exact h.read ht (.findReturn (h.prepared ht) hr.1 hr.2)

-- ---------------------------------------------------------------------------
-- The accesses of `add`
-- ---------------------------------------------------------------------------

theorem RefInv.addNew (h : RefInv s) (ht : s.thread t = .running call (.addNew f d))
    (he : exec cfg t call fresh s.mem (.addNew f d) = some (m', pc')) :
    ∃ P, RefStep s t (.addNew f d) P m' pc' := by
  have hc : ∀ o ∈ nodeRef f.curr, Accessible s o := accessible_refs ht
  simp only [exec] at he
  split at he
  · next halloc =>
    cases he
    refine ⟨_, h.new ht (o := .node fresh) halloc rfl ?_ (fun _ _ => rfl) (fun _ _ => rfl) ?_ ?_⟩
    · intro n hn
      exact Function.update_of_ne (by simpa [eq_comm] using hn) ..
    · simp
    · have hrefs : ∀ o ∈ nodeRef f.curr, Accessible s o ∨ o = .node fresh ∧
          (Obj.node fresh).isReloc = true := fun o ho => .inl (hc o ho)
      refine follows_hp.mpr (.hpField ⟨hrefs, by simp [PC.owned], ?_⟩ hrefs)
      refine ⟨by simp [createLFNode], fun d => ?_⟩
      cases d <;> simp [createLFNode, Node.child, isNull]
  · cases he

theorem RefInv.addOld (h : RefInv s) (ht : s.thread t = .running call (.addOld f d n))
    (he : exec cfg t call fresh s.mem (.addOld f d n) = some (m', pc')) :
    ∃ P, RefStep s t (.addOld f d n) P m' pc' := by
  have hc : ∀ o ∈ nodeRef f.curr, Accessible s o := accessible_refs ht
  have hblank : Blank s.mem n := h.prepared ht
  simp only [exec] at he
  split at he
  · next halloc =>
    cases he
    refine ⟨_, h.new ht (o := .cas fresh) halloc rfl (fun _ _ => rfl) ?_ (fun _ _ => rfl) ?_ ?_⟩
    · intro r hr
      exact Function.update_of_ne (by simpa [eq_comm] using hr) ..
    · simp
    · exact ⟨fun o ho => .inl (hc o ho), by simp [PC.owned, or_comm], hblank, by simp⟩
  · cases he

/-- The new node is in nobody else's hands, so it still refers to nothing. -/
theorem RefInv.addCas {r : Addr} (h : RefInv s) (ht : s.thread t = .running call (.addCas f n r))
    (he : exec cfg t call fresh s.mem (.addCas f n r) = some (m', pc')) :
    ∃ P, RefStep s t (.addCas f n r) P m' pc' := by
  have hc : ∀ o ∈ nodeRef f.curr, Accessible s o := accessible_refs ht
  obtain ⟨⟨hop, hchild⟩, hupd⟩ : Blank s.mem n ∧ (s.mem.cas r).update = .ptr n := h.prepared ht
  have hknown := known_of_nodeRef hc
  simp only [exec] at he
  split at he
  · cases he
    refine ⟨fun o => o = .node n ∨ o = .cas r, h.setOp ht hknown (by simp) ?_ (by simp) ?_ ?_⟩
    · rintro r' heq
      cases heq
      exact .inr (.inr rfl)
    · have hnc : n ≠ f.curr := by
        rintro rfl
        have howned : Owned s t (.node f.curr) := ⟨_, _, ht, by simp [PC.owned]⟩
        exact absurd ((h.owned howned).2 hknown) (by simp [Obj.isReloc])
      rintro o (rfl | rfl)
      · refine ⟨⟨by simp [PC.owned], by simp [childStart, PC.owned]⟩, fun o' hedge => ?_⟩
        cases hedge with
        | child hn => simp [hchild] at hn
        | cas hw | reloc hw =>
          rw [Mem.setOp_op, if_neg hnc] at hw
          simp [hw] at hop
      · refine ⟨⟨by simp [PC.owned], by simp [childStart, PC.owned]⟩, fun o' hedge => ?_⟩
        cases hedge with
        | update =>
          rw [Mem.setOp_cas, hupd]
          exact .inr (.inl rfl)
    · exact .childStart (.inr (.inr rfl)) (fun o ho => .inl (hc o ho)) (by simp [HelpRet.refs])
  · cases he
    exact ⟨_, h.delete ht [n, r] (by simp [PC.owned, Obj.addr]) .callStart⟩

-- ---------------------------------------------------------------------------
-- The accesses of `remove`
-- ---------------------------------------------------------------------------

/-- The reads of both children, in each of the two places. -/
theorem RefInv.removeChildren (h : RefInv s) (ht : s.thread t = .running call pc)
    (hpc : pc = .removeRight f ∨ pc = .removeLeft f ∨ pc = .removeTestRight f ∨
      pc = .removeTestLeft f)
    (he : exec cfg t call fresh s.mem pc = some (m', pc')) :
    RefStep s t pc (fun _ => False) m' pc' := by
  have hr : ∀ o ∈ .node f.curr :: nodeRef f.pred, Accessible s o := by
    rcases hpc with rfl | rfl | rfl | rfl <;> exact accessible_refs ht
  have hq : f.currOp.flag = .none := by
    rcases hpc with rfl | rfl | rfl | rfl <;> exact h.prepared ht
  have hc : ∀ o ∈ nodeRef f.curr, Accessible s o := nodeRef_of (hr _ (by simp))
  rcases hpc with rfl | rfl | rfl | rfl
  · simp only [exec] at he
    split at he <;> cases he
    · exact h.read ht (.hpField ⟨hr, by simp [PC.owned], hq⟩ hc)
    · exact h.read ht ⟨hr, by simp [PC.owned], hq⟩
  · simp only [exec] at he
    split at he <;> cases he
    · exact h.read ht (.hpField ⟨hr, by simp [PC.owned], hq⟩ hc)
    · exact h.read ht ⟨hr, by simp [PC.owned], hq⟩
  · simp only [exec] at he
    split at he <;> cases he <;> exact h.read ht ⟨hr, by simp [PC.owned], hq⟩
  · simp only [exec] at he
    split at he <;> cases he
    · exact h.read ht ⟨hr, by simp [PC.owned], hq⟩
    · exact h.read ht (.findStart hr)

theorem RefInv.removeMark (h : RefInv s) (ht : s.thread t = .running call (.removeMark f))
    (he : exec cfg t call fresh s.mem (.removeMark f) = some (m', pc')) :
    RefStep s t (.removeMark f) (fun _ => False) m' pc' := by
  have hr := accessible_refs ht
  have hq : f.currOp.flag = .none := h.prepared ht
  have hmark : setFlag f.currOp .mark = ⟨f.currOp.addr, .mark⟩ := by simp [setFlag, hq]
  simp only [PC.refs, List.forall_mem_cons] at hr
  simp only [exec] at he
  split at he
  · cases he
    rw [hmark]
    refine h.resetOp ht (.inr hr.1) (fun heq => absurd heq (h.ne_baseRoot hr.1)) (by simp) (by simp)
      ⟨?_, by simp [PC.owned], trivial⟩
    simp only [PC.refs, HelpArgs.refs, HelpRet.refs, List.forall_mem_append, List.forall_mem_cons]
    exact ⟨hr.2, hr.1, by simp⟩
  · cases he
    exact h.read ht .callStart

theorem RefInv.removeCheck {c : Addr} (h : RefInv s)
    (ht : s.thread t = .running call (.removeCheck f c w))
    (he : exec cfg t call fresh s.mem (.removeCheck f c w) = some (m', pc')) :
    RefStep s t (.removeCheck f c w) (fun _ => False) m' pc' := by
  have hr : ∀ o ∈ .node c :: .node f.curr :: nodeRef f.pred, Accessible s o := accessible_refs ht
  simp only [exec] at he
  split at he <;> cases he
  · exact h.read ht .callStart
  · apply h.read ht
    simp only [follows_hp]
    exact ⟨hr, by simp [PC.owned], trivial⟩

theorem RefInv.removeNew {c : Addr} (h : RefInv s)
    (ht : s.thread t = .running call (.removeNew f c w))
    (he : exec cfg t call fresh s.mem (.removeNew f c w) = some (m', pc')) :
    ∃ P, RefStep s t (.removeNew f c w) P m' pc' := by
  have hr := accessible_refs ht
  simp only [PC.refs, List.forall_mem_cons] at hr
  simp only [exec] at he
  split at he
  · next halloc =>
    cases he
    refine ⟨_, h.new ht (o := .reloc fresh) halloc rfl (fun _ _ => rfl) (fun _ _ => rfl) ?_ ?_ ?_⟩
    · intro r hr
      exact Function.update_of_ne (by simpa [eq_comm] using hr) ..
    · rintro r heq
      cases heq
      simpa using hr.1
    · refine ⟨?_, by simp [PC.owned], trivial⟩
      simp only [PC.refs, List.forall_mem_cons]
      exact ⟨.inr ⟨trivial, rfl⟩, .inl hr.2.1, fun o ho => .inl (hr.2.2 o ho)⟩
  · cases he

theorem RefInv.removeInstall {r : Addr} (h : RefInv s)
    (ht : s.thread t = .running call (.removeInstall f r))
    (he : exec cfg t call fresh s.mem (.removeInstall f r) = some (m', pc')) :
    RefStep s t (.removeInstall f r) (fun _ => False) m' pc' := by
  have hr := accessible_refs ht
  simp only [PC.refs, List.forall_mem_cons] at hr
  obtain ⟨hrec, hc, hp⟩ := hr
  simp only [exec] at he
  split at he
  · cases he
    refine h.resetOp ht (.inr hc) (fun heq => absurd heq (h.ne_baseRoot hc)) (by simp) ?_
      ⟨?_, by simp [PC.owned, HelpRet.owned], trivial⟩
    · rintro r' heq
      cases heq
      exact hrec
    · simp only [PC.refs, HelpArgs.refs, HelpRet.refs, List.forall_mem_append, List.forall_mem_cons]
      exact ⟨hrec, hp, hc, by simp⟩
  · cases he
    exact h.delete ht [r] (by simp [PC.owned, Obj.addr]) .callStart

theorem RefInv.removeDelete {r : Addr} (h : RefInv s)
    (ht : s.thread t = .running call (.removeDelete f r))
    (he : exec cfg t call fresh s.mem (.removeDelete f r) = some (m', pc')) :
    RefStep s t (.removeDelete f r) (fun _ => False) m' pc' := by
  cases he
  exact h.delete ht [r] (by simp [PC.owned, Obj.addr]) .callStart

-- ---------------------------------------------------------------------------
-- The accesses of `helpChildCAS`
-- ---------------------------------------------------------------------------

theorem RefInv.childSlot {r : Addr} (h : RefInv s)
    (ht : s.thread t = .running call (.childSlot r x k))
    (he : exec cfg t call fresh s.mem (.childSlot r x k) = some (m', pc')) :
    RefStep s t (.childSlot r x k) (fun _ => False) m' pc' := by
  have hr := accessible_refs ht
  simp only [PC.refs, List.forall_mem_append, List.forall_mem_cons] at hr
  obtain ⟨⟨hop, hx⟩, hk⟩ := hr
  have hw : isNull (s.mem.cas r).update = false →
      Accessible s (.node (s.mem.cas r).update.addr) := fun hn => .edge hop (.update hn)
  have hknown := known_of_nodeRef hx
  have hend : ∀ m, Follows (Accessible s) m [] (.childOp r x k) := fun m =>
    ⟨List.forall_mem_append.mpr ⟨hx, hk⟩, by simp [PC.owned], trivial⟩
  obtain ⟨as, has⟩ := (s.mem.setChild x (s.mem.cas r).isLeft (s.mem.cas r).update).exists_retire
    (s.mem.cas r).expected t
  simp only [exec] at he
  split at he
  · split at he
    · split at he <;> cases he <;> rw [has]
      · exact h.setChild ht hknown hw (.scanNext hx hk _)
      · exact h.setChild ht hknown hw (hend _)
    · cases he
      exact h.setChild ht hknown hw (hend _)
  · cases he
    exact h.read ht (hend _)

/-- Line 393 is about to delete `a`. -/
def State.scanDeletes (s : State) (l : Tid × Action) (a : Addr) : Prop :=
  ∃ rest i op dest k, s.at l = some (.childScan a rest i op dest k) ∧
    Word.ptr a ≠ unflag (s.mem.hp i) ∧ maxThreads * numHpPerThread ≤ i + 1

theorem RefInv.childScan {r : Addr} {i : Nat} {rest : List Addr} (h : RefInv s)
    (ht : s.thread t = .running call (.childScan a rest i r x k))
    (he : exec cfg t call fresh s.mem (.childScan a rest i r x k) = some (m', pc'))
    (hdel : s.scanDeletes (t, .access fresh) a → Unreferenced s a) :
    RefStep s t (.childScan a rest i r x k) (fun _ => False) m' pc' := by
  have hr : ∀ o ∈ nodeRef x ++ k.refs, Accessible s o := accessible_refs ht
  have hr' := List.forall_mem_append.mp hr
  simp only [exec] at he
  split at he
  · cases he
    exact h.read ht (.scanNext hr'.1 hr'.2 _)
  · next hslot =>
    split at he
    · cases he
      exact h.read ht ⟨hr, by simp [PC.owned], trivial⟩
    · next hi =>
      cases he
      have hfree := hdel ⟨rest, i, r, x, k, by simp [State.at, ht], hslot, by omega⟩
      refine h.free rfl rfl rfl (fun o _ hk => ?_) (.scanNext hr'.1 hr'.2 _)
      refine Function.update_of_ne (fun heq => ?_) ..
      obtain ⟨hn, ho⟩ := hfree o heq
      rcases hk with ⟨ha, hk⟩ | ⟨u, -, hu⟩
      · simp [hn ha] at hk
      · exact ho u hu

theorem RefInv.childOp {r : Addr} (h : RefInv s)
    (ht : s.thread t = .running call (.childOp r x k))
    (he : exec cfg t call fresh s.mem (.childOp r x k) = some (m', pc')) :
    RefStep s t (.childOp r x k) (fun _ => False) m' pc' := by
  have hr := accessible_refs ht
  simp only [PC.refs, List.forall_mem_append] at hr
  simp only [exec] at he
  split at he <;> cases he
  · exact h.resetOp ht (known_of_nodeRef hr.1) (by simp) (by simp) (by simp) (.helpReturn hr.2)
  · exact h.read ht (.helpReturn hr.2)

-- ---------------------------------------------------------------------------
-- The accesses of `helpMarked`
-- ---------------------------------------------------------------------------

theorem RefInv.markedLeft (h : RefInv s) (ht : s.thread t = .running call (.markedLeft args))
    (he : exec cfg t call fresh s.mem (.markedLeft args) = some (m', pc')) :
    RefStep s t (.markedLeft args) (fun _ => False) m' pc' := by
  have hr : ∀ o ∈ args.refs, Accessible s o := accessible_refs ht
  simp only [exec] at he
  split at he <;> cases he
  · exact h.read ht ⟨hr, by simp [PC.owned], trivial⟩
  · exact h.read ht (.hpField ⟨hr, by simp [PC.owned], trivial⟩ (nodeRef_of (HelpArgs.of_refs hr).2.1))

theorem RefInv.markedRight (h : RefInv s) (ht : s.thread t = .running call (.markedRight args))
    (he : exec cfg t call fresh s.mem (.markedRight args) = some (m', pc')) :
    RefStep s t (.markedRight args) (fun _ => False) m' pc' := by
  have hr : ∀ o ∈ args.refs, Accessible s o := accessible_refs ht
  simp only [exec] at he
  split at he <;> cases he
  · refine h.read ht ⟨?_, by simp [PC.owned], trivial⟩
    simpa [PC.refs, Word.refs, isNull] using hr
  · exact h.read ht (.hpField ⟨hr, by simp [PC.owned], trivial⟩ (nodeRef_of (HelpArgs.of_refs hr).2.1))

theorem RefInv.markedRef (h : RefInv s) (ht : s.thread t = .running call (.markedRef args d))
    (he : exec cfg t call fresh s.mem (.markedRef args d) = some (m', pc')) :
    RefStep s t (.markedRef args d) (fun _ => False) m' pc' := by
  have hr : ∀ o ∈ args.refs, Accessible s o := accessible_refs ht
  cases he
  refine h.read ht ⟨?_, by simp [PC.owned], trivial⟩
  refine List.forall_mem_append.mpr ⟨?_, hr⟩
  unfold Word.refs
  split
  · simp
  · next hn =>
    rw [List.forall_mem_singleton]
    exact .edge (HelpArgs.of_refs hr).2.1 (.child (by simpa using hn))

theorem RefInv.markedNew (h : RefInv s) (ht : s.thread t = .running call (.markedNew args w))
    (he : exec cfg t call fresh s.mem (.markedNew args w) = some (m', pc')) :
    ∃ P, RefStep s t (.markedNew args w) P m' pc' := by
  have hr : ∀ o ∈ w.refs ++ args.refs, Accessible s o := accessible_refs ht
  simp only [exec] at he
  split at he
  · next halloc =>
    cases he
    refine ⟨_, h.new ht (o := .cas fresh) halloc rfl (fun _ _ => rfl) ?_ (fun _ _ => rfl) ?_ ?_⟩
    · intro r hr
      exact Function.update_of_ne (by simpa [eq_comm] using hr) ..
    · simp
    · exact ⟨fun o ho => .inl (hr o (by simpa [PC.refs] using ho)), by simp [PC.owned], trivial⟩
  · cases he

theorem RefInv.markedCas {r : Addr} (h : RefInv s)
    (ht : s.thread t = .running call (.markedCas args r))
    (he : exec cfg t call fresh s.mem (.markedCas args r) = some (m', pc')) :
    ∃ P, RefStep s t (.markedCas args r) P m' pc' := by
  have hr := accessible_refs ht
  simp only [PC.refs, List.forall_mem_append] at hr
  obtain ⟨hp, -, hk⟩ := HelpArgs.of_refs hr.2
  simp only [exec] at he
  split at he
  · cases he
    refine ⟨fun o => o = .cas r, h.setOp ht (known_of_nodeRef hp) (by simp) ?_ (by simp) ?_ ?_⟩
    · rintro r' heq
      cases heq
      exact .inr rfl
    · rintro o rfl
      refine ⟨⟨by simp [PC.owned], by simp [childStart, PC.owned]⟩, fun o' hedge => ?_⟩
      cases hedge with
      | update hn =>
        rw [Mem.setOp_cas] at hn ⊢
        exact .inl (hr.1 _ (by simp [Word.refs, hn]))
    · exact .childStart (.inr rfl) (fun o ho => .inl (hp o ho)) (fun o ho => .inl (hk o ho))
  · cases he
    exact ⟨_, h.delete ht [r] (by simp [PC.owned, Obj.addr]) (.helpReturn hk)⟩

-- ---------------------------------------------------------------------------
-- The accesses of `helpRelocate`
-- ---------------------------------------------------------------------------

/-- A conditional write of `op` in `helpRelocate`. -/
theorem RefInv.setOpIf {c : Prop} [Decidable c] (h : RefInv s)
    (ht : s.thread t = .running call pc) (hx : Accessible s (.node x)) (hw : w.flag ≠ .childCas)
    (hrel : ∀ r, w = .rel r → Accessible s (.reloc r))
    (hf : ∀ m, Follows (Accessible s) m pc.owned pc') :
    RefStep s t pc (fun _ => False) (if c then s.mem.setOp x w else s.mem) pc' := by
  split
  · exact h.resetOp ht (.inr hx) (fun heq => absurd heq (h.ne_baseRoot hx)) hw hrel (hf _)
  · exact h.read ht (hf _)

/-- A conditional write of `state`. -/
theorem RefInv.setStateIf {c : Prop} [Decidable c] {st : OpState} (h : RefInv s)
    (ht : s.thread t = .running call pc) (hf : ∀ m, Follows (Accessible s) m pc.owned pc') :
    RefStep s t pc (fun _ => False) (if c then s.mem.setState r st else s.mem) pc' := by
  split
  · exact h.inert ht rfl rfl (fun _ _ => rfl) rfl rfl (Mem.setState_dest s.mem _ · _) (hf _)
  · exact h.read ht (hf _)

theorem RefInv.relocState (h : RefInv s) (ht : s.thread t = .running call (.relocState r args))
    (he : exec cfg t call fresh s.mem (.relocState r args) = some (m', pc')) :
    RefStep s t (.relocState r args) (fun _ => False) m' pc' := by
  have hr : ∀ o ∈ .reloc r :: args.refs, Accessible s o := accessible_refs ht
  have hr' := List.forall_mem_cons.mp hr
  cases he
  refine h.read ht (follows_hp.mpr ?_)
  split
  · exact ⟨hr, by simp [PC.owned], trivial⟩
  · exact ⟨hr, by simp [PC.owned], trivial⟩
  · exact .relocTail hr'.1 hr'.2 (by simp [PC.owned])

theorem RefInv.relocDest (h : RefInv s) (ht : s.thread t = .running call (.relocDest r args))
    (he : exec cfg t call fresh s.mem (.relocDest r args) = some (m', pc')) :
    RefStep s t (.relocDest r args) (fun _ => False) m' pc' := by
  have hr : ∀ o ∈ .reloc r :: args.refs, Accessible s o := accessible_refs ht
  have hrec := (List.forall_mem_cons.mp hr).1
  have hrel : ∀ r', setFlag (.ptr r) .relocate = .rel r' → Accessible s (.reloc r') := by
    rintro r' heq
    cases heq
    exact hrec
  simp only [exec] at he
  split at he <;> cases he
  · exact h.setOpIf ht (.edge hrec .dest) (by simp) hrel fun _ => ⟨hr, by simp [PC.owned], trivial⟩
  · exact h.setOpIf ht (.edge hrec .dest) (by simp) hrel fun _ => ⟨hr, by simp [PC.owned], trivial⟩

theorem RefInv.relocSucceed (h : RefInv s) (ht : s.thread t = .running call (.relocSucceed r args))
    (he : exec cfg t call fresh s.mem (.relocSucceed r args) = some (m', pc')) :
    RefStep s t (.relocSucceed r args) (fun _ => False) m' pc' := by
  have hr : ∀ o ∈ .reloc r :: args.refs, Accessible s o := accessible_refs ht
  cases he
  exact h.setStateIf ht fun _ => ⟨hr, by simp [PC.owned], trivial⟩

theorem RefInv.relocFail (h : RefInv s) (ht : s.thread t = .running call (.relocFail r args))
    (he : exec cfg t call fresh s.mem (.relocFail r args) = some (m', pc')) :
    RefStep s t (.relocFail r args) (fun _ => False) m' pc' := by
  have hr : ∀ o ∈ .reloc r :: args.refs, Accessible s o := accessible_refs ht
  have hr' := List.forall_mem_cons.mp hr
  cases he
  refine h.setStateIf ht fun _ => ?_
  split
  · exact ⟨hr, by simp [PC.owned], trivial⟩
  · exact .relocTail hr'.1 hr'.2 (by simp [PC.owned])

theorem RefInv.relocKey (h : RefInv s) (ht : s.thread t = .running call (.relocKey r args))
    (he : exec cfg t call fresh s.mem (.relocKey r args) = some (m', pc')) :
    RefStep s t (.relocKey r args) (fun _ => False) m' pc' := by
  have hr : ∀ o ∈ .reloc r :: args.refs, Accessible s o := accessible_refs ht
  have hd : Accessible s (.node (s.mem.reloc r).dest) :=
    .edge (List.forall_mem_cons.mp hr).1 .dest
  cases he
  split
  · refine h.inert ht rfl rfl (fun n hn => ?_) (Mem.setKey_op ..) (Mem.setKey_child ..)
      (fun _ => rfl) ⟨hr, by simp [PC.owned], trivial⟩
    have hne : n ≠ (s.mem.reloc r).dest := fun heq => hn (heq ▸ .inr hd)
    exact Function.update_of_ne hne ..
  · exact h.read ht ⟨hr, by simp [PC.owned], trivial⟩

theorem RefInv.relocClear (h : RefInv s) (ht : s.thread t = .running call (.relocClear r args))
    (he : exec cfg t call fresh s.mem (.relocClear r args) = some (m', pc')) :
    RefStep s t (.relocClear r args) (fun _ => False) m' pc' := by
  have hr : ∀ o ∈ .reloc r :: args.refs, Accessible s o := accessible_refs ht
  have hr' := List.forall_mem_cons.mp hr
  cases he
  exact h.setOpIf ht (.edge hr'.1 .dest) (by simp) (by simp) fun _ =>
    .relocTail hr'.1 hr'.2 (by simp [PC.owned])

theorem RefInv.relocCurr (h : RefInv s) (ht : s.thread t = .running call (.relocCurr r args b))
    (he : exec cfg t call fresh s.mem (.relocCurr r args b) = some (m', pc')) :
    RefStep s t (.relocCurr r args b) (fun _ => False) m' pc' := by
  have hr : ∀ o ∈ .reloc r :: args.refs, Accessible s o := accessible_refs ht
  have hr' := List.forall_mem_cons.mp hr
  have hc := (HelpArgs.of_refs hr'.2).2.1
  simp only [exec] at he
  split at he <;> next hb =>
    cases he
    refine h.setOpIf ht hc (by cases b <;> simp [setFlag]) (by cases b <;> simp [setFlag]) fun _ => ?_
    first
    | exact ⟨hr'.2, by simp [PC.owned], trivial⟩
    | exact .relocReturn (HelpArgs.of_refs hr'.2).2.2 (by simp [PC.owned])

-- ---------------------------------------------------------------------------
-- Runs
-- ---------------------------------------------------------------------------

theorem refInv_initial : RefInv State.initial := by
  have hacc : ∀ {o}, ¬ Accessible State.initial o := by
    intro o ho
    induction ho with
    | root he =>
      cases he with
      | @child _ d hn => cases d <;> cases hn
      | cas hw | reloc hw => cases hw
    | ref ht => cases ht
    | edge _ _ ih => exact ih
  have howned : ∀ {t o}, ¬ Owned State.initial t o := by
    rintro t o ⟨_, _, ht, _⟩
    cases ht
  refine ⟨fun ho _ => ?_, fun ho => absurd ho howned, fun _ ho => absurd ho howned,
    fun ht => ?_, hacc, .inl rfl⟩
  · rcases ho with rfl | ho
    · rfl
    · exact absurd ho hacc
  · cases ht

/-- A thread may start or end a call. -/
theorem RefInv.rethread {th : Thread} (h : RefInv s)
    (hf : ∀ call pc, th = .running call pc → Follows (Accessible s) s.mem [] pc) :
    RefInv ⟨s.mem, Function.update s.thread t th⟩ := by
  have hthread : ∀ {u call pc}, Function.update s.thread t th u = .running call pc →
      s.thread u = .running call pc ∨ Follows (Accessible s) s.mem [] pc := by
    intro u call pc hu
    by_cases hut : u = t
    · subst hut
      exact .inr (hf call pc (by simpa using hu))
    · exact .inl (by simpa [hut] using hu)
  have hacc : ∀ {o}, Accessible ⟨s.mem, Function.update s.thread t th⟩ o → Accessible s o := by
    intro o ho
    induction ho with
    | root he => exact .root he
    | ref hu ho =>
      rcases hthread hu with hold | hnew
      · exact .ref hold ho
      · exact hnew.refs _ ho
    | edge _ he ih => exact .edge ih he
  have howned : ∀ {u o}, Owned ⟨s.mem, Function.update s.thread t th⟩ u o → Owned s u o := by
    rintro u o ⟨call, pc, hu, ho⟩
    rcases hthread hu with hold | hnew
    · exact ⟨call, pc, hold, ho⟩
    · exact absurd (hnew.owned o ho) (by simp)
  refine ⟨fun ho hk => h.allocated (ho.imp_right hacc) hk, fun ho => ?_,
    fun huv hu hv => h.apart huv (howned hu) (howned hv), fun hu => ?_, fun ho => h.root (hacc ho),
    h.rootOp⟩
  · obtain ⟨hal, hold⟩ := h.owned (howned ho)
    exact ⟨hal, fun hn => hold (hn.imp_right hacc)⟩
  · rcases hthread hu with hold | hnew
    · exact h.prepared hold
    · exact hnew.prepared

theorem RefInv.access (h : RefInv s) (ht : s.thread t = .running call pc)
    (he : exec cfg t call fresh s.mem pc = some (m', pc'))
    (hdel : ∀ a, s.scanDeletes (t, .access fresh) a → Unreferenced s a) :
    ∃ P, RefStep s t pc P m' pc' := by
  cases pc with
  | hpChild n d next =>
    have hr := List.forall_mem_append.mp (accessible_refs ht)
    have hprep := h.prepared ht
    cases he
    exact ⟨_, h.read ht ⟨hr.2, fun _ ho => ho, hprep⟩⟩
  | hpPut w next =>
    have hrefs : next.refs (s.mem.addToHpList t w) = next.refs s.mem := refs_congr fun _ _ => rfl
    have hr : ∀ o ∈ next.refs (s.mem.addToHpList t w), Accessible s o := fun o ho =>
      .ref ht (hrefs ▸ ho)
    have hprep : (PC.hpPut w next).Prepared (s.mem.addToHpList t w) :=
      prepared_congr (m := s.mem) (fun _ _ => rfl) (fun _ _ => rfl) (h.prepared ht)
    cases he
    exact ⟨_, h.inert ht rfl rfl (fun _ _ => rfl) rfl rfl (fun _ => rfl) ⟨hr, fun _ ho => ho, hprep⟩⟩
  | findOp => exact ⟨_, h.findOp ht he⟩
  | findNext => exact ⟨_, h.findNext ht he⟩
  | findCurrOp => exact ⟨_, h.findCurrOp ht he⟩
  | findKey => exact ⟨_, h.findKey ht he⟩
  | findChild => exact ⟨_, h.findChild ht he⟩
  | findLastRight => exact ⟨_, h.findLastRight ht he⟩
  | findCurr => exact ⟨_, h.findCurr ht he⟩
  | addNew => exact h.addNew ht he
  | addOld => exact h.addOld ht he
  | addCas => exact h.addCas ht he
  | removeRight => exact ⟨_, h.removeChildren ht (.inl rfl) he⟩
  | removeLeft => exact ⟨_, h.removeChildren ht (.inr (.inl rfl)) he⟩
  | removeTestRight => exact ⟨_, h.removeChildren ht (.inr (.inr (.inl rfl))) he⟩
  | removeTestLeft => exact ⟨_, h.removeChildren ht (.inr (.inr (.inr rfl))) he⟩
  | removeMark => exact ⟨_, h.removeMark ht he⟩
  | removeCheck => exact ⟨_, h.removeCheck ht he⟩
  | removeNew => exact h.removeNew ht he
  | removeInstall => exact ⟨_, h.removeInstall ht he⟩
  | removeDelete => exact ⟨_, h.removeDelete ht he⟩
  | childSlot => exact ⟨_, h.childSlot ht he⟩
  | childScan => exact ⟨_, h.childScan ht he (hdel _)⟩
  | childOp => exact ⟨_, h.childOp ht he⟩
  | markedLeft => exact ⟨_, h.markedLeft ht he⟩
  | markedRight => exact ⟨_, h.markedRight ht he⟩
  | markedRef => exact ⟨_, h.markedRef ht he⟩
  | markedNew => exact h.markedNew ht he
  | markedCas => exact h.markedCas ht he
  | relocState => exact ⟨_, h.relocState ht he⟩
  | relocDest => exact ⟨_, h.relocDest ht he⟩
  | relocSucceed => exact ⟨_, h.relocSucceed ht he⟩
  | relocFail => exact ⟨_, h.relocFail ht he⟩
  | relocKey => exact ⟨_, h.relocKey ht he⟩
  | relocClear => exact ⟨_, h.relocClear ht he⟩
  | relocCurr => exact ⟨_, h.relocCurr ht he⟩
  | ret => simp at he

theorem RefInv.next (h : RefInv s) (hdel : ∀ a, s.scanDeletes l a → Unreferenced s a)
    (hs : (system cfg).next s l = some s') : RefInv s' := by
  cases steps_of_next hs with
  | invoke =>
    refine h.rethread fun call pc heq => ?_
    cases heq
    exact .callStart
  | access ht he =>
    obtain ⟨P, hstep⟩ := h.access ht he hdel
    exact h.step ht hstep
  | respond => exact h.rethread fun call pc heq => by cases heq

/-- `n` rounds of adding and removing the key 5 again. -/
def churn : Nat → List (Tid × Action)
  | 0 => []
  | n + 1 => churn n ++ soloCall 0 (.add 5) (120 + 38 * n) 18 ++
      soloCall 0 (.remove 5) (138 + 38 * n) 20

end LockFree
