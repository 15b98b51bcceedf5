-- SUMMARY: The steps of add and remove, and the return of find, keep what the thread knows.
import ConcurrentBST.LockFree.FindSteps

/-!
# The steps of `add` and `remove`

Here a call publishes its record, and here the calls that change nothing take
effect: at line 229, once `find` has its answer.
-/

namespace LockFree

variable {cfg : Config} {m m' : Mem} {g g' : Ghost} {x y r s a b n c : Addr} {d e : Bool} {k : Int}
  {w v : Word} {t u : Tid} {spent : Addr → Prop} {call : Call} {f : FindVars} {pc pc' : PC}
  {fresh : Addr}

theorem MemInv.evolution (h : MemInv cfg m g) (hc : Change cfg t spent m g m' g') :
    Evolution cfg spent m g m' g' :=
  ⟨hc.evolves h, h, hc.memInv h⟩

theorem status_setStatus {st : Status} : (g.setStatus t st).status t = st := by
  simp [Ghost.setStatus]

/-- A new record is known to nobody else. -/
theorem MemInv.private_of_alloc (h : MemInv cfg m g) (ha : m.allocatable cfg a = true)
    (hop : m'.op = m.op) (hborn : g'.born = g.born) (hpo : g'.pastOp = g.pastOp)
    (hcas : ∀ {r}, Taken cfg m r → m'.cas r = m.cas r) (htaken : Taken cfg m' a) :
    Private cfg m' g' a where
  ne_zero := MemInv.ne_zero_of_allocatable ha
  taken := htaken
  hidden := by
    intro hp
    refine h.not_public_of_allocatable ha
      (.of_ever hp (fun hb => .node (hborn ▸ hb)) (everOp_frame hop hpo).mp fun he => ?_)
    rw [hcas (h.taken_cas he)]

theorem taken_alloc {k' : Cell} (hcell : m'.cell = Function.update m.cell a k')
    (hu : k' ≠ .unused) (hd : k' ≠ .deleted) : Taken cfg m' a := by
  unfold Taken Mem.allocatable
  simp [hcell, hu, hd]

/-! ## The return of `find` -/

theorem sound_answer_root (h : MemInv cfg m g) {result : FindResult} (hroot : f.caller = .root)
    (hw : g.status t = .waiting call) (ha : Answer m g call f result)
    (hx : m.op f.curr = f.currOp) :
    Sound cfg t call m g (.findCurr f result) m (findReturn cfg call f result) := by
  unfold Answer at ha
  rw [hroot] at ha
  -- Unsuccessful searches have seen the gap of the key.
  have hno : ∀ {d}, Vacant m g call.key f.curr f.currOp d → call.key ∉ keys m g := fun hv =>
    (hv.gap hx).not_mem_keys h (h.mem_of_seen hv.toSeen hx)
  have hyes : Target m g call.key f.curr f.currOp → call.key ∈ keys m g := fun ht =>
    ⟨f.curr, h.mem_of_seen ht.toSeen hx, ht.ne_root, present_of_flag (.inl (by rw [hx, ht.flag])),
      ht.key hx⟩
  have heffect : ∀ {res : Result}, SetStep (keys m g) call res (keys m g) →
      findReturn cfg call f result = .hp cfg (.ptr f.curr) (.ret res) ∨
        findReturn cfg call f result = .ret res →
      Sound cfg t call m g (.findCurr f result) m (findReturn cfg call f result) := by
    intro res hstep hret
    refine ⟨_, fun _ => False, .observe hw hstep, fun _ h => h.elim, ?_, ?_⟩
    · rcases hret with hret | hret <;> rw [hret]
      · exact pcInv_hp.mpr status_setStatus
      · exact status_setStatus
    · rcases hret with hret | hret <;> rw [hret] <;> simp [PC.owns]
  cases call with
  | find k =>
    rcases ha with ⟨rfl, ht, _⟩ | ⟨rfl, hv⟩ | ⟨rfl, hv⟩
    · exact heffect (.found (hyes ht)) (.inr (by simp [findReturn, hroot]))
    · exact heffect (.notFound (hno hv) (.inl rfl)) (.inr (by simp [findReturn, hroot]))
    · exact heffect (.notFound (hno hv) (.inr rfl)) (.inr (by simp [findReturn, hroot]))
  | add k =>
    rcases ha with ⟨rfl, ht, _⟩ | ⟨rfl, hv⟩ | ⟨rfl, hv⟩
    · exact heffect (.alreadyPresent (hyes ht)) (.inl (by simp [findReturn, hroot]))
    · simp only [findReturn, hroot]
      exact .read (pcInv_hp.mpr ⟨hw, ⟨k, rfl⟩, hv⟩) (by simp [PC.owns])
    · simp only [findReturn, hroot]
      exact .read (pcInv_hp.mpr ⟨hw, ⟨k, rfl⟩, hv⟩) (by simp [PC.owns])
  | remove k =>
    rcases ha with ⟨rfl, ht, hl⟩ | ⟨rfl, hv⟩ | ⟨rfl, hv⟩
    · simp only [findReturn, hroot]
      exact .read (q := .removeRight f) ⟨hw, ⟨k, rfl⟩, ht, hl⟩ rfl
    · exact heffect (.absent (hno hv)) (.inr (by simp [findReturn, hroot]))
    · exact heffect (.absent (hno hv)) (.inr (by simp [findReturn, hroot]))

theorem sound_findCurr (h : MemInv cfg m g) {result : FindResult}
    (hp : PcInv cfg m g t call (.findCurr f result))
    (he : exec cfg t call fresh m (.findCurr f result) = some (m', pc')) :
    Sound cfg t call m g (.findCurr f result) m' pc' := by
  obtain ⟨hw, ha⟩ := hp
  simp only [exec] at he
  split at he
  · cases he
    refine .read (pcInv_findStart ⟨hw, ?_⟩) owns_findStart
    unfold Answer at ha
    split at ha
    · next hfc =>
      rw [hfc]
      trivial
    · exact ha.1
  · next hx =>
    cases he
    replace hx : m.op f.curr = f.currOp := (not_not.mp hx).symm
    cases hfc : f.caller with
    | root => exact sound_answer_root h hfc hw ha hx
    | replacement aux auxOp =>
      unfold Answer at ha
      rw [hfc] at ha
      obtain ⟨hc, hr, hs, hq⟩ := ha
      have hret : findReturn cfg call f result = .removeCheck f aux auxOp := by
        unfold findReturn
        rw [hfc]
        exact if_neg hr
      rw [hret]
      exact .read (q := .removeCheck f aux auxOp) ⟨hw, hc, hs, hq⟩ rfl

/-! ## `add` -/

theorem sound_addNew (h : MemInv cfg m g) (hp : PcInv cfg m g t call (.addNew f d))
    (he : exec cfg t call fresh m (.addNew f d) = some (m', pc')) :
    Sound cfg t call m g (.addNew f d) m' pc' := by
  obtain ⟨hw, hk, hv⟩ := hp
  simp only [exec] at he
  split at he
  · next ha =>
    cases he
    have hc : Change cfg t (fun _ => False) m g (m.newNode fresh (createLFNode call.key)) g :=
      .newNode call.key ha
    have hborn : fresh ∉ g.born := fun hb => h.not_public_of_allocatable ha (.node hb)
    refine ⟨g, _, hc, fun _ h => h.elim, ?_, ?_⟩
    · simp only [pcInv_hp, pcInv_hpField]
      refine ⟨hw, hk, (h.evolution hc).vacant hv, ?_, by simp [createLFNode]⟩
      exact h.private_of_alloc ha (funext (MemInv.newNode_op hborn h)) rfl rfl (fun _ => rfl)
        (taken_alloc rfl (by simp) (by simp))
    · simp [PC.owns, Taken, ha]
  · cases he

theorem sound_addOld (h : MemInv cfg m g) (hp : PcInv cfg m g t call (.addOld f d n))
    (he : exec cfg t call fresh m (.addOld f d n) = some (m', pc')) :
    Sound cfg t call m g (.addOld f d n) m' pc' := by
  obtain ⟨hw, hk, hv, hn, hkey⟩ := hp
  simp only [exec] at he
  split at he
  · next ha =>
    cases he
    have hc : Change cfg t (fun _ => False) m g _ _ := .newCas ⟨d, m.child f.curr d, .ptr n⟩ ha
    have hev := h.evolution hc
    refine ⟨_, _, hc, fun _ h => h.elim, ?_, ?_⟩
    · refine ⟨hw, hk, ?_, hev.hidden_keep hn id, hkey, ?_, ?_, by simp, fun _ => by simp⟩
      · have hv' := hev.vacant hv
        simpa using hv'
      · refine h.private_of_alloc ha rfl rfl rfl (fun hr => ?_) (taken_alloc rfl (by simp) (by simp))
        simp [taken_of_ne_alloc ha hr]
      · simp [Ghost.reassign]
    · intro b hb
      rcases List.mem_pair.mp hb with rfl | rfl
      · exact .inl (by simp [PC.owns])
      · exact .inr (by simp [Taken, ha])
  · cases he

theorem sound_addCas (h : MemInv cfg m g) (hp : PcInv cfg m g t call (.addCas f n r))
    (he : exec cfg t call fresh m (.addCas f n r) = some (m', pc')) :
    Sound cfg t call m g (.addCas f n r) m' pc' := by
  obtain ⟨hw, ⟨k, rfl⟩, hv, hn, hkey, hr, ho, hu, hslot⟩ := hp
  have hspent : ∀ b, (b = n ∨ b = r) → b ∈ (PC.addCas f n r).owns := by
    intro b hb
    simpa [PC.owns] using hb
  simp only [exec] at he
  split at he
  · next hx =>
    cases he
    have hexp : (m.cas r).expected = .null (m.child f.curr (m.cas r).isLeft).addr := by
      rw [← hslot hx]
      exact h.child_eq_null (hv.empty hx)
    have hi : Insertion cfg m g f.curr r (m.child f.curr (m.cas r).isLeft).addr n :=
      ⟨hv.born, by rw [hx, hv.flag], hr, hslot hx, hexp, hu, hn, by rw [hkey]; exact hv.gap hx⟩
    have hc : Change cfg t (fun b => b = n ∨ b = r) m g _ _ :=
      .publishInsertion hi (.inr rfl) (.inl rfl) ho (by rw [hkey]; exact hw)
    refine ⟨_, _, hc, hspent, ⟨.inl (by simp), ⟨k, rfl⟩, .inl ?_⟩, by simp [childStart, PC.owns]⟩
    rw [status_setStatus, hkey]
    rfl
  · cases he
    have hc : Change cfg t (fun b => b = n ∨ b = r) m g ([n, r].foldl Mem.delete m) g := by
      refine .delete [n, r] fun b hb _ => ?_
      rcases List.mem_pair.mp hb with rfl | rfl
      · exact ⟨.inl rfl, hn.hidden⟩
      · exact ⟨.inr rfl, hr.hidden⟩
    exact ⟨g, _, hc, hspent, pcInv_callStart hw, by simp⟩

/-! ## `remove` -/

theorem sound_removeRight (hp : PcInv cfg m g t call (.removeRight f))
    (he : exec cfg t call fresh m (.removeRight f) = some (m', pc')) :
    Sound cfg t call m g (.removeRight f) m' pc' := by
  simp only [exec] at he
  split at he <;> cases he
  · exact .read (pcInv_hpField.mpr hp) (by simp [PC.owns])
  · exact .read (q := .removeLeft f) hp rfl

theorem sound_removeLeft (hp : PcInv cfg m g t call (.removeLeft f))
    (he : exec cfg t call fresh m (.removeLeft f) = some (m', pc')) :
    Sound cfg t call m g (.removeLeft f) m' pc' := by
  simp only [exec] at he
  split at he <;> cases he
  · exact .read (pcInv_hpField.mpr hp) (by simp [PC.owns])
  · exact .read (q := .removeTestRight f) hp rfl

theorem sound_removeTestRight (hp : PcInv cfg m g t call (.removeTestRight f))
    (he : exec cfg t call fresh m (.removeTestRight f) = some (m', pc')) :
    Sound cfg t call m g (.removeTestRight f) m' pc' := by
  obtain ⟨hw, hk, ht, hl⟩ := hp
  simp only [exec] at he
  split at he <;> cases he
  · next hn => exact .read (q := .removeMark f) ⟨hw, hk, ht, hl, fun _ => ⟨false, hn⟩⟩ rfl
  · next hn =>
    exact .read (q := .removeTestLeft f) ⟨hw, hk, ht, hl, fun _ => by simpa using hn⟩ rfl

theorem sound_removeTestLeft (hp : PcInv cfg m g t call (.removeTestLeft f))
    (he : exec cfg t call fresh m (.removeTestLeft f) = some (m', pc')) :
    Sound cfg t call m g (.removeTestLeft f) m' pc' := by
  obtain ⟨hw, hk, ht, hl, hr⟩ := hp
  simp only [exec] at he
  split at he <;> cases he
  · next hn => exact .read (q := .removeMark f) ⟨hw, hk, ht, hl, fun _ => ⟨true, hn⟩⟩ rfl
  · exact .read (pcInv_findStart ⟨hw, hk, ht, hr⟩) owns_findStart

theorem sound_removeMark (h : MemInv cfg m g) (hp : PcInv cfg m g t call (.removeMark f))
    (he : exec cfg t call fresh m (.removeMark f) = some (m', pc')) :
    Sound cfg t call m g (.removeMark f) m' pc' := by
  obtain ⟨hw, ⟨k, rfl⟩, ht, hl, hn⟩ := hp
  simp only [exec] at he
  split at he <;> cases he
  · next hx =>
    have hflag : (m.op f.curr).flag = .none := by rw [hx, ht.flag]
    have hc : Change cfg t (fun _ => False) m g _ _ :=
      .mark ht.born ht.ne_root hflag (hn hx) (by rw [ht.key hx]; exact hw)
    have heq : setFlag f.currOp .mark = ⟨(m.op f.curr).addr, .mark⟩ := by
      rw [hx, setFlag, ht.flag]
      rfl
    rw [heq]
    refine ⟨_, _, hc, fun _ h => h.elim, ⟨⟨(h.evolution hc).link hl, ?_⟩, status_setStatus⟩,
      by simp [PC.owns]⟩
    simp [Mem.marked]
  · exact .read (pcInv_callStart hw) owns_callStart

theorem sound_removeCheck (h : MemInv cfg m g) {aux : Addr} {auxOp : Word}
    (hp : PcInv cfg m g t call (.removeCheck f aux auxOp))
    (he : exec cfg t call fresh m (.removeCheck f aux auxOp) = some (m', pc')) :
    Sound cfg t call m g (.removeCheck f aux auxOp) m' pc' := by
  obtain ⟨hw, hc, hs, hq⟩ := hp
  simp only [exec] at he
  split at he <;> cases he
  · exact .read (pcInv_callStart hw) owns_callStart
  · next ha =>
    obtain ⟨hl, hq⟩ := hq (not_not.mp ha)
    refine .read ?_ (by simp [PC.owns])
    simp only [pcInv_hp]
    refine ⟨hw, hc, hs, hl, fun hx => ?_, fun _ hx => (hq hx).1⟩
    have hb := (hq hx).1.below
    refine ⟨?_, h.ne_root_of_below hb, (hq hx).2⟩
    intro heq
    rw [heq] at hb
    exact h.lawful.irrefl hb

theorem sound_removeNew (h : MemInv cfg m g) {aux : Addr} {auxOp : Word}
    (hp : PcInv cfg m g t call (.removeNew f aux auxOp))
    (he : exec cfg t call fresh m (.removeNew f aux auxOp) = some (m', pc')) :
    Sound cfg t call m g (.removeNew f aux auxOp) m' pc' := by
  obtain ⟨hw, hca, hq⟩ := hp
  simp only [exec] at he
  split at he <;> cases he
  next ha =>
  have hc : Change cfg t (fun _ => False) m g _ _ :=
    .newReloc ⟨.ongoing, aux, auxOp, call.key, m.key f.curr⟩ f.curr ha
  have hev := h.evolution hc
  refine ⟨_, _, hc, fun _ h => h.elim, ?_, ?_⟩
  · simp only [PcInv, Mem.newReloc_reloc, if_true, Mem.state]
    refine ⟨hw, trivial, hev.callerInv hca, hev.candidate hca.2.1.toSeen hq, ?_, ?_, ?_, trivial,
      fun _ => rfl⟩
    · exact h.private_of_alloc ha rfl rfl rfl (fun _ => rfl) (taken_alloc rfl (by simp) (by simp))
    · simp [Ghost.reassign]
    · simp [Ghost.reassign]
  · simp [PC.owns, Taken, ha]

/-- The CAS of line 310 finds the node that comes right after `dest`. -/
theorem PcInv.relocating (h : MemInv cfg m g) (hp : PcInv cfg m g t call (.removeInstall f r))
    (hx : m.op f.curr = f.currOp) : Relocating cfg m g f.curr r := by
  obtain ⟨_, hrk, ⟨_, ht, _⟩, hq, hr, _, hrep, hst, hkey⟩ := hp
  obtain ⟨hne, hroot, hempty⟩ := hq.slot hx
  have hmem := h.mem_of_seen hq.seen hx
  have hready : m.op (m.reloc r).dest = (m.reloc r).destOp →
      g.tree.Adjacent (m.reloc r).dest f.curr ∧
        m.key (m.reloc r).dest = (m.reloc r).removeKey := by
    intro hd
    have hpath := hq.path hd hx
    refine ⟨h.lawful.adjacent_of_leftmost h.fits hmem hpath.below
      (Mem.childPtr_eq_none.mpr hempty) hpath.left, ?_⟩
    rw [ht.key hd, hrk]
  exact ⟨hq.seen.born, hroot, by rw [hx, hq.seen.flag], hr, hrep, hst, hkey hx, hempty, ht.born,
    ht.ne_root, Ne.symm hne, ht.ever, ht.flag, hready⟩

theorem sound_removeInstall (h : MemInv cfg m g) (hp : PcInv cfg m g t call (.removeInstall f r))
    (he : exec cfg t call fresh m (.removeInstall f r) = some (m', pc')) :
    Sound cfg t call m g (.removeInstall f r) m' pc' := by
  have hi := hp.relocating h
  obtain ⟨hw, hrk, ⟨⟨k, rfl⟩, _⟩, hq, hr, ho, hrep, _⟩ := hp
  have hspent : ∀ b, b = r → b ∈ (PC.removeInstall f r).owns := by
    rintro b rfl
    simp [PC.owns]
  simp only [exec] at he
  split at he <;> cases he
  · next hx =>
    have hc : Change cfg t (fun b => b = r) m g _ _ :=
      .publishRelocation (hi hx) rfl ho (by rw [hrk]; exact hw)
    have hev := h.evolution hc
    refine ⟨_, _, hc, hspent, ⟨⟨.inl ?_, .inl (by simp), hev.link hq.link, fun _ _ => .inl ?_⟩,
      ⟨k, rfl⟩, hrep.symm, .inl ?_⟩, by simp [PC.owns]⟩
    · rw [setStatus_replace, setOp_replace, hrep]
      simp
    · refine (hev.link hq.link).above.resolve_right (unmarked_of_flag ?_)
      simp
    · rw [status_setStatus, hrk]
      rfl
  · have hc : Change cfg t (fun b => b = r) m g ([r].foldl Mem.delete m) g := by
      refine .delete [r] fun b hb _ => ?_
      rw [List.mem_singleton] at hb
      exact ⟨hb, hb ▸ hr.hidden⟩
    exact ⟨g, _, hc, hspent, pcInv_callStart hw, by simp⟩

/-- Line 314 deletes a record that others may still hold: no address may be
    handed out again after that. -/
theorem sound_removeDelete (hcfg : cfg.reuse = false)
    (hp : PcInv cfg m g t call (.removeDelete f r))
    (he : exec cfg t call fresh m (.removeDelete f r) = some (m', pc')) :
    Sound cfg t call m g (.removeDelete f r) m' pc' := by
  simp only [exec] at he
  cases he
  have hc : Change cfg t (fun _ => False) m g ([r].foldl Mem.delete m) g := by
    refine .delete [r] fun b _ hre => ?_
    rw [hcfg] at hre
    cases hre
  exact ⟨g, _, hc, fun _ h => h.elim, pcInv_callStart hp, by simp⟩

end LockFree
