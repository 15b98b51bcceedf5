-- SUMMARY: With hazard pointers and fresh addresses no node of the tree is ever retired or deleted.
import ConcurrentBST.LockFree.Guarded
import ConcurrentBST.LockFree.Holders
import ConcurrentBST.LockFree.Shape

/-!
# Retired nodes

What line 371 retires has been in a child field that has just got another value.
It is a node that has been spliced out, or that a null-flagged pointer reminds of.
Neither comes back, so a scan finds nothing to delete that is in the tree.
-/

namespace LockFree

variable {cfg : Config} {m m' : Mem} {g g' : Ghost} {s s' p p' : State} {pc pc' next : PC} {t u : Tid}
  {call : Call} {fresh : Addr} {a r x : Addr} {w : Word} {f : FindVars} {args : HelpArgs}
  {ret : HelpRet} {d : Bool} {result : FindResult} {l : Tid × Action}

-- ---------------------------------------------------------------------------
-- What is retired
-- ---------------------------------------------------------------------------

@[simp] theorem scans_hp : (PC.hp cfg w next).scans = next.scans := by
  unfold PC.hp
  split <;> rfl

@[simp] theorem scans_hpField : (PC.hpField cfg x d next).scans = next.scans := by
  unfold PC.hpField
  split <;> rfl

@[simp] theorem scans_findStart : (findStart cfg f).scans = [] := scans_hp

@[simp] theorem scans_callStart : (callStart cfg f).scans = [] := scans_hp

@[simp] theorem scans_findReturn : (findReturn cfg call f result).scans = [] := by
  unfold findReturn
  split
  · rfl
  · rw [scans_hp]
    split <;> rfl
  · split <;> rfl
  · split
    · exact scans_callStart
    · rfl

@[simp] theorem scans_findEnd : (findEnd f result).scans = [] := by
  unfold findEnd
  split <;> rfl

@[simp] theorem scans_findLoop : (findLoop f w result).scans = [] := by
  unfold findLoop
  split
  · rfl
  · exact scans_findEnd

@[simp] theorem scans_helpReturn : (helpReturn cfg ret).scans = [] := by
  cases ret with
  | retry => exact scans_findStart
  | add | remove => rfl

@[simp] theorem scans_childStart : (childStart m r x ret).scans = [] := rfl

@[simp] theorem scans_relocReturn : (relocReturn cfg r d ret).scans = [] := by
  cases ret with
  | retry => exact scans_findStart
  | add => rfl
  | remove => cases d <;> rfl

@[simp] theorem scans_relocTail : (relocTail cfg m r args d).scans = [] := by
  unfold relocTail
  split
  · exact scans_relocReturn
  · rfl

@[simp] theorem scans_help : (help cfg m args w).scans = [] := by
  unfold help
  split
  · rfl
  · rfl
  · rfl
  · exact scans_helpReturn

@[simp] theorem scans_scanNext {as : List Addr} : (scanNext r x ret as).scans = as := by
  cases as <;> rfl

/-- The step is line 365, which writes, and then line 371 retires `a`. -/
def PC.Retires (m : Mem) (pc : PC) (m' : Mem) (pc' : PC) (a : Addr) : Prop :=
  ∃ op dest ret, pc = .childSlot op dest ret ∧ pc'.plain = .childOp op dest ret ∧
    m.child dest (m'.cas op).isLeft = (m'.cas op).expected ∧ a = (m'.cas op).expected.addr ∧ a ≠ 0

theorem mem_retire (ha : a ∈ (m.retire t w).rlist u) : a ∈ m.rlist u ∨ a = w.addr ∧ a ≠ 0 := by
  unfold Mem.retire at ha
  dsimp only at ha
  split at ha
  · exact .inl ha
  · next hnew =>
    by_cases hu : u = t
    · subst hu
      simp only [Function.update_self, unflag_addr, List.mem_append, List.mem_singleton] at ha
      rcases ha with ha | rfl
      · exact .inl ha
      · exact .inr ⟨rfl, (not_or.mp hnew).1⟩
    · simp only [Function.update_of_ne hu] at ha
      exact .inl ha

@[simp] theorem retire_child : (m.retire t w).child = m.child := by
  unfold Mem.child
  rw [Mem.retire_node]

theorem retire_rlist (ha : a ∈ m.rlist u) : a ∈ (m.retire t w).rlist u := by
  unfold Mem.retire
  dsimp only
  split
  · exact ha
  · by_cases hu : u = t
    · subst hu
      simp [ha]
    · simpa [hu] using ha

theorem mem_rlist_retire (h0 : w.addr ≠ 0) : w.addr ∈ (m.retire t w).rlist t := by
  unfold Mem.retire
  dsimp only [unflag_addr]
  split
  · next hold => exact hold.resolve_left h0
  · simp

/-- A retired list gets longer at line 371 only, and a scan goes through a retired list. -/
theorem exec_retires (he : exec .guardedFresh t call fresh m pc = some (m', pc')) :
    (∀ u, ∀ a ∈ m'.rlist u, a ∈ m.rlist u ∨ pc.Retires m m' pc' a) ∧
      ∀ a ∈ pc'.scans, a ∈ pc.scans ∨ a ∈ m'.rlist t := by
  cases pc with
  | hpChild n isLeft next =>
    cases he
    exact ⟨fun u a ha => .inl ha, fun a ha => .inl ha⟩
  | hpPut w next =>
    cases he
    exact ⟨fun u a ha => .inl ha, fun a ha => .inl ha⟩
  | childSlot op dest ret =>
    obtain ⟨as, has⟩ := (m.setChild dest (m.cas op).isLeft (m.cas op).update).exists_retire
      (m.cas op).expected t
    have hlist : m.child dest (m.cas op).isLeft = (m.cas op).expected → ∀ {pc'},
        pc'.plain = .childOp op dest ret → ∀ u, ∀ a ∈ ((m.setChild dest (m.cas op).isLeft
          (m.cas op).update).retire t (m.cas op).expected).rlist u, a ∈ m.rlist u ∨
          PC.Retires m (.childSlot op dest ret) ((m.setChild dest (m.cas op).isLeft
            (m.cas op).update).retire t (m.cas op).expected) pc' a := by
      intro hslot pc' hpc u a ha
      refine (mem_retire ha).imp id fun hnew => ⟨op, dest, ret, rfl, hpc, ?_⟩
      rw [has]
      exact ⟨hslot, hnew⟩
    simp only [exec] at he
    split at he
    · next hslot =>
      split at he
      · split at he <;> cases he
        · exact ⟨hlist hslot plain_scanNext, fun a ha => .inr (by simpa using ha)⟩
        · exact ⟨hlist hslot rfl, fun a ha => by cases ha⟩
      · cases he
        exact ⟨fun u a ha => .inl ha, fun a ha => by cases ha⟩
    · cases he
      exact ⟨fun u a ha => .inl ha, fun a ha => by cases ha⟩
  | childScan retired rest i op dest ret =>
    have herase : ∀ u, ∀ a ∈ (m.deleteRetired t retired).rlist u, a ∈ m.rlist u := by
      intro u a ha
      by_cases hu : u = t
      · subst hu
        simp only [Mem.deleteRetired, Function.update_self] at ha
        exact List.mem_of_mem_erase ha
      · simpa [Mem.deleteRetired, hu] using ha
    have hrest : ∀ a ∈ (scanNext op dest ret rest).scans,
        a ∈ PC.scans (.childScan retired rest i op dest ret) := fun a ha => by
      rw [scans_scanNext] at ha
      exact .tail _ ha
    simp only [exec] at he
    split at he
    · cases he
      exact ⟨fun u a ha => .inl ha, fun a ha => .inl (hrest a ha)⟩
    · split at he <;> cases he
      · exact ⟨fun u a ha => .inl ha, fun a ha => .inl ha⟩
      · exact ⟨fun u a ha => .inl (herase u a ha), fun a ha => .inl (hrest a ha)⟩
  | relocState op args =>
    simp only [exec] at he
    cases he
    refine ⟨fun u a ha => .inl ha, fun a ha => ?_⟩
    rw [scans_hp] at ha
    split at ha
    · cases ha
    · cases ha
    · simp at ha
  | _ =>
    simp only [exec] at he
    (repeat' split at he) <;> cases he <;>
      exact ⟨fun u a ha => .inl ha, fun a ha => by simp [PC.scans] at ha⟩

/-- A retired node stays on a list until it is deleted. -/
theorem exec_keeps (he : exec .guardedFresh t call fresh m pc = some (m', pc'))
    (h : (∃ u, a ∈ m.rlist u) ∨ m.cell a = .deleted) :
    (∃ u, a ∈ m'.rlist u) ∨ m'.cell a = .deleted := by
  have hnew : ∀ {k : Cell}, m.allocatable .guardedFresh fresh = true → m.cell a = .deleted →
      Function.update m.cell fresh k a = .deleted := by
    intro k halloc ha
    rw [Function.update_of_ne, ha]
    rintro rfl
    simp [Mem.allocatable, Config.guardedFresh, ha] at halloc
  have hdelete : ∀ {m₁ : Mem} {b}, m₁.cell a = .deleted → (m₁.delete b).cell a = .deleted := by
    intro m₁ b ha
    by_cases hab : a = b
    · simp [Mem.delete, hab]
    · simpa [Mem.delete, hab] using ha
  cases pc with
  | addNew | addOld | removeNew | markedNew =>
    simp only [exec] at he
    split at he <;> cases he
    next halloc => exact h.imp_right (hnew halloc)
  | addCas f newNode casOp =>
    simp only [exec] at he
    split at he <;> cases he
    · exact h
    · exact h.imp_right fun ha => hdelete (hdelete ha)
  | removeInstall | markedCas =>
    simp only [exec] at he
    split at he <;> cases he
    · exact h
    · exact h.imp_right hdelete
  | removeDelete =>
    cases he
    exact h.imp_right hdelete
  | childSlot op dest ret =>
    have hlist : ∀ {m₁ : Mem} {w}, m₁.rlist = m.rlist → m₁.cell = m.cell →
        (∃ u, a ∈ (m₁.retire t w).rlist u) ∨ (m₁.retire t w).cell a = .deleted := by
      intro m₁ w hrlist hcell
      rcases h with ⟨u, hu⟩ | ha
      · rw [← hrlist] at hu
        exact .inl ⟨u, retire_rlist hu⟩
      · exact .inr (by rw [Mem.retire_cell, hcell, ha])
    simp only [exec] at he
    split at he
    · split at he
      · split at he <;> cases he <;> exact hlist rfl rfl
      · cases he
        exact h
    · cases he
      exact h
  | childScan retired rest i op dest ret =>
    simp only [exec] at he
    split at he
    · cases he
      exact h
    · split at he <;> cases he
      · exact h
      · rcases h with ⟨u, hu⟩ | ha
        · by_cases har : a = retired
          · right
            simp [Mem.deleteRetired, Mem.delete, har]
          · left
            refine ⟨u, ?_⟩
            by_cases hut : u = t
            · subst hut
              simpa [Mem.deleteRetired] using (List.mem_erase_of_ne har).mpr hu
            · simpa [Mem.deleteRetired, hut] using hu
        · exact .inr (hdelete ha)
  | _ =>
    simp only [exec] at he
    (repeat' split at he) <;> cases he <;> exact h

/-- Who takes a node out of the tree retires it. -/
theorem exec_unlinks (he : exec .guardedFresh t call fresh m pc = some (m', pc'))
    (hx : m.allocatable .guardedFresh x = false) (hold : m.child x d = .ptr a)
    (hnew : m'.child x d ≠ .ptr a) (h0 : a ≠ 0) : a ∈ m'.rlist t := by
  cases pc with
  | childSlot op dest ret =>
    have hretire : m.child dest (m.cas op).isLeft = (m.cas op).expected →
        (m.setChild dest (m.cas op).isLeft (m.cas op).update).child x d ≠ .ptr a →
        a ∈ ((m.setChild dest (m.cas op).isLeft (m.cas op).update).retire t
          (m.cas op).expected).rlist t := by
      intro hslot hne
      rw [Mem.setChild_child] at hne
      split at hne
      · next hxd =>
        obtain ⟨rfl, rfl⟩ := hxd
        rw [← hslot, hold]
        exact mem_rlist_retire h0
      · exact absurd hold hne
    simp only [exec] at he
    split at he
    · next hslot =>
      split at he
      · split at he <;> cases he <;> exact hretire hslot (by simpa using hnew)
      · next hcfg => exact absurd rfl hcfg
    · cases he
      exact absurd hold hnew
  | addNew f isLeft =>
    simp only [exec] at he
    split at he <;> cases he
    next halloc =>
      have hne : x ≠ fresh := by
        rintro rfl
        rw [hx] at halloc
        cases halloc
      exact absurd (by simpa [Mem.child, Mem.newNode, hne] using hold) hnew
  | childScan =>
    simp only [exec] at he
    (repeat' split at he) <;> cases he <;> exact absurd hold hnew
  | _ =>
    simp only [exec] at he
    (repeat' split at he) <;> cases he <;> exact absurd (by simpa using hold) hnew

-- ---------------------------------------------------------------------------
-- Runs
-- ---------------------------------------------------------------------------

/-- The node was in the tree and is not in it any more. -/
def Ghost.Spliced (g : Ghost) (a : Addr) : Prop := a ∈ g.born ∧ a ∉ g.tree.nodes

theorem Evolves.spliced {spent : Addr → Prop} (h : Evolves cfg spent m g m' g') (ha : g.Spliced a) :
    g'.Spliced a :=
  ⟨h.born ha.1, fun hmem => ha.2 (h.mem_of ha.1 hmem)⟩

/-- A node leaves the tree when the pointer to it is overwritten. -/
theorem Change.spliced {spent : Addr → Prop} (hc : Change cfg t spent m g m' g')
    (hm' : MemInv cfg m' g') (ha : g'.Spliced a) :
    g.Spliced a ∨ ∃ x d, m.child x d = .ptr a ∧ m'.child x d ≠ .ptr a := by
  cases hc with
  | link =>
    left
    obtain ⟨hb, hn⟩ := ha
    rcases hb with rfl | hb
    · exact absurd (.inl rfl) hn
    · exact ⟨hb, fun hmem => hn (.inr hmem)⟩
  | @unlink x r c hop hslot hexp hc hmark hupd =>
    obtain ⟨hb, hn⟩ := ha
    by_cases hac : a = c
    · subst hac
      refine .inr ⟨x, (m.cas r).isLeft, hslot.trans hexp, fun heq => ?_⟩
      refine hm'.child_fresh x (m.cas r).isLeft (heq ▸ ?_)
      simp [Ghost.unlink, Ghost.setChild, hslot, hexp]
    · exact .inl ⟨hb, fun hmem => hn ⟨hmem, hac⟩⟩
  | _ => exact .inl ha

/-- A state with hazard pointers, the state without them, and the history of the latter. -/
structure Keeps (s p : State) (g : Ghost) : Prop where
  accounts : Accounts p g
  mem : Mem.Alike g.Spliced s.mem p.mem
  thread : ∀ t, p.thread t = (s.thread t).plain
  retired : ∀ t, ∀ a ∈ s.mem.rlist t, g.Spliced a
  scans : ∀ t call pc, s.thread t = .running call pc → ∀ a ∈ pc.scans, g.Spliced a
  kept : ∀ a, g.Spliced a → (∃ t, a ∈ s.mem.rlist t) ∨ s.mem.cell a = .deleted

namespace Keeps

theorem initial : Keeps .initial .initial .initial where
  accounts := .initial
  mem := .refl _
  thread := fun _ => rfl
  retired := fun _ _ ha => by cases ha
  scans := fun _ _ _ ht => by cases ht
  kept := fun _ ha => absurd ha.1 ha.2

/-- What the slot of a child CAS holds before the write is spliced out after it. -/
theorem spliced_of_past {w : Word} (h : MemInv cfg m g) (hflag : w.flag = .none ∨ w.flag = .mark)
    (hpast : w ∈ g.pastChild x d) (h0 : w.addr ≠ 0) : g.Spliced w.addr := by
  rcases hflag with hflag | hflag
  · exact h.past_spliced (c := w.addr) ((Word.ext rfl hflag : w = Word.ptr w.addr) ▸ hpast)
  · have hnull : w = .null w.addr := Word.ext rfl hflag
    exact (h.null_spliced (.inr (hnull ▸ hpast))).resolve_left h0

/-- A step of the plain mode. -/
theorem plain_step (h : Keeps s p g) (hnext : (system .plain).next p l = some p') :
    ∃ g', Accounts p' g' ∧ (∀ a, g.Spliced a → g'.Spliced a) ∧ ∀ a, g'.Spliced a → g.Spliced a ∨
      ∃ x d, Taken .plain p.mem x ∧ p.mem.child x d = .ptr a ∧ p'.mem.child x d ≠ .ptr a := by
  obtain ⟨g', haccounts, htrace⟩ := h.accounts.step hnext
  have hmem := h.accounts.inv.mem
  obtain ⟨spent, hev⟩ := htrace.evolves hmem
  refine ⟨g', haccounts, fun a => hev.spliced, fun a ha => ?_⟩
  obtain ⟨u, spent', g₀, status, hc, rfl⟩ := htrace.change
  refine (hc.spliced (hmem.evolution hc).after ha).imp_right ?_
  rintro ⟨x, d, hold, hnew⟩
  refine ⟨x, d, hmem.taken (.node ?_), hold, hnew⟩
  by_contra hx
  have hnull := (hmem.unborn hx).2 d
  rw [hold] at hnull
  cases congrArg Word.flag hnull

/-- Both systems change one thread. -/
theorem update {v v' : Thread} (h : Keeps s p g)
    (haccounts : Accounts ⟨m', Function.update p.thread t v'⟩ g') (hmem : Mem.Alike g'.Spliced m m')
    (hv : v' = v.plain) (hspliced : ∀ a, g.Spliced a → g'.Spliced a)
    (hretired : ∀ u, ∀ a ∈ m.rlist u, g'.Spliced a)
    (hscans : ∀ call pc, v = .running call pc → ∀ a ∈ pc.scans, g'.Spliced a)
    (hkept : ∀ a, g'.Spliced a → (∃ u, a ∈ m.rlist u) ∨ m.cell a = .deleted) :
    Keeps ⟨m, Function.update s.thread t v⟩ ⟨m', Function.update p.thread t v'⟩ g' := by
  refine ⟨haccounts, hmem, fun u => ?_, hretired, fun u call pc hu a ha => ?_, hkept⟩
  · by_cases hut : u = t
    · subst hut
      simpa using hv
    · simpa [hut] using h.thread u
  · by_cases hut : u = t
    · subst hut
      exact hscans call pc (by simpa using hu) a ha
    · exact hspliced a (h.scans u call pc (by simpa [hut] using hu) a ha)

/-- A call begins or returns. -/
theorem call_step {v : Thread} (h : Keeps s p g)
    (hnext : (system .plain).next p l = some ⟨p.mem, Function.update p.thread t v.plain⟩)
    (hscans : ∀ call pc, v = .running call pc → pc.scans = []) :
    ∃ p' g', Keeps ⟨s.mem, Function.update s.thread t v⟩ p' g' := by
  obtain ⟨g', haccounts, hspl, hback⟩ := h.plain_step hnext
  refine ⟨_, g', h.update haccounts (h.mem.mono hspl) rfl hspl (fun u a ha => hspl a (h.retired u a ha))
    (fun call pc hrun a ha => ?_) fun a ha => ?_⟩
  · rw [hscans call pc hrun] at ha
    cases ha
  · rcases hback a ha with ha | ⟨x, d, -, hold, hnew⟩
    · exact h.kept a ha
    · exact absurd hold hnew

/-- A step that the plain mode has too. -/
theorem access_step {p₁ : Mem} (h : Keeps s p g) (ht : s.thread t = .running call pc)
    (he : exec .guardedFresh t call fresh s.mem pc = some (m', pc'))
    (he' : exec .plain t call fresh p.mem pc.plain = some (p₁, pc'.plain))
    (hmem : Mem.Alike g.Spliced m' p₁) :
    ∃ p' g', Keeps ⟨m', Function.update s.thread t (.running call pc')⟩ p' g' := by
  have hp : p.thread t = .running call pc.plain := by rw [h.thread, ht]; rfl
  obtain ⟨hret, hscan⟩ := exec_retires he
  have hplain : (system .plain).next p (t, .access fresh) =
      some ⟨p₁, Function.update p.thread t (.running call pc'.plain)⟩ := by
    simp only [system, State.next, hp, he', Option.map_some]
  obtain ⟨g', haccounts, hspl, hback⟩ := h.plain_step hplain
  have hretired : ∀ u, ∀ a ∈ m'.rlist u, g'.Spliced a := by
    intro u a ha
    rcases hret u a ha with ha | ⟨op, dest, ret, hpc, hpc', hslot, rfl, h0⟩
    · exact hspl a (h.retired u a ha)
    · -- The write is in the past now.
      have hself : Function.update p.thread t (.running call pc'.plain) t =
          .running call pc'.plain := Function.update_self ..
      have hdone := haccounts.inv.pc hself
      rw [hpc'] at hdone
      have hpast := hdone.2.1
      simp only [hmem.cas] at hpast
      refine spliced_of_past haccounts.inv.mem ?_ hpast h0
      rw [← hslot, ← h.mem.child]
      exact h.accounts.inv.mem.child_flag ..
  refine ⟨_, g', h.update haccounts (hmem.mono hspl) rfl hspl hretired ?_ fun a ha => ?_⟩
  · intro c pc₁ hrun a ha
    cases hrun
    exact (hscan a ha).elim (fun ha => hspl a (h.scans t call pc ht a ha)) (hretired t a)
  · rcases hback a ha with ha | ⟨x, d, hx, hold, hnew⟩
    · exact exec_keeps he (h.kept a ha)
    · refine .inl ⟨t, exec_unlinks he ?_ (h.mem.child ▸ hold) (hmem.child ▸ hnew) ?_⟩
      · by_contra halloc
        have halloc := h.mem.allocatable (by simpa using halloc)
        rw [hx] at halloc
        cases halloc
      · rintro rfl
        exact haccounts.inv.mem.zero_unborn ha.1

/-- A step that the plain mode does not have. -/
theorem chore_step (h : Keeps s p g) (ht : s.thread t = .running call pc)
    (he : exec .guardedFresh t call fresh s.mem pc = some (m', pc'))
    (hmem : Mem.Alike g.Spliced m' p.mem) (hpc : pc'.plain = pc.plain) :
    ∃ p' g', Keeps ⟨m', Function.update s.thread t (.running call pc')⟩ p' g' := by
  have hp : p.thread t = .running call pc.plain := by rw [h.thread, ht]; rfl
  obtain ⟨hret, hscan⟩ := exec_retires he
  have hretired : ∀ u, ∀ a ∈ m'.rlist u, g.Spliced a := by
    intro u a ha
    rcases hret u a ha with ha | ⟨op, dest, ret, rfl, hpc', -⟩
    · exact h.retired u a ha
    · rw [hpc'] at hpc
      cases hpc
  have hstate : (⟨p.mem, Function.update p.thread t (.running call pc.plain)⟩ : State) = p := by
    rw [← hp, Function.update_eq_self]
  refine ⟨⟨p.mem, Function.update p.thread t (.running call pc.plain)⟩, g, h.update
    (hstate.symm ▸ h.accounts) hmem ?_ (fun _ ha => ha) hretired ?_
    fun a ha => exec_keeps he (h.kept a ha)⟩
  · rw [Thread.plain, hpc]
  · intro c pc₁ hrun a ha
    cases hrun
    exact (hscan a ha).elim (h.scans t call pc ht a) (hretired t a)

theorem step (h : Keeps s p g) (hnext : (system .guardedFresh).next s l = some s') :
    ∃ p' g', Keeps s' p' g' := by
  cases steps_of_next hnext with
  | @invoke t call ht =>
    have hp : p.thread t = .idle := by rw [h.thread, ht]; rfl
    have hplain : (system .plain).next p (t, .invoke call) = some ⟨p.mem,
        Function.update p.thread t (Thread.running call (callStart .guardedFresh .initial)).plain⟩ := by
      simp only [system, State.next, hp, Thread.plain, plain_callStart]
    refine h.call_step hplain fun c pc hrun => ?_
    cases hrun
    exact scans_callStart
  | @access t call pc pc' m' fresh ht he =>
    rcases h.mem.exec (h.scans t call pc ht) he with ⟨p₁, he', hmem⟩ | ⟨hmem, hpc, -⟩
    · exact h.access_step ht he he' hmem
    · exact h.chore_step ht he hmem hpc
  | @respond t call r ht =>
    have hp : p.thread t = .running call (.ret r) := by rw [h.thread, ht]; rfl
    have hplain : (system .plain).next p (t, .respond) =
        some ⟨p.mem, Function.update p.thread t Thread.idle.plain⟩ := by
      simp only [system, State.next, hp, Thread.plain]
    exact h.call_step hplain fun c pc hrun => by cases hrun

theorem reaches_iff (h : Keeps s p g) : s.mem.reaches x ↔ x ∈ g.tree.nodes := by
  have hchild : p.mem.childPtr = s.mem.childPtr := by
    unfold Mem.childPtr
    rw [h.mem.child]
  rw [← h.accounts.inv.mem.reaches_iff, Mem.reaches, Mem.reaches, hchild]

end Keeps

theorem exists_keeps (hs : (system .guardedFresh).Reachable s) : ∃ p g, Keeps s p g := by
  refine hs.invariant (P := fun s => ∃ p g, Keeps s p g) ⟨_, _, .initial⟩ ?_
  rintro s l s' ⟨p, g, h⟩ hnext
  exact h.step hnext

theorem running_of_at (hat : s.at l = some pc) : ∃ call, s.thread l.1 = .running call pc := by
  unfold State.at at hat
  split at hat
  · split at hat
    · next call _ ht =>
      cases hat
      exact ⟨call, ht⟩
    · cases hat
  · cases hat

/-- What child pointers lead to is known. -/
theorem known_of_follow {path : List Bool} (hx : Known s (.node x))
    (h : follow s.mem.childPtr (some x) path = some r) : Known s (.node r) := by
  induction path generalizing x with
  | nil =>
    cases h
    exact hx
  | cons d path ih =>
    rw [follow] at h
    cases hc : s.mem.childPtr x d with
    | none =>
      rw [hc] at h
      cases path <;> cases h
    | some c =>
      rw [hc] at h
      refine ih ?_ h
      unfold Mem.childPtr at hc
      split at hc
      · cases hc
      · next hn =>
        cases hc
        exact .inr (hx.edge (.child (by simpa using hn)))

/-- With hazard pointers and fresh addresses every node of the tree is allocated, and
    neither a retired node nor one that line 393 deletes is in the tree. -/
theorem guarded_keeps_tree (hs : (system .guardedFresh).Reachable s) :
    (∀ x, s.mem.reaches x → s.mem.cell x = .node) ∧
      (∀ t, ∀ a ∈ s.mem.rlist t, ¬ s.mem.reaches a) ∧
      ∀ l a, s.scanDeletes l a → ¬ s.mem.reaches a := by
  obtain ⟨p, g, h⟩ := exists_keeps hs
  refine ⟨fun x hx => ?_, fun t a ha hx => (h.retired t a ha).2 (h.reaches_iff.mp hx), ?_⟩
  · have hmem := h.reaches_iff.mp hx
    have hcell : p.mem.cell x = s.mem.cell x := h.mem.cell x fun hsp => hsp.2 hmem
    obtain ⟨path, hpath⟩ := h.accounts.inv.mem.reaches_iff.mpr hmem
    rw [← hcell]
    exact h.accounts.refs.allocated (o := .node x) (known_of_follow (.inl rfl) hpath) rfl
  · rintro l a ⟨rest, i, op, dest, ret, hat, -⟩ hx
    obtain ⟨call, ht⟩ := running_of_at hat
    exact (h.scans _ call _ ht a (.head _)).2 (h.reaches_iff.mp hx)

/-- The key 5 is added and removed, which retires the node. -/
def runOfRetired : (system .guardedFresh).Exec (churn 1).length :=
  .ofLabels (0, .respond) (churn 1) (by decide +kernel)

theorem guarded_keeps_tree_retired : (runOfRetired.state 42).mem.rlist 0 = [128] ∧
    (∀ x, (runOfRetired.state 42).mem.reaches x → (runOfRetired.state 42).mem.cell x = .node) ∧
      (∀ t, ∀ a ∈ (runOfRetired.state 42).mem.rlist t, ¬ (runOfRetired.state 42).mem.reaches a) ∧
      ∀ l a, (runOfRetired.state 42).scanDeletes l a → ¬ (runOfRetired.state 42).mem.reaches a :=
  ⟨by decide +kernel, guarded_keeps_tree (runOfRetired.reachable (by decide))⟩

theorem owned_plain : pc.plain.owned = pc.owned := by
  induction pc with
  | hpChild n d next ih | hpPut w next ih =>
    unfold PC.plain
    split
    · rfl
    · exact ih
  | _ => rfl

/-- No node is lost either. An allocated node is in the tree, or on a retired list, or on
    its way into the tree. -/
theorem guarded_loses_no_node (hs : (system .guardedFresh).Reachable s) :
    (∀ a, s.mem.cell a = .node → s.mem.reaches a ∨ (∃ t, a ∈ s.mem.rlist t) ∨
      (∃ t, Owned s t (.node a)) ∨ InRecord s.mem a) ∧
    ((∀ t, s.thread t = .idle) →
      ∀ a, s.mem.cell a = .node → s.mem.reaches a ∨ ∃ t, a ∈ s.mem.rlist t) := by
  obtain ⟨p, g, h⟩ := exists_keeps hs
  have hborn : ∀ a, s.mem.cell a = .node → a ∈ g.born →
      s.mem.reaches a ∨ ∃ t, a ∈ s.mem.rlist t := by
    intro a ha hb
    by_cases hmem : a ∈ g.tree.nodes
    · exact .inl (h.reaches_iff.mpr hmem)
    · refine .inr ((h.kept a ⟨hb, hmem⟩).resolve_right fun hdel => ?_)
      rw [ha] at hdel
      cases hdel
  -- In the other system nothing that is on a retired list has been deleted.
  have hcell : ∀ a, s.mem.cell a = .node → a ∈ g.born ∨ p.mem.cell a = .node := by
    intro a ha
    by_cases hsp : g.Spliced a
    · exact .inl hsp.1
    · exact .inr ((h.mem.cell a hsp).trans ha)
  refine ⟨fun a ha => ?_, fun hidle a ha => ?_⟩
  · rcases hcell a ha with hb | hp
    · exact (hborn a ha hb).imp_right .inl
    · cases h.accounts.held a hp with
      | born hb => exact (hborn a ha hb).imp_right .inl
      | @owned t ho =>
        obtain ⟨call, pc, hrun, ho⟩ := ho
        rw [h.thread] at hrun
        refine .inr (.inr (.inl ⟨t, ?_⟩))
        cases hth : s.thread t with
        | idle =>
          rw [hth] at hrun
          cases hrun
        | running c pc' =>
          rw [hth] at hrun
          cases hrun
          exact ⟨_, pc', hth, owned_plain ▸ ho⟩
      | record hr =>
        obtain ⟨x, r, hop, hupd⟩ := hr
        exact .inr (.inr (.inr ⟨x, r, h.mem.op ▸ hop, h.mem.cas ▸ hupd⟩))
  · have hidle' : ∀ t, p.thread t = .idle := fun t => by rw [h.thread, hidle]; rfl
    exact hborn a ha ((hcell a ha).elim id fun hp => h.accounts.born_of_idle hidle' hp)

theorem guarded_loses_no_node_retired : (runOfRetired.state 42).mem.reaches 128 ∨
    (∃ t, 128 ∈ (runOfRetired.state 42).mem.rlist t) ∨
      (∃ t, Owned (runOfRetired.state 42) t (.node 128)) ∨ InRecord (runOfRetired.state 42).mem 128 :=
  (guarded_loses_no_node (runOfRetired.reachable (by decide))).1 128 (by decide +kernel)

end LockFree
