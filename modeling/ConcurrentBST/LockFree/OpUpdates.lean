-- SUMMARY: Every way an `op` field of the lock-free tree changes keeps the memory invariant.
import ConcurrentBST.LockFree.Ghost

/-!
# Changes of an `op` field

A successful CAS on an `op` field moves the old word into the history. What all
these changes have in common is `OpChange`; the clauses on relocations are
settled once for the relocations that the changed word does not name, and then
separately for the four changes that belong to a relocation.
-/

namespace LockFree

variable {cfg : Config} {m : Mem} {g : Ghost} {x y : Addr} {w v : Word} {r s : Addr}

/-- The history after a change of `x->op`. -/
def Ghost.setOp (g : Ghost) (m : Mem) (x : Addr) : Ghost :=
  { g with pastOp := Function.update g.pastOp x (insert (m.op x) (g.pastOp x)) }

@[simp] theorem setOp_tree : (g.setOp m x).tree = g.tree := rfl
@[simp] theorem setOp_born : (g.setOp m x).born = g.born := rfl
@[simp] theorem setOp_pastChild : (g.setOp m x).pastChild = g.pastChild := rfl
@[simp] theorem setOp_rewritten : (g.setOp m x).rewritten = g.rewritten := rfl
@[simp] theorem setOp_owner : (g.setOp m x).owner = g.owner := rfl
@[simp] theorem setOp_replace : (g.setOp m x).replace = g.replace := rfl
@[simp] theorem setOp_status : (g.setOp m x).status = g.status := rfl

@[simp] theorem mem_setOp_pastOp :
    v ∈ (g.setOp m x).pastOp y ↔ v ∈ g.pastOp y ∨ y = x ∧ v = m.op x := by
  unfold Ghost.setOp
  by_cases h : y = x
  · subst h
    simp [or_comm]
  · simp [h]

@[simp] theorem everOp_setOp :
    everOp (m.setOp x w) (g.setOp m x) y v ↔ everOp m g y v ∨ y = x ∧ v = w := by
  simp only [everOp, Mem.setOp_op, mem_setOp_pastOp]
  by_cases h : y = x
  · subst h
    simp only [if_true, true_and, eq_comm (a := v)]
    tauto
  · simp [h]

@[simp] theorem childPtr_setOp : (m.setOp x w).childPtr = m.childPtr := by
  unfold Mem.childPtr
  simp

theorem marked_setOp : (m.setOp x w).marked y ↔ if y = x then w.flag = .mark else m.marked y := by
  unfold Mem.marked
  rw [Mem.setOp_op]
  split <;> rfl

/-- What every change of an `op` field satisfies. -/
structure OpChange (m : Mem) (g : Ghost) (x : Addr) (w : Word) : Prop where
  born : x ∈ g.born
  unmarked : ¬ m.marked x
  fresh : ¬ everOp m g x w
  mark : w.flag = .mark → x ≠ baseRoot ∧ ∃ d, isNull (m.child x d)
  root : x = baseRoot → w.flag = .none ∨ w.flag = .childCas
  first : w.flag = .childCas ∨ w.flag = .relocate → ∀ f, ¬ everOp m g x ⟨w.addr, f⟩
  stamp : w.addr ≠ 0 → w.flag = .childCas ∨ w.flag = .relocate ∨
    everOp m g x (.cas w.addr) ∨ everOp m g x (.rel w.addr)
  typed : ∀ r y, (w = .cas r → ¬ everOp m g y (.rel r)) ∧ (w = .rel r → ¬ everOp m g y (.cas r))
  gone : gone m g x → w.flag = .mark
  done : ∀ r, m.op x = .cas r → (m.cas r).expected ∈ g.pastChild x (m.cas r).isLeft

namespace OpChange

theorem marked_mono (h : OpChange m g x w) (hy : m.marked y) : (m.setOp x w).marked y := by
  rw [marked_setOp]
  split
  · next heq => exact absurd (heq ▸ hy) h.unmarked
  · exact hy

theorem tree (h : OpChange m g x w) (hT : TreeInv m g) : TreeInv (m.setOp x w) (g.setOp m x) where
  lawful := hT.lawful
  fits := by simpa using hT.fits
  finite := hT.finite
  root := hT.root
  right_of_root := hT.right_of_root
  born_of_mem := hT.born_of_mem
  born_of_anc := hT.born_of_anc
  zero_unborn := hT.zero_unborn
  unborn := by
    intro y hy
    have hyx : y ≠ x := fun heq => hy (heq ▸ h.born)
    simpa [hyx] using hT.unborn hy
  child_flag := by
    rw [Mem.setOp_child]
    exact hT.child_flag
  child_born := by
    rw [Mem.setOp_child]
    exact hT.child_born
  null_spliced := by
    rw [Mem.setOp_child]
    exact hT.null_spliced
  past_spliced := hT.past_spliced
  mem_of_unmarked := fun hy hm => hT.mem_of_unmarked hy fun hm' => hm (h.marked_mono hm')
  marked_empty := by
    intro y hy
    rw [marked_setOp] at hy
    split at hy
    · next heq => simpa [heq] using (h.mark hy).2
    · simpa using hT.marked_empty hy
  root_unmarked := by
    rw [marked_setOp]
    split
    · next heq => exact fun hw => (h.mark hw).1 heq.symm
    · exact hT.root_unmarked

theorem history (h : OpChange m g x w) (hH : HistoryInv m g) :
    HistoryInv (m.setOp x w) (g.setOp m x) where
  op_fresh := by
    intro y
    have := hH.op_fresh y
    by_cases hyx : y = x
    · subst hyx
      have := h.fresh
      simp only [everOp] at this
      simp only [Mem.setOp_op, if_true, mem_setOp_pastOp, true_and]
      grind
    · simp [hyx, this]
  child_fresh := by simpa using hH.child_fresh
  past_unmarked := by
    intro y v hv
    rcases mem_setOp_pastOp.mp hv with hv | ⟨rfl, rfl⟩
    · exact hH.past_unmarked hv
    · exact h.unmarked
  installed_first := by
    intro y r f hy hpast
    rw [mem_setOp_pastOp] at hpast
    by_cases hyx : y = x
    · subst hyx
      simp only [Mem.setOp_op, if_true] at hy
      have hfirst : ∀ f, ¬ everOp m g y ⟨r, f⟩ := by
        rcases hy with rfl | rfl
        · exact h.first (.inl rfl)
        · exact h.first (.inr rfl)
      rcases hpast with hpast | ⟨_, hpast⟩
      · exact hfirst f (.inr hpast)
      · exact hfirst f (.inl hpast.symm)
    · simp only [Mem.setOp_op, hyx, if_false] at hy
      simp only [hyx, false_and, or_false] at hpast
      exact hH.installed_first hy hpast
  stamp := by
    intro y r f hy
    simp only [everOp_setOp] at hy ⊢
    rcases hy with hy | ⟨rfl, rfl⟩
    · exact (hH.stamp hy).imp_right (Or.imp .inl .inl)
    · by_cases hr : r = 0
      · exact .inl hr
      · rcases h.stamp hr with rfl | rfl | he | he
        · exact .inr (.inl (.inr ⟨rfl, rfl⟩))
        · exact .inr (.inr (.inr ⟨rfl, rfl⟩))
        · exact .inr (.inl (.inl he))
        · exact .inr (.inr (.inl he))
  typed := by
    intro y z r hy hz
    simp only [everOp_setOp] at hy hz
    rcases hy with hy | ⟨rfl, rfl⟩ <;> rcases hz with hz | ⟨rfl, hz⟩
    · exact hH.typed hy hz
    · exact (h.typed r y).2 hz.symm hy
    · exact (h.typed r z).1 rfl hz
    · simp at hz
  root_op := by
    rw [Mem.setOp_op]
    split
    · next heq => exact h.root heq.symm
    · exact hH.root_op

theorem gone_mono (h : OpChange m g x w) (hy : LockFree.gone m g y) :
    LockFree.gone (m.setOp x w) (g.setOp m x) y := by
  by_cases hyx : y = x
  · subst hyx
    exact .inl (by simpa [Mem.marked] using h.gone hy)
  · rcases hy with hy | hy
    · exact .inl (h.marked_mono hy)
    · exact .inr (by simpa [hyx] using hy)

theorem order (h : OpChange m g x w) (hO : OrderInv m g) :
    OrderInv (m.setOp x w) (g.setOp m x) where
  sorted := by
    intro y z hy hz hyr hzr hyz
    have := hO.sorted hy hz hyr hzr hyz
    refine ⟨by simpa using this.1, fun hgy hgz => ?_⟩
    simpa using this.2 (fun hg => hgy (h.gone_mono hg)) (fun hg => hgz (h.gone_mono hg))

theorem gap (hg : Gap m g y d k) : Gap (m.setOp x w) (g.setOp m x) y d k where
  root := hg.root
  before := by simpa using hg.before
  after := by simpa using hg.after

theorem replacement_setOp {c : Addr} : (m.setOp x w).replacement c = m.replacement c := by
  simp [Mem.replacement]

theorem pending (h : OpChange m g x w) (hp : Pending m g y r) :
    Pending (m.setOp x w) (g.setOp m x) y r := by
  cases hp with
  | insertion a n he hu hn h0 hgap =>
    exact .insertion a n he hu hn h0 (by simpa using gap hgap)
  | splice c he hc hm hu =>
    exact .splice c he hc (h.marked_mono hm) (hu.trans replacement_setOp.symm)

/-- A record that is installed as a child CAS is new, and what it expects is there. -/
structure Installs (m : Mem) (g : Ghost) (x r : Addr) : Prop where
  slot : m.child x (m.cas r).isLeft = (m.cas r).expected
  pending : Pending m g x r
  unused : ∀ y, ¬ everOp m g y (.cas r)
  update : ∀ y s n, m.op y = .cas s → n ∉ g.born → (m.cas r).update = .ptr n →
    (m.cas s).update ≠ .ptr n

theorem cas (h : OpChange m g x w) (hC : CasInv m g)
    (hinst : ∀ r, w = .cas r → Installs m g x r) :
    CasInv (m.setOp x w) (g.setOp m x) where
  slot := by
    intro y r hy
    rw [Mem.setOp_op] at hy
    split at hy
    · next heq =>
      subst heq
      have hi := hinst r hy
      exact .inl ⟨by simpa using hi.slot, h.pending hi.pending⟩
    · rcases hC.slot hy with ⟨hs, hp⟩ | ⟨hs, hp⟩
      · exact .inl ⟨by simpa using hs, h.pending hp⟩
      · exact .inr ⟨by simpa using hs, hp⟩
  done := by
    intro y r hr
    rcases mem_setOp_pastOp.mp hr with hr | ⟨rfl, hr⟩
    · exact hC.done hr
    · exact h.done r hr.symm
  unique := by
    intro y z r hy hz
    rw [everOp_setOp] at hy hz
    rcases hy with hy | ⟨rfl, hy⟩ <;> rcases hz with hz | ⟨rfl, hz⟩
    · exact hC.unique hy hz
    · exact absurd hy ((hinst r hz.symm).unused y)
    · exact absurd hz ((hinst r hy.symm).unused z)
    · rfl
  update_unique := by
    intro y z r s n hy hz hn hr hs
    simp only [Mem.setOp_op] at hy hz
    by_cases hyx : y = x <;> by_cases hzx : z = x <;> simp only [hyx, hzx, if_true, if_false] at hy hz
    · exact hyx.trans hzx.symm
    · exact absurd hs ((hinst r hy).update z s n hz hn hr)
    · exact absurd hr ((hinst s hz).update y r n hy hn hs)
    · exact hC.update_unique hy hz hn hr hs

/-! ## Relocations -/

theorem ne_of_unmarked (h : OpChange m g x w) (hy : m.marked y) : y ≠ x :=
  fun heq => h.unmarked (heq ▸ hy)

/-- A relocation that neither the old nor the new word names keeps its facts. -/
theorem relocation (h : OpChange m g x w) (hR : Relocation m g r) (hold : m.op x ≠ .rel r)
    (hnew : w ≠ .rel r) : Relocation (m.setOp x w) (g.setOp m x) r := by
  have hop : ∀ y, (m.setOp x w).op y = .rel r ↔ m.op y = .rel r := by
    intro y
    by_cases hyx : y = x
    · subst hyx
      simp [hold, hnew]
    · simp [hyx]
  have hpast : ∀ y, Word.rel r ∈ (g.setOp m x).pastOp y ↔ .rel r ∈ g.pastOp y := by
    intro y
    rw [mem_setOp_pastOp]
    exact ⟨fun h => h.resolve_right fun h => hold h.2.symm, .inl⟩
  have hcommitted : committed (m.setOp x w) (g.setOp m x) r ↔ committed m g r := by
    unfold committed
    rw [everOp_setOp]
    exact ⟨fun h => h.resolve_right fun h => hnew h.2.symm, .inl⟩
  -- The new word is new, so it is not what `dest` held when the record was made.
  have hdest : (m.setOp x w).op (m.reloc r).dest = (m.reloc r).destOp →
      m.op (m.reloc r).dest = (m.reloc r).destOp := by
    intro hd
    rw [Mem.setOp_op] at hd
    split at hd
    · next heq =>
      have := hR.destOp_ever
      rw [← hd, heq] at this
      exact absurd this h.fresh
    · exact hd
  exact {
    ne_zero := hR.ne_zero
    dest_born := hR.dest_born
    dest_ne_root := hR.dest_ne_root
    dest_ne_replace := hR.dest_ne_replace
    destOp_ever := everOp_setOp.mpr (.inl hR.destOp_ever)
    destOp_flag := hR.destOp_flag
    held := by simpa [hop, -Mem.setOp_op] using hR.held
    ongoing_held := by simpa [hop, -Mem.setOp_op] using hR.ongoing_held
    ready := by
      intro hd hp
      rw [hop] at hp
      simpa using hR.ready (hdest hd) hp
    busy := by simpa [hop, -Mem.setOp_op] using hR.busy
    finished := by
      intro hp
      have := hR.finished ((hpast _).mp hp)
      exact ⟨this.1, this.2.1, everOp_setOp.mpr (.inl this.2.2)⟩
    rewritten := by simpa [hop, hcommitted, -Mem.setOp_op] using hR.rewritten
    commit_past := by
      intro hc
      have := hR.commit_past (hcommitted.mp hc)
      exact ⟨mem_setOp_pastOp.mpr (.inl this.1), this.2⟩
    succeeded := by simpa [hcommitted] using hR.succeeded
    failed := by
      intro hf
      exact mem_setOp_pastOp.mpr (.inl (hR.failed hf))
    released := by
      intro hp
      rcases hR.released ((hpast _).mp hp) with hf | ⟨hq, hm⟩
      · exact .inl hf
      · have hne : g.replace r ≠ x := h.ne_of_unmarked (by simp [Mem.marked, hm])
        exact .inr ⟨(hpast _).mpr hq, by simpa [hne] using hm⟩ }

theorem installed_iff (hnew : w ≠ .rel r) :
    installed (m.setOp x w) (g.setOp m x) r ↔ installed m g r := by
  unfold installed
  rw [everOp_setOp]
  exact ⟨fun h => h.resolve_right fun h => hnew h.2.symm, .inl⟩

/-- A change that is not about relocations. -/
theorem reloc (h : OpChange m g x w) (hR : RelocInv m g) (hold : (m.op x).flag ≠ .relocate)
    (hnew : w.flag ≠ .relocate) : RelocInv (m.setOp x w) (g.setOp m x) := by
  have hold' : ∀ r, m.op x ≠ .rel r := fun r hr => hold (by rw [hr])
  have hnew' : ∀ r, w ≠ .rel r := fun r hr => hnew (by rw [hr])
  constructor
  · intro y r hy
    rcases everOp_setOp.mp hy with hy | ⟨_, hy⟩
    · exact ⟨(installed_iff (hnew' r)).mpr (hR.place hy).1, (hR.place hy).2⟩
    · exact absurd hy.symm (hnew' r)
  · exact fun hr => (installed_iff (hnew' _)).mpr (hR.rewritten_installed hr)
  · exact fun hr => h.relocation (hR.record ((installed_iff (hnew' _)).mp hr)) (hold' _) (hnew' _)

/-- The new word is made of an address that is already out of the allocator's hands. -/
theorem taken (hT : ∀ {a}, Public m g a → Taken cfg m a)
    (hw : w.addr ≠ 0 → Taken cfg m w.addr)
    (hu : ∀ r, w = .cas r → (m.cas r).update.flag = .none → Taken cfg m (m.cas r).update.addr)
    {a : Addr} (ha : Public (m.setOp x w) (g.setOp m x) a) : Taken cfg (m.setOp x w) a := by
  cases ha with
  | node hb => exact hT (.node hb)
  | op he hf =>
    rcases everOp_setOp.mp he with he | ⟨rfl, rfl⟩
    · exact hT (.op he hf)
    · exact hw hf
  | update he hf =>
    rw [everOp_setOp] at he
    rcases he with he | ⟨rfl, he⟩
    · exact hT (.update he hf)
    · exact hu _ he.symm hf

end OpChange

/-! ## The changes one by one -/

theorem everOp.current (h : m.op x = w) : everOp m g x w := .inl h

theorem not_gone_of_flag (hn : (m.op x).flag = .none ∨ (m.op x).flag = .childCas) :
    ¬ gone m g x := by
  rintro (hm | ⟨r, hr, _⟩)
  · rw [Mem.marked] at hm
    simp [hm] at hn
  · simp [hr] at hn

theorem unmarked_of_flag (hn : (m.op x).flag ≠ .mark) : ¬ m.marked x := hn

namespace MemInv

/-- No word with the address of an unpublished record was ever held. -/
theorem not_everOp_of_private (hr : Private cfg m g r) (f : Flag) : ¬ everOp m g x ⟨r, f⟩ :=
  fun he => hr.hidden (.op he hr.ne_zero)

/-- Lines 112 and 438: a child CAS record is installed. -/
theorem installCas (h : MemInv cfg m g) (hx : x ∈ g.born) (hflag : (m.op x).flag = .none)
    (hr : Private cfg m g r) (hslot : m.child x (m.cas r).isLeft = (m.cas r).expected)
    (hp : Pending m g x r)
    (hu : ∀ n, (m.cas r).update = .ptr n → n ∉ g.born → Private cfg m g n) :
    MemInv cfg (m.setOp x (.cas r)) (g.setOp m x) := by
  have hc : OpChange m g x (.cas r) :=
    { born := hx
      unmarked := unmarked_of_flag (by simp [hflag])
      fresh := not_everOp_of_private hr _
      mark := by simp
      root := by simp
      first := fun _ f => not_everOp_of_private hr f
      stamp := fun _ => .inl rfl
      typed := fun s y => ⟨fun hs => by
        obtain rfl : r = s := by simpa using hs
        exact not_everOp_of_private hr _, by simp⟩
      gone := fun hg => absurd hg (not_gone_of_flag (.inl hflag))
      done := by
        intro s hs
        simp [hs] at hflag }
  refine ⟨hc.tree h.toTreeInv, hc.history h.toHistoryInv, hc.order h.toOrderInv,
    hc.cas h.toCasInv ?_, hc.reloc h.toRelocInv (by simp [hflag]) (by simp), ?_⟩
  · intro s hs
    obtain rfl : r = s := by simpa using hs
    refine ⟨hslot, hp, fun y => not_everOp_of_private hr _, ?_⟩
    intro y s n hy hn hru hsu
    exact (hu n hru hn).hidden (.update_ptr hy hsu)
  · refine OpChange.taken h.taken (fun _ => hr.taken) ?_
    intro s hs hf
    obtain rfl : r = s := by simpa using hs
    cases hp with
    | insertion a n _ hun hn _ _ => simpa [hun] using (hu n hun hn).taken
    | splice c _ _ hm hun =>
      rw [hun] at hf ⊢
      rcases h.replacement_cases hm with ⟨hrep, _⟩ | ⟨e, _, hne, hrep⟩
      · simp [hrep] at hf
      · rw [hrep]
        exact h.taken (.node (h.child_born (h.child_eq_ptr hne)))

/-- Line 402: a child CAS record that has taken effect gives way to its stamp. -/
theorem clearCas (h : MemInv cfg m g) (hop : m.op x = .cas r)
    (hdone : (m.cas r).expected ∈ g.pastChild x (m.cas r).isLeft) :
    MemInv cfg (m.setOp x (.ptr r)) (g.setOp m x) := by
  have hc : OpChange m g x (.ptr r) :=
    { born := by
        by_contra hx
        have := (h.unborn hx).1
        simp [hop] at this
      unmarked := unmarked_of_flag (by simp [hop])
      fresh := by
        rintro (he | he)
        · simp [hop] at he
        · exact h.installed_first (.inl hop) he
      mark := by simp
      root := by simp
      first := by simp
      stamp := fun _ => .inr (.inr (.inl (.inl hop)))
      typed := by simp
      gone := fun hg => absurd hg (not_gone_of_flag (.inr (by simp [hop])))
      done := by
        intro s hs
        obtain rfl : r = s := by simpa [hop] using hs
        exact hdone }
  refine ⟨hc.tree h.toTreeInv, hc.history h.toHistoryInv, hc.order h.toOrderInv,
    hc.cas h.toCasInv (by simp), hc.reloc h.toRelocInv (by simp [hop]) (by simp), ?_⟩
  refine OpChange.taken h.taken (fun hr => ?_) (by simp)
  exact h.taken (.op (w := .cas r) (.inl hop) hr)

/-- Line 267: a node with an empty slot is marked. -/
theorem mark (h : MemInv cfg m g) (hx : x ∈ g.born) (hroot : x ≠ baseRoot)
    (hflag : (m.op x).flag = .none) (hempty : ∃ d, isNull (m.child x d)) :
    MemInv cfg (m.setOp x ⟨(m.op x).addr, .mark⟩) (g.setOp m x) := by
  have hc : OpChange m g x ⟨(m.op x).addr, .mark⟩ :=
    { born := hx
      unmarked := unmarked_of_flag (by simp [hflag])
      fresh := by
        rintro (he | he)
        · have := congrArg Word.flag he
          simp [hflag] at this
        · exact h.past_unmarked he rfl
      mark := fun _ => ⟨hroot, hempty⟩
      root := fun heq => absurd heq hroot
      first := by simp
      stamp := fun hr => .inr (.inr ((h.stamp (.inl rfl)).resolve_left hr))
      typed := fun s y => ⟨fun hs => (by cases congrArg Word.flag hs),
        fun hs => (by cases congrArg Word.flag hs)⟩
      gone := fun _ => rfl
      done := by
        intro s hs
        simp [hs] at hflag }
  refine ⟨hc.tree h.toTreeInv, hc.history h.toHistoryInv, hc.order h.toOrderInv,
    hc.cas h.toCasInv (fun s hs => ?_), hc.reloc h.toRelocInv (by simp [hflag]) (by simp), ?_⟩
  · cases congrArg Word.flag hs
  · exact OpChange.taken (w := ⟨(m.op x).addr, .mark⟩) h.taken
      (fun hr => h.taken (.op (w := m.op x) (.inl rfl) hr))
      fun s hs => by cases congrArg Word.flag hs

/-! ### Relocations -/

/-- The relocation facts after a change that is about `r`. -/
theorem relocChange (h : MemInv cfg m g) (hc : OpChange m g x w)
    (hold : ∀ s, m.op x = .rel s → s = r) (hnew : ∀ s, w = .rel s → s = r)
    (hplace : w = .rel r → installed (m.setOp x w) (g.setOp m x) r ∧
      (x = g.replace r ∨ x = (m.reloc r).dest))
    (hr : Relocation (m.setOp x w) (g.setOp m x) r) : RelocInv (m.setOp x w) (g.setOp m x) := by
  have hinst : ∀ s, installed m g s → installed (m.setOp x w) (g.setOp m x) s := fun s hs =>
    everOp_setOp.mpr (.inl hs)
  constructor
  · intro y s hy
    rw [everOp_setOp] at hy
    rcases hy with hy | ⟨rfl, hy⟩
    · exact ⟨hinst s (h.place hy).1, (h.place hy).2⟩
    · obtain rfl := hnew s hy.symm
      exact hplace hy.symm
  · exact fun hs => hinst _ (h.rewritten_installed hs)
  · intro s hs
    by_cases hsr : s = r
    · exact hsr ▸ hr
    · have hold' : m.op x ≠ .rel s := fun heq => hsr (hold s heq)
      have hnew' : w ≠ .rel s := fun heq => hsr (hnew s heq)
      exact hc.relocation (h.record ((OpChange.installed_iff hnew').mp hs)) hold' hnew'

/-- Line 310: a relocation is installed on the node that will replace `dest`. -/
theorem installRel (h : MemInv cfg m g) (hx : x ∈ g.born) (hroot : x ≠ baseRoot)
    (hflag : (m.op x).flag = .none) (hpriv : Private cfg m g r) (hrep : g.replace r = x)
    (hr : Relocation (m.setOp x (.rel r)) (g.setOp m x) r) :
    MemInv cfg (m.setOp x (.rel r)) (g.setOp m x) := by
  have hc : OpChange m g x (.rel r) :=
    { born := hx
      unmarked := unmarked_of_flag (by simp [hflag])
      fresh := not_everOp_of_private hpriv _
      mark := by simp
      root := fun heq => absurd heq hroot
      first := fun _ f => not_everOp_of_private hpriv f
      stamp := fun _ => .inr (.inl rfl)
      typed := fun s y => ⟨by simp, fun hs => by
        obtain rfl : r = s := by simpa using hs
        exact not_everOp_of_private hpriv _⟩
      gone := fun hg => absurd hg (not_gone_of_flag (.inl hflag))
      done := by
        intro s hs
        simp [hs] at hflag }
  refine ⟨hc.tree h.toTreeInv, hc.history h.toHistoryInv, hc.order h.toOrderInv,
    hc.cas h.toCasInv (by simp), h.relocChange hc ?_ (by simp) (fun _ => ?_) hr, ?_⟩
  · intro s hs
    simp [hs] at hflag
  · exact ⟨everOp_setOp.mpr (.inr ⟨hrep, rfl⟩), .inl hrep.symm⟩
  · exact OpChange.taken h.taken (fun _ => hpriv.taken) (by simp)

/-- Until the relocation is decided, its record stays on the replacing node. -/
theorem held_of_uncommitted (h : MemInv cfg m g) (hr : installed m g r)
    (hop : m.op (m.reloc r).dest = (m.reloc r).destOp) : m.op (g.replace r) = .rel r := by
  have hR := h.record hr
  have hpast : (m.reloc r).destOp ∉ g.pastOp (m.reloc r).dest := hop ▸ h.op_fresh _
  rcases hr with hr | hr
  · exact hr
  · rcases hR.released hr with hf | ⟨hq, _⟩
    · exact absurd (hR.failed hf) hpast
    · exact absurd (hR.commit_past (.inr hq)).1 hpast

theorem relocation_commit (h : MemInv cfg m g) (hr : installed m g r)
    (hop : m.op (m.reloc r).dest = (m.reloc r).destOp) :
    Relocation (m.setOp (m.reloc r).dest (.rel r)) (g.setOp m (m.reloc r).dest) r := by
  have hR := h.record hr
  have hpast : (m.reloc r).destOp ∉ g.pastOp (m.reloc r).dest := hop ▸ h.op_fresh _
  have hnc : ¬ committed m g r := fun hc => hpast (hR.commit_past hc).1
  have hheld := h.held_of_uncommitted hr hop
  have hready := hR.ready hop hheld
  have hne := hR.dest_ne_replace.symm
  exact {
    ne_zero := hR.ne_zero
    dest_born := hR.dest_born
    dest_ne_root := hR.dest_ne_root
    dest_ne_replace := hR.dest_ne_replace
    destOp_ever := everOp_setOp.mpr (.inl hR.destOp_ever)
    destOp_flag := hR.destOp_flag
    held := by simpa [hne] using hR.held
    ongoing_held := by simpa [hne] using hR.ongoing_held
    ready := by
      intro hd
      have := hR.destOp_flag
      simp only [Mem.setOp_op, Mem.setOp_reloc, if_true] at hd
      simp [← hd] at this
    busy := fun _ => by simpa [hne] using ⟨hheld, hready.1, .inl hready.2⟩
    finished := by
      intro hp
      rcases mem_setOp_pastOp.mp hp with hp | ⟨_, hp⟩
      · exact absurd (.inr hp) hnc
      · have := hR.destOp_flag
        simp [← hop, ← hp] at this
    rewritten := fun hw => absurd (hR.rewritten hw).1 hnc
    commit_past := fun _ =>
      ⟨mem_setOp_pastOp.mpr (.inr ⟨rfl, hop.symm⟩), fun hf => hpast (hR.failed hf)⟩
    succeeded := fun hs => everOp_setOp.mpr (.inl (hR.succeeded hs))
    failed := fun hf => mem_setOp_pastOp.mpr (.inl (hR.failed hf))
    released := by
      intro hp
      rcases mem_setOp_pastOp.mp hp with hp | ⟨heq, _⟩
      · exact absurd (hheld ▸ hp) (h.op_fresh _)
      · exact absurd heq hne }

/-- Line 472: the relocation is installed on `dest`, which decides it. -/
theorem commit (h : MemInv cfg m g) (hr : installed m g r)
    (hop : m.op (m.reloc r).dest = (m.reloc r).destOp) :
    MemInv cfg (m.setOp (m.reloc r).dest (.rel r)) (g.setOp m (m.reloc r).dest) := by
  have hR := h.record hr
  have hpast : (m.reloc r).destOp ∉ g.pastOp (m.reloc r).dest := hop ▸ h.op_fresh _
  have hnc : ¬ committed m g r := fun hc => hpast (hR.commit_past hc).1
  have hflag : (m.op (m.reloc r).dest).flag = .none := hop ▸ hR.destOp_flag
  have hc : OpChange m g (m.reloc r).dest (.rel r) :=
    { born := hR.dest_born
      unmarked := unmarked_of_flag (by simp [hflag])
      fresh := hnc
      mark := by simp
      root := fun heq => absurd heq hR.dest_ne_root
      first := by
        intro _ f he
        rcases h.stamp he with h0 | he | he
        · exact hR.ne_zero h0
        · exact h.typed he hr
        · exact hnc he
      stamp := fun _ => .inr (.inl rfl)
      typed := fun s y => ⟨by simp, fun hs he => by
        obtain rfl : r = s := by simpa using hs
        exact h.typed he hr⟩
      gone := fun hg => absurd hg (not_gone_of_flag (.inl hflag))
      done := by
        intro s hs
        simp [hs] at hflag }
  refine ⟨hc.tree h.toTreeInv, hc.history h.toHistoryInv, hc.order h.toOrderInv,
    hc.cas h.toCasInv (by simp), h.relocChange hc (r := r) ?_ (by simp) (fun _ => ?_)
      (h.relocation_commit hr hop), ?_⟩
  · intro s hs
    simp [hs] at hflag
  · exact ⟨everOp_setOp.mpr (.inl hr), .inr rfl⟩
  · exact OpChange.taken h.taken (fun hr0 => h.taken (.op (w := .rel r) hr hr0)) (by simp)

/-- A word that takes out the record of a relocation is new on the node. -/
theorem fresh_of_rel (h : MemInv cfg m g) {f : Flag} (hop : m.op x = .rel r)
    (hf : f = .none ∨ f = .mark) : ¬ everOp m g x ⟨r, f⟩ := by
  rintro (he | he)
  · rcases hf with rfl | rfl <;> simp [hop] at he
  · exact h.installed_first (.inr hop) he

/-- The record of a relocation is taken out: with a mark, or without where the node stays. -/
theorem opChange_release (h : MemInv cfg m g) {f : Flag} (hop : m.op x = .rel r)
    (hf : f = .none ∨ f = .mark) (hmark : f = .mark → ∃ d, isNull (m.child x d))
    (hgone : gone m g x → f = .mark) : OpChange m g x ⟨r, f⟩ where
  born := by
    by_contra hx
    have := (h.unborn hx).1
    simp [hop] at this
  unmarked := unmarked_of_flag (by simp [hop])
  fresh := h.fresh_of_rel hop hf
  mark := by
    refine fun hm => ⟨?_, hmark hm⟩
    rintro rfl
    have := h.root_op
    simp [hop] at this
  root := by
    rintro rfl
    have := h.root_op
    simp [hop] at this
  first := by rcases hf with rfl | rfl <;> simp
  stamp := fun _ => .inr (.inr (.inr (.inl hop)))
  typed := by rcases hf with rfl | rfl <;> simp
  gone := hgone
  done := by
    intro s hs
    simp [hop] at hs

/-- What is left to show when the record of a relocation is taken out. -/
theorem releaseRel (h : MemInv cfg m g) {f : Flag} (hop : m.op x = .rel r)
    (hf : f = .none ∨ f = .mark) (hmark : f = .mark → ∃ d, isNull (m.child x d))
    (hgone : gone m g x → f = .mark)
    (hR : Relocation (m.setOp x ⟨r, f⟩) (g.setOp m x) r) :
    MemInv cfg (m.setOp x ⟨r, f⟩) (g.setOp m x) := by
  have hc := h.opChange_release hop hf hmark hgone
  have hnew : ∀ s, (⟨r, f⟩ : Word) ≠ .rel s := by
    intro s
    rcases hf with rfl | rfl <;> simp
  have hcas : ∀ s, (⟨r, f⟩ : Word) ≠ .cas s := by
    intro s
    rcases hf with rfl | rfl <;> simp
  refine ⟨hc.tree h.toTreeInv, hc.history h.toHistoryInv, hc.order h.toOrderInv,
    hc.cas h.toCasInv (fun s hs => absurd hs (hcas s)), h.relocChange hc (r := r) ?_
      (fun s hs => absurd hs (hnew s)) (fun hs => absurd hs (hnew r)) hR, ?_⟩
  · intro s hs
    simpa [hop, eq_comm] using hs
  · exact OpChange.taken (w := ⟨r, f⟩) h.taken
      (fun hr0 => h.taken (.op (w := .rel r) (.inl hop) hr0)) fun s hs => absurd hs (hcas s)

theorem relocation_clear (h : MemInv cfg m g) (hop : m.op (m.reloc r).dest = .rel r)
    (hw : r ∈ g.rewritten) :
    Relocation (m.setOp (m.reloc r).dest (.ptr r)) (g.setOp m (m.reloc r).dest) r := by
  have hR := h.record (h.rewritten_installed hw)
  have hfresh : ¬ everOp m g (m.reloc r).dest (.ptr r) := h.fresh_of_rel hop (.inl rfl)
  have hne := hR.dest_ne_replace.symm
  obtain ⟨hcom, hstate, hlt, _⟩ := hR.rewritten hw
  have hpast := hR.commit_past (.inl hop)
  exact {
    ne_zero := hR.ne_zero
    dest_born := hR.dest_born
    dest_ne_root := hR.dest_ne_root
    dest_ne_replace := hR.dest_ne_replace
    destOp_ever := everOp_setOp.mpr (.inl hR.destOp_ever)
    destOp_flag := hR.destOp_flag
    held := by simpa [hne] using hR.held
    ongoing_held := by simpa [hne] using hR.ongoing_held
    ready := by
      intro hd
      simp only [Mem.setOp_op, Mem.setOp_reloc, if_true] at hd
      exact absurd (hd ▸ hR.destOp_ever) hfresh
    busy := by simp
    finished := fun _ => ⟨hw, hstate, everOp_setOp.mpr (.inr ⟨rfl, rfl⟩)⟩
    rewritten := fun _ => ⟨everOp_setOp.mpr (.inl hcom), hstate, by simpa using hlt, by simp⟩
    commit_past := fun _ => ⟨mem_setOp_pastOp.mpr (.inl hpast.1), hpast.2⟩
    succeeded := fun hs => everOp_setOp.mpr (.inl (hR.succeeded hs))
    failed := fun hf => mem_setOp_pastOp.mpr (.inl (hR.failed hf))
    released := by
      intro hp
      rcases mem_setOp_pastOp.mp hp with hp | ⟨heq, _⟩
      · exact absurd ((hR.busy hop).1 ▸ hp) (h.op_fresh _)
      · exact absurd heq hne }

/-- Line 497: `dest` is released once its key has been rewritten. -/
theorem clearRel (h : MemInv cfg m g) (hop : m.op (m.reloc r).dest = .rel r)
    (hw : r ∈ g.rewritten) :
    MemInv cfg (m.setOp (m.reloc r).dest (.ptr r)) (g.setOp m (m.reloc r).dest) := by
  refine h.releaseRel hop (.inl rfl) (by simp) ?_ (h.relocation_clear hop hw)
  rintro (hm | ⟨s, hs, hne, _⟩)
  · simp [Mem.marked, hop] at hm
  · obtain rfl : r = s := by simpa [hop] using hs
    exact absurd rfl hne

theorem relocation_mark (h : MemInv cfg m g) (hop : m.op (g.replace r) = .rel r)
    (hq : .rel r ∈ g.pastOp (m.reloc r).dest) :
    Relocation (m.setOp (g.replace r) ⟨r, .mark⟩) (g.setOp m (g.replace r)) r := by
  have hR := h.record (.inl hop)
  have hne := hR.dest_ne_replace
  obtain ⟨hw, hstate, hptr⟩ := hR.finished hq
  obtain ⟨hcom, _, hlt, hkey⟩ := hR.rewritten hw
  have hpast := hR.commit_past (.inr hq)
  exact {
    ne_zero := hR.ne_zero
    dest_born := hR.dest_born
    dest_ne_root := hR.dest_ne_root
    dest_ne_replace := hR.dest_ne_replace
    destOp_ever := everOp_setOp.mpr (.inl hR.destOp_ever)
    destOp_flag := hR.destOp_flag
    held := by simp
    ongoing_held := by simp [hstate]
    ready := by simp
    busy := by
      simp only [Mem.setOp_op, Mem.setOp_reloc, if_neg hne]
      intro hd
      exact absurd (hd ▸ hq) (h.op_fresh _)
    finished := fun _ => ⟨hw, hstate, everOp_setOp.mpr (.inl hptr)⟩
    rewritten := fun _ =>
      ⟨everOp_setOp.mpr (.inl hcom), hstate, by simpa using hlt, by simpa [hne] using hkey⟩
    commit_past := fun _ => ⟨mem_setOp_pastOp.mpr (.inl hpast.1), hpast.2⟩
    succeeded := fun hs => everOp_setOp.mpr (.inl (hR.succeeded hs))
    failed := fun hf => mem_setOp_pastOp.mpr (.inl (hR.failed hf))
    released := fun _ => .inr ⟨mem_setOp_pastOp.mpr (.inl hq), by simp⟩ }

/-- Line 511 after a success: the replacing node is marked. -/
theorem releaseMark (h : MemInv cfg m g) (hop : m.op (g.replace r) = .rel r)
    (hq : .rel r ∈ g.pastOp (m.reloc r).dest) :
    MemInv cfg (m.setOp (g.replace r) ⟨r, .mark⟩) (g.setOp m (g.replace r)) :=
  h.releaseRel hop (.inr rfl) (fun _ => ⟨true, ((h.record (.inl hop)).held hop).2⟩)
    (fun _ => rfl) (h.relocation_mark hop hq)

theorem relocation_failed (h : MemInv cfg m g) (hop : m.op (g.replace r) = .rel r)
    (hstate : m.state r = .failed) :
    Relocation (m.setOp (g.replace r) (.ptr r)) (g.setOp m (g.replace r)) r := by
  have hR := h.record (.inl hop)
  have hnc : ¬ committed m g r := fun hc => (hR.commit_past hc).2 hstate
  have hne := hR.dest_ne_replace
  exact {
    ne_zero := hR.ne_zero
    dest_born := hR.dest_born
    dest_ne_root := hR.dest_ne_root
    dest_ne_replace := hR.dest_ne_replace
    destOp_ever := everOp_setOp.mpr (.inl hR.destOp_ever)
    destOp_flag := hR.destOp_flag
    held := by simp
    ongoing_held := by simp [hstate]
    ready := by simp
    busy := by
      simp only [Mem.setOp_op, Mem.setOp_reloc, if_neg hne]
      exact fun hd => absurd (.inl hd) hnc
    finished := by
      intro hp
      rcases mem_setOp_pastOp.mp hp with hp | ⟨heq, _⟩
      · exact absurd (.inr hp) hnc
      · exact absurd heq hne
    rewritten := fun hw => absurd (hR.rewritten hw).1 hnc
    commit_past := by
      intro hcom
      rcases everOp_setOp.mp hcom with hcom | ⟨heq, _⟩
      · exact absurd hcom hnc
      · exact absurd heq hne
    succeeded := by simp [hstate]
    failed := fun hf => mem_setOp_pastOp.mpr (.inl (hR.failed hf))
    released := fun _ => .inl hstate }

/-- Line 511 after a failure: the replacing node is released. -/
theorem releaseFailed (h : MemInv cfg m g) (hop : m.op (g.replace r) = .rel r)
    (hstate : m.state r = .failed) :
    MemInv cfg (m.setOp (g.replace r) (.ptr r)) (g.setOp m (g.replace r)) := by
  have hR := h.record (.inl hop)
  refine h.releaseRel hop (.inl rfl) (by simp) ?_ (h.relocation_failed hop hstate)
  rintro (hm | ⟨s, hs, _, hw⟩)
  · simp [Mem.marked, hop] at hm
  · obtain rfl : r = s := by simpa [hop] using hs
    exact absurd hstate (hR.commit_past (hR.rewritten hw).1).2

end MemInv

end LockFree
