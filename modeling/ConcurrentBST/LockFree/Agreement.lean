-- SUMMARY: All helpers of a relocation record agree on its outcome.
import ConcurrentBST.LockFree.Releases
import ConcurrentBST.LockFree.Writes

/-!
# Relocation records

The outcome of a relocation is decided by whether line 472 ever succeeds, and
after that no helper can reach the other verdict: `dest->op` never returns to
`dest_op`, and while it holds the record nobody else writes the key of `dest`.
-/

namespace LockFree

variable {cfg : Config} {m m' : Mem} {g g' : Ghost} {s : State} {l : Tid × Action} {x r : Addr}
  {n i j k : Nat} {pc : PC} {b : Bool}

/-- The CAS of line 310 is about to put the record `r` into `x->op`. -/
def State.installsRelocation (s : State) (l : Tid × Action) (x r : Addr) : Prop :=
  ∃ f, s.at l = some (.removeInstall f r) ∧ f.curr = x ∧ s.mem.op x = f.currOp

/-- The step is one of a call of `helpRelocate` on the record `r`. -/
def State.helpsRelocate (s : State) (l : Tid × Action) (r : Addr) : Prop :=
  ∃ pc, s.at l = some pc ∧ pc.relocation = some r

/-- The step determines `result` at line 500, which the call returns at line 504 or 522. -/
def State.decides (s : State) (l : Tid × Action) (r : Addr) (result : Bool) : Prop :=
  (∃ a, s.at l = some (.relocState r a) ∧ s.mem.state r = .failed ∧ result = false) ∨
  (∃ a, s.at l = some (.relocFail r a) ∧ s.mem.state r ≠ .successful ∧ result = false) ∨
  ∃ a, s.at l = some (.relocClear r a) ∧ result = true

/-- What becomes of the record `op` at address `r` that step `i` installs on `replace`. -/
structure Agrees (e : (system cfg).Exec n) (i : Nat) (replace r : Addr) (op : RelocateOp) :
    Prop where
  installed : (e.state (i + 1)).mem.op replace = .rel r
  starts : op.state = .ongoing
  record : ∀ j, i ≤ j → j ≤ n → (e.state j).mem.reloc r =
    { op with state := (e.state j).mem.state r }
  state_once : ∀ j k, i ≤ j → j ≤ k → k ≤ n → (e.state j).mem.state r ≠ .ongoing →
    (e.state k).mem.state r = (e.state j).mem.state r
  result : ∀ j b, i < j → j < n → (e.state j).decides (e.label j) r b →
    (e.state (j + 1)).mem.state r = if b then .successful else .failed
  /-- A successful relocation has been installed on `dest`. -/
  reaches : ∀ j, i < j → j ≤ n → (e.state j).mem.state r = .successful →
    ∃ k, i < k ∧ k ≤ j ∧ (e.state k).mem.op op.dest = .rel r
  key : ∀ j, i < j → j < n → (e.state j).helpsRelocate (e.label j) r →
    (e.state (j + 1)).mem.key op.dest ≠ (e.state j).mem.key op.dest →
    (e.state j).mem.state r = .successful ∧ (e.state j).mem.op op.dest = .rel r ∧
      (e.state j).mem.key op.dest = op.removeKey ∧
      (e.state (j + 1)).mem.key op.dest = op.replaceKey
  key_once : ∀ j k, i < j → i < k → j < n → k < n →
    (e.state j).helpsRelocate (e.label j) r → (e.state k).helpsRelocate (e.label k) r →
    (e.state (j + 1)).mem.key op.dest ≠ (e.state j).mem.key op.dest →
    (e.state (k + 1)).mem.key op.dest ≠ (e.state k).mem.key op.dest → j = k
  /-- Before `dest->op` leaves the tag the key has been written. -/
  leaves : ∀ j, i < j → j < n → (e.state j).mem.op op.dest = .rel r →
    (e.state (j + 1)).mem.op op.dest ≠ .rel r → (e.state j).mem.state r = .successful ∧
      ∃ k, i < k ∧ k < j ∧ (e.state k).helpsRelocate (e.label k) r ∧
        (e.state (k + 1)).mem.key op.dest ≠ (e.state k).mem.key op.dest
  successful : ∀ j k, i < j → i < k → j ≤ n → k ≤ n → (e.state j).mem.state r = .successful →
    (e.state k).mem.op replace = .rel r ∨ (e.state k).mem.op replace = ⟨r, .mark⟩
  failed : ∀ j k, i < j → i < k → j ≤ n → k < n → (e.state j).mem.state r = .failed →
    (e.state k).helpsRelocate (e.label k) r →
    (e.state (k + 1)).mem.key op.dest = (e.state k).mem.key op.dest ∧
      (e.state (k + 1)).mem.op op.dest = (e.state k).mem.op op.dest
  released : ∀ j k, i < j → i < k → j ≤ n → k < n → (e.state j).mem.state r = .failed →
    (e.state k).mem.op replace = .rel r →
    (e.state (k + 1)).mem.op replace = .rel r ∨ (e.state (k + 1)).mem.op replace = .ptr r
  /-- The record stays in `replace->op` without a break. -/
  held : ∀ j k, i < j → j ≤ k → k ≤ n → (e.state k).mem.op replace = .rel r →
    (e.state j).mem.op replace = .rel r

-- ---------------------------------------------------------------------------
-- One access
-- ---------------------------------------------------------------------------

section Access

variable {t : Tid} {call : Call} {fresh : Addr} {pc' : PC}

/-- The program writes the key of a node at line 496 only. -/
theorem exec_key (he : exec cfg t call fresh m pc = some (m', pc')) (hx : Taken cfg m x)
    (hne : m'.key x ≠ m.key x) :
    ∃ r a, pc = .relocKey r a ∧ x = (m.reloc r).dest ∧ m.key x = (m.reloc r).removeKey := by
  cases pc with
  | relocKey op a =>
    simp only [exec] at he
    split at he <;> cases he
    · next hkey =>
      rw [Mem.setKey_key] at hne
      split at hne
      · next hxd => exact ⟨op, a, rfl, hxd, hxd ▸ hkey⟩
      · exact absurd rfl hne
    · exact absurd rfl hne
  | addNew f isLeft =>
    simp only [exec] at he
    split at he
    · next ha =>
      cases he
      simp [taken_of_ne_alloc ha hx] at hne
    · cases he
  | _ =>
    simp only [exec] at he
    repeat' split at he
    all_goals cases he
    all_goals exact absurd (by simp) hne

/-- `helpRelocate` writes an `op` field only to put in or to take out its record. -/
theorem exec_relocation_op (he : exec cfg t call fresh m pc = some (m', pc'))
    (hpc : pc.relocation = some r) (hne : m'.op x ≠ m.op x) : m.op x = .rel r ∨ m'.op x = .rel r := by
  have hw := exec_op_ne he hne
  generalize m'.op x = w at hw ⊢
  cases hw with
  | commit => exact .inr (congrArg Word.rel (Option.some.inj hpc))
  | clearRelocation hop | releaseMark hop | releaseFailed hop =>
    exact .inl (hop.trans (congrArg Word.rel (Option.some.inj hpc)))
  | _ => cases hpc

end Access

-- ---------------------------------------------------------------------------
-- One step of a run
-- ---------------------------------------------------------------------------

/-- The first write of line 496 happens while the record is installed on `dest`. -/
theorem PcInv.op_dest {t : Tid} {call : Call} {a : HelpArgs} (h : MemInv cfg m g)
    (hp : PcInv cfg m g t call (.relocKey r a))
    (hkey : m.key (m.reloc r).dest = (m.reloc r).removeKey) : m.op (m.reloc r).dest = .rel r := by
  obtain ⟨hh, _, hst⟩ := hp
  have hR := h.record hh.installed
  refine (hR.succeeded hst).resolve_right fun hpast => ?_
  have hlt := (hR.rewritten (hR.finished hpast).1).2.2.1
  exact absurd (hkey ▸ hlt) (lt_irrefl _)

namespace History

variable {e : (system cfg).Exec n} (H : History e)

include H

/-- Installation starts from a fresh record. -/
theorem installsRelocation (hi : i < n) (h : (e.state i).installsRelocation (e.label i) x r) :
    (e.state (i + 1)).mem = (e.state i).mem.setOp x (.rel r) ∧
      Private cfg (e.state i).mem (H.ghost i) r ∧ (H.ghost i).replace r = x ∧
      (e.state i).mem.state r = .ongoing ∧ ((e.state i).mem.reloc r).dest ≠ x := by
  obtain ⟨f, hat, rfl, hop⟩ := h
  obtain ⟨t, call, fresh, pc', hpc, he⟩ := H.access hi hat
  obtain ⟨_, _, _, hcand, hr, _, hrep, hst, _⟩ := hpc
  rw [exec, if_pos hop, setFlag_ptr] at he
  obtain ⟨hm, -⟩ := Prod.mk.inj (Option.some.inj he)
  exact ⟨hm.symm, hr, hrep, hst, (hcand.slot hop).1.symm⟩

/-- A helper of `r` changes a key only at `dest`, and only as the record says. -/
theorem key_of_helps (hj : j < n) (hh : (e.state j).helpsRelocate (e.label j) r)
    (hx : x ∈ (H.ghost j).born) (hne : (e.state (j + 1)).mem.key x ≠ (e.state j).mem.key x) :
    x = ((e.state j).mem.reloc r).dest ∧ Rewrites (e.state j).mem (H.ghost j) r ∧
      (e.state (j + 1)).mem.key x = ((e.state j).mem.reloc r).replaceKey ∧
      r ∈ (H.ghost (j + 1)).rewritten := by
  obtain ⟨pc, hat, hpc⟩ := hh
  obtain ⟨t, call, fresh, pc', hp, he⟩ := H.access hj hat
  have h := H.mem hj.le
  obtain ⟨r', a, rfl, rfl, hkey⟩ := exec_key he (h.taken (.node hx)) hne
  obtain rfl : r' = r := Option.some.inj hpc
  obtain ⟨_, _, g', status, hc, hg⟩ := (H.traces j hj).change
  obtain ⟨s, hs, hw, hval, hmem⟩ := hc.key_cases h hx hne
  obtain rfl : r' = s := congrArg Word.addr ((hp.op_dest h hkey).symm.trans (hs ▸ hw.op))
  exact ⟨rfl, hw, hval, hg ▸ hmem⟩

/-- The step in which `r` becomes rewritten is one of its helpers. -/
theorem helps_of_rewritten (hj : j < n) (hn : r ∉ (H.ghost j).rewritten)
    (hr : r ∈ (H.ghost (j + 1)).rewritten) : (e.state j).helpsRelocate (e.label j) r ∧
      Rewrites (e.state j).mem (H.ghost j) r ∧ (e.state (j + 1)).mem = (e.state j).mem.setKey
        ((e.state j).mem.reloc r).dest ((e.state j).mem.reloc r).replaceKey := by
  have h := H.mem hj.le
  obtain ⟨_, _, g', status, hc, hg⟩ := (H.traces j hj).change
  rw [hg] at hr
  change r ∈ g'.rewritten at hr
  obtain ⟨hw, hset⟩ := hc.rewritten_cases hr hn
  refine ⟨?_, hw, hset⟩
  have hne : (e.state (j + 1)).mem.key ((e.state j).mem.reloc r).dest ≠
      (e.state j).mem.key ((e.state j).mem.reloc r).dest := by
    rw [hset, hw.key]
    simpa using (hw.lt h).ne'
  have hborn := (hw.record h).dest_born
  have hstep := steps_of_next (e.step j hj)
  generalize hl : e.label j = l at hstep ⊢
  generalize hs' : e.state (j + 1) = s' at hstep hne
  cases hstep with
  | invoke | respond => exact absurd rfl hne
  | @access t call pc pc' m' fresh ht he =>
    obtain ⟨s, a, rfl, hd, hkey⟩ := exec_key he (h.taken (.node hborn)) hne
    have hop := ((H.inv j hj.le).pc ht).op_dest h (hd ▸ hkey)
    obtain rfl : r = s := congrArg Word.addr (hw.op.symm.trans (hd ▸ hop))
    exact ⟨.relocKey r a, by simp [State.at, ht], rfl⟩

/-- What is known of `r` as long as it is not handed out again. -/
theorem relocation_record {op : RelocateOp} (hij : i ≤ j) (hj : j ≤ n)
    (hinst : installed (e.state i).mem (H.ghost i) r) (hrep : (H.ghost i).replace r = x)
    (hop : (e.state i).mem.reloc r = op) :
    installed (e.state j).mem (H.ghost j) r ∧ (H.ghost j).replace r = x ∧
      (e.state j).mem.reloc r = { op with state := (e.state j).mem.state r } := by
  refine H.preserved (P := fun m g => installed m g r ∧ g.replace r = x ∧
    m.reloc r = { op with state := m.state r }) ?_ hij hj ⟨hinst, hrep, ?_⟩
  · rintro m g m' g' spent hev ⟨hinst, hrep, heq⟩
    have hr := hev.before.taken (hev.before.rel_public hinst)
    obtain ⟨st, hst, -⟩ := hev.reloc hr
    refine ⟨hev.installed_mono hinst, (hev.replace hr).trans hrep, ?_⟩
    have hst' : m'.state r = st := congrArg RelocateOp.state hst
    rw [hst, hst', heq]
  · subst hop
    rfl

/-- The same from the step on that installs `r`. -/
theorem relocation_after (hij : i < j) (hj : j ≤ n)
    (h : (e.state i).installsRelocation (e.label i) x r) :
    installed (e.state j).mem (H.ghost j) r ∧ (H.ghost j).replace r = x ∧
      (e.state j).mem.reloc r =
        { (e.state i).mem.reloc r with state := (e.state j).mem.state r } := by
  obtain ⟨hset, hprivate, hrep, _⟩ := H.installsRelocation (by omega) h
  obtain ⟨spent, hev⟩ := H.evolution (i := i) (by omega)
  have hrep' : (H.ghost (i + 1)).replace r = x := (hev.replace hprivate.taken).trans hrep
  have hinst : (e.state (i + 1)).mem.op x = .rel r := by simp [hset]
  exact H.relocation_record hij hj (.inl (hrep' ▸ hinst)) hrep' (by simp [hset])

/-- A state other than `ONGOING` is final. -/
theorem state_final (hij : i ≤ j) (hj : j ≤ n)
    (hinst : installed (e.state i).mem (H.ghost i) r) (hst : (e.state i).mem.state r ≠ .ongoing) :
    (e.state j).mem.state r = (e.state i).mem.state r := by
  refine (H.preserved (P := fun m g => installed m g r ∧
    m.state r = (e.state i).mem.state r) ?_ hij hj ⟨hinst, rfl⟩).2
  rintro m g m' g' spent hev ⟨hinst, heq⟩
  obtain ⟨st, hst', hcases⟩ := hev.reloc (hev.before.taken (hev.before.rel_public hinst))
  refine ⟨hev.installed_mono hinst, ?_⟩
  have heq' : m'.state r = st := congrArg RelocateOp.state hst'
  rcases hcases with rfl | ⟨hong, _⟩
  · exact heq'.trans heq
  · exact absurd (heq ▸ hong) hst

/-- `result` is the final state of the record. -/
theorem state_of_decides (hj : j < n) (hd : (e.state j).decides (e.label j) r b) :
    (e.state (j + 1)).mem.state r = if b then .successful else .failed := by
  have h := H.mem hj.le
  rcases hd with ⟨a, hat, hst, rfl⟩ | ⟨a, hat, hst, rfl⟩ | ⟨a, hat, rfl⟩
  · obtain ⟨t, call, fresh, pc', hp, he⟩ := H.access hj hat
    obtain ⟨hm, -⟩ := Prod.mk.inj (Option.some.inj he)
    rw [← hm]
    exact hst
  · obtain ⟨t, call, fresh, pc', hp, he⟩ := H.access hj hat
    obtain ⟨hm, -⟩ := Prod.mk.inj (Option.some.inj he)
    rw [← hm]
    cases hst' : (e.state j).mem.state r with
    | ongoing => simp
    | successful => exact absurd hst' hst
    | failed => simp [hst']
  · obtain ⟨t, call, fresh, pc', hp, he⟩ := H.access hj hat
    obtain ⟨hm, -⟩ := Prod.mk.inj (Option.some.inj he)
    have hw := (h.record (h.rewritten_installed hp.2.2)).rewritten hp.2.2
    rw [← hm]
    split <;> exact hw.2.1

end History

-- ---------------------------------------------------------------------------
-- Runs
-- ---------------------------------------------------------------------------

/-- What is known of the record `r` from the step on that installs it on `x` as `op`. -/
structure Recorded {e : (system cfg).Exec n} (H : History e) (i : Nat) (x r : Addr)
    (op : RelocateOp) : Prop where
  bound : i < n
  ongoing : op.state = .ongoing
  initial : (e.state i).mem.reloc r = op
  installed : (e.state (i + 1)).mem.op x = .rel r
  record : ∀ {j}, i < j → j ≤ n → LockFree.installed (e.state j).mem (H.ghost j) r ∧
    (H.ghost j).replace r = x ∧
    (e.state j).mem.reloc r = { op with state := (e.state j).mem.state r }
  /-- Right after its installation the record has not got to `dest`. -/
  never : ¬ everOp (e.state (i + 1)).mem (H.ghost (i + 1)) op.dest (.rel r)

theorem History.recorded {e : (system cfg).Exec n} (H : History e) (hi : i < n)
    (h : (e.state i).installsRelocation (e.label i) x r) :
    Recorded H i x r ((e.state i).mem.reloc r) := by
  obtain ⟨hset, hprivate, hrep, hst, hdx⟩ := H.installsRelocation hi h
  refine ⟨hi, hst, rfl, by simp [hset], fun hij hj => H.relocation_after hij hj h, ?_⟩
  obtain ⟨_, _, g', status, hc, hg⟩ := (H.traces i hi).change
  have hold : ¬ everOp (e.state i).mem (H.ghost i) ((e.state i).mem.reloc r).dest (.rel r) :=
    MemInv.not_everOp_of_private hprivate .relocate
  rintro (heq | hpast)
  · exact hold (.inl (by simpa [hset, hdx] using heq))
  · rw [hg] at hpast
    change Word.rel r ∈ g'.pastOp _ at hpast
    exact hold (hc.pastOp_cases hpast)

namespace Recorded

variable {e : (system cfg).Exec n} {H : History e} {op : RelocateOp}
  (R : Recorded H i x r op)

include R

theorem dest_eq (hij : i < j) (hj : j ≤ n) : ((e.state j).mem.reloc r).dest = op.dest := by
  rw [(R.record hij hj).2.2]

theorem relocation (hij : i < j) (hj : j ≤ n) : Relocation (e.state j).mem (H.ghost j) r :=
  (H.mem hj).record (R.record hij hj).1

theorem record_eq (hij : i ≤ j) (hj : j ≤ n) :
    (e.state j).mem.reloc r = { op with state := (e.state j).mem.state r } := by
  rcases hij.eq_or_lt with rfl | hij
  · rw [Mem.state, R.initial]
  · exact (R.record hij hj).2.2

theorem state_once (hij : i ≤ j) (hjk : j ≤ k) (hk : k ≤ n)
    (hne : (e.state j).mem.state r ≠ .ongoing) :
    (e.state k).mem.state r = (e.state j).mem.state r := by
  rcases hij.eq_or_lt with rfl | hij
  · exact absurd (by rw [Mem.state, R.initial, R.ongoing]) hne
  · exact H.state_final hjk hk (R.record hij (by omega)).1 hne

theorem state_agrees (hij : i < j) (hik : i < k) (hj : j ≤ n) (hk : k ≤ n)
    (hnj : (e.state j).mem.state r ≠ .ongoing) (hnk : (e.state k).mem.state r ≠ .ongoing) :
    (e.state j).mem.state r = (e.state k).mem.state r := by
  rcases Nat.le_total j k with hjk | hjk
  · exact (R.state_once hij.le hjk hk hnj).symm
  · exact R.state_once hik.le hjk hj hnk

/-- The record never both fails and succeeds. -/
theorem not_failed (hij : i < j) (hik : i < k) (hj : j ≤ n) (hk : k ≤ n)
    (hfail : (e.state j).mem.state r = .failed) : (e.state k).mem.state r ≠ .successful := by
  intro hsuc
  have := R.state_agrees hij hik hj hk (by simp [hfail]) (by simp [hsuc])
  simp [hfail, hsuc] at this

theorem ever_replace (hij : i < j) (hj : j ≤ n) :
    everOp (e.state j).mem (H.ghost j) x (.rel r) :=
  H.ever hij hj (.inl R.installed)

/-- The record stays in `replace->op` without a break. -/
theorem held (hij : i < j) (hjk : j ≤ k) (hk : k ≤ n) (hop : (e.state k).mem.op x = .rel r) :
    (e.state j).mem.op x = .rel r :=
  (R.ever_replace hij (by omega)).resolve_right fun hpast =>
    (H.mem hk).op_fresh x (hop ▸ H.pastOp hjk hk hpast)

/-- `dest->op` gets the record in some step. -/
theorem reaches (hij : i < j) (hj : j ≤ n) (hsuc : (e.state j).mem.state r = .successful) :
    ∃ k, i < k ∧ k ≤ j ∧ (e.state k).mem.op op.dest = .rel r := by
  have hcom : everOp (e.state j).mem (H.ghost j) op.dest (.rel r) :=
    R.dest_eq hij hj ▸ (R.relocation hij hj).succeeded hsuc
  obtain ⟨k, hik, hkj, hk, hk'⟩ := Lts.exists_step
    (P := fun k => everOp (e.state k).mem (H.ghost k) op.dest (.rel r)) hij R.never hcom
  refine ⟨k + 1, by omega, hkj, hk'.resolve_right fun hpast => hk ?_⟩
  obtain ⟨_, _, g', status, hc, hg⟩ := (H.traces k (by omega)).change
  rw [hg] at hpast
  change Word.rel r ∈ g'.pastOp op.dest at hpast
  exact hc.pastOp_cases hpast

/-- A step of `helpRelocate` that changes the key of `dest`. -/
theorem rewrites (hij : i < j) (hj : j < n) (hh : (e.state j).helpsRelocate (e.label j) r)
    (hne : (e.state (j + 1)).mem.key op.dest ≠ (e.state j).mem.key op.dest) :
    Rewrites (e.state j).mem (H.ghost j) r ∧
      (e.state (j + 1)).mem.key op.dest = op.replaceKey ∧ r ∈ (H.ghost (j + 1)).rewritten := by
  have hborn : op.dest ∈ (H.ghost j).born :=
    R.dest_eq hij hj.le ▸ (R.relocation hij hj.le).dest_born
  obtain ⟨_, hw, hval, hmem⟩ := H.key_of_helps hj hh hborn hne
  exact ⟨hw, by rw [hval, (R.record hij hj.le).2.2], hmem⟩

theorem key (hij : i < j) (hj : j < n) (hh : (e.state j).helpsRelocate (e.label j) r)
    (hne : (e.state (j + 1)).mem.key op.dest ≠ (e.state j).mem.key op.dest) :
    (e.state j).mem.state r = .successful ∧ (e.state j).mem.op op.dest = .rel r ∧
      (e.state j).mem.key op.dest = op.removeKey ∧
      (e.state (j + 1)).mem.key op.dest = op.replaceKey := by
  obtain ⟨hw, hval, _⟩ := R.rewrites hij hj hh hne
  have hd := R.dest_eq hij hj.le
  refine ⟨hw.state, hd ▸ hw.op, ?_, hval⟩
  rw [← hd, hw.key, (R.record hij hj.le).2.2]

/-- A record that has been rewritten does not write again. -/
theorem not_rewrites (hij : i < j) (hjk : j < k) (hk : k < n)
    (hh : (e.state j).helpsRelocate (e.label j) r)
    (hne : (e.state (j + 1)).mem.key op.dest ≠ (e.state j).mem.key op.dest) :
    ¬ Rewrites (e.state k).mem (H.ghost k) r := by
  obtain ⟨_, _, hmem⟩ := R.rewrites hij (by omega) hh hne
  have hmem' := H.preserved (P := fun _ g => r ∈ g.rewritten)
    (fun _ _ _ _ _ hev h => hev.rewritten h) hjk hk.le hmem
  exact fun hw => hw.new (H.mem hk.le) hmem'

theorem key_once (hij : i < j) (hik : i < k) (hj : j < n) (hk : k < n)
    (hhj : (e.state j).helpsRelocate (e.label j) r) (hhk : (e.state k).helpsRelocate (e.label k) r)
    (hnej : (e.state (j + 1)).mem.key op.dest ≠ (e.state j).mem.key op.dest)
    (hnek : (e.state (k + 1)).mem.key op.dest ≠ (e.state k).mem.key op.dest) : j = k := by
  rcases Nat.lt_trichotomy j k with hjk | hjk | hjk
  · exact absurd (R.rewrites hik hk hhk hnek).1 (R.not_rewrites hij hjk hk hhj hnej)
  · exact hjk
  · exact absurd (R.rewrites hij hj hhj hnej).1 (R.not_rewrites hik hjk hj hhk hnek)

/-- The tag on `dest` is only cleared after the key has been written. -/
theorem leaves (hij : i < j) (hj : j < n) (hop : (e.state j).mem.op op.dest = .rel r)
    (hne : (e.state (j + 1)).mem.op op.dest ≠ .rel r) :
    (e.state j).mem.state r = .successful ∧ ∃ k, i < k ∧ k < j ∧
      (e.state k).helpsRelocate (e.label k) r ∧
      (e.state (k + 1)).mem.key op.dest ≠ (e.state k).mem.key op.dest := by
  obtain ⟨spent, hev⟩ := H.evolution hj
  have hpast : .rel r ∈ (H.ghost (j + 1)).pastOp op.dest :=
    (hev.ever (.inl hop)).resolve_left hne
  have hd' := R.dest_eq (j := j + 1) (by omega) hj
  have hfin := (R.relocation (j := j + 1) (by omega) hj).finished (hd'.symm ▸ hpast)
  have hnot : r ∉ (H.ghost (i + 1)).rewritten := fun hw =>
    R.never (R.dest_eq (by omega) R.bound ▸ ((R.relocation (by omega) R.bound).rewritten hw).1)
  obtain ⟨k, hik, hkj, hk, hk'⟩ := Lts.exists_step
    (P := fun k => r ∈ (H.ghost k).rewritten) (by omega) hnot hfin.1
  obtain ⟨hh, hw, hsetk⟩ := H.helps_of_rewritten (by omega) hk hk'
  have hdk := R.dest_eq (j := k) (by omega) (by omega)
  -- The step that writes the key does not clear the tag.
  have hkj' : k ≠ j := by
    rintro rfl
    rw [hsetk, Mem.setKey_op] at hne
    exact hne hop
  refine ⟨?_, k, hik, by omega, hh, ?_⟩
  · have hsuc := hw.state
    exact (R.state_once (j := k) (by omega) (by omega) hj.le (by simp [hsuc])).trans hsuc
  · rw [hsetk, ← hdk, hw.key]
    simpa using (hw.lt (H.mem (by omega))).ne'

theorem successful (hij : i < j) (hik : i < k) (hj : j ≤ n) (hk : k ≤ n)
    (hsuc : (e.state j).mem.state r = .successful) :
    (e.state k).mem.op x = .rel r ∨ (e.state k).mem.op x = ⟨r, .mark⟩ := by
  rcases R.ever_replace hik hk with hop | hpast
  · exact .inl hop
  · obtain ⟨_, hrep, _⟩ := R.record hik hk
    rcases (R.relocation hik hk).released (hrep.symm ▸ hpast) with hfail | ⟨_, hmark⟩
    · exact absurd hsuc (R.not_failed hik hij hk hj hfail)
    · exact .inr (hrep ▸ hmark)

theorem failed_key (hij : i < j) (hik : i < k) (hj : j ≤ n) (hk : k < n)
    (hfail : (e.state j).mem.state r = .failed) (hh : (e.state k).helpsRelocate (e.label k) r) :
    (e.state (k + 1)).mem.key op.dest = (e.state k).mem.key op.dest := by
  by_contra hne
  exact R.not_failed hij hik hj hk.le hfail (R.rewrites hik hk hh hne).1.state

/-- A record that gets to `dest` does not fail. -/
theorem failed_op (hij : i < j) (hik : i < k) (hj : j ≤ n) (hk : k < n)
    (hfail : (e.state j).mem.state r = .failed) (hh : (e.state k).helpsRelocate (e.label k) r) :
    (e.state (k + 1)).mem.op op.dest = (e.state k).mem.op op.dest := by
  by_contra hne
  obtain ⟨pc, hat, hpc⟩ := hh
  obtain ⟨t, call, fresh, pc', -, he⟩ := H.access hk hat
  obtain ⟨spent, hev⟩ := H.evolution hk
  have hcom : everOp (e.state (k + 1)).mem (H.ghost (k + 1)) op.dest (.rel r) :=
    (exec_relocation_op he hpc hne).elim (fun hold => hev.ever (.inl hold)) .inl
  have hnot : ∀ q, k + 1 ≤ q → q ≤ n → (e.state q).mem.state r ≠ .failed := by
    intro q hkq hq
    refine ((R.relocation (by omega) hq).commit_past ?_).2
    rw [committed, R.dest_eq (by omega) hq]
    exact H.ever hkq hq hcom
  rcases Nat.le_total (k + 1) j with hkj | hjk
  · exact hnot j hkj hj hfail
  · apply hnot (k + 1) le_rfl hk
    exact (R.state_once hij.le hjk hk (by simp [hfail])).trans hfail

theorem released (hij : i < j) (hik : i < k) (hj : j ≤ n) (hk : k < n)
    (hfail : (e.state j).mem.state r = .failed) (hop : (e.state k).mem.op x = .rel r) :
    (e.state (k + 1)).mem.op x = .rel r ∨ (e.state (k + 1)).mem.op x = .ptr r := by
  by_cases hne : (e.state (k + 1)).mem.op x = .rel r
  · exact .inl hne
  · have hrel := H.releases hk (hop ▸ hne) (by simp [hop])
    have hRk := R.relocation hik hk.le
    obtain ⟨_, hrep, _⟩ := R.record hik hk.le
    generalize (e.state (k + 1)).mem.op x = w at hrel
    cases hrel with
    | cas hr' => cases congrArg Word.flag (hop.symm.trans hr')
    | dest hr' hd =>
      obtain rfl := congrArg Word.addr (hop.symm.trans hr')
      exact absurd (hd.symm.trans hrep.symm) hRk.dest_ne_replace
    | mark hr' _ hpast =>
      obtain rfl := congrArg Word.addr (hop.symm.trans hr')
      exact absurd (hRk.finished hpast).2.1 (R.not_failed hij hik hj hk.le hfail)
    | failed hr' =>
      obtain rfl := congrArg Word.addr (hop.symm.trans hr')
      exact .inr rfl

end Recorded

/-- All helpers of an installed relocation agree. -/
theorem relocation_agrees (e : (system .plain).Exec n) (hi : i < n)
    (h : (e.state i).installsRelocation (e.label i) x r) :
    Agrees e i x r ((e.state i).mem.reloc r) := by
  obtain ⟨H⟩ := exists_history rfl e fun i _ => careful_of_fresh rfl
  have R := H.recorded hi h
  exact {
    installed := R.installed
    starts := R.ongoing
    record := fun j hij hj => R.record_eq hij hj
    state_once := fun j k hij hjk hk => R.state_once hij hjk hk
    result := fun j b _ hj hd => H.state_of_decides hj hd
    reaches := fun j hij hj => R.reaches hij hj
    key := fun j hij hj => R.key hij hj
    key_once := fun j k hij hik hj hk => R.key_once hij hik hj hk
    leaves := fun j hij hj => R.leaves hij hj
    successful := fun j k hij hik hj hk => R.successful hij hik hj hk
    failed := fun j k hij hik hj hk hfail hh =>
      ⟨R.failed_key hij hik hj hk hfail hh, R.failed_op hij hik hj hk hfail hh⟩
    released := fun j k hij hik hj hk => R.released hij hik hj hk
    held := fun j k hij hjk hk => R.held hij hjk hk }

/-- A run in which `remove` replaces the key 5 by 8. -/
def runOfRelocation : (system .plain).Exec 80 :=
  .ofLabels (0, .respond) (soloCall 0 (.add 5) 2 11 ++ soloCall 0 (.add 3) 13 14 ++
    soloCall 0 (.add 8) 27 14 ++ soloCall 0 (.remove 5) 41 33) (by decide +kernel)

theorem relocation_agrees_remove :
    Agrees runOfRelocation 64 34 58 ⟨.ongoing, 6, .ptr 35, 5, 8⟩ := by
  have hop : (runOfRelocation.state 64).mem.reloc 58 = ⟨.ongoing, 6, .ptr 35, 5, 8⟩ := by
    decide +kernel
  have hat : (runOfRelocation.state 64).at (runOfRelocation.label 64) =
      some (.removeInstall ⟨.replacement 6 (.ptr 35), 6, .ptr 35, 34, .ptr 0, 6, .ptr 35⟩ 58) := by
    decide +kernel
  rw [← hop]
  exact relocation_agrees runOfRelocation (by decide) ⟨_, hat, rfl, by decide +kernel⟩

end LockFree
