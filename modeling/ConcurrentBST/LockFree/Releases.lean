-- SUMMARY: Which changes move the words of a record, and which program points belong to it.
import ConcurrentBST.LockFree.Invariant

/-!
# The words of a record

Read backwards, `Change` says why a word is different after a step: a child
field moves for the child CAS record in the `op` field above it, a flagged `op`
field only moves to the word its record stands for, and the key of a node is
only written by a relocation.
-/

namespace LockFree

variable {cfg : Config} {m m' : Mem} {g g' : Ghost} {x y r s a b n c : Addr} {d e : Bool}
  {w : Word} {t : Tid} {spent : Addr → Prop}

-- ---------------------------------------------------------------------------
-- Changes read backwards
-- ---------------------------------------------------------------------------

theorem op_foldl_delete (as : List Addr) : (as.foldl Mem.delete m).op = m.op := by
  unfold Mem.op
  rw [(foldl_delete as).1]

theorem child_foldl_delete (as : List Addr) : (as.foldl Mem.delete m).child = m.child := by
  unfold Mem.child
  rw [(foldl_delete as).1]

theorem key_foldl_delete (as : List Addr) : (as.foldl Mem.delete m).key = m.key := by
  unfold Mem.key
  rw [(foldl_delete as).1]

/-- What an `op` field with a flag changes to. -/
inductive Releases (m : Mem) (g : Ghost) (x : Addr) : Word → Prop where
  | cas {r : Addr} : m.op x = .cas r → (m.cas r).expected ∈ g.pastChild x (m.cas r).isLeft →
      Releases m g x (.ptr r)
  | dest {r : Addr} : m.op x = .rel r → x = (m.reloc r).dest → r ∈ g.rewritten →
      Releases m g x (.ptr r)
  | mark {r : Addr} : m.op x = .rel r → x = g.replace r → .rel r ∈ g.pastOp (m.reloc r).dest →
      Releases m g x ⟨r, .mark⟩
  | failed {r : Addr} : m.op x = .rel r → x = g.replace r → m.state r = .failed →
      Releases m g x (.ptr r)

theorem Change.releases (hc : Change cfg t spent m g m' g') (h : MemInv cfg m g)
    (hne : m'.op x ≠ m.op x) (hf : (m.op x).flag ≠ .none) : Releases m g x (m'.op x) := by
  -- A change of `y->op` either is a release or starts from a word without a flag.
  have hset : ∀ {y w}, m'.op = (m.setOp y w).op → (m.op y).flag = .none ∨ Releases m g y w →
      Releases m g x (m'.op x) := by
    intro y w hop hy
    rw [hop, Mem.setOp_op] at hne ⊢
    split at hne
    · next hxy =>
      subst hxy
      rw [if_pos rfl]
      exact hy.resolve_left hf
    · exact absurd rfl hne
  cases hc with
  | read | observe | hpList | newCas | newReloc | succeed | fail => exact absurd rfl hne
  | link | unlink | rewrite => exact absurd (by simp) hne
  | newNode k ha =>
    have hborn : _ ∉ g.born := fun hb => h.not_public_of_allocatable ha (.node hb)
    exact absurd (MemInv.newNode_op hborn h x) hne
  | delete as => exact absurd (congrFun (op_foldl_delete as) x) hne
  | publishInsertion hi => exact hset rfl (.inl hi.flag)
  | publishSplicing hs => exact hset rfl (.inl hs.flag)
  | clearCas hop hd => exact hset rfl (.inr (.cas hop hd))
  | mark _ _ hflag => exact hset rfl (.inl hflag)
  | publishRelocation hr => exact hset rfl (.inl hr.flag)
  | commit hr hop => exact hset rfl (.inl (hop ▸ (h.record hr).destOp_flag))
  | clearRelocation hop hw => exact hset rfl (.inr (.dest hop rfl hw))
  | releaseMark hop hp => exact hset rfl (.inr (.mark hop rfl hp))
  | releaseFailed hop hst => exact hset rfl (.inr (.failed hop rfl hst))

/-- A child field moves from `expected` to `update` of the installed record. -/
theorem Change.child_cases (hc : Change cfg t spent m g m' g') (h : MemInv cfg m g)
    (hne : m'.child x d ≠ m.child x d) : ∃ r, m.op x = .cas r ∧ d = (m.cas r).isLeft ∧
      m.child x d = (m.cas r).expected ∧ m'.child x d = (m.cas r).update := by
  have hset : ∀ {y r w}, m'.child = (m.setChild y (m.cas r).isLeft w).child → m.op y = .cas r →
      m.child y (m.cas r).isLeft = (m.cas r).expected → w = (m.cas r).update →
      ∃ r, m.op x = .cas r ∧ d = (m.cas r).isLeft ∧
        m.child x d = (m.cas r).expected ∧ m'.child x d = (m.cas r).update := by
    intro y r w hchild hop hexp hupd
    rw [hchild, Mem.setChild_child] at hne ⊢
    split at hne
    · next hxy =>
      obtain ⟨rfl, rfl⟩ := hxy
      exact ⟨r, hop, rfl, hexp, (if_pos ⟨rfl, rfl⟩).trans hupd⟩
    · exact absurd rfl hne
  cases hc with
  | read | observe | hpList | newCas | newReloc | succeed | fail => exact absurd rfl hne
  | publishInsertion | publishSplicing | clearCas | mark | publishRelocation | commit |
    clearRelocation | releaseMark | releaseFailed | rewrite => exact absurd (by simp) hne
  | newNode k ha =>
    have hborn : _ ∉ g.born := fun hb => h.not_public_of_allocatable ha (.node hb)
    exact absurd (MemInv.newNode_child hborn h x d) hne
  | delete as => exact absurd (congrFun₂ (child_foldl_delete as) x d) hne
  | link hop hslot hexp hupd => exact hset rfl hop hslot hupd.symm
  | unlink hop hslot hexp _ hm hupd => exact hset rfl hop hslot hupd.symm

/-- The key of a node is only written by a relocation. -/
theorem Change.key_cases (hc : Change cfg t spent m g m' g') (h : MemInv cfg m g)
    (hx : x ∈ g.born) (hne : m'.key x ≠ m.key x) : ∃ r, x = (m.reloc r).dest ∧ Rewrites m g r ∧
      m'.key x = (m.reloc r).replaceKey ∧ r ∈ g'.rewritten := by
  cases hc with
  | read | observe | hpList | newCas | newReloc | succeed | fail => exact absurd rfl hne
  | publishInsertion | publishSplicing | clearCas | mark | publishRelocation | commit |
    clearRelocation | releaseMark | releaseFailed | link | unlink => exact absurd (by simp) hne
  | newNode k ha =>
    have hxa := taken_of_ne_alloc ha (h.taken (.node hx))
    exact absurd (by simp [hxa]) hne
  | delete as => exact absurd (congrFun (key_foldl_delete as) x) hne
  | @rewrite r hw =>
    rw [Mem.setKey_key] at hne ⊢
    split at hne
    · next hxd => exact ⟨r, hxd, hw, if_pos hxd, .inl rfl⟩
    · exact absurd rfl hne

/-- A relocation counts as rewritten from the step on that writes the key. -/
theorem Change.rewritten_cases (hc : Change cfg t spent m g m' g') (hr : r ∈ g'.rewritten)
    (hn : r ∉ g.rewritten) :
    Rewrites m g r ∧ m' = m.setKey (m.reloc r).dest (m.reloc r).replaceKey := by
  cases hc with
  | rewrite hw =>
    rcases hr with rfl | hr
    · exact ⟨hw, rfl⟩
    · exact absurd hr hn
  | _ => exact absurd hr hn

/-- The past of an `op` field is made of words it held. -/
theorem Change.pastOp_cases (hc : Change cfg t spent m g m' g') (hw : w ∈ g'.pastOp x) :
    everOp m g x w := by
  have hset : ∀ {y}, w ∈ (g.setOp m y).pastOp x → everOp m g x w := by
    intro y hw
    rcases mem_setOp_pastOp.mp hw with hw | ⟨rfl, rfl⟩
    · exact .inr hw
    · exact .inl rfl
  cases hc with
  | publishInsertion | publishSplicing | clearCas | mark | publishRelocation | commit |
    clearRelocation | releaseMark | releaseFailed => exact hset hw
  | _ => exact .inr hw

-- ---------------------------------------------------------------------------
-- The program points of a record
-- ---------------------------------------------------------------------------

/-- The record a call of `helpChildCAS` is at work on. -/
def PC.childCas : PC → Option Addr
  | .hpChild _ _ next | .hpPut _ next => next.childCas
  | .childSlot op _ _ | .childScan _ _ _ op _ _ | .childOp op _ _ => some op
  | _ => none

/-- The record a call of `helpRelocate` is at work on. -/
def PC.relocation : PC → Option Addr
  | .hpChild _ _ next | .hpPut _ next => next.relocation
  | .relocState op _ | .relocDest op _ | .relocSucceed op _ | .relocFail op _
  | .relocKey op _ | .relocClear op _ | .relocCurr op _ _ => some op
  | _ => none

/-- The program point of a shared access. -/
def State.at (s : State) : Tid × Action → Option PC
  | (t, .access _) =>
      match s.thread t with
      | .running _ pc => some pc
      | .idle => none
  | _ => none

variable {st st' : State} {l : Tid × Action} {pc : PC}

attribute [local simp] State.at in
/-- A step at a program point. -/
theorem access_of_at (hat : st.at l = some pc) (hnext : (system cfg).next st l = some st') :
    ∃ t call fresh pc', st.thread t = .running call pc ∧
      exec cfg t call fresh st.mem pc = some (st'.mem, pc') := by
  cases steps_of_next hnext with
  | invoke => cases hat
  | @access t call p pc' m' fresh ht he =>
    obtain rfl : p = pc := by simpa [ht] using hat
    exact ⟨t, call, fresh, pc', ht, he⟩
  | respond => cases hat

namespace History

variable {n i j k : Nat} {run : (system cfg).Exec n} (H : History run)

include H

/-- What the thread of an access knows. -/
theorem access (hi : i < n) (hat : (run.state i).at (run.label i) = some pc) :
    ∃ t call fresh pc', PcInv cfg (run.state i).mem (H.ghost i) t call pc ∧
      exec cfg t call fresh (run.state i).mem pc = some ((run.state (i + 1)).mem, pc') := by
  obtain ⟨t, call, fresh, pc', ht, he⟩ := access_of_at hat (run.step i hi)
  exact ⟨t, call, fresh, pc', (H.inv i hi.le).pc ht, he⟩

theorem releases (hi : i < n) (hne : (run.state (i + 1)).mem.op x ≠ (run.state i).mem.op x)
    (hf : ((run.state i).mem.op x).flag ≠ .none) :
    Releases (run.state i).mem (H.ghost i) x ((run.state (i + 1)).mem.op x) := by
  obtain ⟨_, _, _, _, hc, _⟩ := (H.traces i hi).change
  exact hc.releases (H.mem hi.le) hne hf

/-- A record that has been installed stays as it is. -/
theorem cas_eq (hi : i ≤ j) (hj : j ≤ n) (he : everOp (run.state i).mem (H.ghost i) x (.cas r))
    (hr : r ≠ 0) : (run.state j).mem.cas r = (run.state i).mem.cas r := by
  refine (H.preserved (P := fun m g => everOp m g x (.cas r) ∧
    m.cas r = (run.state i).mem.cas r) ?_ hi hj ⟨he, rfl⟩).2
  rintro m g m' g' spent hev ⟨he, heq⟩
  exact ⟨hev.ever he, (hev.cas (hev.before.taken (.op (w := .cas r) he hr))).trans heq⟩

end History

end LockFree
