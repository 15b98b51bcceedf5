-- SUMMARY: When the op fields above a node have settled, every relocation installed on it after one more search can no longer fail.
import ConcurrentBST.LockFree.Advances
import ConcurrentBST.LockFree.Writes

/-!
# Rounds of relocations

A relocation fails because the `op` field of its `dest` has moved on since line
283 compared it. Only another relocation can have moved it without getting any
further, and that one was installed on `dest`, for a node above. So rounds end
from the top of the tree downwards: once the fields above a node have settled,
a search that comes back to line 283 compares with a word that stays.
-/

namespace LockFree

variable {cfg : Config} {m m' : Mem} {g g' : Ghost} {t u : Tid} {call : Call} {pc pc' : PC}
  {fresh x y r : Addr} {f : FindVars} {ret : HelpRet} {a : HelpArgs} {result : FindResult}
  {A : Ancestry Addr} {b : Bool} {spent : Addr → Prop}

/-- If the thread is about to install a relocation on `x`, the `dest` it has
    chosen lies above `x` and has not moved on. -/
def Vetted (A : Ancestry Addr) (x : Addr) (m : Mem) : PC → Prop
  | .hpChild _ _ next | .hpPut _ next => Vetted A x m next
  | .removeNew f aux auxOp => f.curr = x → m.op x = f.currOp →
      (∃ d, A.Below aux d x) ∧ m.op aux = auxOp
  | .removeInstall f r => f.curr = x → m.op x = f.currOp →
      (∃ d, A.Below (m.reloc r).dest d x) ∧ m.op (m.reloc r).dest = (m.reloc r).destOp
  | _ => True

-- ---------------------------------------------------------------------------
-- A step of the thread itself
-- ---------------------------------------------------------------------------

@[simp] theorem vetted_hp {w : Word} : Vetted A x m (.hp cfg w pc) ↔ Vetted A x m pc := by
  unfold PC.hp
  split <;> rfl

@[simp] theorem vetted_hpField {n : Addr} {d : Bool} :
    Vetted A x m (.hpField cfg n d pc) ↔ Vetted A x m pc := by
  unfold PC.hpField
  split <;> rfl

@[simp] theorem vetted_findStart : Vetted A x m (findStart cfg f) := vetted_hp.mpr trivial

@[simp] theorem vetted_callStart : Vetted A x m (callStart cfg f) := vetted_findStart

@[simp] theorem vetted_findEnd : Vetted A x m (findEnd f result) := by
  unfold findEnd
  split <;> trivial

@[simp] theorem vetted_findLoop {w : Word} : Vetted A x m (findLoop f w result) := by
  unfold findLoop
  split
  · trivial
  · exact vetted_findEnd

@[simp] theorem vetted_findReturn : Vetted A x m (findReturn cfg call f result) := by
  unfold findReturn
  split
  · trivial
  · simp only [vetted_hp]
    split <;> trivial
  · split <;> trivial
  · split
    · exact vetted_callStart
    · trivial

@[simp] theorem vetted_helpReturn : Vetted A x m (helpReturn cfg ret) := by
  cases ret with
  | retry f => exact vetted_findStart
  | add | remove => trivial

@[simp] theorem vetted_childStart {m₀ : Mem} {op dest : Addr} :
    Vetted A x m (childStart m₀ op dest ret) :=
  trivial

@[simp] theorem vetted_help {w : Word} : Vetted A x m (help cfg m a w) := by
  unfold help
  split
  · trivial
  · trivial
  · trivial
  · exact vetted_helpReturn

@[simp] theorem vetted_relocReturn : Vetted A x m (relocReturn cfg r b ret) := by
  cases ret with
  | retry f => exact vetted_findStart
  | add => trivial
  | remove f => cases b <;> trivial

@[simp] theorem vetted_relocTail : Vetted A x m' (relocTail cfg m r a b) := by
  unfold relocTail
  split
  · exact vetted_relocReturn
  · trivial

theorem Vetted.congr (hv : Vetted A x m pc) (hop : m'.op = m.op) (hreloc : m'.reloc = m.reloc) :
    Vetted A x m' pc := by
  induction pc with
  | hpChild n d next ih => exact ih hv
  | hpPut w next ih => exact ih hv
  | removeNew | removeInstall => simpa only [Vetted, hop, hreloc] using hv
  | _ => trivial

/-- Line 283 is the place where a candidate is vetted. -/
theorem vetted_exec (hp : PcInv cfg m g t call pc) (hv : Vetted g.tree x m pc)
    (he : exec cfg t call fresh m pc = some (m', pc')) : Vetted g.tree x m' pc' := by
  cases pc with
  | hpChild n d next =>
    cases he
    exact hv
  | hpPut w next =>
    cases he
    exact hv.congr rfl rfl
  | removeCheck f aux auxOp =>
    simp only [exec] at he
    split at he <;> cases he
    · exact vetted_callStart
    · next hop =>
      have haux := not_not.mp hop
      simp only [vetted_hp]
      rintro rfl hcurr
      exact ⟨⟨false, ((hp.2.2.2 haux).2 hcurr).1.below⟩, haux⟩
  | removeNew f aux auxOp =>
    simp only [exec] at he
    split at he <;> cases he
    intro hx hcurr
    simpa using hv hx hcurr
  | childScan => exact hp.elim
  | relocFail op a =>
    simp only [exec, Option.some.injEq, Prod.mk.injEq] at he
    obtain ⟨_, rfl⟩ := he
    split
    · trivial
    · exact vetted_relocTail
  | childSlot op dest ret =>
    simp only [exec] at he
    repeat' split at he
    all_goals cases he
    · unfold scanNext
      split <;> trivial
    all_goals trivial
  | relocState op a =>
    cases he
    simp only [vetted_hp]
    split <;> simp [Vetted]
  | relocCurr op a b => cases b <;> cases he <;> simp [Vetted]
  | ret r => simp at he
  | _ =>
    -- No other access goes on to line 299 or 310.
    simp only [exec] at he
    repeat' split at he
    all_goals cases he
    all_goals simp [Vetted]

-- ---------------------------------------------------------------------------
-- Steps of other threads
-- ---------------------------------------------------------------------------

theorem Evolution.reloc_fields (hev : Evolution cfg spent m g m' g') (hr : Taken cfg m r) :
    (m'.reloc r).dest = (m.reloc r).dest ∧ (m'.reloc r).destOp = (m.reloc r).destOp := by
  obtain ⟨st, hst, _⟩ := hev.reloc hr
  rw [hst]
  exact ⟨rfl, rfl⟩

/-- As long as the fields above `x` stand still, nobody else can spoil the candidate. -/
theorem Vetted.other (hv : Vetted A x m pc) (hev : Evolution cfg spent m g m' g')
    (hp : PcInv cfg m g u call pc) (habove : ∀ y d, A.Below y d x → m'.op y = m.op y) :
    Vetted A x m' pc := by
  induction pc with
  | hpChild n d next ih => exact ih hv hp
  | hpPut w next ih => exact ih hv hp
  | removeNew f aux auxOp =>
    rintro rfl hx
    obtain ⟨⟨d, hd⟩, haux⟩ := hv rfl (hev.op_back hp.2.2.seen.ever hx)
    exact ⟨⟨d, hd⟩, (habove _ d hd).trans haux⟩
  | removeInstall f r =>
    obtain ⟨_, _, _, hcand, hpriv, _⟩ := hp
    obtain ⟨hdest, hdestOp⟩ := hev.reloc_fields hpriv.taken
    rintro rfl hx
    obtain ⟨⟨d, hd⟩, haux⟩ := hv rfl (hev.op_back hcand.seen.ever hx)
    rw [hdest, hdestOp]
    exact ⟨⟨d, hd⟩, (habove _ d hd).trans haux⟩
  | _ => trivial

-- ---------------------------------------------------------------------------
-- Relocations that cannot fail
-- ---------------------------------------------------------------------------

/-- A relocation is installed on `x`, and its `dest` lies above `x` and has not moved on. -/
def Secure (A : Ancestry Addr) (x : Addr) (m : Mem) : Prop :=
  ∃ r, m.op x = .rel r ∧ (∃ d, A.Below (m.reloc r).dest d x) ∧
    m.op (m.reloc r).dest = (m.reloc r).destOp

/-- A relocation is installed at line 310. -/
theorem installs_at (hp : PcInv cfg m g t call pc)
    (he : exec cfg t call fresh m pc = some (m', pc')) (hr : Relocating cfg m g x r)
    (hm : m' = m.setOp x (.rel r)) : ∃ f, pc = .removeInstall f r ∧ f.curr = x ∧
      m.op x = f.currOp ∧ pc' = .relocState r ⟨f.pred, f.predOp, f.curr, .remove f⟩ := by
  have hop : m'.op x = .rel r := by simp [hm]
  have hne : m'.op x ≠ m.op x := by
    intro heq
    have hf := congrArg Word.flag (heq.symm.trans hop)
    rw [hr.flag] at hf
    cases hf
  have hw := exec_op_ne he hne
  rw [hop] at hw
  generalize hword : Word.rel r = w at hw
  cases hw with
  | @install f _ hcurr =>
    obtain rfl := congrArg Word.addr hword
    exact ⟨f, rfl, rfl, hcurr, rfl⟩
  | commit _ =>
    obtain rfl := congrArg Word.addr hword
    exact absurd hp.1.installed (MemInv.not_everOp_of_private hr.hidden _)
  | mark _ => simpa [setFlag, hp.2.2.1.flag] using congrArg Word.flag hword
  | _ => cases congrArg Word.flag hword

/-- Who installs a relocation after the check has one that is secure. -/
theorem Vetted.secure (hv : Vetted A x m pc) (hp : PcInv cfg m g t call pc)
    (he : exec cfg t call fresh m pc = some (m', pc')) (hr : Relocating cfg m g x r)
    (hm : m' = m.setOp x (.rel r)) : Secure A x m' := by
  obtain ⟨f, rfl, hx, hcurr, -⟩ := installs_at hp he hr hm
  obtain ⟨habove, hdest⟩ := hv hx hcurr
  refine ⟨r, by simp [hm], ?_, ?_⟩
  · simpa [hm] using habove
  · simpa [hm, hr.dest_ne] using hdest

/-- A round moves an `op` field by an installation or by a release. -/
theorem Round.op_cases (hround : Round cfg m g m') : m'.op x = m.op x ∨
    (∃ r, Relocating cfg m g x r ∧ m' = m.setOp x (.rel r)) ∨
    ∃ r, m.op x = .rel r ∧ x = g.replace r ∧ m.state r = .failed ∧ m'.op x = .ptr r := by
  cases hround with
  | @install y r hr hm =>
    by_cases hxy : x = y
    · subst hxy
      exact .inr (.inl ⟨r, hr, hm⟩)
    · exact .inl (by simp [hm, hxy])
  | fail _ _ hm => exact .inl (by simp [hm])
  | @release r hop hst hm =>
    by_cases hxr : x = g.replace r
    · subst hxr
      exact .inr (.inr ⟨r, hop, rfl, hst, by simp [hm]⟩)
    · exact .inl (by simp [hm, hxr])
  | rest hop => exact .inl (by rw [hop])

theorem Secure.round (hs : Secure A x m) (hev : Evolution cfg spent m g m' g')
    (hround : Round cfg m g m') (habove : ∀ y d, A.Below y d x → m'.op y = m.op y) :
    Secure A x m' := by
  obtain ⟨r, hop, ⟨d, hd⟩, hdest⟩ := hs
  have hkeep : m'.op x = m.op x := by
    rcases hround.op_cases (x := x) with heq | ⟨s, hr, -⟩ | ⟨s, hs, -, hst, -⟩
    · exact heq
    · simpa [hop] using hr.flag
    · -- A relocation whose `dest` has not moved on has not failed.
      obtain rfl : s = r := by simpa [hs] using hop
      have hrec := hev.before.record (hev.before.place (.inl hop)).1
      exact absurd (hdest ▸ hrec.failed hst) (hev.before.op_fresh _)
  obtain ⟨hdest', hdestOp'⟩ := hev.reloc_fields (hev.before.taken (hev.before.rel_public (.inl hop)))
  refine ⟨r, hkeep.trans hop, ?_, ?_⟩
  · rw [hdest']
    exact ⟨d, hd⟩
  · rw [hdest', hdestOp', habove _ d hd]
    exact hdest

end LockFree
