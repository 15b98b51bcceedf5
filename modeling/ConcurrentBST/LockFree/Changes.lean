-- SUMMARY: What one step of a thread can do to the memory and its history, and that each of these things keeps the memory invariant.
import ConcurrentBST.LockFree.RecordUpdates

/-!
# Changes

Every step of a thread does one of the following things to the shared memory.
The arguments about other threads, about the set the tree stands for and about
single records go through this list, not through the program.
-/

namespace LockFree

variable {cfg : Config} {m m' : Mem} {g g' : Ghost} {x y r s a n c : Addr} {d e : Bool} {k : Int}
  {w v : Word} {t u : Tid}

-- ---------------------------------------------------------------------------
-- The set
-- ---------------------------------------------------------------------------

/-- What the calls do to a set of integers. -/
inductive SetStep : Set Int → Call → Result → Set Int → Prop where
  | added {s : Set Int} {k : Int} : k ∉ s → SetStep s (.add k) .added (insert k s)
  | alreadyPresent {s : Set Int} {k : Int} : k ∈ s → SetStep s (.add k) .alreadyPresent s
  | removed {s : Set Int} {k : Int} : k ∈ s → SetStep s (.remove k) (.removed true) (s \ {k})
  | absent {s : Set Int} {k : Int} : k ∉ s → SetStep s (.remove k) (.removed false) s
  | found {s : Set Int} {k : Int} : k ∈ s → SetStep s (.find k) (.found .found) s
  | notFound {s : Set Int} {k : Int} {r : FindResult} : k ∉ s → r = .notFoundL ∨ r = .notFoundR →
      SetStep s (.find k) (.found r) s

-- ---------------------------------------------------------------------------
-- Records on their way
-- ---------------------------------------------------------------------------

/-- The record is installed and its call has not taken effect. -/
inductive Unresolved (m : Mem) (g : Ghost) : Call → Addr → Prop where
  | add {x r n : Addr} : m.op x = .cas r → m.child x (m.cas r).isLeft = (m.cas r).expected →
      (m.cas r).expected.flag = .mark → (m.cas r).update = .ptr n → Unresolved m g (.add (m.key n)) r
  | remove {r : Addr} : installed m g r → ¬ committed m g r → m.state r ≠ .failed →
      Unresolved m g (.remove (m.reloc r).removeKey) r

/-- A call is published exactly as long as a record of its thread is unresolved. -/
def StatusInv (m : Mem) (g : Ghost) : Prop :=
  ∀ t c r, g.status t = .published c r ↔ g.owner r = t ∧ Unresolved m g c r

/-- The thread has a record ready to link `n` in below `x`. -/
structure Insertion (cfg : Config) (m : Mem) (g : Ghost) (x r a n : Addr) : Prop where
  born : x ∈ g.born
  flag : (m.op x).flag = .none
  hidden : Private cfg m g r
  slot : m.child x (m.cas r).isLeft = (m.cas r).expected
  expected : (m.cas r).expected = .null a
  update : (m.cas r).update = .ptr n
  leaf : Private cfg m g n
  gap : Gap m g x (m.cas r).isLeft (m.key n)

/-- The thread has a record ready to splice `c` out from below `x`. -/
structure Splicing (cfg : Config) (m : Mem) (g : Ghost) (x r c : Addr) : Prop where
  born : x ∈ g.born
  flag : (m.op x).flag = .none
  hidden : Private cfg m g r
  slot : m.child x (m.cas r).isLeft = (m.cas r).expected
  expected : (m.cas r).expected = .ptr c
  marked : m.marked c
  update : (m.cas r).update = m.replacement c

/-- The thread has a record ready to move the key of `x` to its `dest`. -/
structure Relocating (cfg : Config) (m : Mem) (g : Ghost) (x r : Addr) : Prop where
  born : x ∈ g.born
  ne_root : x ≠ baseRoot
  flag : (m.op x).flag = .none
  hidden : Private cfg m g r
  replace : g.replace r = x
  state : m.state r = .ongoing
  key : m.key x = (m.reloc r).replaceKey
  empty : isNull (m.child x true)
  dest_born : (m.reloc r).dest ∈ g.born
  dest_ne_root : (m.reloc r).dest ≠ baseRoot
  dest_ne : (m.reloc r).dest ≠ x
  destOp_ever : everOp m g (m.reloc r).dest (m.reloc r).destOp
  destOp_flag : (m.reloc r).destOp.flag = .none
  ready : m.op (m.reloc r).dest = (m.reloc r).destOp →
    g.tree.Adjacent (m.reloc r).dest x ∧ m.key (m.reloc r).dest = (m.reloc r).removeKey

def Ghost.setStatus (g : Ghost) (t : Tid) (s : Status) : Ghost :=
  { g with status := Function.update g.status t s }

@[simp] theorem setStatus_tree {s : Status} : (g.setStatus t s).tree = g.tree := rfl
@[simp] theorem setStatus_born {s : Status} : (g.setStatus t s).born = g.born := rfl
@[simp] theorem setStatus_pastOp {s : Status} : (g.setStatus t s).pastOp = g.pastOp := rfl
@[simp] theorem setStatus_pastChild {s : Status} :
    (g.setStatus t s).pastChild = g.pastChild := rfl
@[simp] theorem setStatus_rewritten {s : Status} :
    (g.setStatus t s).rewritten = g.rewritten := rfl
@[simp] theorem setStatus_owner {s : Status} : (g.setStatus t s).owner = g.owner := rfl
@[simp] theorem setStatus_replace {s : Status} : (g.setStatus t s).replace = g.replace := rfl

-- ---------------------------------------------------------------------------
-- The changes
-- ---------------------------------------------------------------------------

/-- What a step of thread `t` does. The addresses in `spent` were known to `t`
    only, and the step publishes or deletes them. -/
inductive Change (cfg : Config) (t : Tid) (spent : Addr → Prop) (m : Mem) (g : Ghost) :
    Mem → Ghost → Prop where
  | read : Change cfg t spent m g m g
  | hpList (w : Word) : Change cfg t spent m g (m.addToHpList t w) g
  /-- The call of `t` takes effect without changing anything. -/
  | observe {c : Call} {r : Result} : g.status t = .waiting c →
      SetStep (keys m g) c r (keys m g) → Change cfg t spent m g m (g.setStatus t (.done r))
  | newNode {a : Addr} (k : Int) : m.allocatable cfg a = true →
      Change cfg t spent m g (m.newNode a (createLFNode k)) g
  | newCas {a : Addr} (o : ChildCasOp) : m.allocatable cfg a = true →
      Change cfg t spent m g (m.newCas a o)
        (g.reassign (Function.update g.owner a t) g.replace g.status)
  | newReloc {a : Addr} (o : RelocateOp) (x : Addr) : m.allocatable cfg a = true →
      Change cfg t spent m g (m.newReloc a o)
        (g.reassign (Function.update g.owner a t) (Function.update g.replace a x) g.status)
  | delete (as : List Addr) : (∀ a ∈ as, cfg.reuse = true → spent a ∧ ¬ Public m g a) →
      Change cfg t spent m g (as.foldl Mem.delete m) g
  /-- Line 112. -/
  | publishInsertion {x r a n : Addr} : Insertion cfg m g x r a n → spent r → spent n →
      g.owner r = t → g.status t = .waiting (.add (m.key n)) →
      Change cfg t spent m g (m.setOp x (.cas r))
        ((g.setOp m x).setStatus t (.published (.add (m.key n)) r))
  /-- Line 438. -/
  | publishSplicing {x r c : Addr} : Splicing cfg m g x r c → spent r →
      Change cfg t spent m g (m.setOp x (.cas r)) (g.setOp m x)
  /-- Line 365 for a record of `add`. -/
  | link {x r a n : Addr} : m.op x = .cas r →
      m.child x (m.cas r).isLeft = (m.cas r).expected → (m.cas r).expected = .null a →
      (m.cas r).update = .ptr n → n ∉ g.born → n ≠ 0 → Gap m g x (m.cas r).isLeft (m.key n) →
      Change cfg t spent m g (m.setChild x (m.cas r).isLeft (.ptr n))
        ((g.link m x (m.cas r).isLeft n).setStatus (g.owner r) (.done .added))
  /-- Line 365 for a record of `helpMarked`. -/
  | unlink {x r c : Addr} : m.op x = .cas r →
      m.child x (m.cas r).isLeft = (m.cas r).expected → (m.cas r).expected = .ptr c →
      c ∈ g.tree.nodes → m.marked c → (m.cas r).update = m.replacement c →
      Change cfg t spent m g (m.setChild x (m.cas r).isLeft (m.replacement c))
        (g.unlink m x (m.cas r).isLeft c)
  /-- Line 402. -/
  | clearCas {x r : Addr} : m.op x = .cas r →
      (m.cas r).expected ∈ g.pastChild x (m.cas r).isLeft →
      Change cfg t spent m g (m.setOp x (.ptr r)) (g.setOp m x)
  /-- Line 267. -/
  | mark {x : Addr} : x ∈ g.born → x ≠ baseRoot → (m.op x).flag = .none →
      (∃ d, isNull (m.child x d)) → g.status t = .waiting (.remove (m.key x)) →
      Change cfg t spent m g (m.setOp x ⟨(m.op x).addr, .mark⟩)
        ((g.setOp m x).setStatus t (.done (.removed true)))
  /-- Line 310. -/
  | publishRelocation {x r : Addr} : Relocating cfg m g x r → spent r → g.owner r = t →
      g.status t = .waiting (.remove (m.reloc r).removeKey) →
      Change cfg t spent m g (m.setOp x (.rel r))
        ((g.setOp m x).setStatus t (.published (.remove (m.reloc r).removeKey) r))
  /-- Line 472. -/
  | commit {r : Addr} : installed m g r → m.op (m.reloc r).dest = (m.reloc r).destOp →
      Change cfg t spent m g (m.setOp (m.reloc r).dest (.rel r))
        ((g.setOp m (m.reloc r).dest).setStatus (g.owner r) (.done (.removed true)))
  /-- Line 482. -/
  | succeed {r : Addr} : m.state r = .ongoing → committed m g r →
      Change cfg t spent m g (m.setState r .successful) g
  /-- Line 486. -/
  | fail {r : Addr} : installed m g r → m.state r = .ongoing → ¬ committed m g r →
      (m.reloc r).destOp ∈ g.pastOp (m.reloc r).dest →
      Change cfg t spent m g (m.setState r .failed)
        (g.setStatus (g.owner r) (.waiting (.remove (m.reloc r).removeKey)))
  /-- Line 496. -/
  | rewrite {r : Addr} : Rewrites m g r →
      Change cfg t spent m g (m.setKey (m.reloc r).dest (m.reloc r).replaceKey) (g.rewrite r)
  /-- Line 497. -/
  | clearRelocation {r : Addr} : m.op (m.reloc r).dest = .rel r → r ∈ g.rewritten →
      Change cfg t spent m g (m.setOp (m.reloc r).dest (.ptr r)) (g.setOp m (m.reloc r).dest)
  /-- Line 511 after a success. -/
  | releaseMark {r : Addr} : m.op (g.replace r) = .rel r → .rel r ∈ g.pastOp (m.reloc r).dest →
      Change cfg t spent m g (m.setOp (g.replace r) ⟨r, .mark⟩) (g.setOp m (g.replace r))
  /-- Line 511 after a failure. -/
  | releaseFailed {r : Addr} : m.op (g.replace r) = .rel r → m.state r = .failed →
      Change cfg t spent m g (m.setOp (g.replace r) (.ptr r)) (g.setOp m (g.replace r))

-- ---------------------------------------------------------------------------
-- The memory invariant
-- ---------------------------------------------------------------------------

theorem Insertion.pending (hi : Insertion cfg m g x r a n) : Pending m g x r :=
  .insertion a n hi.expected hi.update (fun hb => hi.leaf.hidden (.node hb)) hi.leaf.ne_zero hi.gap

/-- A relocation has no history when it is installed. -/
theorem Relocating.relocation (h : MemInv cfg m g) (hr : Relocating cfg m g x r) :
    Relocation (m.setOp x (.rel r)) (g.setOp m x) r := by
  have hnever : ∀ y f, ¬ everOp m g y ⟨r, f⟩ := fun y f =>
    MemInv.not_everOp_of_private hr.hidden f
  have hnp : ∀ y f, (⟨r, f⟩ : Word) ∉ (g.setOp m x).pastOp y := by
    intro y f hp
    rcases mem_setOp_pastOp.mp hp with hp | ⟨rfl, hp⟩
    · exact hnever y f (.inr hp)
    · exact hnever y f (.inl hp.symm)
  have hdest : (m.setOp x (.rel r)).op (m.reloc r).dest = m.op (m.reloc r).dest := by
    simp [hr.dest_ne]
  have hnc : ¬ committed (m.setOp x (.rel r)) (g.setOp m x) r := by
    intro hc
    rcases everOp_setOp.mp hc with hc | ⟨hc, _⟩
    · exact hnever _ _ hc
    · exact hr.dest_ne hc
  have hnb : (m.setOp x (.rel r)).op (m.reloc r).dest ≠ .rel r := fun heq => hnc (.inl heq)
  have hst : (m.setOp x (.rel r)).state r = .ongoing := hr.state
  exact {
    ne_zero := hr.hidden.ne_zero
    dest_born := hr.dest_born
    dest_ne_root := hr.dest_ne_root
    dest_ne_replace := by simpa [hr.replace] using hr.dest_ne
    destOp_ever := everOp_setOp.mpr (.inl hr.destOp_ever)
    destOp_flag := hr.destOp_flag
    held := by simp [hr.replace, hr.key, hr.empty]
    ongoing_held := by simp [hr.replace]
    ready := by
      intro hd _
      simpa [hr.replace] using hr.ready (hdest.symm.trans hd)
    busy := fun hb => absurd hb hnb
    finished := fun hp => absurd hp (hnp _ _)
    rewritten := by
      intro hw
      exact absurd (h.rewritten_installed hw) (hnever _ _)
    commit_past := fun hc => absurd hc hnc
    succeeded := by simp [hst]
    failed := by simp [hst]
    released := fun hp => absurd hp (hnp _ _) }

theorem MemInv.deleteAll (h : MemInv cfg m g) {as : List Addr}
    (has : ∀ a ∈ as, cfg.reuse = true → ¬ Public m g a) : MemInv cfg (as.foldl Mem.delete m) g := by
  have hpub : ∀ {m : Mem} {a b}, Public (m.delete a) g b → Public m g b := by
    intro m a b hb
    cases hb with
    | node hb => exact .node hb
    | op he hf => exact .op he hf
    | update he hf => exact .update he hf
  induction as generalizing m with
  | nil => exact h
  | cons a as ih =>
    refine ih (h.delete (has a (.head _))) fun b hb hre hp => ?_
    exact has b (.tail _ hb) hre (hpub hp)

theorem Change.memInv {spent : Addr → Prop} (hc : Change cfg t spent m g m' g')
    (h : MemInv cfg m g) : MemInv cfg m' g' := by
  cases hc with
  | read => exact h
  | hpList w => exact h.addToHpList t w
  | observe => exact h.setStatus _
  | newNode k ha => exact h.newNode ha
  | newCas o ha => exact h.newCas ha o t
  | newReloc o x ha => exact h.newReloc ha o t x
  | delete as has => exact h.deleteAll fun a ha hre => (has a ha hre).2
  | publishInsertion hi _ _ _ _ =>
    refine (h.installCas hi.born hi.flag hi.hidden hi.slot hi.pending ?_).setStatus _
    intro n' hn _
    obtain rfl : n' = _ := congrArg Word.addr (hn.symm.trans hi.update)
    exact hi.leaf
  | @publishSplicing x r c hs _ =>
    have hx := h.mem_of_flag (x := x) (by simp [hs.flag]) hs.born
    have hslot := hs.slot.trans hs.expected
    have hcm := h.fits.child_mem hx (h.childPtr_eq_some.mpr hslot)
    refine h.installCas hs.born hs.flag hs.hidden hs.slot
      (.splice c hs.expected hcm hs.marked hs.update) ?_
    -- What replaces a marked node is a node already.
    intro n' hn hn'
    have hup := hs.update.symm.trans hn
    rcases h.replacement_cases hs.marked with ⟨hrep, _⟩ | ⟨e, _, _, hrep⟩
    · cases congrArg Word.flag (hrep.symm.trans hup)
    · exact absurd (h.child_born (hrep.symm.trans hup)) hn'
  | link hop hslot hexp hupd hn h0 hgap =>
    exact (h.link hop hslot hexp hupd hn h0 hgap).setStatus _
  | unlink hop hslot hexp _ hm hupd => exact h.unlink hop hslot hexp hm hupd
  | clearCas hop hdone => exact h.clearCas hop hdone
  | mark hx hroot hflag hempty _ => exact (h.mark hx hroot hflag hempty).setStatus _
  | publishRelocation hr _ _ _ =>
    exact (h.installRel hr.born hr.ne_root hr.flag hr.hidden hr.replace
      (hr.relocation h)).setStatus _
  | commit hr hop => exact (h.commit hr hop).setStatus _
  | succeed hst hcom => exact h.setState hst (.inl ⟨rfl, hcom⟩)
  | fail _ hst hn hp => exact (h.setState hst (.inr ⟨rfl, hn, hp⟩)).setStatus _
  | rewrite hw => exact h.rewrite hw
  | clearRelocation hop hw => exact h.clearRel hop hw
  | releaseMark hop hq => exact h.releaseMark hop hq
  | releaseFailed hop hst => exact h.releaseFailed hop hst

end LockFree
