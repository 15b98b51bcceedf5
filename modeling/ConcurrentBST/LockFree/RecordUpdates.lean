-- SUMMARY: Allocation, deletion, the state of a relocation and the key of its dest: the remaining updates keep the memory invariant.
import ConcurrentBST.LockFree.SlotUpdates

/-!
# Changes of records and of the allocator

Allocation and deletion only concern addresses that no other thread has seen.
The two writes that belong to a relocation are the write of its `state`, which
the `op` field of `dest` has already decided, and the write of the key of
`dest`, which moves `replace_key` over the gap to the next node.
-/

namespace LockFree

variable {cfg : Config} {m m' : Mem} {g g' : Ghost} {x y r s a n : Addr} {d e : Bool} {k : Int}
  {w v : Word} {b : Addr} {c : Cell}

-- ---------------------------------------------------------------------------
-- What does not change
-- ---------------------------------------------------------------------------

section Frame

variable (hop : m'.op = m.op) (hchild : m'.child = m.child)

include hop in
theorem everOp_frame (hpast : g'.pastOp = g.pastOp) : everOp m' g' x w ↔ everOp m g x w := by
  simp only [everOp, hop, hpast]

include hchild in
theorem childPtr_frame : m'.childPtr = m.childPtr := by
  unfold Mem.childPtr
  rw [hchild]

include hchild in
theorem replacement_frame : m'.replacement = m.replacement := by
  unfold Mem.replacement
  rw [hchild]

include hop in
theorem marked_frame : m'.marked = m.marked := by
  unfold Mem.marked
  rw [hop]

include hop hchild

theorem TreeInv.frame (h : TreeInv m g) (htree : g'.tree = g.tree) (hborn : g'.born = g.born)
    (hpast : g'.pastChild = g.pastChild) : TreeInv m' g' where
  lawful := htree ▸ h.lawful
  fits := by
    rw [htree, childPtr_frame hchild]
    exact h.fits
  finite := htree ▸ h.finite
  root := htree ▸ h.root
  right_of_root := by
    rw [htree]
    exact h.right_of_root
  born_of_mem := by
    rw [htree, hborn]
    exact h.born_of_mem
  born_of_anc := by
    rw [htree, hborn]
    exact h.born_of_anc
  zero_unborn := hborn ▸ h.zero_unborn
  unborn := by
    rw [hborn, hop, hchild]
    exact h.unborn
  child_flag := hchild ▸ h.child_flag
  child_born := by
    rw [hborn, hchild]
    exact h.child_born
  null_spliced := by
    rw [htree, hborn, hchild, hpast]
    exact h.null_spliced
  past_spliced := by
    rw [htree, hborn, hpast]
    exact h.past_spliced
  mem_of_unmarked := by
    rw [htree, hborn, marked_frame hop]
    exact h.mem_of_unmarked
  marked_empty := by
    rw [hchild, marked_frame hop]
    exact h.marked_empty
  root_unmarked := by
    rw [marked_frame hop]
    exact h.root_unmarked

theorem HistoryInv.frame (h : HistoryInv m g) (hpo : g'.pastOp = g.pastOp)
    (hpc : g'.pastChild = g.pastChild) : HistoryInv m' g' where
  op_fresh := by
    rw [hop, hpo]
    exact h.op_fresh
  child_fresh := by
    rw [hchild, hpc]
    exact h.child_fresh
  past_unmarked := by
    rw [hpo]
    exact h.past_unmarked
  installed_first := by
    rw [hop, hpo]
    exact h.installed_first
  stamp := by
    simp only [everOp_frame hop hpo]
    exact h.stamp
  typed := by
    simp only [everOp_frame hop hpo]
    exact h.typed
  root_op := by
    rw [hop]
    exact h.root_op

end Frame

-- ---------------------------------------------------------------------------
-- Updates of addresses nobody has seen
-- ---------------------------------------------------------------------------

/-- The history after line 496. -/
def Ghost.rewrite (g : Ghost) (r : Addr) : Ghost :=
  { g with rewritten := insert r g.rewritten }

/-- The history with another account of who is responsible for which record. -/
def Ghost.reassign (g : Ghost) (owner : Addr → Tid) (replace : Addr → Addr)
    (status : Tid → Status) : Ghost :=
  { g with owner := owner, replace := replace, status := status }

namespace MemInv

theorem rel_ne_zero (h : MemInv cfg m g) (he : everOp m g x (.rel r)) : r ≠ 0 :=
  (h.record (h.place he).1).ne_zero

theorem rel_public (h : MemInv cfg m g) (he : everOp m g x (.rel r)) : Public m g r :=
  .op (w := .rel r) he (h.rel_ne_zero he)

end MemInv

/-- What other threads can see is left alone. -/
structure Unseen (m : Mem) (g : Ghost) (m' : Mem) (replace : Addr → Addr) : Prop where
  op : m'.op = m.op
  child : m'.child = m.child
  key : ∀ x, Public m g x → m'.key x = m.key x
  cas : ∀ r, r = 0 ∨ Public m g r → m'.cas r = m.cas r
  reloc : ∀ r, Public m g r → m'.reloc r = m.reloc r
  replace : ∀ r, Public m g r → replace r = g.replace r

namespace Unseen

variable {owner : Addr → Tid} {replace : Addr → Addr} {status : Tid → Status}

theorem ever (u : Unseen m g m' replace) :
    everOp m' (g.reassign owner replace status) x w ↔ everOp m g x w :=
  everOp_frame u.op rfl

theorem cas_eq (u : Unseen m g m' replace) (he : everOp m g x (.cas r)) : m'.cas r = m.cas r := by
  by_cases hr : r = 0
  · exact u.cas r (.inl hr)
  · exact u.cas r (.inr (.op (w := .cas r) he hr))

theorem state_eq (u : Unseen m g m' replace) (hr : Public m g r) : m'.state r = m.state r :=
  congrArg RelocateOp.state (u.reloc r hr)

theorem installed_iff (u : Unseen m g m' replace) (h : MemInv cfg m g) :
    installed m' (g.reassign owner replace status) r ↔ installed m g r := by
  unfold installed
  rw [u.ever]
  constructor
  · intro he
    have heq := u.replace r (h.rel_public he)
    exact heq ▸ he
  · intro he
    have heq : (g.reassign owner replace status).replace r = g.replace r :=
      u.replace r (h.rel_public he)
    rwa [heq]

theorem gone_iff (u : Unseen m g m' replace) (h : MemInv cfg m g) :
    gone m' (g.reassign owner replace status) x ↔ gone m g x := by
  unfold gone
  rw [marked_frame u.op, u.op]
  refine or_congr_right (exists_congr fun r => and_congr_right fun hr => ?_)
  rw [u.reloc r (h.rel_public (.inl hr))]
  rfl

theorem orderInv (u : Unseen m g m' replace) (h : MemInv cfg m g) :
    OrderInv m' (g.reassign owner replace status) := by
  constructor
  intro y z hy hz hyr hzr hyz
  rw [u.gone_iff h, u.gone_iff h, u.key y (.node (h.born_of_mem hy)),
    u.key z (.node (h.born_of_mem hz))]
  exact h.sorted hy hz hyr hzr hyz

theorem pending (u : Unseen m g m' replace) (h : MemInv cfg m g) (hy : m.op y = .cas s)
    (hp : Pending m g y s) : Pending m' (g.reassign owner replace status) y s := by
  cases hp with
  | insertion b n he hu hn h0 hgap =>
    have hpub : Public m g n := .update_ptr hy hu
    rw [← u.cas_eq (.inl hy)] at he hu hgap
    refine .insertion b n he hu hn h0 ⟨hgap.root, ?_, ?_⟩
    · intro z hz hzr hb
      rw [u.key z (.node (h.born_of_mem hz)), u.key n hpub]
      exact hgap.before z hz hzr hb
    · intro z hz hzr hb
      rw [u.key z (.node (h.born_of_mem hz)), u.key n hpub]
      exact hgap.after z hz hzr hb
  | splice c he hc hm hu =>
    rw [← u.cas_eq (.inl hy)] at he hu
    rw [← marked_frame u.op] at hm
    rw [← replacement_frame u.child] at hu
    exact .splice c he hc hm hu

theorem casInv (u : Unseen m g m' replace) (h : MemInv cfg m g) :
    CasInv m' (g.reassign owner replace status) where
  slot := by
    intro y s hy
    rw [u.op] at hy
    rw [u.cas_eq (.inl hy), u.child]
    exact (h.slot hy).imp_left fun ⟨hs, hp⟩ => ⟨hs, u.pending h hy hp⟩
  done := by
    intro y s hs
    rw [u.cas_eq (.inr hs)]
    exact h.done hs
  unique := fun hy hz => h.unique (u.ever.mp hy) (u.ever.mp hz)
  update_unique := by
    intro y z s s' n hy hz hn hu hu'
    rw [u.op] at hy hz
    rw [u.cas_eq (.inl hy)] at hu
    rw [u.cas_eq (.inl hz)] at hu'
    exact h.update_unique hy hz hn hu hu'

theorem relocation (u : Unseen m g m' replace) (h : MemInv cfg m g) (hs : installed m g s) :
    Relocation m' (g.reassign owner replace status) s := by
  have hpub := h.rel_public hs
  have hR := h.record hs
  have hq : (g.reassign owner replace status).replace s = g.replace s := u.replace s hpub
  have hcom : committed m' (g.reassign owner replace status) s ↔ committed m g s := by
    unfold committed
    rw [u.ever, u.reloc s hpub]
  have hkd := u.key _ (.node hR.dest_born)
  exact {
    ne_zero := hR.ne_zero
    dest_born := by
      rw [u.reloc s hpub]
      exact hR.dest_born
    dest_ne_root := by
      rw [u.reloc s hpub]
      exact hR.dest_ne_root
    dest_ne_replace := by
      rw [u.reloc s hpub, hq]
      exact hR.dest_ne_replace
    destOp_ever := by
      rw [u.reloc s hpub, u.ever]
      exact hR.destOp_ever
    destOp_flag := by
      rw [u.reloc s hpub]
      exact hR.destOp_flag
    held := by
      rw [u.reloc s hpub, hq, u.op, u.child]
      intro hopq
      rw [u.key _ (.node (h.born_of_flag (by simp [hopq])))]
      exact hR.held hopq
    ongoing_held := by
      rw [hq, u.op, u.state_eq hpub]
      exact hR.ongoing_held
    ready := by
      rw [u.reloc s hpub, hq, u.op, hkd]
      exact hR.ready
    busy := by
      rw [u.reloc s hpub, hq, u.op, hkd]
      exact hR.busy
    finished := by
      rw [u.reloc s hpub, u.state_eq hpub, u.ever]
      exact hR.finished
    rewritten := by
      rw [hcom, u.reloc s hpub, u.state_eq hpub, u.op, hkd]
      exact hR.rewritten
    commit_past := by
      rw [hcom, u.reloc s hpub, u.state_eq hpub]
      exact hR.commit_past
    succeeded := by
      rw [hcom, u.state_eq hpub]
      exact hR.succeeded
    failed := by
      rw [u.reloc s hpub, u.state_eq hpub]
      exact hR.failed
    released := by
      rw [u.reloc s hpub, u.state_eq hpub, hq, u.op]
      exact hR.released }

theorem relocInv (u : Unseen m g m' replace) (h : MemInv cfg m g) :
    RelocInv m' (g.reassign owner replace status) where
  place := by
    intro y s hy
    rw [u.ever] at hy
    have hs := h.rel_public hy
    rw [u.installed_iff h, u.reloc s hs]
    exact ⟨(h.place hy).1, (h.place hy).2.imp_left (·.trans (u.replace s hs).symm)⟩
  rewritten_installed := fun hs => (u.installed_iff h).mpr (h.rewritten_installed hs)
  record := fun hs => u.relocation h ((u.installed_iff h).mp hs)

end Unseen

namespace MemInv

/-- Changes that leave alone what other threads can see. -/
theorem frame (m' : Mem) (h : MemInv cfg m g) (owner : Addr → Tid) (replace : Addr → Addr)
    (status : Tid → Status) (hop : m'.op = m.op) (hchild : m'.child = m.child)
    (hkey : ∀ x, Public m g x → m'.key x = m.key x)
    (hcas : ∀ r, r = 0 ∨ Public m g r → m'.cas r = m.cas r)
    (hreloc : ∀ r, Public m g r → m'.reloc r = m.reloc r)
    (hrep : ∀ r, Public m g r → replace r = g.replace r)
    (htaken : ∀ a, Public m g a → Taken cfg m' a) :
    MemInv cfg m' (g.reassign owner replace status) := by
  have u : Unseen m g m' replace := ⟨hop, hchild, hkey, hcas, hreloc, hrep⟩
  refine ⟨h.toTreeInv.frame hop hchild rfl rfl rfl, h.toHistoryInv.frame hop hchild rfl rfl,
    u.orderInv h, u.casInv h, u.relocInv h, fun hb => htaken _ ?_⟩
  exact .of_ever hb (fun hy => .node hy) u.ever.mp fun he => by rw [u.cas_eq he]

/-! ### Allocation and deletion -/

theorem not_public_of_allocatable (h : MemInv cfg m g) (ha : m.allocatable cfg a = true) :
    ¬ Public m g a := by
  intro hpub
  have := h.taken hpub
  simp [Taken, ha] at this

theorem ne_zero_of_allocatable (ha : m.allocatable cfg a = true) : a ≠ 0 := by
  rintro rfl
  simp [Mem.allocatable] at ha

/-- Allocating an address only concerns the address itself. -/
theorem taken_of_cell (hcell : m'.cell = Function.update m.cell a c) (hc : c ≠ .unused)
    (hd : c ≠ .deleted) {b : Addr} (hb : Taken cfg m b) : Taken cfg m' b := by
  unfold Taken Mem.allocatable at *
  rw [hcell, Function.update_apply]
  split <;> simp_all

/-- A new node looks like any address where there has never been a node. -/
theorem newNode_op (hn : a ∉ g.born) (h : MemInv cfg m g) (y : Addr) :
    (m.newNode a (createLFNode k)).op y = m.op y := by
  rw [Mem.newNode_op]
  split
  · next heq => exact heq ▸ (h.unborn hn).1.symm
  · rfl

theorem newNode_child (hn : a ∉ g.born) (h : MemInv cfg m g) (y : Addr) (f : Bool) :
    (m.newNode a (createLFNode k)).child y f = m.child y f := by
  rw [Mem.newNode_child]
  split
  · next heq =>
    rw [heq, (h.unborn hn).2 f]
    cases f <;> rfl
  · rfl

/-- Line 84. -/
theorem newNode (h : MemInv cfg m g) (ha : m.allocatable cfg a = true) :
    MemInv cfg (m.newNode a (createLFNode k)) g := by
  have hpub := h.not_public_of_allocatable ha
  have hborn : a ∉ g.born := fun hb => hpub (.node hb)
  refine h.frame (m.newNode a (createLFNode k)) g.owner g.replace g.status ?_ ?_ ?_
    (fun _ _ => rfl) (fun _ _ => rfl) (fun _ _ => rfl) ?_
  · exact funext (newNode_op hborn h)
  · exact funext₂ (newNode_child hborn h)
  · intro y hy
    have hya : y ≠ a := fun heq => hpub (heq ▸ hy)
    simp [hya]
  · intro b hb
    exact taken_of_cell rfl (by simp) (by simp) (h.taken hb)

/-- The allocations of lines 104 and 433. -/
theorem newCas (h : MemInv cfg m g) (ha : m.allocatable cfg a = true) (o : ChildCasOp) (t : Tid) :
    MemInv cfg (m.newCas a o)
      (g.reassign (Function.update g.owner a t) g.replace g.status) := by
  have hpub := h.not_public_of_allocatable ha
  refine h.frame _ _ g.replace g.status rfl rfl (fun _ _ => rfl) ?_ (fun _ _ => rfl)
    (fun _ _ => rfl) ?_
  · intro r hr
    have hra : r ≠ a := by
      rintro rfl
      exact hr.elim (ne_zero_of_allocatable ha) hpub
    simp [hra]
  · intro b hb
    exact taken_of_cell rfl (by simp) (by simp) (h.taken hb)

/-- The allocation of lines 299 to 304. -/
theorem newReloc (h : MemInv cfg m g) (ha : m.allocatable cfg a = true) (o : RelocateOp) (t : Tid)
    (x : Addr) :
    MemInv cfg (m.newReloc a o)
      (g.reassign (Function.update g.owner a t) (Function.update g.replace a x) g.status) := by
  have hpub := h.not_public_of_allocatable ha
  have hne : ∀ r, Public m g r → r ≠ a := fun r hr heq => hpub (heq ▸ hr)
  refine h.frame _ _ _ g.status rfl rfl (fun _ _ => rfl) (fun _ _ => rfl) ?_ ?_ ?_
  · intro r hr
    simp [hne r hr]
  · intro r hr
    simp [hne r hr]
  · intro b hb
    exact taken_of_cell rfl (by simp) (by simp) (h.taken hb)

theorem taken_delete (hab : cfg.reuse = true → b ≠ a) (hb : Taken cfg m b) :
    Taken cfg (m.delete a) b := by
  unfold Taken Mem.allocatable Mem.delete at *
  simp only [Function.update_apply]
  split <;> simp_all

/-- An address can be deleted if nobody has seen it, or if no address is handed out twice. -/
theorem delete (h : MemInv cfg m g) (ha : cfg.reuse = true → ¬ Public m g a) :
    MemInv cfg (m.delete a) g := by
  refine h.frame (m.delete a) g.owner g.replace g.status rfl rfl (fun _ _ => rfl)
    (fun _ _ => rfl) (fun _ _ => rfl) (fun _ _ => rfl) ?_
  intro b hb
  exact taken_delete (fun hre heq => ha hre (heq ▸ hb)) (h.taken hb)

theorem addToHpList (h : MemInv cfg m g) (t : Tid) (w : Word) :
    MemInv cfg (m.addToHpList t w) g :=
  h.frame (m.addToHpList t w) g.owner g.replace g.status rfl rfl (fun _ _ => rfl)
    (fun _ _ => rfl) (fun _ _ => rfl) (fun _ _ => rfl) fun _ hb => h.taken hb

theorem setStatus (h : MemInv cfg m g) (status : Tid → Status) :
    MemInv cfg m { g with status := status } :=
  h.frame m g.owner g.replace status rfl rfl (fun _ _ => rfl)
    (fun _ _ => rfl) (fun _ _ => rfl) (fun _ _ => rfl) fun _ hb => h.taken hb

/-! ### The state of a relocation -/

theorem gone_setState {st : OpState} : gone (m.setState r st) g x ↔ gone m g x := by
  unfold gone
  simp [Mem.marked]

theorem committed_setState {st : OpState} : committed (m.setState r st) g s ↔ committed m g s := by
  simp [committed, everOp]

theorem casInv_setState {st : OpState} (h : CasInv m g) : CasInv (m.setState r st) g where
  slot := by
    intro y s hy
    refine (h.slot hy).imp_left fun ⟨hs, hp⟩ => ⟨hs, ?_⟩
    cases hp with
    | insertion b n he hu hn h0 hgap =>
      exact .insertion b n he hu hn h0 ⟨hgap.root, hgap.before, hgap.after⟩
    | splice c he hc hm hu => exact .splice c he hc hm hu
  done := h.done
  unique := h.unique
  update_unique := h.update_unique

/-- The state says what the `op` field of `dest` has decided. -/
theorem relocation_setState (h : MemInv cfg m g) {st : OpState} (hong : m.state r = .ongoing)
    (hst : st = .successful ∧ committed m g r ∨ st = .failed ∧ ¬ committed m g r ∧
      (m.reloc r).destOp ∈ g.pastOp (m.reloc r).dest) (hs : installed m g s) :
    Relocation (m.setState r st) g s := by
  have hR := h.record hs
  have hever : ∀ y w, everOp (m.setState r st) g y w ↔ everOp m g y w := fun _ _ => Iff.rfl
  exact {
    ne_zero := hR.ne_zero
    dest_born := by simpa using hR.dest_born
    dest_ne_root := by simpa using hR.dest_ne_root
    dest_ne_replace := by simpa using hR.dest_ne_replace
    destOp_ever := by simpa [hever] using hR.destOp_ever
    destOp_flag := by simpa using hR.destOp_flag
    held := by simpa using hR.held
    ongoing_held := by
      by_cases hsr : s = r
      · subst hsr
        simpa using fun hs' => hR.ongoing_held hong
      · simpa [hsr] using hR.ongoing_held
    ready := by simpa using hR.ready
    busy := by simpa using hR.busy
    finished := by
      intro hp
      rw [Mem.setState_dest] at hp ⊢
      have hfin := hR.finished hp
      have hsr : s ≠ r := by
        rintro rfl
        simp [hong] at hfin
      simpa [hsr, hever] using hfin
    rewritten := by
      intro hw
      have hrew := hR.rewritten hw
      have hsr : s ≠ r := by
        rintro rfl
        simp [hong] at hrew
      simpa [hsr, committed_setState] using hrew
    commit_past := by
      rw [committed_setState]
      intro hc
      have hcp := hR.commit_past hc
      refine ⟨by simpa using hcp.1, ?_⟩
      by_cases hsr : s = r
      · subst hsr
        rcases hst with ⟨rfl, _⟩ | ⟨rfl, hn, _⟩
        · simp
        · exact absurd hc hn
      · simpa [hsr] using hcp.2
    succeeded := by
      rw [committed_setState]
      by_cases hsr : s = r
      · subst hsr
        rcases hst with ⟨_, hc⟩ | ⟨rfl, _⟩
        · exact fun _ => hc
        · simp
      · simpa [hsr] using hR.succeeded
    failed := by
      by_cases hsr : s = r
      · subst hsr
        rcases hst with ⟨rfl, _⟩ | ⟨_, _, hp⟩
        · simp
        · simpa using fun _ => hp
      · simpa [hsr] using hR.failed
    released := by
      intro hp
      have hrel := hR.released hp
      have hsr : s ≠ r := by
        rintro rfl
        exact h.op_fresh _ (hR.ongoing_held hong ▸ hp)
      simpa [hsr] using hrel }

/-- A record gets its state once, and nothing but the record itself is concerned. -/
theorem setState (h : MemInv cfg m g) {st : OpState} (hong : m.state r = .ongoing)
    (hst : st = .successful ∧ committed m g r ∨ st = .failed ∧ ¬ committed m g r ∧
      (m.reloc r).destOp ∈ g.pastOp (m.reloc r).dest) :
    MemInv cfg (m.setState r st) g := by
  refine ⟨TreeInv.frame (m := m) rfl rfl h.toTreeInv rfl rfl rfl,
    HistoryInv.frame (m := m) rfl rfl h.toHistoryInv rfl rfl, ?_, casInv_setState h.toCasInv, ?_, ?_⟩
  · constructor
    intro y z hy hz hyr hzr hyz
    simp only [gone_setState, Mem.setState_key]
    exact h.sorted hy hz hyr hzr hyz
  · constructor
    · intro y s hy
      rw [Mem.setState_dest]
      exact h.place hy
    · exact h.rewritten_installed
    · exact fun hs => h.relocation_setState hong hst hs
  · intro b hb
    change Taken cfg m b
    exact h.taken (.of_ever hb (fun hy => .node hy) id fun _ => rfl)

end MemInv

-- ---------------------------------------------------------------------------
-- The key of `dest`
-- ---------------------------------------------------------------------------

/-- Line 496 is about to write the key. -/
structure Rewrites (m : Mem) (g : Ghost) (r : Addr) : Prop where
  op : m.op (m.reloc r).dest = .rel r
  state : m.state r = .successful
  key : m.key (m.reloc r).dest = (m.reloc r).removeKey

namespace Rewrites

theorem record (hw : Rewrites m g r) (h : MemInv cfg m g) : Relocation m g r :=
  h.record (h.place (.inl hw.op)).1

theorem replace_op (hw : Rewrites m g r) (h : MemInv cfg m g) : m.op (g.replace r) = .rel r :=
  ((hw.record h).busy hw.op).1

theorem adjacent (hw : Rewrites m g r) (h : MemInv cfg m g) :
    g.tree.Adjacent (m.reloc r).dest (g.replace r) :=
  ((hw.record h).busy hw.op).2.1

theorem dest_mem (hw : Rewrites m g r) (h : MemInv cfg m g) : (m.reloc r).dest ∈ g.tree.nodes :=
  (hw.adjacent h).1.mem

theorem replace_mem (hw : Rewrites m g r) (h : MemInv cfg m g) : g.replace r ∈ g.tree.nodes :=
  h.mem_of_flag (by simp [hw.replace_op h]) (h.born_of_flag (by simp [hw.replace_op h]))

theorem replace_ne_root (hw : Rewrites m g r) (h : MemInv cfg m g) : g.replace r ≠ baseRoot := by
  intro heq
  have hroot := h.root_op
  simp [← heq, hw.replace_op h] at hroot

theorem new (hw : Rewrites m g r) (h : MemInv cfg m g) : r ∉ g.rewritten := by
  intro hr
  have hlt := ((hw.record h).rewritten hr).2.2.1
  rw [hw.key] at hlt
  exact lt_irrefl _ hlt

theorem not_gone_dest (hw : Rewrites m g r) : ¬ gone m g (m.reloc r).dest := by
  rintro (hm | ⟨s, hs, hne, _⟩)
  · simp [Mem.marked, hw.op] at hm
  · obtain rfl : r = s := by simpa [hw.op] using hs
    exact hne rfl

theorem not_gone_replace (hw : Rewrites m g r) (h : MemInv cfg m g) :
    ¬ gone m g (g.replace r) := by
  rintro (hm | ⟨s, hs, _, hs'⟩)
  · simp [Mem.marked, hw.replace_op h] at hm
  · obtain rfl : r = s := by simpa [hw.replace_op h] using hs
    exact hw.new h hs'

theorem replaceKey (hw : Rewrites m g r) (h : MemInv cfg m g) :
    m.key (g.replace r) = (m.reloc r).replaceKey :=
  ((hw.record h).held (hw.replace_op h)).1

/-- The key of `dest` grows. -/
theorem lt (hw : Rewrites m g r) (h : MemInv cfg m g) :
    (m.reloc r).removeKey < (m.reloc r).replaceKey := by
  have hsorted := h.sorted (hw.dest_mem h) (hw.replace_mem h) (hw.record h).dest_ne_root
    (hw.replace_ne_root h) (.inr (.inl (hw.adjacent h).1))
  rw [← hw.key, ← hw.replaceKey h]
  exact hsorted.2 hw.not_gone_dest (hw.not_gone_replace h)

/-- No gap lies between the old and the new key of `dest` but the one on the
    left of the replacing node. -/
theorem gap (hw : Rewrites m g r) (h : MemInv cfg m g) (hy : y ∈ g.tree.nodes)
    (hflag : (m.op y).flag ≠ .relocate) (hnone : m.childPtr y e = none) (hg : g'.tree = g.tree)
    (hgap : Gap m g y e k) :
    Gap (m.setKey (m.reloc r).dest (m.reloc r).replaceKey) g' y e k where
  root := hgap.root
  before := by
    rw [hg]
    intro z hz hzr hb
    rw [Mem.setKey_key]
    split
    · next heq =>
      subst heq
      rcases h.lawful.gap_total e hy (hw.replace_mem h) with hq | hq
      · exact hw.replaceKey h ▸ hgap.before _ (hw.replace_mem h) (hw.replace_ne_root h) hq
      · have := (hw.adjacent h).gap h.fits (hw.replace_mem h) hy hnone hb hq
        rw [this.1, hw.replace_op h] at hflag
        exact absurd rfl hflag
    · exact hgap.before z hz hzr hb
  after := by
    rw [hg]
    intro z hz hzr hb
    rw [Mem.setKey_key]
    split
    · next heq =>
      subst heq
      have hlt := hgap.after _ hz hzr hb
      rw [hw.key] at hlt
      exact hlt.trans (hw.lt h)
    · exact hgap.after z hz hzr hb

theorem gone_mono (_hw : Rewrites m g r) (hy : gone m g y) :
    gone (m.setKey (m.reloc r).dest k) (g.rewrite r) y := by
  rcases hy with hm | ⟨s, hs, hne, hr⟩
  · exact .inl (by simpa [Mem.marked] using hm)
  · exact .inr ⟨s, by simpa using hs, hne, .inr hr⟩

theorem order (hw : Rewrites m g r) (h : MemInv cfg m g) :
    OrderInv (m.setKey (m.reloc r).dest (m.reloc r).replaceKey) (g.rewrite r) where
  sorted := by
    intro y z hy hz hyr hzr hyz
    have hold := h.sorted hy hz hyr hzr hyz
    have hqr := hw.replace_ne_root h
    have hq := hw.replace_mem h
    rw [Mem.setKey_key, Mem.setKey_key]
    by_cases hyd : y = (m.reloc r).dest
    · have hzd : z ≠ (m.reloc r).dest := by
        rintro rfl
        exact h.lawful.before_irrefl (hyd ▸ hyz)
      rw [if_pos hyd, if_neg hzd, ← hw.replaceKey h]
      subst hyd
      by_cases hzq : z = g.replace r
      · -- The key is now in both nodes, and the replacing node does not count any more.
        subst hzq
        refine ⟨le_rfl, fun _ hgz => absurd (.inr ⟨r, ?_, hzd.symm, .inl rfl⟩) hgz⟩
        simpa using hw.replace_op h
      · have hqz : g.tree.Before (g.replace r) z := by
          rcases h.lawful.before_total hq hz with heq | hb | hb
          · exact absurd heq.symm hzq
          · exact hb
          · exact absurd hb ((hw.adjacent h).2 z hz hyz)
        have hsorted := h.sorted hq hz hqr hzr hqz
        exact ⟨hsorted.1, fun _ hgz =>
          hsorted.2 (hw.not_gone_replace h) fun hg => hgz (hw.gone_mono hg)⟩
    · rw [if_neg hyd]
      by_cases hzd : z = (m.reloc r).dest
      · rw [if_pos hzd]
        have hlt : m.key y < (m.reloc r).replaceKey := by
          refine lt_of_le_of_lt ?_ (hw.lt h)
          rw [← hw.key, ← hzd]
          exact hold.1
        exact ⟨hlt.le, fun _ _ => hlt⟩
      · rw [if_neg hzd]
        exact ⟨hold.1, fun hgy hgz => hold.2 (fun hg => hgy (hw.gone_mono hg))
          fun hg => hgz (hw.gone_mono hg)⟩

theorem cas (hw : Rewrites m g r) (h : MemInv cfg m g) :
    CasInv (m.setKey (m.reloc r).dest (m.reloc r).replaceKey) (g.rewrite r) where
  slot := by
    intro y s hy
    rw [Mem.setKey_op] at hy
    have hborn := h.born_of_flag (x := y) (by simp [hy])
    rw [Mem.setKey_child, Mem.setKey_cas]
    refine (h.slot hy).imp_left fun ⟨hs, hp⟩ => ⟨hs, ?_⟩
    cases hp with
    | insertion b n he hu hn h0 hgap =>
      have hnd : n ≠ (m.reloc r).dest := fun heq => hn (heq ▸ (hw.record h).dest_born)
      refine .insertion b n he hu hn h0 ?_
      rw [Mem.setKey_key, if_neg hnd]
      refine hw.gap h (h.mem_of_flag (by simp [hy]) hborn) (by simp [hy]) ?_ rfl hgap
      exact Mem.childPtr_eq_none.mpr (by rw [Mem.setKey_cas, hs, he]; rfl)
    | splice c he hc hm hu =>
      refine .splice c he hc (by simpa [Mem.marked] using hm) (hu.trans ?_)
      simp [Mem.replacement]
  done := h.done
  unique := by
    intro y z s hy hz
    exact h.unique (by simpa [everOp, Ghost.rewrite] using hy) (by simpa [everOp, Ghost.rewrite] using hz)
  update_unique := by
    intro y z s s' n hy hz
    rw [Mem.setKey_op] at hy hz
    exact h.update_unique hy hz

theorem reloc (hw : Rewrites m g r) (h : MemInv cfg m g) :
    RelocInv (m.setKey (m.reloc r).dest (m.reloc r).replaceKey) (g.rewrite r) := by
  have hever : ∀ {y w}, everOp (m.setKey (m.reloc r).dest (m.reloc r).replaceKey) (g.rewrite r) y w ↔
      everOp m g y w := everOp_frame (Mem.setKey_op ..) rfl
  have hinst := (h.place (.inl hw.op)).1
  constructor
  · intro y s hy
    rw [hever] at hy
    exact ⟨hever.mpr (h.place hy).1, (h.place hy).2⟩
  · rintro s (rfl | hs)
    · exact hever.mpr hinst
    · exact hever.mpr (h.rewritten_installed hs)
  · intro s hs
    have hR := h.record (hever.mp hs)
    have hflag := hR.destOp_flag
    -- The only relocation at work on this node is `r`.
    have hop : ∀ {y t}, m.op y = .rel t → t ≠ r → y ≠ (m.reloc r).dest := by
      rintro y t hy hne rfl
      simp [hw.op] at hy
      exact hne hy.symm
    have hready : ∀ {t}, m.op (m.reloc s).dest = t → t.flag = .none →
        (m.reloc s).dest ≠ (m.reloc r).dest := by
      rintro t ht hf heq
      rw [heq, hw.op] at ht
      simp [← ht] at hf
    exact {
      ne_zero := hR.ne_zero
      dest_born := hR.dest_born
      dest_ne_root := hR.dest_ne_root
      dest_ne_replace := hR.dest_ne_replace
      destOp_ever := hever.mpr hR.destOp_ever
      destOp_flag := hflag
      held := by
        intro hq
        rw [Mem.setKey_op] at hq
        rw [Mem.setKey_child, Mem.setKey_reloc, Mem.setKey_key]
        have hne : g.replace s ≠ (m.reloc r).dest := by
          intro heq
          by_cases hsr : s = r
          · subst hsr
            exact hR.dest_ne_replace heq.symm
          · exact hop hq hsr heq
        exact (if_neg hne).symm ▸ hR.held hq
      ongoing_held := by
        rw [Mem.setKey_op]
        exact hR.ongoing_held
      ready := by
        simp only [Mem.setKey_op, Mem.setKey_reloc, Mem.setKey_key]
        intro hd hq
        rw [if_neg (hready hd hflag)]
        exact hR.ready hd hq
      busy := by
        simp only [Mem.setKey_op, Mem.setKey_reloc, Mem.setKey_key]
        intro hd
        have hbusy := hR.busy hd
        refine ⟨hbusy.1, hbusy.2.1, ?_⟩
        by_cases hsr : s = r
        · exact .inr (.inl hsr)
        · rw [if_neg (hop hd hsr)]
          exact hbusy.2.2.imp_right .inr
      finished := by
        intro hp
        have hfin := hR.finished hp
        exact ⟨.inr hfin.1, hfin.2.1, hever.mpr hfin.2.2⟩
      rewritten := by
        simp only [Mem.setKey_op, Mem.setKey_reloc, Mem.setKey_key, Mem.setKey_state]
        intro hs'
        by_cases hsr : s = r
        · subst hsr
          exact ⟨hever.mpr (.inl hw.op), hw.state, by simpa using hw.lt h, by simp⟩
        · have hrew := hR.rewritten (hs'.resolve_left hsr)
          refine ⟨hever.mpr hrew.1, hrew.2.1, ?_, fun hd => ?_⟩
          · split
            · next heq =>
              have hlt := hrew.2.2.1
              rw [heq, hw.key] at hlt
              exact hlt.trans (hw.lt h)
            · exact hrew.2.2.1
          · rw [if_neg (hop hd hsr)]
            exact hrew.2.2.2 hd
      commit_past := by
        intro hc
        exact hR.commit_past (hever.mp hc)
      succeeded := by
        intro hst
        exact hever.mpr (hR.succeeded hst)
      failed := hR.failed
      released := by
        rw [Mem.setKey_op]
        exact hR.released }

end Rewrites

/-- Line 496. -/
theorem MemInv.rewrite (h : MemInv cfg m g) (hw : Rewrites m g r) :
    MemInv cfg (m.setKey (m.reloc r).dest (m.reloc r).replaceKey) (g.rewrite r) := by
  refine ⟨TreeInv.frame (m := m) (Mem.setKey_op ..) (Mem.setKey_child ..) h.toTreeInv rfl rfl rfl,
    HistoryInv.frame (m := m) (Mem.setKey_op ..) (Mem.setKey_child ..) h.toHistoryInv rfl rfl,
    hw.order h, hw.cas h, hw.reloc h, ?_⟩
  intro b hb
  change Taken cfg m b
  apply h.taken
  cases hb with
  | node hb => exact .node hb
  | op he hf => exact .op ((everOp_frame (g := g) (Mem.setKey_op ..) rfl).mp he) hf
  | update he hf => exact .update ((everOp_frame (g := g) (Mem.setKey_op ..) rfl).mp he) hf

end LockFree
