-- SUMMARY: What a change leaves alone, as far as the other threads depend on it.
import ConcurrentBST.LockFree.Changes

/-!
# Evolution

Between two steps of a thread the others may have changed the memory in any of
the ways of `Change`. `Evolves` collects what a thread can rely on: nodes get
no new ancestors, an `op` field that has moved on never comes back, a child
field only changes below a published child CAS record, and so on.
-/

namespace LockFree

variable {cfg : Config} {m m' : Mem} {g g' : Ghost} {x y r s a b n c : Addr} {d e : Bool} {k : Int}
  {w v : Word} {t u : Tid} {spent : Addr → Prop}

/-- What holds between the memory and its history before and after a step that
    gives up the addresses in `spent`. -/
structure Evolves (cfg : Config) (spent : Addr → Prop) (m : Mem) (g : Ghost) (m' : Mem)
    (g' : Ghost) : Prop where
  born : g.born ⊆ g'.born
  anc : ∀ {x}, x ∈ g.born → g'.tree.anc x = g.tree.anc x
  mem_of : ∀ {x}, x ∈ g.born → x ∈ g'.tree.nodes → x ∈ g.tree.nodes
  stays : ∀ {x}, x ∈ g.tree.nodes → ¬ m.marked x → x ∈ g'.tree.nodes
  op : ∀ x, m'.op x = m.op x ∨ m.op x ∈ g'.pastOp x
  pastOp : ∀ x, g.pastOp x ⊆ g'.pastOp x
  marked : ∀ {x}, m.marked x → m'.op x = m.op x
  /-- A child field changes below a published child CAS, and only marked nodes are dropped. -/
  child : ∀ x d, m'.child x d = m.child x d ∨
    (m.op x).flag = .childCas ∧ m'.op x = m.op x ∧ m.child x d ∈ g'.pastChild x d ∧
      ∀ c, m.child x d = .ptr c → m.marked c
  pastChild : ∀ x d, g.pastChild x d ⊆ g'.pastChild x d
  rewritten : g.rewritten ⊆ g'.rewritten
  key_le : ∀ {x}, x ∈ g.born → m.key x ≤ m'.key x
  key_eq : ∀ {x}, Taken cfg m x → (m.op x).flag ≠ .relocate → m'.key x = m.key x
  gap : ∀ {x d k}, x ∈ g.born → (m.op x).flag = .none → m'.op x = m.op x →
    isNull (m.child x d) = true → Gap m g x d k → Gap m' g' x d k
  cas : ∀ {r}, Taken cfg m r → m'.cas r = m.cas r
  reloc : ∀ {r}, Taken cfg m r → ∃ st, m'.reloc r = { m.reloc r with state := st } ∧
    (st = m.state r ∨ m.state r = .ongoing ∧ Public m g r)
  owner : ∀ {r}, Taken cfg m r → g'.owner r = g.owner r
  replace : ∀ {r}, Taken cfg m r → g'.replace r = g.replace r
  taken : ∀ {a}, Taken cfg m a → ¬ spent a → Taken cfg m' a
  hidden : ∀ {a}, Taken cfg m a → ¬ spent a → ¬ Public m g a → ¬ Public m' g' a
  rel : ∀ {x r}, everOp m' g' x (.rel r) → everOp m g x (.rel r) ∨ ¬ Public m g r ∨
    m.op x = (m.reloc r).destOp ∧ x = (m.reloc r).dest

-- ---------------------------------------------------------------------------
-- The families of changes
-- ---------------------------------------------------------------------------

theorem Gap.congr (h : Gap m g x d k) (htree : g'.tree = g.tree)
    (hkey : ∀ y ∈ g.tree.nodes, m'.key y = m.key y) : Gap m' g' x d k where
  root := h.root
  before := by
    rw [htree]
    intro y hy hyr hb
    rw [hkey y hy]
    exact h.before y hy hyr hb
  after := by
    rw [htree]
    intro y hy hyr hb
    rw [hkey y hy]
    exact h.after y hy hyr hb

theorem taken_zero : Taken cfg m 0 := rfl

theorem MemInv.taken_cas (h : MemInv cfg m g) (he : everOp m g x (.cas r)) : Taken cfg m r := by
  by_cases hr : r = 0
  · exact hr ▸ taken_zero
  · exact h.taken (.op (w := .cas r) he hr)

theorem taken_of_ne_alloc (ha : m.allocatable cfg a = true) (hr : Taken cfg m r) : r ≠ a := by
  rintro rfl
  simp [Taken, ha] at hr

namespace Evolves

theorem setStatus {st : Status} (h : Evolves cfg spent m g m' g') :
    Evolves cfg spent m g m' (g'.setStatus u st) := by
  have hpub : ∀ {a}, Public m' (g'.setStatus u st) a → Public m' g' a := fun ha =>
    .of_ever ha (fun hy => .node hy) id fun _ => rfl
  exact ⟨h.born, h.anc, h.mem_of, h.stays, h.op, h.pastOp, h.marked, h.child, h.pastChild,
    h.rewritten, h.key_le, h.key_eq,
    fun h₁ h₂ h₃ h₄ h₅ => (h.gap h₁ h₂ h₃ h₄ h₅).congr rfl fun _ _ => rfl,
    h.cas, h.reloc, h.owner, h.replace, h.taken, fun h₁ h₂ h₃ h₄ => h.hidden h₁ h₂ h₃ (hpub h₄),
    h.rel⟩

/-- The tree does not change. -/
theorem frame (h : MemInv cfg m g) (hop : m'.op = m.op) (hchild : m'.child = m.child)
    (htree : g'.tree = g.tree) (hborn : g'.born = g.born) (hpo : g'.pastOp = g.pastOp)
    (hpc : g'.pastChild = g.pastChild) (hrew : g'.rewritten = g.rewritten)
    (hkey : ∀ {x}, Taken cfg m x → m'.key x = m.key x)
    (hcas : ∀ {r}, Taken cfg m r → m'.cas r = m.cas r)
    (hreloc : ∀ {r}, Taken cfg m r → ∃ st, m'.reloc r = { m.reloc r with state := st } ∧
      (st = m.state r ∨ m.state r = .ongoing ∧ Public m g r))
    (howner : ∀ {r}, Taken cfg m r → g'.owner r = g.owner r)
    (hrep : ∀ {r}, Taken cfg m r → g'.replace r = g.replace r)
    (htaken : ∀ {a}, Taken cfg m a → ¬ spent a → Taken cfg m' a) :
    Evolves cfg spent m g m' g' := by
  have hever : ∀ {x w}, everOp m' g' x w ↔ everOp m g x w := everOp_frame hop hpo
  exact {
    born := by rw [hborn]
    anc := by
      intro x _
      rw [htree]
    mem_of := by
      intro x _ hx
      exact htree ▸ hx
    stays := by
      intro x hx _
      exact htree.symm ▸ hx
    op := fun x => .inl (by rw [hop])
    pastOp := by
      intro x
      rw [hpo]
    marked := by
      intro x _
      rw [hop]
    child := fun x d => .inl (by rw [hchild])
    pastChild := by
      intro x d
      rw [hpc]
    rewritten := by rw [hrew]
    key_le := by
      intro x hx
      exact (hkey (h.taken (.node hx))).ge
    key_eq := fun hx _ => hkey hx
    gap := by
      intro x d k _ _ _ _ hg
      exact hg.congr htree fun y hy => hkey (h.taken (.node (h.born_of_mem hy)))
    cas := hcas
    reloc := hreloc
    owner := howner
    replace := hrep
    taken := htaken
    hidden := by
      intro a _ _ hn hp
      refine hn (.of_ever hp (fun hb => .node (hborn ▸ hb)) hever.mp fun he => ?_)
      rw [hcas (h.taken_cas he)]
    rel := by
      intro x r he
      exact .inl (hever.mp he) }

/-- One `op` field changes. -/
theorem setOp (hx : ¬ m.marked x)
    (haddr : w.addr ≠ 0 → Public m g w.addr ∨ spent w.addr)
    (hupd : ∀ r, w = .cas r → (m.cas r).update.flag = .none →
      Public m g (m.cas r).update.addr ∨ spent (m.cas r).update.addr)
    (hrel : ∀ r, w = .rel r → ¬ Public m g r ∨
      m.op x = (m.reloc r).destOp ∧ x = (m.reloc r).dest) :
    Evolves cfg spent m g (m.setOp x w) (g.setOp m x) where
  born := subset_rfl
  anc := fun _ => rfl
  mem_of := fun _ hy => hy
  stays := fun hy _ => hy
  op := by
    intro y
    by_cases hyx : y = x
    · exact .inr (mem_setOp_pastOp.mpr (.inr ⟨hyx, hyx ▸ rfl⟩))
    · simp [hyx]
  pastOp := fun y v hv => mem_setOp_pastOp.mpr (.inl hv)
  marked := by
    intro y hy
    have hyx : y ≠ x := fun heq => hx (heq ▸ hy)
    simp [hyx]
  child := fun y f => .inl (by simp)
  pastChild := fun y f => subset_rfl
  rewritten := subset_rfl
  key_le := fun _ => by simp
  key_eq := fun _ _ => by simp
  gap := fun _ _ _ _ hg => OpChange.gap hg
  cas := fun _ => rfl
  reloc := fun _ => ⟨_, rfl, .inl rfl⟩
  owner := fun _ => rfl
  replace := fun _ => rfl
  taken := fun ha _ => ha
  hidden := by
    intro b hb hs hn hp
    cases hp with
    | node hb => exact hn (.node hb)
    | op he hf =>
      rcases everOp_setOp.mp he with he | ⟨rfl, rfl⟩
      · exact hn (.op he hf)
      · exact (haddr hf).elim hn hs
    | update he hf =>
      rw [everOp_setOp] at he
      rcases he with he | ⟨rfl, he⟩
      · exact hn (.update he hf)
      · exact (hupd _ he.symm hf).elim hn hs
  rel := by
    intro y r he
    rcases everOp_setOp.mp he with hold | ⟨heq, hw⟩
    · exact .inl hold
    · exact .inr (heq ▸ hrel r hw.symm)

theorem link (h : MemInv cfg m g) (hop : m.op x = .cas r)
    (hslot : m.child x (m.cas r).isLeft = (m.cas r).expected)
    (hexp : (m.cas r).expected = .null a) (hupd : (m.cas r).update = .ptr n) (hn : n ∉ g.born)
    (hgap : Gap m g x (m.cas r).isLeft (m.key n)) :
    Evolves cfg spent m g (m.setChild x (m.cas r).isLeft (.ptr n))
      (g.link m x (m.cas r).isLeft n) := by
  generalize hd : (m.cas r).isLeft = d at *
  have hslot' : m.child x d = .null a := hslot.trans hexp
  have hi := h.insertable hop (d := d) (by rw [hslot']; rfl) hn
  have hne : ∀ {y}, y ∈ g.born → y ≠ n := fun hy heq => hn (heq ▸ hy)
  exact {
    born := fun y hy => .inr hy
    anc := by
      intro y hy
      ext z
      simp [Ancestry.insert, hne hy]
    mem_of := fun hy hmem => hmem.resolve_left (hne hy)
    stays := fun hy _ => .inr hy
    op := fun y => .inl (by simp)
    pastOp := fun y => subset_rfl
    marked := fun _ => by simp
    child := by
      intro y e
      by_cases hyx : y = x ∧ e = d
      · obtain ⟨rfl, rfl⟩ := hyx
        refine .inr ⟨by simp [hop], by simp, .inr ⟨⟨rfl, rfl⟩, rfl⟩, fun c hc => ?_⟩
        cases congrArg Word.flag (hslot'.symm.trans hc)
      · exact .inl (by simp [hyx])
    pastChild := fun y e v hv => .inl hv
    rewritten := subset_rfl
    key_le := fun _ => by simp
    key_eq := fun _ _ => by simp
    gap := by
      intro y e k hy hf _ hnull hg
      have hyx : y ≠ x := by
        rintro rfl
        simp [hop] at hf
      refine h.gap_link hi (h.fits_link hi) (Mem.setChild_key ..) hgap
        (h.mem_of_flag (by simp [hf]) hy) ?_ hg
      simpa [childPtr_setChild, hyx] using Mem.childPtr_eq_none.mpr hnull
    cas := fun _ => rfl
    reloc := fun _ => ⟨_, rfl, .inl rfl⟩
    owner := fun _ => rfl
    replace := fun _ => rfl
    taken := fun ha _ => ha
    hidden := fun _ _ hnp hp => hnp (MemInv.public_link hop hupd hp)
    rel := fun he => .inl ((everOp_setChild rfl).mp he) }

theorem unlink (hop : m.op x = .cas r)
    (hslot : m.child x (m.cas r).isLeft = (m.cas r).expected)
    (hexp : (m.cas r).expected = .ptr c) (hm : m.marked c) :
    Evolves cfg spent m g (m.setChild x (m.cas r).isLeft (m.replacement c))
      (g.unlink m x (m.cas r).isLeft c) := by
  generalize hd : (m.cas r).isLeft = d at *
  have hslot' : m.child x d = .ptr c := hslot.trans hexp
  exact {
    born := subset_rfl
    anc := fun _ => rfl
    mem_of := fun _ hmem => hmem.1
    stays := fun hy hym => ⟨hy, fun heq => hym (heq ▸ hm)⟩
    op := fun y => .inl (by simp)
    pastOp := fun y => subset_rfl
    marked := fun _ => by simp
    child := by
      intro y e
      by_cases hyx : y = x ∧ e = d
      · obtain ⟨rfl, rfl⟩ := hyx
        refine .inr ⟨by simp [hop], by simp, .inr ⟨⟨rfl, rfl⟩, rfl⟩, fun c' hc => ?_⟩
        obtain rfl : c = c' := by simpa using hslot'.symm.trans hc
        exact hm
      · exact .inl (by simp [hyx])
    pastChild := fun y e v hv => .inl hv
    rewritten := subset_rfl
    key_le := fun _ => by simp
    key_eq := fun _ _ => by simp
    gap := fun _ _ _ _ hg => MemInv.gap_unlink (Mem.setChild_key ..) hg
    cas := fun _ => rfl
    reloc := fun _ => ⟨_, rfl, .inl rfl⟩
    owner := fun _ => rfl
    replace := fun _ => rfl
    taken := fun ha _ => ha
    hidden := fun _ _ hnp hp => hnp (.of_ever hp (fun hy => .node hy) (everOp_setChild rfl).mp fun _ => rfl)
    rel := fun he => .inl ((everOp_setChild rfl).mp he) }

theorem rewrite (h : MemInv cfg m g) (hw : Rewrites m g r) :
    Evolves cfg spent m g (m.setKey (m.reloc r).dest (m.reloc r).replaceKey) (g.rewrite r) := by
  have hever : ∀ {y w}, everOp (m.setKey (m.reloc r).dest (m.reloc r).replaceKey) (g.rewrite r) y w ↔
      everOp m g y w := everOp_frame (Mem.setKey_op ..) rfl
  exact {
    born := subset_rfl
    anc := fun _ => rfl
    mem_of := fun _ hmem => hmem
    stays := fun hy _ => hy
    op := fun y => .inl (by simp)
    pastOp := fun y => subset_rfl
    marked := fun _ => by simp
    child := fun y e => .inl (by simp)
    pastChild := fun y e => subset_rfl
    rewritten := fun s hs => .inr hs
    key_le := by
      intro y _
      rw [Mem.setKey_key]
      split
      · next heq =>
        rw [heq, hw.key]
        exact (hw.lt h).le
      · exact le_rfl
    key_eq := by
      intro y _ hf
      have hyd : y ≠ (m.reloc r).dest := by
        rintro rfl
        simp [hw.op] at hf
      simp [hyd]
    gap := by
      intro y e k hy hf _ hnull hg
      exact hw.gap h (h.mem_of_flag (by simp [hf]) hy) (by simp [hf])
        (Mem.childPtr_eq_none.mpr hnull) rfl hg
    cas := fun _ => rfl
    reloc := fun _ => ⟨_, rfl, .inl rfl⟩
    owner := fun _ => rfl
    replace := fun _ => rfl
    taken := fun ha _ => ha
    hidden := fun _ _ hnp hp => hnp (.of_ever hp (fun hy => .node hy) hever.mp fun _ => rfl)
    rel := fun he => .inl (hever.mp he) }

end Evolves

theorem setState_reloc {st : OpState} (h : m.state r = .ongoing) (hr : Public m g r) :
    ∃ st', (m.setState r st).reloc s = { m.reloc s with state := st' } ∧
      (st' = m.state s ∨ m.state s = .ongoing ∧ Public m g s) := by
  unfold Mem.setState
  by_cases hsr : s = r
  · subst hsr
    exact ⟨st, by simp, .inr ⟨h, hr⟩⟩
  · exact ⟨m.state s, by simp [hsr, Mem.state], .inl rfl⟩

theorem foldl_delete (as : List Addr) :
    (as.foldl Mem.delete m).node = m.node ∧ (as.foldl Mem.delete m).cas = m.cas ∧
      (as.foldl Mem.delete m).reloc = m.reloc := by
  induction as generalizing m with
  | nil => exact ⟨rfl, rfl, rfl⟩
  | cons a as ih => exact ih

theorem taken_deleteAll {as : List Addr} (ha : cfg.reuse = true → a ∉ as) (h : Taken cfg m a) :
    Taken cfg (as.foldl Mem.delete m) a := by
  induction as generalizing m with
  | nil => exact h
  | cons b as ih =>
    refine ih (fun hre hmem => ha hre (.tail _ hmem)) (MemInv.taken_delete (fun hre heq => ?_) h)
    exact ha hre (heq ▸ .head _)

/-- Every change is an evolution. -/
theorem Change.evolves (hc : Change cfg t spent m g m' g') (h : MemInv cfg m g) :
    Evolves cfg spent m g m' g' := by
  have hsame : ∀ {r : Addr}, ∃ st, m.reloc r = { m.reloc r with state := st } ∧
      (st = m.state r ∨ m.state r = .ongoing ∧ Public m g r) := ⟨_, rfl, .inl rfl⟩
  cases hc with
  | read =>
    exact .frame h rfl rfl rfl rfl rfl rfl rfl (fun _ => rfl) (fun _ => rfl) (fun _ => hsame)
      (fun _ => rfl) (fun _ => rfl) fun ha _ => ha
  | hpList w =>
    exact .frame h rfl rfl rfl rfl rfl rfl rfl (fun _ => rfl) (fun _ => rfl) (fun _ => hsame)
      (fun _ => rfl) (fun _ => rfl) fun ha _ => ha
  | observe =>
    refine .setStatus (.frame h rfl rfl rfl rfl rfl rfl rfl (fun _ => rfl) (fun _ => rfl)
      (fun _ => hsame) (fun _ => rfl) (fun _ => rfl) fun ha _ => ha)
  | @newNode a k ha =>
    have hborn : a ∉ g.born := fun hb => h.not_public_of_allocatable ha (.node hb)
    refine .frame h ?_ ?_ rfl rfl rfl rfl rfl (fun hx => ?_) (fun _ => rfl) (fun _ => hsame)
      (fun _ => rfl) (fun _ => rfl) fun hb _ => MemInv.taken_of_cell rfl (by simp) (by simp) hb
    · exact funext (MemInv.newNode_op hborn h)
    · exact funext₂ (MemInv.newNode_child hborn h)
    · simp [taken_of_ne_alloc ha hx]
  | newCas o ha =>
    refine .frame h rfl rfl rfl rfl rfl rfl rfl (fun _ => rfl) (fun hr => ?_) (fun _ => hsame)
      (fun hr => ?_) (fun _ => rfl) fun hb _ => MemInv.taken_of_cell rfl (by simp) (by simp) hb
    · simp [taken_of_ne_alloc ha hr]
    · exact Function.update_of_ne (taken_of_ne_alloc ha hr) ..
  | newReloc o x ha =>
    refine .frame h rfl rfl rfl rfl rfl rfl rfl (fun _ => rfl) (fun _ => rfl) (fun hr => ?_)
      (fun hr => ?_) (fun hr => ?_) fun hb _ => MemInv.taken_of_cell rfl (by simp) (by simp) hb
    · rw [Mem.newReloc_reloc, if_neg (taken_of_ne_alloc ha hr)]
      exact hsame
    · exact Function.update_of_ne (taken_of_ne_alloc ha hr) ..
    · exact Function.update_of_ne (taken_of_ne_alloc ha hr) ..
  | delete as has =>
    obtain ⟨hnode, hcas, hreloc⟩ := foldl_delete (m := m) as
    refine .frame h ?_ ?_ rfl rfl rfl rfl rfl (fun _ => ?_) (fun _ => ?_) (fun _ => ?_)
      (fun _ => rfl) (fun _ => rfl) fun hb hs => ?_
    · unfold Mem.op
      rw [hnode]
    · unfold Mem.child
      rw [hnode]
    · unfold Mem.key
      rw [hnode]
    · rw [hcas]
    · rw [hreloc]
      exact hsame
    · exact taken_deleteAll (fun hre hmem => hs (has _ hmem hre).1) hb
  | publishInsertion hi hr hn _ _ =>
    refine (Evolves.setOp (unmarked_of_flag (by simp [hi.flag])) (fun _ => .inr hr) ?_ ?_).setStatus
    · intro s hs _
      obtain rfl := congrArg Word.addr hs
      exact .inr (by simpa [hi.update] using hn)
    · intro s hs
      cases congrArg Word.flag hs
  | @publishSplicing x r c hi hr =>
    refine Evolves.setOp (unmarked_of_flag (by simp [hi.flag])) (fun _ => .inr hr) ?_ ?_
    · intro s hs hf
      obtain rfl : r = s := congrArg Word.addr hs
      have hx := h.mem_of_flag (x := x) (by simp [hi.flag]) hi.born
      have hcm := h.fits.child_mem hx (h.childPtr_eq_some.mpr (hi.slot.trans hi.expected))
      rw [hi.update] at hf ⊢
      left
      rcases h.replacement_cases hi.marked with ⟨hrep, _⟩ | ⟨e, _, hn, hrep⟩
      · simp [hrep] at hf
      · rw [hrep]
        exact .node (h.child_born (h.child_eq_ptr hn))
    · intro s hs
      cases congrArg Word.flag hs
  | link hop hslot hexp hupd hn h0 hgap =>
    exact (Evolves.link h hop hslot hexp hupd hn hgap).setStatus
  | unlink hop hslot hexp _ hm hupd => exact .unlink hop hslot hexp hm
  | clearCas hop hdone =>
    refine .setOp (unmarked_of_flag (by simp [hop])) (fun hr => .inl ?_) ?_ ?_
    · exact .op (w := .cas _) (.inl hop) hr
    · simp
    · simp
  | @mark x hx hroot hflag hempty _ =>
    refine (Evolves.setOp (unmarked_of_flag (by simp [hflag])) (fun hr => .inl ?_) ?_ ?_).setStatus
    · exact .op (w := m.op x) (.inl rfl) hr
    · intro s hs
      cases congrArg Word.flag hs
    · intro s hs
      cases congrArg Word.flag hs
  | publishRelocation hr hs _ _ =>
    refine (Evolves.setOp (unmarked_of_flag (by simp [hr.flag])) (fun _ => .inr hs) (by simp) ?_).setStatus
    intro s hs'
    obtain rfl := congrArg Word.addr hs'
    exact .inl hr.hidden.hidden
  | @commit r hr hop =>
    have hflag := (h.record hr).destOp_flag
    refine (Evolves.setOp (unmarked_of_flag (by simp [hop, hflag])) (fun hr0 => .inl ?_) (by simp) ?_).setStatus
    · exact .op (w := .rel r) hr hr0
    · intro s hs
      obtain rfl : r = s := congrArg Word.addr hs
      exact .inr ⟨hop, rfl⟩
  | @succeed r hst hcom =>
    refine .frame h rfl rfl rfl rfl rfl rfl rfl (fun _ => rfl) (fun _ => rfl)
      (fun {s} _ => ?_) (fun _ => rfl) (fun _ => rfl) fun ha _ => ha
    exact setState_reloc hst (h.rel_public hcom)
  | @fail r hr hst _ _ =>
    refine .setStatus (.frame h rfl rfl rfl rfl rfl rfl rfl (fun _ => rfl) (fun _ => rfl)
      (fun {s} _ => ?_) (fun _ => rfl) (fun _ => rfl) fun ha _ => ha)
    exact setState_reloc hst (h.rel_public hr)
  | rewrite hw => exact .rewrite h hw
  | @clearRelocation r hop hw =>
    refine .setOp (unmarked_of_flag (by simp [hop])) (fun hr => .inl ?_) (by simp) (by simp)
    exact .op (w := .rel r) (.inl hop) hr
  | @releaseMark r hop hq =>
    refine .setOp (unmarked_of_flag (by simp [hop])) (fun hr => .inl ?_) ?_ ?_
    · exact .op (w := .rel r) (.inl hop) hr
    · intro s hs
      cases congrArg Word.flag hs
    · intro s hs
      cases congrArg Word.flag hs
  | @releaseFailed r hop hst =>
    refine .setOp (unmarked_of_flag (by simp [hop])) (fun hr => .inl ?_) (by simp) (by simp)
    exact .op (w := .rel r) (.inl hop) hr

end LockFree
