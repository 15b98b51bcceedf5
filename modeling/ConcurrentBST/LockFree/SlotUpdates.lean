-- SUMMARY: The CAS on a child field keeps the memory invariant, whether it inserts a node or splices one out.
import ConcurrentBST.LockFree.OpUpdates

/-!
# Changes of a child field

Line 365 is the only place where a child field changes. The record it works
for is still installed, so the change is one of two: a new leaf is linked in,
or a marked node is spliced out.
-/

namespace LockFree

variable {cfg : Config} {m : Mem} {g : Ghost} {x y r s c n : Addr} {d e : Bool} {k : Int} {w v : Word}

/-- The history after a change of a child field of `x`. -/
def Ghost.setChild (g : Ghost) (m : Mem) (x : Addr) (d : Bool) : Ghost :=
  { g with pastChild := fun y e => {w | w ∈ g.pastChild y e ∨ (y = x ∧ e = d) ∧ w = m.child x d} }

/-- The history after `n` has been linked in. -/
def Ghost.link (g : Ghost) (m : Mem) (x : Addr) (d : Bool) (n : Addr) : Ghost :=
  { g.setChild m x d with tree := g.tree.insert x d n, born := insert n g.born }

/-- The history after `c` has been spliced out. -/
def Ghost.unlink (g : Ghost) (m : Mem) (x : Addr) (d : Bool) (c : Addr) : Ghost :=
  { g.setChild m x d with tree := g.tree.remove c }

@[simp] theorem link_tree : (g.link m x d n).tree = g.tree.insert x d n := rfl
@[simp] theorem link_born : (g.link m x d n).born = insert n g.born := rfl
@[simp] theorem link_pastOp : (g.link m x d n).pastOp = g.pastOp := rfl
@[simp] theorem link_rewritten : (g.link m x d n).rewritten = g.rewritten := rfl
@[simp] theorem link_owner : (g.link m x d n).owner = g.owner := rfl
@[simp] theorem link_replace : (g.link m x d n).replace = g.replace := rfl
@[simp] theorem link_status : (g.link m x d n).status = g.status := rfl

@[simp] theorem unlink_tree : (g.unlink m x d c).tree = g.tree.remove c := rfl
@[simp] theorem unlink_born : (g.unlink m x d c).born = g.born := rfl
@[simp] theorem unlink_pastOp : (g.unlink m x d c).pastOp = g.pastOp := rfl
@[simp] theorem unlink_rewritten : (g.unlink m x d c).rewritten = g.rewritten := rfl
@[simp] theorem unlink_owner : (g.unlink m x d c).owner = g.owner := rfl
@[simp] theorem unlink_replace : (g.unlink m x d c).replace = g.replace := rfl
@[simp] theorem unlink_status : (g.unlink m x d c).status = g.status := rfl

@[simp] theorem mem_link_pastChild : v ∈ (g.link m x d n).pastChild y e ↔
    v ∈ g.pastChild y e ∨ (y = x ∧ e = d) ∧ v = m.child x d := Iff.rfl

@[simp] theorem mem_unlink_pastChild : v ∈ (g.unlink m x d c).pastChild y e ↔
    v ∈ g.pastChild y e ∨ (y = x ∧ e = d) ∧ v = m.child x d := Iff.rfl

theorem childPtr_setChild : (m.setChild x d w).childPtr y e =
    if y = x ∧ e = d then (if isNull w then none else some w.addr) else m.childPtr y e := by
  unfold Mem.childPtr
  rw [Mem.setChild_child]
  split <;> rfl

@[simp] theorem marked_setChild : (m.setChild x d w).marked y ↔ m.marked y := by
  simp [Mem.marked]

theorem replacement_setChild (hne : y ≠ x) :
    (m.setChild x d w).replacement y = m.replacement y := by
  simp [Mem.replacement, hne]

/-! Nothing an `op` field ever held is affected. -/

section Frame

variable {g' : Ghost} (hpast : g'.pastOp = g.pastOp) (hrew : g'.rewritten = g.rewritten)
  (hrep : g'.replace = g.replace)

include hpast

theorem everOp_setChild : everOp (m.setChild x d w) g' y v ↔ everOp m g y v := by
  simp [everOp, hpast]

theorem committed_setChild : committed (m.setChild x d w) g' r ↔ committed m g r :=
  everOp_setChild hpast

omit hpast in
include hrew in
theorem gone_setChild : gone (m.setChild x d w) g' y ↔ gone m g y := by
  simp [gone, hrew]

include hrep in
theorem installed_setChild : installed (m.setChild x d w) g' r ↔ installed m g r := by
  unfold installed
  rw [everOp_setChild hpast, hrep]

theorem HistoryInv.setChild (h : HistoryInv m g)
    (hpc : g'.pastChild = (g.setChild m x d).pastChild) (hnew : w ∉ g.pastChild x d)
    (hne : w ≠ m.child x d) : HistoryInv (m.setChild x d w) g' where
  op_fresh := by simpa [hpast] using h.op_fresh
  child_fresh := by
    intro y e
    rw [Mem.setChild_child, hpc]
    split
    · next hyx =>
      obtain ⟨rfl, rfl⟩ := hyx
      rintro (hp | ⟨_, hp⟩)
      · exact hnew hp
      · exact hne hp
    · next hyx =>
      rintro (hp | ⟨hyx', _⟩)
      · exact h.child_fresh y e hp
      · exact hyx hyx'
  past_unmarked := by
    rw [hpast]
    exact h.past_unmarked
  installed_first := by
    rw [Mem.setChild_op, hpast]
    exact h.installed_first
  stamp := by
    simp only [everOp_setChild hpast]
    exact h.stamp
  typed := by
    simp only [everOp_setChild hpast]
    exact h.typed
  root_op := by simpa using h.root_op

/-- The change that was due on `x` is made, and what is due elsewhere stays due. -/
theorem CasInv.setChild (h : CasInv m g) (hop : m.op x = .cas r) (hd : (m.cas r).isLeft = d)
    (hslot : m.child x d = (m.cas r).expected) (hupd : (m.cas r).update = w)
    (hpc : g'.pastChild = (g.setChild m x d).pastChild) (hborn : g.born ⊆ g'.born)
    (hpend : ∀ y s, y ≠ x → m.op y = .cas s →
      m.child y (m.cas s).isLeft = (m.cas s).expected → Pending m g y s →
      Pending (m.setChild x d w) g' y s) :
    CasInv (m.setChild x d w) g' where
  slot := by
    intro y s hy
    rw [Mem.setChild_op] at hy
    simp only [Mem.setChild_cas, hpc]
    by_cases hyx : y = x
    · subst hyx
      obtain rfl : r = s := by simpa [hop] using hy
      exact .inr ⟨by simp [hd, hupd], .inr ⟨⟨rfl, hd⟩, hslot.symm⟩⟩
    · rcases h.slot hy with ⟨hs, hp⟩ | ⟨hs, hp⟩
      · exact .inl ⟨by simpa [hyx] using hs, hpend y s hyx hy hs hp⟩
      · exact .inr ⟨by simpa [hyx] using hs, .inl hp⟩
  done := by
    intro y s hs
    rw [hpast] at hs
    rw [hpc]
    exact .inl (h.done hs)
  unique := by
    intro y z s hy hz
    rw [everOp_setChild hpast] at hy hz
    exact h.unique hy hz
  update_unique := by
    intro y z s s' n' hy hz hn' hu hu'
    rw [Mem.setChild_op] at hy hz
    exact h.update_unique hy hz (fun hb => hn' (hborn hb)) hu hu'

include hrew hrep in
theorem RelocInv.setChild (h : RelocInv m g) (hx : ∀ r, m.op x ≠ .rel r)
    (hborn : g.born ⊆ g'.born)
    (hadj : ∀ r, m.op (g.replace r) = .rel r → Relocation m g r →
      g.tree.Adjacent (m.reloc r).dest (g.replace r) →
      (m.op (m.reloc r).dest).flag ≠ .mark →
      g'.tree.Adjacent (m.reloc r).dest (g.replace r)) :
    RelocInv (m.setChild x d w) g' where
  place := by
    intro y r hy
    rw [everOp_setChild hpast] at hy
    rw [installed_setChild hpast hrep, hrep]
    exact h.place hy
  rewritten_installed := by
    intro r hr
    rw [installed_setChild hpast hrep]
    exact h.rewritten_installed (hrew ▸ hr)
  record := by
    intro r hr
    rw [installed_setChild hpast hrep] at hr
    have hR := h.record hr
    exact {
      ne_zero := hR.ne_zero
      dest_born := hborn hR.dest_born
      dest_ne_root := hR.dest_ne_root
      dest_ne_replace := hrep ▸ hR.dest_ne_replace
      destOp_ever := (everOp_setChild hpast).mpr hR.destOp_ever
      destOp_flag := hR.destOp_flag
      held := by
        rw [hrep]
        intro hop
        rw [Mem.setChild_op] at hop
        have hne : g.replace r ≠ x := fun heq => hx r (heq ▸ hop)
        simpa [hne] using hR.held hop
      ongoing_held := by
        rw [hrep]
        simpa using hR.ongoing_held
      ready := by
        rw [hrep]
        simp only [Mem.setChild_op, Mem.setChild_reloc, Mem.setChild_key]
        intro hd hop
        have hready := hR.ready hd hop
        have hflag := hR.destOp_flag
        exact ⟨hadj r hop hR hready.1 (by simp [hd, hflag]), hready.2⟩
      busy := by
        rw [hrep, hrew]
        simp only [Mem.setChild_op, Mem.setChild_reloc, Mem.setChild_key]
        intro hd
        have hbusy := hR.busy hd
        exact ⟨hbusy.1, hadj r hbusy.1 hR hbusy.2.1 (by simp [hd]), hbusy.2.2⟩
      finished := by simpa [hpast, hrew, everOp_setChild hpast] using hR.finished
      rewritten := by simpa [hrew, committed_setChild hpast] using hR.rewritten
      commit_past := by simpa [hpast, committed_setChild hpast] using hR.commit_past
      succeeded := by simpa [committed_setChild hpast] using hR.succeeded
      failed := by simpa [hpast] using hR.failed
      released := by simpa [hpast, hrep] using hR.released }

end Frame

/-! ## Linking a new leaf in -/

theorem TreeInv.not_below_root (h : TreeInv m g) : ¬ g.tree.Below y e baseRoot := by
  intro hy
  by_cases hyr : y = baseRoot
  · subst hyr
    exact h.lawful.irrefl hy
  · exact h.lawful.irrefl (h.lawful.trans (h.right_of_root hy.mem hyr) hy)

theorem TreeInv.not_before_root (h : TreeInv m g) (hy : y ∈ g.tree.nodes) :
    ¬ g.tree.Before y baseRoot := by
  intro hb
  rcases hb with hb | hb | ⟨z, _, hz⟩
  · by_cases hyr : y = baseRoot
    · exact h.not_below_root (hyr ▸ hb)
    · simpa using h.lawful.unique (h.right_of_root hy hyr) hb
  · exact h.not_below_root hb
  · exact h.not_below_root hz

/-- A gap that stays empty still separates the keys when a leaf is linked in elsewhere. -/
theorem TreeInv.gap_link {m' : Mem} (h : TreeInv m g) (hi : g.tree.Insertable m.childPtr x d n)
    (hF' : (g.tree.insert x d n).Fits m'.childPtr) (hkey : m'.key = m.key)
    (hgap : Gap m g x d (m.key n)) (hy : y ∈ g.tree.nodes) (hnone : m'.childPtr y e = none)
    (h' : Gap m g y e k) : Gap m' (g.link m x d n) y e k where
  root := h'.root
  before := by
    intro z hz hzr hb
    rw [hkey]
    have hyn : y ≠ n := fun heq => hi.fresh (heq ▸ hy)
    by_cases hzn : z = n
    · subst hzn
      obtain ⟨v, hv, h₁, h₂⟩ := hi.beforeGap_new h.fits hF' hy hnone hb
      have hvr : v ≠ baseRoot := by
        rintro rfl
        rcases h₁ with h₁ | ⟨rfl, rfl⟩
        · exact h.not_before_root hi.parent h₁
        · simpa using hgap.root rfl
      exact (hgap.after v hv hvr h₁).trans (h'.before v hv hvr h₂)
    · exact h'.before z (hz.resolve_left hzn) hzr ((hi.beforeGap_old hyn hzn).mp hb)
  after := by
    intro z hz hzr hb
    rw [hkey]
    have hyn : y ≠ n := fun heq => hi.fresh (heq ▸ hy)
    by_cases hzn : z = n
    · subst hzn
      obtain ⟨v, hv, h₁, h₂⟩ := hi.afterGap_new h.fits hF' hy hnone hb
      have hvr : v ≠ baseRoot := by
        rintro rfl
        rcases h₂ with h₂ | ⟨rfl, rfl⟩
        · exact h.not_before_root hy h₂
        · simpa using h'.root rfl
      exact (h'.after v hv hvr h₂).trans (hgap.before v hv hvr h₁)
    · exact h'.after z (hz.resolve_left hzn) hzr ((hi.afterGap_old hyn hzn).mp hb)

namespace MemInv

theorem mem_of_flag (h : MemInv cfg m g) (hx : (m.op x).flag ≠ .mark) (hborn : x ∈ g.born) :
    x ∈ g.tree.nodes :=
  h.mem_of_unmarked hborn hx

theorem born_of_flag (h : MemInv cfg m g) (hx : (m.op x).flag ≠ .none) : x ∈ g.born := by
  by_contra hb
  rw [(h.unborn hb).1] at hx
  exact hx rfl

/-- An installed record that inserts finds its place in the tree as the tree asks for. -/
theorem insertable (h : MemInv cfg m g) (hop : m.op x = .cas r) (hnull : isNull (m.child x d))
    (hn : n ∉ g.born) : g.tree.Insertable m.childPtr x d n where
  parent := h.mem_of_flag (by simp [hop]) (h.born_of_flag (by simp [hop]))
  empty := Mem.childPtr_eq_none.mpr hnull
  fresh := fun hmem => hn (h.born_of_mem hmem)
  unborn := fun y e hb => hn (h.born_of_anc hb)
  childless := fun e => Mem.childPtr_eq_none.mpr (by rw [(h.unborn hn).2 e]; rfl)
  unpointed := fun y e hc => hn (h.child_born (h.childPtr_eq_some.mp hc))

theorem fits_link (h : MemInv cfg m g) (hi : g.tree.Insertable m.childPtr x d n) :
    (g.tree.insert x d n).Fits (m.setChild x d (.ptr n)).childPtr := by
  refine hi.fits h.fits ?_ fun y e hne => ?_
  · simp [childPtr_setChild, isNull]
  · rw [childPtr_setChild, if_neg hne]

theorem treeInv_link (h : MemInv cfg m g) (hop : m.op x = .cas r) {a : Addr}
    (hslot : m.child x d = .null a) (hn : n ∉ g.born) (hn0 : n ≠ 0)
    (hroot : x = baseRoot → d = false) :
    TreeInv (m.setChild x d (.ptr n)) (g.link m x d n) := by
  have hi := h.insertable hop (by rw [hslot]; rfl) hn
  have hxn : x ≠ n := hi.ne_parent
  exact {
    lawful := hi.lawful h.lawful h.fits
    fits := h.fits_link hi
    finite := h.finite.insert n
    root := .inr h.root
    right_of_root := by
      intro y hy hyr
      by_cases hyn : y = n
      · subst hyn
        by_cases hxr : x = baseRoot
        · exact hi.below_new.mpr (.inr ⟨hxr.symm, (hroot hxr).symm⟩)
        · exact hi.below_new.mpr (.inl (h.right_of_root hi.parent hxr))
      · exact (hi.below_old hyn).mpr (h.right_of_root (hy.resolve_left hyn) hyr)
    born_of_mem := by
      intro y hy
      exact hy.imp_right h.born_of_mem
    born_of_anc := by
      rintro y z f (⟨_, hz⟩ | ⟨_, hz | hz⟩)
      · exact .inr (h.born_of_anc hz)
      · exact .inr (h.born_of_mem hz.1)
      · obtain rfl : z = x := congrArg Prod.fst hz
        exact .inr (h.born_of_mem hi.parent)
    zero_unborn := by
      rintro (heq | hb)
      · exact hn0 heq.symm
      · exact h.zero_unborn hb
    unborn := by
      intro y hy
      have hyb : y ∉ g.born := fun hb => hy (.inr hb)
      have hyx : y ≠ x := fun heq => hyb (heq ▸ h.born_of_mem hi.parent)
      simpa [hyx] using h.unborn hyb
    child_flag := by
      intro y f
      rw [Mem.setChild_child]
      split
      · exact .inl rfl
      · exact h.child_flag y f
    child_born := by
      intro y f z hz
      rw [Mem.setChild_child] at hz
      split at hz
      · exact .inl (congrArg Word.addr hz).symm
      · exact .inr (h.child_born hz)
    null_spliced := by
      intro y f b hb
      have hold : b = 0 ∨ b ∈ g.born ∧ b ∉ g.tree.nodes := by
        rcases hb with hb | hb | ⟨⟨rfl, rfl⟩, hb⟩
        · rw [Mem.setChild_child] at hb
          split at hb
          · cases congrArg Word.flag hb
          · exact h.null_spliced (.inl hb)
        · exact h.null_spliced (.inr hb)
        · exact h.null_spliced (.inl hb.symm)
      refine hold.imp_right fun ⟨hborn, hmem⟩ => ⟨.inr hborn, ?_⟩
      rintro (rfl | hmem')
      · exact hn hborn
      · exact hmem hmem'
    past_spliced := by
      intro y f z hz
      rcases hz with hz | ⟨_, hz⟩
      · obtain ⟨hb, hmem⟩ := h.past_spliced hz
        refine ⟨.inr hb, ?_⟩
        rintro (rfl | hmem')
        · exact hn hb
        · exact hmem hmem'
      · rw [hslot] at hz
        cases congrArg Word.flag hz
    mem_of_unmarked := by
      intro y hy hm
      rw [marked_setChild] at hm
      exact hy.imp_right fun hy => h.mem_of_unmarked hy hm
    marked_empty := by
      intro y hm
      rw [marked_setChild] at hm
      have hyx : y ≠ x := by
        rintro rfl
        simp [Mem.marked, hop] at hm
      simpa [hyx] using h.marked_empty hm
    root_unmarked := by simpa using h.root_unmarked }

/-- The new node was known from the record that inserts it. -/
theorem public_link (hop : m.op x = .cas r) (hupd : (m.cas r).update = .ptr n) {b : Addr}
    (hb : Public (m.setChild x d (.ptr n)) (g.link m x d n) b) : Public m g b := by
  refine .of_ever hb ?_ (everOp_setChild rfl).mp fun _ => rfl
  rintro y (rfl | hy)
  · exact .update_ptr hop hupd
  · exact .node hy

/-- The new key is in its gap. -/
theorem orderInv_link (h : MemInv cfg m g) (hi : g.tree.Insertable m.childPtr x d n)
    (hgap : Gap m g x d (m.key n)) :
    OrderInv (m.setChild x d (.ptr n)) (g.link m x d n) where
  sorted := by
    intro y z hy hz hyr hzr hyz
    have hgone : ∀ z, gone (m.setChild x d (.ptr n)) (g.link m x d n) z ↔ gone m g z := fun _ =>
      gone_setChild rfl
    simp only [Mem.setChild_key, hgone]
    by_cases hyn : y = n <;> by_cases hzn : z = n
    · subst hyn hzn
      exact absurd hyz (hi.lawful h.lawful h.fits).before_irrefl
    · subst hyn
      have hlt := hgap.after z (hz.resolve_left hzn) hzr
        ((hi.new_before h.fits (hz.resolve_left hzn)).mp hyz)
      exact ⟨hlt.le, fun _ _ => hlt⟩
    · subst hzn
      have hlt := hgap.before y (hy.resolve_left hyn) hyr
        ((hi.before_new h.fits (hy.resolve_left hyn)).mp hyz)
      exact ⟨hlt.le, fun _ _ => hlt⟩
    · exact h.sorted (hy.resolve_left hyn) (hz.resolve_left hzn) hyr hzr
        ((hi.before_old hyn hzn).mp hyz)

/-- A record on another node inserts another leaf, or splices out a node that is still there. -/
theorem pending_link (h : MemInv cfg m g) (hi : g.tree.Insertable m.childPtr x d n)
    (hop : m.op x = .cas r) (hupd : (m.cas r).update = .ptr n) (hgap : Gap m g x d (m.key n))
    (hyx : y ≠ x) (hy : m.op y = .cas s)
    (hs : m.child y (m.cas s).isLeft = (m.cas s).expected) (hp : Pending m g y s) :
    Pending (m.setChild x d (.ptr n)) (g.link m x d n) y s := by
  cases hp with
  | insertion b n' he hu hn' h0 hgap' =>
    have hne : n' ≠ n := fun heq => hyx (h.update_unique hy hop hn' hu (heq ▸ hupd))
    refine .insertion b n' he hu ?_ h0 ?_
    · rintro (heq | hb)
      · exact hne heq
      · exact hn' hb
    · refine h.gap_link hi (h.fits_link hi) (Mem.setChild_key ..) hgap
        (h.mem_of_flag (by simp [hy]) (h.born_of_flag (by simp [hy]))) ?_ (by simpa using hgap')
      simp only [childPtr_setChild, hyx, false_and, if_false, Mem.setChild_cas]
      exact Mem.childPtr_eq_none.mpr (by rw [hs, he]; rfl)
  | splice c he hc hm hu =>
    have hcx : c ≠ x := by
      rintro rfl
      simp [Mem.marked, hop] at hm
    exact .splice c he (.inr hc) (marked_setChild.mpr hm)
      (hu.trans (replacement_setChild hcx).symm)

/-- Line 365 for a record of `add`. -/
theorem link (h : MemInv cfg m g) (hop : m.op x = .cas r) {a : Addr}
    (hslot : m.child x (m.cas r).isLeft = (m.cas r).expected)
    (hexp : (m.cas r).expected = .null a) (hupd : (m.cas r).update = .ptr n)
    (hn : n ∉ g.born) (hn0 : n ≠ 0) (hgap : Gap m g x (m.cas r).isLeft (m.key n)) :
    MemInv cfg (m.setChild x (m.cas r).isLeft (.ptr n)) (g.link m x (m.cas r).isLeft n) := by
  generalize hd : (m.cas r).isLeft = d at *
  have hslot' : m.child x d = .null a := hslot.trans hexp
  have hi := h.insertable hop (d := d) (by rw [hslot']; rfl) hn
  refine ⟨h.treeInv_link hop hslot' hn hn0 hgap.root, ?_, h.orderInv_link hi hgap, ?_, ?_, ?_⟩
  · refine HistoryInv.setChild (g := g) rfl h.toHistoryInv rfl (fun hp => hn (h.past_spliced hp).1) ?_
    simp [hslot']
  · exact CasInv.setChild (g := g) rfl h.toCasInv hop hd hslot hupd rfl (fun _ hb => .inr hb)
      fun _ _ hyx hy hs hp => h.pending_link hi hop hupd hgap hyx hy hs hp
  · refine RelocInv.setChild (g := g) rfl rfl rfl h.toRelocInv (by simp [hop])
      (fun _ hb => .inr hb) ?_
    intro s hs hR hadj hflag
    apply hi.adjacent h.fits hadj (h.mem_of_flag (by simp [hs]) (h.born_of_flag (by simp [hs])))
    rintro ⟨rfl, _⟩
    simp [hop] at hs
  · intro b hb
    change Taken cfg m b
    exact h.taken (public_link hop hupd hb)

/-! ## Splicing a marked node out -/

/-- The pointer that takes the place of a marked node is its only child, or none. -/
theorem childPtr_replacement (h : MemInv cfg m g) (hm : m.marked c) :
    ∃ e, m.childPtr c e = none ∧
      (m.setChild x d (m.replacement c)).childPtr x d = m.childPtr c (!e) := by
  simp only [childPtr_setChild, and_self, if_true]
  rcases h.replacement_cases hm with ⟨hrep, hnull⟩ | ⟨e, he, _, hrep⟩
  · refine ⟨true, Mem.childPtr_eq_none.mpr (hnull true), ?_⟩
    rw [hrep, Bool.not_true, Mem.childPtr_eq_none.mpr (hnull false)]
    rfl
  · exact ⟨e, Mem.childPtr_eq_none.mpr he, by rw [hrep]; rfl⟩

theorem spliceable (h : MemInv cfg m g) (hop : m.op x = .cas r) (hslot : m.child x d = .ptr c)
    (hempty : m.childPtr c e = none) : g.tree.Spliceable m.childPtr x d c e where
  parent := h.mem_of_flag (by simp [hop]) (h.born_of_flag (by simp [hop]))
  slot := h.childPtr_eq_some.mpr hslot
  empty := hempty

theorem treeInv_unlink (h : MemInv cfg m g) (hop : m.op x = .cas r)
    (hslot : m.child x d = .ptr c) (hm : m.marked c) :
    TreeInv (m.setChild x d (m.replacement c)) (g.unlink m x d c) := by
  obtain ⟨e, he, hset⟩ := h.childPtr_replacement (x := x) (d := d) hm
  have hs := h.spliceable hop hslot he
  have hcr : baseRoot ≠ c := by
    rintro rfl
    exact h.root_unmarked hm
  have hx : x ∈ g.born := h.born_of_mem hs.parent
  have hc : c ∈ g.born := h.born_of_mem (hs.mem h.fits)
  exact {
    lawful := hs.lawful h.lawful h.fits
    fits := by
      refine hs.fits h.lawful h.fits hset fun y f hne => ?_
      rw [childPtr_setChild, if_neg hne]
    finite := h.finite.subset fun y hy => hy.1
    root := ⟨h.root, hcr⟩
    right_of_root := by
      intro y hy hyr
      exact Ancestry.below_remove.mpr ⟨h.right_of_root hy.1 hyr, hcr⟩
    born_of_mem := by
      intro y hy
      exact h.born_of_mem hy.1
    born_of_anc := h.born_of_anc
    zero_unborn := h.zero_unborn
    unborn := by
      intro y hy
      have hyx : y ≠ x := fun heq => hy (heq ▸ hx)
      simpa [hyx] using h.unborn hy
    child_flag := by
      intro y f
      rw [Mem.setChild_child]
      split
      · rcases h.replacement_cases hm with ⟨hrep, _⟩ | ⟨e', _, _, hrep⟩
        · exact .inr (by rw [hrep])
        · rw [hrep]
          exact h.child_flag c _
      · exact h.child_flag y f
    child_born := by
      intro y f z hz
      rw [Mem.setChild_child] at hz
      split at hz
      · rcases h.replacement_cases hm with ⟨hrep, _⟩ | ⟨e', _, _, hrep⟩
        · rw [hrep] at hz
          cases congrArg Word.flag hz
        · exact h.child_born (hrep ▸ hz)
      · exact h.child_born hz
    null_spliced := by
      have hout : ∀ b, b = 0 ∨ b ∈ g.born ∧ b ∉ g.tree.nodes →
          b = 0 ∨ b ∈ g.born ∧ b ∉ (g.tree.remove c).nodes := fun b hb =>
        hb.imp_right fun hb => ⟨hb.1, fun hmem => hb.2 hmem.1⟩
      intro y f b hb
      rcases hb with hb | hb | ⟨_, hb⟩
      · rw [Mem.setChild_child] at hb
        split at hb
        · rcases h.replacement_cases hm with ⟨hrep, _⟩ | ⟨e', _, hn, hrep⟩
          · obtain rfl : c = b := by simpa using hrep.symm.trans hb
            exact .inr ⟨hc, fun hmem => hmem.2 rfl⟩
          · rw [← hrep, hb] at hn
            simp [isNull] at hn
        · exact hout b (h.null_spliced (.inl hb))
      · exact hout b (h.null_spliced (.inr hb))
      · rw [hslot] at hb
        cases congrArg Word.flag hb
    past_spliced := by
      intro y f z hz
      rcases hz with hz | ⟨_, hz⟩
      · have hz := h.past_spliced hz
        exact ⟨hz.1, fun hmem => hz.2 hmem.1⟩
      · obtain rfl : c = z := by simpa [eq_comm] using hslot.symm.trans hz.symm
        exact ⟨hc, fun hmem => hmem.2 rfl⟩
    mem_of_unmarked := by
      intro y hy hym
      rw [marked_setChild] at hym
      exact ⟨h.mem_of_unmarked hy hym, fun heq => hym (heq ▸ hm)⟩
    marked_empty := by
      intro y hym
      rw [marked_setChild] at hym
      have hyx : y ≠ x := by
        rintro rfl
        simp [Mem.marked, hop] at hym
      simpa [hyx] using h.marked_empty hym
    root_unmarked := by simpa using h.root_unmarked }

/-- The gaps around the nodes that stay are not affected. -/
theorem gap_unlink {m' : Mem} (hkey : m'.key = m.key) (h : Gap m g y e k) :
    Gap m' (g.unlink m x d c) y e k where
  root := h.root
  before := fun z hz hzr hb => by
    rw [hkey]
    exact h.before z hz.1 hzr hb.of_remove
  after := fun z hz hzr hb => by
    rw [hkey]
    exact h.after z hz.1 hzr hb.of_remove

/-- The word that takes the place of a marked child is new in the slot. -/
theorem replacement_fresh (h : MemInv cfg m g) (hm : m.marked c) (hc : c ∈ g.tree.nodes) :
    m.replacement c ∉ g.pastChild x d ∧ m.replacement c ≠ .ptr c := by
  rcases h.replacement_cases hm with ⟨hrep, _⟩ | ⟨e, _, hn, hrep⟩
  · rw [hrep]
    refine ⟨fun hp => ?_, fun hp => by cases congrArg Word.flag hp⟩
    rcases h.null_spliced (.inr hp) with rfl | hp
    · exact h.zero_unborn (h.born_of_mem hc)
    · exact hp.2 hc
  · -- The child is in the tree, and what the slot pointed to before is not.
    have hptr := h.child_eq_ptr hn
    have hc' := h.childPtr_eq_some.mpr hptr
    rw [hrep]
    refine ⟨fun hp => (h.past_spliced (hptr ▸ hp)).2 (h.fits.child_mem hc hc'), fun hp => ?_⟩
    obtain heq : (m.child c (!e)).addr = c := congrArg Word.addr hp
    rw [heq] at hc'
    exact h.lawful.irrefl (h.fits.child_below hc hc')

/-- A record on another node splices out another node. -/
theorem pending_unlink (h : MemInv cfg m g) (hop : m.op x = .cas r)
    (hslot : m.childPtr x d = some c) (hyx : y ≠ x) (hy : m.op y = .cas s)
    (hs : m.child y (m.cas s).isLeft = (m.cas s).expected) (hp : Pending m g y s) :
    Pending (m.setChild x d (m.replacement c)) (g.unlink m x d c) y s := by
  have hmem : ∀ {z s}, m.op z = .cas s → z ∈ g.tree.nodes := fun hz =>
    h.mem_of_flag (by simp [hz]) (h.born_of_flag (by simp [hz]))
  cases hp with
  | insertion b n' he hu hn' h0 hgap =>
    exact .insertion b n' he hu hn' h0 (gap_unlink (Mem.setChild_key ..) (by simpa using hgap))
  | splice c' he hc' hm hu =>
    have hne : c' ≠ c := by
      rintro rfl
      exact hyx (h.fits.child_inj h.lawful (hmem hy) (hmem hop)
        (h.childPtr_eq_some.mpr (hs.trans he)) hslot).1
    have hcx : c' ≠ x := by
      rintro rfl
      simp [Mem.marked, hop] at hm
    exact .splice c' he ⟨hc', hne⟩ (marked_setChild.mpr hm)
      (hu.trans (replacement_setChild hcx).symm)

/-- Line 365 for a record of `helpMarked`. -/
theorem unlink (h : MemInv cfg m g) (hop : m.op x = .cas r)
    (hslot : m.child x (m.cas r).isLeft = (m.cas r).expected)
    (hexp : (m.cas r).expected = .ptr c) (hm : m.marked c)
    (hupd : (m.cas r).update = m.replacement c) :
    MemInv cfg (m.setChild x (m.cas r).isLeft (m.replacement c))
      (g.unlink m x (m.cas r).isLeft c) := by
  generalize hd : (m.cas r).isLeft = d at *
  have hslot' : m.child x d = .ptr c := hslot.trans hexp
  obtain ⟨e, he, _⟩ := h.childPtr_replacement (x := x) (d := d) hm
  have hs := h.spliceable hop hslot' he
  obtain ⟨hnew, hne⟩ := h.replacement_fresh (x := x) (d := d) hm (hs.mem h.fits)
  refine ⟨h.treeInv_unlink hop hslot' hm, ?_, ?_, ?_, ?_, ?_⟩
  · exact HistoryInv.setChild (g := g) rfl h.toHistoryInv rfl hnew (hslot' ▸ hne)
  · constructor
    intro y z hy hz hyr hzr hyz
    have hgone : ∀ z, gone (m.setChild x d (m.replacement c)) (g.unlink m x d c) z ↔ gone m g z := fun _ =>
      gone_setChild rfl
    simp only [Mem.setChild_key, hgone]
    exact h.sorted hy.1 hz.1 hyr hzr hyz.of_remove
  · exact CasInv.setChild (g := g) rfl h.toCasInv hop hd hslot hupd rfl subset_rfl
      fun _ _ hyx hy hs' hp => h.pending_unlink hop hs.slot hyx hy hs' hp
  · refine RelocInv.setChild (g := g) rfl rfl rfl h.toRelocInv (by simp [hop])
      (fun _ hb => hb) ?_
    intro s _ _ hadj hflag
    exact hadj.remove fun heq => hflag (heq ▸ hm)
  · intro b hb
    change Taken cfg m b
    exact h.taken (.of_ever hb (fun hy => .node hy) (everOp_setChild rfl).mp fun _ => rfl)

end MemInv

end LockFree
