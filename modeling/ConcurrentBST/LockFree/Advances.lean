-- SUMMARY: What each change achieves: it finishes a call, splices out a node, settles an op field, moves a relocation round, or is private.
import ConcurrentBST.LockFree.Releases

/-!
# Advances

Most changes can happen only finitely often unless calls keep taking effect:
they bring the `op` field of a node closer to a word it can rest at. The
exception is a relocation that is installed, fails and is released, which
leaves the field as it was.
-/

namespace LockFree

variable {cfg : Config} {m m' : Mem} {g g' : Ghost} {x y r s a b n c : Addr} {d e : Bool}
  {w : Word} {t u : Tid} {spent : Addr → Prop}

-- ---------------------------------------------------------------------------
-- Calls that have taken effect
-- ---------------------------------------------------------------------------

/-- The call of the thread has taken effect. -/
def Status.Finished : Status → Prop
  | .done _ => True
  | .idle | .waiting _ | .published _ _ => False

theorem StatusInv.not_finished (hs : StatusInv m g) {call : Call} (hu : Unresolved m g call r) :
    ¬ (g.status (g.owner r)).Finished := by
  rw [(hs (g.owner r) call r).mpr ⟨rfl, hu⟩]
  exact id

/-- No change takes the effect of a call back. -/
theorem Change.finished (hc : Change cfg t spent m g m' g') (h : MemInv cfg m g)
    (hs : StatusInv m g) (hu : (g.status u).Finished) : (g'.status u).Finished := by
  -- A new status is either that of another thread or replaces one that is not finished.
  have hother : ∀ {v : Tid} {st : Status} {g₀ : Ghost}, g₀.status = g.status →
      ¬ (g.status v).Finished → ((g₀.setStatus v st).status u).Finished := by
    intro v st g₀ hg hv
    have huv : u ≠ v := fun heq => hv (heq ▸ hu)
    have heq : (g₀.setStatus v st).status u = g.status u := by
      rw [← hg]
      exact Function.update_of_ne huv ..
    exact heq ▸ hu
  have hwaiting : ∀ {call}, g.status t = .waiting call → ¬ (g.status t).Finished := by
    intro call hw
    rw [hw]
    exact id
  cases hc with
  | observe hw => exact hother rfl (hwaiting hw)
  | publishInsertion _ _ _ _ hw => exact hother rfl (hwaiting hw)
  | link hop hslot hexp hupd =>
    exact hother rfl (hs.not_finished (.add hop hslot (by rw [hexp]) hupd))
  | mark _ _ _ _ hw => exact hother rfl (hwaiting hw)
  | publishRelocation _ _ _ hw => exact hother rfl (hwaiting hw)
  | commit hr hop =>
    obtain ⟨hnc, hnf⟩ := h.open_of_ready hr hop
    exact hother rfl (hs.not_finished (.remove hr hnc hnf))
  | fail hr hst hnc =>
    exact hother rfl (hs.not_finished (.remove hr hnc (by simp [hst])))
  | _ => exact hu

-- ---------------------------------------------------------------------------
-- Unrest
-- ---------------------------------------------------------------------------

open Classical in
/-- How far the `op` field of a node is from the words it can rest at: from a
    mark, and from a child CAS record whose slot nobody moves any more. A
    relocation that may still be released counts like no flag at all. -/
noncomputable def unrest (m : Mem) (g : Ghost) (x : Addr) : Nat :=
  match m.op x with
  | ⟨_, .none⟩ => 1
  | ⟨_, .mark⟩ => 0
  | ⟨r, .childCas⟩ => if m.child x (m.cas r).isLeft = (m.cas r).expected then 0 else 2
  | ⟨r, .relocate⟩ =>
      if (m.reloc r).dest = x then if r ∈ g.rewritten then 2 else 3
      else if m.state r = .ongoing ∧ committed m g r then 2 else 1

theorem unrest_none (h : (m.op x).flag = .none) : unrest m g x = 1 := by
  unfold unrest
  generalize m.op x = w at h
  obtain ⟨a, f⟩ := w
  cases h
  rfl

theorem unrest_mark (h : (m.op x).flag = .mark) : unrest m g x = 0 := by
  unfold unrest
  generalize m.op x = w at h
  obtain ⟨a, f⟩ := w
  cases h
  rfl

theorem unrest_cas_ready (h : m.op x = .cas r)
    (hslot : m.child x (m.cas r).isLeft = (m.cas r).expected) : unrest m g x = 0 := by
  unfold unrest
  rw [h]
  exact if_pos hslot

theorem unrest_cas_moved (h : m.op x = .cas r)
    (hslot : m.child x (m.cas r).isLeft ≠ (m.cas r).expected) : unrest m g x = 2 := by
  unfold unrest
  rw [h]
  exact if_neg hslot

open Classical in
theorem unrest_dest (h : m.op (m.reloc r).dest = .rel r) :
    unrest m g (m.reloc r).dest = if r ∈ g.rewritten then 2 else 3 := by
  unfold unrest
  rw [h]
  exact if_pos rfl

open Classical in
theorem unrest_replace (h : m.op x = .rel r) (hx : (m.reloc r).dest ≠ x) :
    unrest m g x = if m.state r = .ongoing ∧ committed m g r then 2 else 1 := by
  unfold unrest
  rw [h]
  exact if_neg hx

/-- Only the records in the `op` field matter. -/
theorem unrest_mono (hop : m'.op x = m.op x) (hchild : m'.child x = m.child x)
    (hcas : ∀ r, m.op x = .cas r → m'.cas r = m.cas r)
    (hreloc : ∀ r, m.op x = .rel r → (m'.reloc r).dest = (m.reloc r).dest ∧
      (m'.state r = .ongoing → m.state r = .ongoing) ∧ (r ∈ g.rewritten → r ∈ g'.rewritten) ∧
      (committed m' g' r → committed m g r)) :
    unrest m' g' x ≤ unrest m g x := by
  unfold unrest
  rw [hop]
  generalize m.op x = w at hcas hreloc
  obtain ⟨a, f⟩ := w
  cases f with
  | none => exact le_rfl
  | mark => exact le_rfl
  | childCas => simp only [hcas a rfl, hchild, le_refl]
  | relocate =>
    obtain ⟨hdest, hst, hrew, hcom⟩ := hreloc a rfl
    simp only [hdest]
    split
    · split <;> split <;> simp_all
    · split <;> split <;> simp_all

/-- Nothing changes that the `op` fields depend on. -/
theorem unrest_frame (h : MemInv cfg m g) (hop : m'.op = m.op) (hchild : m'.child = m.child)
    (hcas : ∀ {r}, Taken cfg m r → m'.cas r = m.cas r)
    (hreloc : ∀ {r}, Taken cfg m r → m'.reloc r = m.reloc r)
    (hrew : g'.rewritten = g.rewritten) (hpast : g'.pastOp = g.pastOp) :
    unrest m' g' x ≤ unrest m g x := by
  refine unrest_mono (by rw [hop]) (by rw [hchild]) (fun r hr => hcas (h.taken_cas (.inl hr)))
    fun r hr => ?_
  have heq := hreloc (h.taken (h.rel_public (.inl hr)))
  have hst : m'.state r = m.state r := congrArg RelocateOp.state heq
  refine ⟨by rw [heq], by rw [hst]; exact id, by rw [hrew]; exact id, fun hc => ?_⟩
  rw [committed, heq, everOp_frame hop hpast] at hc
  exact hc

/-- Another `op` field changes. -/
theorem unrest_setOp_ne (hxy : x ≠ y)
    (hnew : ∀ r, w = .rel r → y = (m.reloc r).dest → m.op x ≠ .rel r) :
    unrest (m.setOp y w) (g.setOp m y) x ≤ unrest m g x := by
  refine unrest_mono (by simp [hxy]) (by simp) (fun _ _ => rfl) fun r hr =>
    ⟨rfl, id, id, fun hc => ?_⟩
  refine (everOp_setOp.mp hc).resolve_right ?_
  rintro ⟨hd, hw⟩
  exact hnew r hw.symm hd.symm hr

theorem unrest_setState {st : OpState} (hst : st ≠ .ongoing) :
    unrest (m.setState r st) g x ≤ unrest m g x := by
  refine unrest_mono rfl rfl (fun _ _ => rfl) fun s _ => ⟨by simp, fun hs => ?_, id, fun hc => ?_⟩
  · rw [Mem.setState_state] at hs
    split at hs
    · exact absurd hs hst
    · exact hs
  · simpa [committed, everOp] using hc

theorem unrest_rewrite {k : Int} : unrest (m.setKey y k) (g.rewrite r) x ≤ unrest m g x := by
  refine unrest_mono (by simp) (by simp) (fun _ _ => rfl) fun s _ =>
    ⟨rfl, id, .inr, fun hc => ?_⟩
  simpa [committed, everOp, Ghost.rewrite] using hc

-- ---------------------------------------------------------------------------
-- Advances
-- ---------------------------------------------------------------------------

/-- A change after which the tree is as it was and no `op` field is less settled. -/
structure Calm (m : Mem) (g : Ghost) (m' : Mem) (g' : Ghost) : Prop where
  tree : g'.tree = g.tree
  child : m'.child = m.child
  unrest_le : ∀ x, unrest m' g' x ≤ unrest m g x

/-- A relocation goes round without the tree noticing, or nothing happens that
    other threads can see. -/
inductive Round (cfg : Config) (m : Mem) (g : Ghost) (m' : Mem) : Prop where
  | install {x r : Addr} : Relocating cfg m g x r → m' = m.setOp x (.rel r) → Round cfg m g m'
  | fail {r : Addr} : installed m g r → m.state r = .ongoing → m' = m.setState r .failed →
      Round cfg m g m'
  | release {r : Addr} : m.op (g.replace r) = .rel r → m.state r = .failed →
      m' = m.setOp (g.replace r) (.ptr r) → Round cfg m g m'
  | rest : m'.op = m.op → (∀ r, installed m g r → m'.state r = m.state r) → Round cfg m g m'

/-- What a change achieves. -/
inductive Advance (cfg : Config) (m : Mem) (g : Ghost) (m' : Mem) (g' : Ghost) : Prop where
  /-- The call of some thread takes effect. -/
  | finish {u : Tid} : ¬ (g.status u).Finished → (g'.status u).Finished → Advance cfg m g m' g'
  /-- A node is spliced out. -/
  | splice {c : Addr} : c ∈ g.tree.nodes → g'.tree = g.tree.remove c → Advance cfg m g m' g'
  /-- An `op` field of the tree is closer to a word it can rest at. -/
  | settle {x : Addr} : Calm m g m' g' → x ∈ g.tree.nodes → unrest m' g' x < unrest m g x →
      Advance cfg m g m' g'
  | round : Calm m g m' g' → Round cfg m g m' → Advance cfg m g m' g'

theorem Advance.of_frame (h : MemInv cfg m g) (hop : m'.op = m.op) (hchild : m'.child = m.child)
    (hcas : ∀ {r}, Taken cfg m r → m'.cas r = m.cas r)
    (hreloc : ∀ {r}, Taken cfg m r → m'.reloc r = m.reloc r) (htree : g'.tree = g.tree)
    (hrew : g'.rewritten = g.rewritten) (hpast : g'.pastOp = g.pastOp) :
    Advance cfg m g m' g' := by
  refine .round ⟨htree, hchild, fun x => ?_⟩ (.rest hop fun r hr => ?_)
  · exact unrest_frame h hop hchild hcas hreloc hrew hpast
  · exact congrArg RelocateOp.state (hreloc (h.taken (h.rel_public hr)))

/-- An `op` field takes a word that is closer to rest. -/
theorem Advance.of_setOp {status : Tid → Status} (h : MemInv cfg m g)
    (hx : x ∈ g.born) (hm : (m.op x).flag ≠ .mark) (hw : w.flag ≠ .relocate)
    (hlt : unrest (m.setOp x w) (g.setOp m x) x < unrest m g x) :
    Advance cfg m g (m.setOp x w) { g.setOp m x with status := status } := by
  refine .settle ⟨rfl, by simp, fun y => ?_⟩ (h.mem_of_flag hm hx) hlt
  by_cases hyx : y = x
  · exact hyx ▸ hlt.le
  · refine unrest_setOp_ne hyx fun r hr _ => ?_
    rw [hr] at hw
    exact absurd rfl hw

theorem Change.advance (hc : Change cfg t spent m g m' g') (h : MemInv cfg m g)
    (hs : StatusInv m g) : Advance cfg m g m' g' := by
  have hwaiting : ∀ {call}, g.status t = .waiting call → ¬ (g.status t).Finished := by
    intro call hw
    rw [hw]
    exact id
  have hdone : ∀ {v r} {g₀ : Ghost}, ((g₀.setStatus v (.done r)).status v).Finished := by
    intro v r g₀
    simp [Ghost.setStatus, Status.Finished]
  have hmem : ∀ {y}, (m.op y).flag ≠ .none → (m.op y).flag ≠ .mark → y ∈ g.tree.nodes :=
    fun hn hm => h.mem_of_flag hm (h.born_of_flag hn)
  cases hc with
  | read | hpList =>
    exact .of_frame h rfl rfl (fun _ => rfl) (fun _ => rfl) rfl rfl rfl
  | observe hw => exact .finish (hwaiting hw) hdone
  | newNode k ha =>
    have hborn : _ ∉ g.born := fun hb => h.not_public_of_allocatable ha (.node hb)
    exact .of_frame h (funext (MemInv.newNode_op hborn h)) (funext₂ (MemInv.newNode_child hborn h))
      (fun _ => rfl) (fun _ => rfl) rfl rfl rfl
  | newCas o ha =>
    refine .of_frame h rfl rfl (fun hr => ?_) (fun _ => rfl) rfl rfl rfl
    simp [taken_of_ne_alloc ha hr]
  | newReloc o x ha =>
    refine .of_frame h rfl rfl (fun _ => rfl) (fun hr => ?_) rfl rfl rfl
    simp [taken_of_ne_alloc ha hr]
  | delete as _ =>
    obtain ⟨_, hcas, hreloc⟩ := foldl_delete (m := m) as
    exact .of_frame h (op_foldl_delete as) (child_foldl_delete as) (fun _ => by rw [hcas])
      (fun _ => by rw [hreloc]) rfl rfl rfl
  | @publishInsertion x r a n hi _ _ _ hw =>
    refine .of_setOp h hi.born (by simp [hi.flag]) (by simp) ?_
    rw [unrest_none hi.flag, unrest_cas_ready (r := r) (by simp) (by simpa using hi.slot)]
    exact Nat.one_pos
  | @publishSplicing x r c hi _ =>
    refine .of_setOp h hi.born (by simp [hi.flag]) (by simp) ?_
    rw [unrest_none hi.flag, unrest_cas_ready (r := r) (by simp) (by simpa using hi.slot)]
    exact Nat.one_pos
  | link hop hslot hexp hupd =>
    exact .finish (hs.not_finished (.add hop hslot (by rw [hexp]) hupd)) hdone
  | unlink _ _ _ hcm => exact .splice hcm rfl
  | @clearCas x r hop hd =>
    refine .of_setOp h (h.born_of_flag (by simp [hop])) (by simp [hop]) (by simp) ?_
    have hne : m.child x (m.cas r).isLeft ≠ (m.cas r).expected :=
      fun heq => h.child_fresh x _ (heq ▸ hd)
    rw [unrest_cas_moved hop hne, unrest_none (by simp)]
    exact Nat.one_lt_two
  | mark _ _ _ _ hw => exact .finish (hwaiting hw) hdone
  | @publishRelocation x r hr _ _ hw =>
    have hnever : ∀ y f, ¬ everOp m g y ⟨r, f⟩ := fun y f =>
      MemInv.not_everOp_of_private hr.hidden f
    refine .round ⟨rfl, by simp, fun y => ?_⟩ (.install hr rfl)
    by_cases hyx : y = x
    · subst hyx
      have hnc : ¬ committed (m.setOp y (.rel r)) (g.setOp m y) r := by
        intro hc
        rcases everOp_setOp.mp hc with hc | ⟨hd, _⟩
        · exact hnever _ _ hc
        · exact hr.dest_ne hd
      have hnew := unrest_replace (m := m.setOp y (.rel r)) (g := g.setOp m y) (x := y) (r := r)
        (by simp) hr.dest_ne
      rw [if_neg fun hc => hnc hc.2] at hnew
      exact (hnew.trans (unrest_none hr.flag).symm).le
    · refine unrest_setOp_ne (g := g) hyx fun s hs _ hop => ?_
      obtain rfl : r = s := by simpa using hs
      exact hnever _ _ (.inl hop)
  | commit hr hop =>
    obtain ⟨hnc, hnf⟩ := h.open_of_ready hr hop
    exact .finish (hs.not_finished (.remove hr hnc hnf)) hdone
  | @succeed r hst hcom =>
    have hR := h.record (h.place hcom).1
    have hop := hR.ongoing_held hst
    have hd := hR.dest_ne_replace
    refine .settle (x := g.replace r) ⟨rfl, rfl, fun y => unrest_setState (by simp)⟩
      (hmem (by simp [hop]) (by simp [hop])) ?_
    have hnew := unrest_replace (m := m.setState r .successful) (g := g) hop (by simpa using hd)
    rw [if_neg (by simp)] at hnew
    rw [hnew, unrest_replace hop hd, if_pos ⟨hst, hcom⟩]
    exact Nat.one_lt_two
  | @fail r hr hst =>
    exact .round ⟨rfl, rfl, fun y => unrest_setState (g := g) (by simp)⟩ (.fail hr hst rfl)
  | @rewrite r hw =>
    have hnew : r ∉ g.rewritten := fun hr =>
      absurd hw.key (((hw.record h).rewritten hr).2.2.1.ne')
    refine .settle (x := (m.reloc r).dest) ⟨rfl, by simp, fun y => unrest_rewrite⟩
      (hmem (by simp [hw.op]) (by simp [hw.op])) ?_
    have hnew' := unrest_dest (m := m.setKey (m.reloc r).dest (m.reloc r).replaceKey)
      (g := g.rewrite r) (r := r) (by simpa using hw.op)
    rw [Mem.setKey_reloc, if_pos (.inl rfl)] at hnew'
    rw [hnew', unrest_dest hw.op, if_neg hnew]
    exact Nat.lt_succ_self 2
  | @clearRelocation r hop hw =>
    refine .of_setOp h (h.born_of_flag (by simp [hop])) (by simp [hop]) (by simp) ?_
    rw [unrest_dest hop, if_pos hw, unrest_none (by simp)]
    exact Nat.one_lt_two
  | @releaseMark r hop hp =>
    refine .of_setOp h (h.born_of_flag (by simp [hop])) (by simp [hop]) (by simp) ?_
    rw [unrest_mark (by simp), unrest_replace hop (h.record (.inl hop)).dest_ne_replace]
    split <;> exact Nat.succ_pos _
  | @releaseFailed r hop hst =>
    refine .round ⟨rfl, by simp, fun y => ?_⟩ (.release hop hst rfl)
    by_cases hy : y = g.replace r
    · subst hy
      rw [unrest_none (by simp), unrest_replace hop (h.record (.inl hop)).dest_ne_replace]
      split <;> simp
    · exact unrest_setOp_ne hy (by simp)

end LockFree
