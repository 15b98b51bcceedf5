-- SUMMARY: The set the tree stands for changes exactly when a call takes effect.
import ConcurrentBST.LockFree.Evolution
import ConcurrentBST.Library.Linearizability

/-!
# Effects on the set

Among the changes only four let a call take effect: `observe`, `link`, `mark`
and `commit`. The call need not be that of the thread that makes the step:
`link` and `commit` finish the call the record belongs to.
-/

namespace LockFree

variable {cfg : Config} {m m' : Mem} {g g' : Ghost} {x y r s a b n c : Addr} {d e : Bool} {k : Int}
  {w v : Word} {t u : Tid} {spent : Addr → Prop} {call : Call}

/-- The set of integers the calls work on. -/
def setObject : Object (Set Int) Call Result := ⟨∅, SetStep⟩

/-- What the set sees of a thread. -/
def Status.phase : Status → Phase Call Result
  | .idle => .idle
  | .waiting c | .published c _ => .pending c
  | .done r => .done r

-- ---------------------------------------------------------------------------
-- Which nodes count
-- ---------------------------------------------------------------------------

theorem present_of_flag (h : (m.op x).flag = .none ∨ (m.op x).flag = .childCas) :
    present m g x := by
  refine ⟨not_gone_of_flag h, fun r hr => ?_⟩
  simp [hr] at h

theorem not_present_of_marked (h : m.marked x) : ¬ present m g x :=
  fun hp => hp.1 (.inl h)

theorem MemInv.key_inj (h : MemInv cfg m g) (hx : x ∈ g.tree.nodes) (hy : y ∈ g.tree.nodes)
    (hxr : x ≠ baseRoot) (hyr : y ≠ baseRoot) (hpx : present m g x) (hpy : present m g y)
    (hkey : m.key x = m.key y) : x = y := by
  rcases h.lawful.before_total hx hy with heq | hb | hb
  · exact heq
  · exact absurd hkey ((h.sorted hx hy hxr hyr hb).2 hpx.1 hpy.1).ne
  · exact absurd hkey.symm ((h.sorted hy hx hyr hxr hb).2 hpy.1 hpx.1).ne

/-- A key that belongs in an empty slot is not in the set. -/
theorem Gap.not_mem_keys (hgap : Gap m g x d k) (h : MemInv cfg m g) (hx : x ∈ g.tree.nodes) :
    k ∉ keys m g := by
  rintro ⟨y, hy, hyr, _, hk⟩
  rcases h.lawful.gap_total d hx hy with hb | hb
  · exact (hgap.before y hy hyr hb).ne hk
  · exact (hgap.after y hy hyr hb).ne hk.symm

theorem keys_congr (htree : g'.tree = g.tree)
    (hkey : ∀ y ∈ g.tree.nodes, m'.key y = m.key y)
    (hp : ∀ y ∈ g.tree.nodes, present m' g' y ↔ present m g y) : keys m' g' = keys m g := by
  unfold keys
  ext k
  rw [htree]
  refine exists_congr fun y => and_congr_right fun hy => ?_
  rw [hkey y hy, hp y hy]

theorem present_frame (h : MemInv cfg m g) (hop : m'.op = m.op)
    (hdest : ∀ r, Taken cfg m r → (m'.reloc r).dest = (m.reloc r).dest)
    (hrew : g'.rewritten = g.rewritten) : present m' g' y ↔ present m g y := by
  have hd : ∀ {r}, m.op y = .rel r → (m'.reloc r).dest = (m.reloc r).dest := fun hr =>
    hdest _ (h.taken (h.rel_public (.inl hr)))
  unfold present gone
  rw [marked_frame hop, hop, hrew]
  constructor
  · rintro ⟨hn, hr⟩
    refine ⟨fun hg => hn (hg.imp_right fun ⟨s, hs, hne, hw⟩ => ⟨s, hs, hd hs ▸ hne, hw⟩), ?_⟩
    exact fun s hs heq => hr s hs ((hd hs).trans heq)
  · rintro ⟨hn, hr⟩
    refine ⟨fun hg => hn (hg.imp_right fun ⟨s, hs, hne, hw⟩ => ⟨s, hs, hd hs ▸ hne, hw⟩), ?_⟩
    exact fun s hs heq => hr s hs ((hd hs).symm.trans heq)

theorem present_setOp (hyx : y ≠ x) :
    present (m.setOp x w) (g.setOp m x) y ↔ present m g y := by
  unfold present gone Mem.marked
  simp [hyx]

theorem keys_setStatus {st : Status} : keys m (g.setStatus t st) = keys m g := rfl

/-- The `op` field of a node changes and the node counts as before. -/
theorem keys_setOp (hx : present (m.setOp x w) (g.setOp m x) x ↔ present m g x) :
    keys (m.setOp x w) (g.setOp m x) = keys m g := by
  refine keys_congr rfl (fun y _ => by simp) fun y _ => ?_
  by_cases hyx : y = x
  · exact hyx ▸ hx
  · exact present_setOp hyx

/-- The `op` field of a node changes and the node no longer counts. -/
theorem keys_setOp_erase (h : MemInv cfg m g) (hx : x ∈ g.tree.nodes) (hxr : x ≠ baseRoot)
    (hp : present m g x) (hp' : ¬ present (m.setOp x w) (g.setOp m x) x) :
    keys (m.setOp x w) (g.setOp m x) = keys m g \ {m.key x} := by
  ext k
  constructor
  · rintro ⟨y, hy, hyr, hpy, hk⟩
    have hyx : y ≠ x := fun heq => hp' (heq ▸ hpy)
    rw [present_setOp hyx] at hpy
    rw [Mem.setOp_key] at hk
    refine ⟨⟨y, hy, hyr, hpy, hk⟩, fun heq => hyx ?_⟩
    exact h.key_inj hy hx hyr hxr hpy hp (hk.trans heq)
  · rintro ⟨⟨y, hy, hyr, hpy, hk⟩, hne⟩
    have hyx : y ≠ x := by
      rintro rfl
      exact hne hk.symm
    exact ⟨y, hy, hyr, (present_setOp hyx).mpr hpy, by simpa using hk⟩

theorem keys_link (h : MemInv cfg m g) (hop : m.op x = .cas r) {f : Bool}
    (hnull : isNull (m.child x f) = true) (hn : n ∉ g.born) :
    keys (m.setChild x f (.ptr n)) (g.link m x f n) = insert (m.key n) (keys m g) := by
  have hi := h.insertable hop hnull hn
  have hp : ∀ y, present (m.setChild x f (.ptr n)) (g.link m x f n) y ↔ present m g y := fun y => by
    simp [present, gone]
  have hpn : present m g n := present_of_flag (.inl (by rw [(h.unborn hn).1]))
  ext k
  constructor
  · rintro ⟨y, hy, hyr, hpy, hk⟩
    rw [Mem.setChild_key] at hk
    rcases hy with rfl | hy
    · exact .inl hk.symm
    · exact .inr ⟨y, hy, hyr, (hp y).mp hpy, hk⟩
  · rintro (rfl | ⟨y, hy, hyr, hpy, hk⟩)
    · refine ⟨n, .inl rfl, ?_, (hp n).mpr hpn, by simp⟩
      rintro rfl
      exact hi.fresh h.root
    · exact ⟨y, .inr hy, hyr, (hp y).mpr hpy, by simpa using hk⟩

theorem keys_unlink (hm : m.marked c) :
    keys (m.setChild x d w) (g.unlink m x d c) = keys m g := by
  have hp : ∀ y, present (m.setChild x d w) (g.unlink m x d c) y ↔ present m g y := fun y => by
    simp [present, gone]
  ext k
  constructor
  · rintro ⟨y, hy, hyr, hpy, hk⟩
    exact ⟨y, hy.1, hyr, (hp y).mp hpy, by simpa using hk⟩
  · rintro ⟨y, hy, hyr, hpy, hk⟩
    refine ⟨y, ⟨hy, ?_⟩, hyr, (hp y).mpr hpy, by simpa using hk⟩
    rintro rfl
    exact not_present_of_marked hm hpy

/-- The key moves from the replacing node to `dest`. -/
theorem keys_rewrite (h : MemInv cfg m g) (hw : Rewrites m g r) :
    keys (m.setKey (m.reloc r).dest (m.reloc r).replaceKey) (g.rewrite r) = keys m g := by
  have hR := hw.record h
  have hqop := hw.replace_op h
  have hp : ∀ y, y ≠ (m.reloc r).dest → y ≠ g.replace r →
      (present (m.setKey (m.reloc r).dest (m.reloc r).replaceKey) (g.rewrite r) y ↔
        present m g y) := by
    intro y hyd hyq
    have hne : ∀ s, m.op y = .rel s → s ≠ r := by
      rintro s hs rfl
      exact (h.place (.inl hs)).2.elim hyq hyd
    unfold present gone Ghost.rewrite Mem.marked
    simp only [Mem.setKey_op, Mem.setKey_reloc, Set.mem_insert_iff]
    grind
  have hdest : ¬ present m g (m.reloc r).dest := fun hp => hw.new h (hp.2 r hw.op rfl)
  have hdest' : present (m.setKey (m.reloc r).dest (m.reloc r).replaceKey) (g.rewrite r)
      (m.reloc r).dest := by
    have honly : ∀ s, m.op (m.reloc r).dest = .rel s → r = s := fun s hs => by
      simpa [hw.op] using hs
    refine ⟨?_, fun s hs _ => .inl (honly s (by simpa using hs)).symm⟩
    rintro (hm | ⟨s, hs, hne, _⟩)
    · simp [Mem.marked, hw.op] at hm
    · obtain rfl := honly s (by simpa using hs)
      exact hne rfl
  have hrep : present m g (g.replace r) := by
    refine ⟨hw.not_gone_replace h, fun s hs heq => ?_⟩
    obtain rfl : r = s := by simpa [hqop] using hs
    exact absurd heq hR.dest_ne_replace
  have hrep' : ¬ present (m.setKey (m.reloc r).dest (m.reloc r).replaceKey) (g.rewrite r)
      (g.replace r) := fun hp =>
    hp.1 (.inr ⟨r, by simpa using hqop, hR.dest_ne_replace, .inl rfl⟩)
  ext k
  constructor
  · rintro ⟨y, hy, hyr, hpy, hk⟩
    rw [Mem.setKey_key] at hk
    by_cases hyd : y = (m.reloc r).dest
    · rw [if_pos hyd, ← hw.replaceKey h] at hk
      exact ⟨g.replace r, hw.replace_mem h, hw.replace_ne_root h, hrep, hk⟩
    · rw [if_neg hyd] at hk
      have hyq : y ≠ g.replace r := fun heq => hrep' (heq ▸ hpy)
      exact ⟨y, hy, hyr, (hp y hyd hyq).mp hpy, hk⟩
  · rintro ⟨y, hy, hyr, hpy, hk⟩
    have hyd : y ≠ (m.reloc r).dest := fun heq => hdest (heq ▸ hpy)
    by_cases hyq : y = g.replace r
    · refine ⟨_, hw.dest_mem h, hR.dest_ne_root, hdest', ?_⟩
      rw [Mem.setKey_key, if_pos rfl, ← hw.replaceKey h, ← hyq]
      exact hk
    · exact ⟨y, hy, hyr, (hp y hyd hyq).mpr hpy, by simpa [hyd] using hk⟩

-- ---------------------------------------------------------------------------
-- Which calls are published
-- ---------------------------------------------------------------------------

theorem unresolved_setStatus {st : Status} :
    Unresolved m (g.setStatus t st) call r ↔ Unresolved m g call r := by
  constructor <;> rintro (⟨h₁, h₂, h₃, h₄⟩ | ⟨h₁, h₂, h₃⟩)
  · exact .add h₁ h₂ h₃ h₄
  · exact .remove h₁ h₂ h₃
  · exact .add h₁ h₂ h₃ h₄
  · exact .remove h₁ h₂ h₃

namespace StatusInv

variable {st : Status}

theorem same (h : StatusInv m g) (hstatus : g'.status = g.status)
    (hun : ∀ c r, Unresolved m' g' c r ↔ Unresolved m g c r)
    (howner : ∀ c r, Unresolved m g c r → g'.owner r = g.owner r) : StatusInv m' g' := by
  intro u c r
  rw [hstatus, h u c r, hun c r]
  exact and_congr_left fun hr => by rw [howner c r hr]

/-- A status that does not concern a published call changes. -/
theorem setStatus (h : StatusInv m g) (hold : ∀ c r, g.status t ≠ .published c r)
    (hst : ∀ c r, st ≠ .published c r) : StatusInv m (g.setStatus t st) := by
  intro u c r
  rw [unresolved_setStatus, setStatus_owner, ← h u c r]
  by_cases hut : u = t
  · subst hut
    simp [Ghost.setStatus, hst, hold]
  · simp [Ghost.setStatus, hut]

/-- A call is published. -/
theorem publish (c₀ : Call) (r₀ : Addr) (h : StatusInv m g) (howner : g'.owner = g.owner) (ht : g.owner r₀ = t)
    (hold : ∀ c r, g.status t ≠ .published c r)
    (hun : ∀ c r, Unresolved m' g' c r ↔ Unresolved m g c r ∨ c = c₀ ∧ r = r₀)
    (hstatus : g'.status = Function.update g.status t (.published c₀ r₀)) : StatusInv m' g' := by
  intro u c r
  rw [hstatus, howner, hun c r]
  by_cases hut : u = t
  · subst hut
    simp only [Function.update_self, Status.published.injEq]
    constructor
    · rintro ⟨rfl, rfl⟩
      exact ⟨ht, .inr ⟨rfl, rfl⟩⟩
    · rintro ⟨hr, hu | hu⟩
      · exact absurd ((h u c r).mpr ⟨hr, hu⟩) (hold c r)
      · exact ⟨hu.1.symm, hu.2.symm⟩
  · rw [Function.update_of_ne hut, h u c r]
    refine and_congr_right fun hr => ⟨.inl, fun hu => hu.resolve_right ?_⟩
    rintro ⟨_, rfl⟩
    exact hut (hr.symm.trans ht)

/-- A published call takes effect or becomes impossible. -/
theorem resolve (c₀ : Call) (r₀ : Addr) (h : StatusInv m g) (howner : g'.owner = g.owner) (h₀ : Unresolved m g c₀ r₀)
    (hst : ∀ c r, st ≠ .published c r)
    (hun : ∀ c r, Unresolved m' g' c r ↔ Unresolved m g c r ∧ r ≠ r₀)
    (hstatus : g'.status = Function.update g.status (g.owner r₀) st) : StatusInv m' g' := by
  have hpub := (h (g.owner r₀) c₀ r₀).mpr ⟨rfl, h₀⟩
  intro u c r
  rw [hstatus, howner, hun c r]
  by_cases hut : u = g.owner r₀
  · subst hut
    simp only [Function.update_self, hst, false_iff]
    rintro ⟨hr, hu, hne⟩
    -- A thread has at most one published call.
    have := hpub.symm.trans ((h _ c r).mpr ⟨hr, hu⟩)
    exact hne (by simpa using (congrArg (fun s => match s with
      | .published _ r => r
      | _ => r₀) this).symm)
  · rw [Function.update_of_ne hut, h u c r]
    refine and_congr_right fun hr => ⟨fun hu => ⟨hu, ?_⟩, And.left⟩
    rintro rfl
    exact hut hr.symm

end StatusInv

theorem Unresolved.public (h : MemInv cfg m g) (hu : Unresolved m g call r) :
    r = 0 ∨ Public m g r := by
  by_cases hr : r = 0
  · exact .inl hr
  · cases hu with
    | add hop _ _ _ => exact .inr (.op (w := .cas r) (.inl hop) hr)
    | remove hi _ _ => exact .inr (h.rel_public hi)

theorem Unresolved.taken (h : MemInv cfg m g) (hu : Unresolved m g call r) : Taken cfg m r := by
  rcases hu.public h with rfl | hp
  · exact taken_zero
  · exact h.taken hp

/-- Changes of what only the acting thread can see. -/
theorem unresolved_frame (h : MemInv cfg m g) (hop : m'.op = m.op) (hchild : m'.child = m.child)
    (hpo : g'.pastOp = g.pastOp) (hkey : ∀ {x}, Taken cfg m x → m'.key x = m.key x)
    (hcas : ∀ {r}, Taken cfg m r → m'.cas r = m.cas r)
    (hreloc : ∀ {r}, Taken cfg m r → m'.reloc r = m.reloc r)
    (hrep : ∀ {r}, Taken cfg m r → g'.replace r = g.replace r) :
    Unresolved m' g' call r ↔ Unresolved m g call r := by
  have hever : ∀ {x w}, everOp m' g' x w ↔ everOp m g x w := everOp_frame hop hpo
  have hcas' : ∀ {x r}, m.op x = .cas r → m'.cas r = m.cas r := fun hx =>
    hcas (h.taken_cas (.inl hx))
  have hrel : ∀ {x r}, everOp m g x (.rel r) → Taken cfg m r := fun he =>
    h.taken (h.rel_public he)
  have hstate : ∀ {r}, Taken cfg m r → m'.state r = m.state r := fun hr =>
    congrArg RelocateOp.state (hreloc hr)
  have hleaf : ∀ {x r n}, m.op x = .cas r → (m.cas r).update = .ptr n → m'.key n = m.key n := by
    intro x r n hx hu
    exact hkey (h.taken (.update_ptr hx hu))
  constructor
  · rintro (⟨h₁, h₂, h₃, h₄⟩ | ⟨h₁, h₂, h₃⟩)
    · rw [hop] at h₁
      rw [hcas' h₁] at h₂ h₃ h₄
      rw [hchild] at h₂
      rw [hleaf h₁ h₄]
      exact .add h₁ h₂ h₃ h₄
    · have hr := hrel (hever.mp h₁)
      have hi : installed m g r := by
        have := hever.mp h₁
        rwa [hrep hr] at this
      rw [hreloc hr]
      rw [hstate hr] at h₃
      refine .remove hi (fun hc => h₂ (hever.mpr ?_)) h₃
      rw [hreloc hr]
      exact hc
  · rintro (⟨h₁, h₂, h₃, h₄⟩ | ⟨h₁, h₂, h₃⟩)
    · rw [← hleaf h₁ h₄]
      rw [← hcas' h₁] at h₂ h₃ h₄
      rw [← hchild] at h₂
      rw [← hop] at h₁
      exact .add h₁ h₂ h₃ h₄
    · have hr := hrel h₁
      rw [← hreloc hr]
      rw [← hstate hr] at h₃
      refine .remove ?_ (fun hc => h₂ ?_) h₃
      · apply hever.mpr
        rw [hrep hr]
        exact h₁
      · have := hever.mp hc
        rwa [hreloc hr] at this

/-- What a new word in an `op` field publishes. -/
inductive Publishes (m : Mem) (g : Ghost) (x : Addr) (w : Word) : Call → Addr → Prop where
  | add {r n : Addr} : w = .cas r → m.child x (m.cas r).isLeft = (m.cas r).expected →
      (m.cas r).expected.flag = .mark → (m.cas r).update = .ptr n →
      Publishes m g x w (.add (m.key n)) r
  | remove {r : Addr} : w = .rel r → x = g.replace r → x ≠ (m.reloc r).dest →
      ¬ committed m g r → m.state r ≠ .failed → Publishes m g x w (.remove (m.reloc r).removeKey) r

/-- An `op` field only changes when the record it held is resolved. -/
theorem unresolved_setOp (h : MemInv cfg m g)
    (hdone : ∀ r, m.op x = .cas r → (m.cas r).expected ∈ g.pastChild x (m.cas r).isLeft)
    (htyped : ∀ r y, w = .rel r → ¬ everOp m g y (.cas r)) :
    Unresolved (m.setOp x w) (g.setOp m x) call r ↔
      Unresolved m g call r ∧ ¬ (w = .rel r ∧ x = (m.reloc r).dest) ∨
        Publishes m g x w call r := by
  constructor
  · rintro (⟨h₁, h₂, h₃, h₄⟩ | ⟨h₁, h₂, h₃⟩)
    · simp only [Mem.setOp_op, Mem.setOp_child, Mem.setOp_cas, Mem.setOp_key] at *
      split at h₁
      · next heq => exact .inr (.add h₁ (heq ▸ h₂) h₃ h₄)
      · refine .inl ⟨.add h₁ h₂ h₃ h₄, ?_⟩
        rintro ⟨hw, _⟩
        exact htyped _ _ hw (.inl h₁)
    · simp only [Mem.setOp_reloc, Mem.setOp_state] at *
      have hc : ¬ committed m g r := fun hc => h₂ (everOp_setOp.mpr (.inl hc))
      rcases everOp_setOp.mp h₁ with hi | ⟨hx, hw⟩
      · exact .inl ⟨.remove hi hc h₃, fun heq =>
          h₂ (everOp_setOp.mpr (.inr ⟨heq.2.symm, heq.1.symm⟩))⟩
      · exact .inr (.remove hw.symm hx.symm
          (fun heq => h₂ (everOp_setOp.mpr (.inr ⟨heq.symm, hw⟩))) hc h₃)
  · rintro (⟨⟨h₁, h₂, h₃, h₄⟩ | ⟨h₁, h₂, h₃⟩, hne⟩ | ⟨h₁, h₂, h₃, h₄⟩ | ⟨h₁, h₂, h₃, h₄, h₅⟩)
    · next y n =>
      have hyx : y ≠ x := by
        rintro rfl
        exact h.child_fresh _ _ (h₂ ▸ hdone _ h₁)
      have := Unresolved.add (m := m.setOp x w) (g := g.setOp m x) (x := y) (n := n)
        (by simpa [hyx] using h₁) (by simpa using h₂) h₃ h₄
      simpa using this
    · refine .remove (everOp_setOp.mpr (.inl h₁)) (fun hc => ?_) h₃
      rcases everOp_setOp.mp hc with hc | ⟨hd, hw⟩
      · exact h₂ hc
      · exact hne ⟨hw.symm, hd.symm⟩
    · next n =>
      have := Unresolved.add (m := m.setOp x w) (g := g.setOp m x) (x := x) (n := n)
        (by simpa using h₁) (by simpa using h₂) h₃ h₄
      simpa using this
    · refine .remove (everOp_setOp.mpr (.inr ⟨h₂.symm, h₁.symm⟩)) (fun hc => ?_) h₅
      rcases everOp_setOp.mp hc with hc | ⟨hd, _⟩
      · exact h₄ hc
      · exact h₃ hd.symm

/-- The slot has changed, so the record is resolved. -/
theorem unresolved_setChild (h : MemInv cfg m g) (hop : m.op x = .cas r)
    (hexp : w ≠ (m.cas r).expected) (hpo : g'.pastOp = g.pastOp) (hrep : g'.replace = g.replace) :
    Unresolved (m.setChild x (m.cas r).isLeft w) g' call s ↔ Unresolved m g call s ∧ s ≠ r := by
  constructor
  · rintro (⟨h₁, h₂, h₃, h₄⟩ | ⟨h₁, h₂, h₃⟩)
    · next y n =>
      simp only [Mem.setChild_op, Mem.setChild_cas, Mem.setChild_key] at *
      have hsr : s ≠ r := by
        rintro rfl
        obtain rfl := h.unique (.inl h₁) (.inl hop)
        rw [Mem.setChild_child, if_pos ⟨rfl, rfl⟩] at h₂
        exact hexp h₂
      have hyx : y ≠ x := by
        rintro rfl
        exact hsr (by simpa [hop, eq_comm] using h₁)
      exact ⟨.add h₁ (by simpa [hyx] using h₂) h₃ h₄, hsr⟩
    · rw [installed_setChild hpo hrep] at h₁
      rw [committed_setChild hpo] at h₂
      refine ⟨.remove h₁ h₂ h₃, ?_⟩
      rintro rfl
      exact h.typed (.inl hop) h₁
  · rintro ⟨⟨h₁, h₂, h₃, h₄⟩ | ⟨h₁, h₂, h₃⟩, hne⟩
    · next y n =>
      have hyx : y ≠ x := by
        rintro rfl
        exact hne (by simpa [hop, eq_comm] using h₁)
      have := Unresolved.add (m := m.setChild x (m.cas r).isLeft w) (g := g') (x := y) (n := n)
        (by simpa using h₁) (by simpa [hyx] using h₂) h₃ h₄
      simpa using this
    · refine .remove ?_ ?_ h₃
      · rw [installed_setChild hpo hrep]
        exact h₁
      · rw [committed_setChild hpo]
        exact h₂

theorem unresolved_rewrite (h : MemInv cfg m g) (hw : Rewrites m g r) :
    Unresolved (m.setKey (m.reloc r).dest (m.reloc r).replaceKey) (g.rewrite r) call s ↔
      Unresolved m g call s := by
  have hever : ∀ {y w}, everOp (m.setKey (m.reloc r).dest (m.reloc r).replaceKey) (g.rewrite r) y w ↔
      everOp m g y w := everOp_frame (Mem.setKey_op ..) rfl
  have hleaf : ∀ {x r' n}, m.op x = .cas r' →
      m.child x (m.cas r').isLeft = (m.cas r').expected → (m.cas r').expected.flag = .mark →
      (m.cas r').update = .ptr n → n ≠ (m.reloc r).dest := by
    rintro x r' n hx hslot hexp hu rfl
    rcases h.slot hx with ⟨_, hp⟩ | ⟨_, hp⟩
    · cases hp with
      | insertion a n' _ hu' hn _ _ =>
        obtain rfl : n' = _ := congrArg Word.addr (hu'.symm.trans hu)
        exact hn (hw.record h).dest_born
      | splice c he _ _ _ => simp [he] at hexp
    · exact h.child_fresh _ _ (hslot ▸ hp)
  constructor
  · rintro (⟨h₁, h₂, h₃, h₄⟩ | ⟨h₁, h₂, h₃⟩)
    · simp only [Mem.setKey_op, Mem.setKey_child, Mem.setKey_cas] at *
      rw [Mem.setKey_key, if_neg (hleaf h₁ h₂ h₃ h₄)]
      exact .add h₁ h₂ h₃ h₄
    · exact .remove (hever.mp h₁) (fun hc => h₂ (hever.mpr hc)) h₃
  · rintro (⟨h₁, h₂, h₃, h₄⟩ | ⟨h₁, h₂, h₃⟩)
    · next y n =>
      have := Unresolved.add (m := m.setKey (m.reloc r).dest (m.reloc r).replaceKey)
        (g := g.rewrite r) (x := y) (n := n) (by simpa using h₁) (by simpa using h₂) h₃ h₄
      rwa [Mem.setKey_key, if_neg (hleaf h₁ h₂ h₃ h₄)] at this
    · exact .remove (hever.mpr h₁) (fun hc => h₂ (hever.mp hc)) h₃

theorem unresolved_setState (h : MemInv cfg m g) {st : OpState} (hong : m.state r = .ongoing)
    (hr : installed m g r) (hst : st ≠ .failed → committed m g r) :
    Unresolved (m.setState r st) g call s ↔ Unresolved m g call s ∧ ¬ (st = .failed ∧ s = r) := by
  constructor
  · rintro (⟨h₁, h₂, h₃, h₄⟩ | ⟨h₁, h₂, h₃⟩)
    · refine ⟨.add h₁ h₂ h₃ h₄, ?_⟩
      rintro ⟨_, rfl⟩
      exact h.typed (.inl h₁) hr
    · rw [MemInv.committed_setState] at h₂
      have hsr : s ≠ r := by
        rintro rfl
        by_cases hf : st = .failed
        · exact h₃ (by simp [hf])
        · exact h₂ (hst hf)
      rw [Mem.setState_removeKey]
      exact ⟨.remove h₁ h₂ (by simpa [hsr] using h₃), fun hf => hsr hf.2⟩
  · rintro ⟨⟨h₁, h₂, h₃, h₄⟩ | ⟨h₁, h₂, h₃⟩, hne⟩
    · exact .add h₁ h₂ h₃ h₄
    · rw [← Mem.setState_removeKey (m := m) (x := r) (s := st)]
      refine .remove h₁ (fun hc => h₂ (MemInv.committed_setState.mp hc)) ?_
      by_cases hsr : s = r
      · subst hsr
        simpa using fun hf => hne ⟨hf, rfl⟩
      · simpa [hsr] using h₃

theorem MemInv.committed_of_rewritten (h : MemInv cfg m g) (hr : r ∈ g.rewritten) :
    committed m g r :=
  ((h.record (h.rewritten_installed hr)).rewritten hr).1

/-- A relocation whose `dest` has not moved on is still open. -/
theorem MemInv.open_of_ready (h : MemInv cfg m g) (hr : installed m g r)
    (hop : m.op (m.reloc r).dest = (m.reloc r).destOp) :
    ¬ committed m g r ∧ m.state r ≠ .failed := by
  have hR := h.record hr
  have hpast : (m.reloc r).destOp ∉ g.pastOp (m.reloc r).dest := hop ▸ h.op_fresh _
  exact ⟨fun hc => hpast (hR.commit_past hc).1, fun hf => hpast (hR.failed hf)⟩

theorem MemInv.held_of_ready (h : MemInv cfg m g) (hr : installed m g r)
    (hop : m.op (m.reloc r).dest = (m.reloc r).destOp) : m.op (g.replace r) = .rel r := by
  obtain ⟨hnc, hnf⟩ := h.open_of_ready hr hop
  rcases hr with hheld | hpast
  · exact hheld
  · rcases (h.record (.inr hpast)).released hpast with hf | ⟨hq, _⟩
    · exact absurd hf hnf
    · exact absurd (.inr hq) hnc

-- ---------------------------------------------------------------------------
-- Which records are left unresolved
-- ---------------------------------------------------------------------------

theorem not_cas_of_flag (hflag : (m.op x).flag = .none) :
    ∀ r, m.op x = .cas r → (m.cas r).expected ∈ g.pastChild x (m.cas r).isLeft := fun r hr => by
  simp [hr] at hflag

/-- A word that holds no record leaves the unresolved records as they are. -/
theorem unresolved_setOp_plain (h : MemInv cfg m g)
    (hdone : ∀ r, m.op x = .cas r → (m.cas r).expected ∈ g.pastChild x (m.cas r).isLeft)
    (hw : w.flag = .none ∨ w.flag = .mark) :
    Unresolved (m.setOp x w) (g.setOp m x) call r ↔ Unresolved m g call r := by
  have hpub : ¬ Publishes m g x w call r := by
    rintro (⟨rfl, _⟩ | ⟨rfl, _⟩) <;> simp at hw
  have hrel : ∀ s, w ≠ .rel s := by
    rintro s rfl
    simp at hw
  rw [unresolved_setOp h hdone fun s _ heq => absurd heq (hrel s)]
  simp [hpub, hrel]

theorem unresolved_insertion {a n : Addr} (h : MemInv cfg m g) (hi : Insertion cfg m g x r a n) :
    Unresolved (m.setOp x (.cas r)) (g.setOp m x) call s ↔
      Unresolved m g call s ∨ call = .add (m.key n) ∧ s = r := by
  rw [unresolved_setOp h (not_cas_of_flag hi.flag) (by simp)]
  simp only [reduceCtorEq, false_and, not_false_eq_true, and_true, Word.mk.injEq, and_false]
  refine or_congr_right ⟨?_, ?_⟩
  · rintro (⟨hr, _, _, hu⟩ | ⟨hr, _⟩)
    · obtain rfl := congrArg Word.addr hr
      obtain rfl := congrArg Word.addr (hi.update.symm.trans hu)
      exact ⟨rfl, rfl⟩
    · cases congrArg Word.flag hr
  · rintro ⟨rfl, rfl⟩
    exact .add rfl hi.slot (by rw [hi.expected]) hi.update

/-- A splice is not a call. -/
theorem unresolved_splicing {c : Addr} (h : MemInv cfg m g) (hi : Splicing cfg m g x r c) :
    Unresolved (m.setOp x (.cas r)) (g.setOp m x) call s ↔ Unresolved m g call s := by
  have hno : ¬ Publishes m g x (.cas r) call s := by
    rintro (⟨hr, _, hf, _⟩ | ⟨hr, _⟩)
    · obtain rfl := congrArg Word.addr hr
      simp [hi.expected] at hf
    · cases congrArg Word.flag hr
  rw [unresolved_setOp h (not_cas_of_flag hi.flag) (by simp)]
  simp [hno]

theorem unresolved_unlink {c : Addr} (h : MemInv cfg m g) (hop : m.op x = .cas r)
    (hexp : (m.cas r).expected = .ptr c) (hc : c ∈ g.tree.nodes) (hm : m.marked c) :
    Unresolved (m.setChild x (m.cas r).isLeft (m.replacement c))
      (g.unlink m x (m.cas r).isLeft c) call s ↔ Unresolved m g call s := by
  have hne : m.replacement c ≠ (m.cas r).expected := by
    rw [hexp]
    intro heq
    rcases h.replacement_cases hm with ⟨hrep, _⟩ | ⟨e, _, _, hrep⟩
    · cases congrArg Word.flag (hrep.symm.trans heq)
    · have hcc := h.fits.child_below hc (h.childPtr_eq_some.mpr (hrep.symm.trans heq))
      exact h.lawful.irrefl hcc
  have hun : Unresolved (m.setChild x (m.cas r).isLeft (m.replacement c))
      (g.unlink m x (m.cas r).isLeft c) call s ↔ Unresolved m g call s ∧ s ≠ r :=
    unresolved_setChild h hop hne rfl rfl
  refine hun.trans ⟨And.left, fun hu => ⟨hu, ?_⟩⟩
  rintro rfl
  cases hu with
  | add hy _ hf _ => simp [hexp] at hf
  | remove hi _ _ => exact h.typed (.inl hop) hi

theorem unresolved_relocating (h : MemInv cfg m g) (hr : Relocating cfg m g x r) :
    Unresolved (m.setOp x (.rel r)) (g.setOp m x) call s ↔
      Unresolved m g call s ∨ call = .remove (m.reloc r).removeKey ∧ s = r := by
  have hnever : ∀ y f, ¬ everOp m g y ⟨r, f⟩ := fun y f =>
    MemInv.not_everOp_of_private hr.hidden f
  rw [unresolved_setOp h (not_cas_of_flag hr.flag)]
  · constructor
    · rintro (⟨hu, _⟩ | ⟨hw, _⟩ | ⟨hw, _, _, _, _⟩)
      · exact .inl hu
      · cases congrArg Word.flag hw
      · obtain rfl := congrArg Word.addr hw
        exact .inr ⟨rfl, rfl⟩
    · rintro (hu | ⟨rfl, rfl⟩)
      · refine .inl ⟨hu, ?_⟩
        rintro ⟨heq, _⟩
        obtain rfl := congrArg Word.addr heq
        rcases hu.public h with h0 | hp
        · exact hr.hidden.ne_zero h0
        · exact hr.hidden.hidden hp
      · exact .inr (.remove rfl hr.replace.symm hr.dest_ne.symm (hnever _ _) (by simp [hr.state]))
  · intro s y hs
    obtain rfl := congrArg Word.addr hs
    exact hnever y _

/-- The relocation takes effect when its record gets to `dest`. -/
theorem unresolved_commit (h : MemInv cfg m g) (hr : installed m g r)
    (hop : m.op (m.reloc r).dest = (m.reloc r).destOp) :
    Unresolved (m.setOp (m.reloc r).dest (.rel r)) (g.setOp m (m.reloc r).dest) call s ↔
      Unresolved m g call s ∧ s ≠ r := by
  have hno : ¬ Publishes m g (m.reloc r).dest (.rel r) call s := by
    rintro (⟨hr', _⟩ | ⟨hr', _, hne, _⟩)
    · cases congrArg Word.flag hr'
    · obtain rfl := congrArg Word.addr hr'
      exact hne rfl
  rw [unresolved_setOp h (not_cas_of_flag (by simp [hop, (h.record hr).destOp_flag]))]
  · simp only [hno, or_false, Word.mk.injEq, and_true]
    exact and_congr_right fun _ => ⟨fun hne heq => hne ⟨heq.symm, heq ▸ rfl⟩,
      fun hne heq => hne heq.1.symm⟩
  · intro s y hs
    obtain rfl := congrArg Word.addr hs
    exact fun he => h.typed he hr

-- ---------------------------------------------------------------------------
-- All changes
-- ---------------------------------------------------------------------------

theorem Change.statusInv (hc : Change cfg t spent m g m' g') (h : MemInv cfg m g)
    (hs : StatusInv m g) : StatusInv m' g' := by
  have hwaiting : ∀ {c}, g.status t = .waiting c → ∀ c' r, g.status t ≠ .published c' r := by
    intro c hw c' r hp
    rw [hw] at hp
    cases hp
  cases hc with
  | read => exact hs
  | hpList w =>
    exact hs.same rfl (fun c r => unresolved_frame h rfl rfl rfl (fun _ => rfl) (fun _ => rfl)
      (fun _ => rfl) fun _ => rfl) fun _ _ _ => rfl
  | observe hw _ => exact hs.setStatus (hwaiting hw) (by simp)
  | @newNode a k ha =>
    have hborn : a ∉ g.born := fun hb => h.not_public_of_allocatable ha (.node hb)
    refine hs.same rfl (fun c r => unresolved_frame h (funext (MemInv.newNode_op hborn h))
      (funext₂ (MemInv.newNode_child hborn h)) rfl (fun hx => ?_) (fun _ => rfl)
      (fun _ => rfl) fun _ => rfl) fun _ _ _ => rfl
    simp [taken_of_ne_alloc ha hx]
  | newCas o ha =>
    refine hs.same rfl (fun c r => unresolved_frame h rfl rfl rfl (fun _ => rfl) (fun hr => ?_)
      (fun _ => rfl) fun _ => rfl) fun c r hu => ?_
    · simp [taken_of_ne_alloc ha hr]
    · exact Function.update_of_ne (taken_of_ne_alloc ha (hu.taken h)) ..
  | newReloc o x ha =>
    refine hs.same rfl (fun c r => unresolved_frame h rfl rfl rfl (fun _ => rfl) (fun _ => rfl)
      (fun hr => ?_) fun hr => ?_) fun c r hu => ?_
    · simp [taken_of_ne_alloc ha hr]
    · exact Function.update_of_ne (taken_of_ne_alloc ha hr) ..
    · exact Function.update_of_ne (taken_of_ne_alloc ha (hu.taken h)) ..
  | delete as _ =>
    obtain ⟨hnode, hcas, hreloc⟩ := foldl_delete (m := m) as
    refine hs.same rfl (fun c r => unresolved_frame h ?_ ?_ rfl (fun _ => ?_) (fun _ => by rw [hcas])
      (fun _ => by rw [hreloc]) fun _ => rfl) fun _ _ _ => rfl
    · unfold Mem.op
      rw [hnode]
    · unfold Mem.child
      rw [hnode]
    · unfold Mem.key
      rw [hnode]
  | @publishInsertion x r a n hi _ _ howner hw =>
    exact hs.publish (.add (m.key n)) r rfl howner (hwaiting hw)
      (fun _ _ => unresolved_setStatus.trans (unresolved_insertion h hi)) rfl
  | publishSplicing hi _ =>
    exact hs.same rfl (fun _ _ => unresolved_splicing h hi) fun _ _ _ => rfl
  | @link x r a n hopx hslot hexp hupd hn h0 hgap =>
    refine hs.resolve (.add (m.key n)) r rfl
      (.add hopx hslot (by rw [hexp]) hupd) (by simp) (fun c s => ?_) rfl
    rw [unresolved_setStatus]
    exact unresolved_setChild h hopx (by simp [hexp]) rfl rfl
  | unlink hopx _ hexp hc hm _ =>
    exact hs.same rfl (fun _ _ => unresolved_unlink h hopx hexp hc hm) fun _ _ _ => rfl
  | @clearCas x r hopx hdone =>
    refine hs.same rfl (fun _ _ => unresolved_setOp_plain h (fun s hs => ?_) (.inl rfl))
      fun _ _ _ => rfl
    obtain rfl : r = s := by simpa [hopx] using hs
    exact hdone
  | @mark x hx hroot hflag hempty hw =>
    have hsame : StatusInv (m.setOp x ⟨(m.op x).addr, .mark⟩) (g.setOp m x) :=
      hs.same rfl (fun _ _ => unresolved_setOp_plain h (not_cas_of_flag hflag) (.inr rfl))
        fun _ _ _ => rfl
    exact hsame.setStatus (hwaiting hw) (by simp)
  | @publishRelocation x r hr _ howner hw =>
    exact hs.publish (.remove (m.reloc r).removeKey) r rfl howner (hwaiting hw)
      (fun _ _ => unresolved_setStatus.trans (unresolved_relocating h hr)) rfl
  | @commit r hr hopd =>
    obtain ⟨hnc, hnf⟩ := h.open_of_ready hr hopd
    exact hs.resolve (.remove (m.reloc r).removeKey) r rfl (.remove hr hnc hnf) (by simp)
      (fun _ _ => unresolved_setStatus.trans (unresolved_commit h hr hopd)) rfl
  | @succeed r hst hcom =>
    refine hs.same rfl (fun c s => ?_) fun _ _ _ => rfl
    rw [unresolved_setState h hst (h.place hcom).1 fun _ => hcom]
    simp
  | @fail r hr hst hnc hp =>
    refine hs.resolve (.remove (m.reloc r).removeKey) r rfl
      (.remove hr hnc (by simp [hst])) (by simp) (fun c s => ?_) rfl
    rw [unresolved_setStatus, unresolved_setState h hst hr (by simp)]
    simp
  | rewrite hw => exact hs.same rfl (fun c s => unresolved_rewrite h hw) fun _ _ _ => rfl
  | clearRelocation hopd _ =>
    exact hs.same rfl (fun _ _ => unresolved_setOp_plain h (by simp [hopd]) (.inl rfl))
      fun _ _ _ => rfl
  | releaseMark hopq _ =>
    exact hs.same rfl (fun _ _ => unresolved_setOp_plain h (by simp [hopq]) (.inr rfl))
      fun _ _ _ => rfl
  | releaseFailed hopq _ =>
    exact hs.same rfl (fun _ _ => unresolved_setOp_plain h (by simp [hopq]) (.inl rfl))
      fun _ _ _ => rfl

/-- What the set sees of the threads. -/
def Ghost.phases (g : Ghost) (t : Tid) : Phase Call Result :=
  (g.status t).phase

theorem phases_setStatus {st : Status} :
    (g.setStatus t st).phases = Function.update g.phases t st.phase := by
  funext u
  by_cases hut : u = t
  · subst hut
    simp [Ghost.phases, Ghost.setStatus]
  · simp [Ghost.phases, Ghost.setStatus, hut]

theorem phases_setStatus_same (st : Status) {st' : Status} (h : g.status t = st) (hst : st.phase = st'.phase) :
    (g.setStatus t st').phases = g.phases := by
  rw [phases_setStatus, ← hst, ← h]
  exact Function.update_eq_self t g.phases

/-- A relocation on the node that is replaced leaves its key where it is. -/
theorem present_relocating (h : MemInv cfg m g) (hr : Relocating cfg m g x r) :
    present (m.setOp x (.rel r)) (g.setOp m x) x := by
  have honly : ∀ s, (m.setOp x (.rel r)).op x = .rel s → r = s := fun s hs => by simpa using hs
  have hnew : r ∉ g.rewritten := fun hw =>
    MemInv.not_everOp_of_private hr.hidden _ (h.rewritten_installed hw)
  refine ⟨?_, fun s hs heq => ?_⟩
  · rintro (hm | ⟨s, hs, _, hw⟩)
    · simp [Mem.marked] at hm
    · exact hnew (honly s hs ▸ hw)
  · obtain rfl := honly s hs
    exact absurd heq hr.dest_ne

theorem present_rewritten (hop : m.op (m.reloc r).dest = .rel r) (hw : r ∈ g.rewritten) :
    present m g (m.reloc r).dest := by
  have honly : ∀ s, m.op (m.reloc r).dest = .rel s → r = s := fun s hs => by simpa [hop] using hs
  refine ⟨?_, fun s hs _ => honly s hs ▸ hw⟩
  rintro (hm | ⟨s, hs, hne, _⟩)
  · simp [Mem.marked, hop] at hm
  · exact hne (honly s hs ▸ rfl)

theorem present_failed (h : MemInv cfg m g) (hop : m.op (g.replace r) = .rel r)
    (hst : m.state r = .failed) : present m g (g.replace r) := by
  have hR := h.record (.inl hop)
  have honly : ∀ s, m.op (g.replace r) = .rel s → r = s := fun s hs => by simpa [hop] using hs
  refine ⟨?_, fun s hs heq => ?_⟩
  · rintro (hm | ⟨s, hs, _, hw⟩)
    · simp [Mem.marked, hop] at hm
    · obtain rfl := honly s hs
      exact (hR.commit_past (hR.rewritten hw).1).2 hst
  · obtain rfl := honly s hs
    exact absurd heq hR.dest_ne_replace

/-- Every change is a silent step of the set, or lets one call take effect. -/
theorem Change.moves (hc : Change cfg t spent m g m' g') (h : MemInv cfg m g)
    (hs : StatusInv m g) :
    Moves setObject none (keys m g) g.phases (keys m' g') g'.phases := by
  have hsilent : keys m' g' = keys m g → g'.phases = g.phases →
      Moves setObject none (keys m g) g.phases (keys m' g') g'.phases := by
    intro hk hp
    rw [hk, hp]
    exact .silent
  -- The call of thread `u` takes effect.
  have heffect : ∀ {u c r}, g.phases u = .pending c → SetStep (keys m g) c r (keys m' g') →
      g'.phases = Function.update g.phases u (.done r) →
      Moves setObject none (keys m g) g.phases (keys m' g') g'.phases := by
    intro u c r hu hstep hp
    rw [hp]
    exact .effect hu hstep
  have hpres : ∀ {x : Addr}, (m.op x).flag = .none → present m g x := fun hf =>
    present_of_flag (.inl hf)
  cases hc with
  | read => exact .silent
  | hpList w =>
    refine hsilent (keys_congr rfl (fun _ _ => rfl) fun y _ => ?_) rfl
    exact present_frame h rfl (fun _ _ => rfl) rfl
  | observe hw hstep =>
    exact heffect (congrArg Status.phase hw) hstep phases_setStatus
  | @newNode a k ha =>
    have hborn : a ∉ g.born := fun hb => h.not_public_of_allocatable ha (.node hb)
    refine hsilent (keys_congr rfl (fun y hy => ?_) fun y _ => ?_) rfl
    · simp [taken_of_ne_alloc ha (h.taken (.node (h.born_of_mem hy)))]
    · exact present_frame h (funext (MemInv.newNode_op hborn h)) (fun _ _ => rfl) rfl
  | newCas o ha =>
    refine hsilent (keys_congr rfl (fun _ _ => rfl) fun y _ => ?_) rfl
    exact present_frame h rfl (fun _ _ => rfl) rfl
  | newReloc o x ha =>
    refine hsilent (keys_congr rfl (fun _ _ => rfl) fun y _ => ?_) rfl
    refine present_frame h rfl (fun r hr => ?_) rfl
    simp [taken_of_ne_alloc ha hr]
  | delete as _ =>
    obtain ⟨hnode, _, hreloc⟩ := foldl_delete (m := m) as
    refine hsilent (keys_congr rfl (fun y _ => ?_) fun y _ => ?_) rfl
    · unfold Mem.key
      rw [hnode]
    · refine present_frame h ?_ (fun r _ => by rw [hreloc]) rfl
      unfold Mem.op
      rw [hnode]
  | publishInsertion hi _ _ _ hw =>
    refine hsilent ?_ (phases_setStatus_same (.waiting _) hw rfl)
    rw [keys_setStatus]
    refine keys_setOp (iff_of_true ?_ (hpres hi.flag))
    exact present_of_flag (.inr (by simp))
  | publishSplicing hi _ =>
    refine hsilent (keys_setOp (iff_of_true ?_ (hpres hi.flag))) rfl
    exact present_of_flag (.inr (by simp))
  | @link x r a n hopx hslot hexp hupd hn h0 hgap =>
    have hnull : isNull (m.child x (m.cas r).isLeft) = true := by
      rw [hslot, hexp]
      rfl
    have hpub := (hs (g.owner r) (.add (m.key n)) r).mpr
      ⟨rfl, .add hopx hslot (by rw [hexp]) hupd⟩
    refine heffect (congrArg Status.phase hpub) ?_ phases_setStatus
    rw [keys_setStatus, keys_link h hopx hnull hn]
    exact .added (hgap.not_mem_keys h (h.mem_of_flag (by simp [hopx]) (h.born_of_flag (by simp [hopx]))))
  | unlink hopx hslot hexp hc hm hupd => exact hsilent (keys_unlink hm) rfl
  | clearCas hopx hdone =>
    refine hsilent (keys_setOp ?_) rfl
    refine iff_of_true (present_of_flag (.inl ?_)) (present_of_flag (.inr ?_))
    · simp
    · simp [hopx]
  | @mark x hx hroot hflag hempty hw =>
    have hmem := h.mem_of_flag (x := x) (by simp [hflag]) hx
    refine heffect (congrArg Status.phase hw) ?_ phases_setStatus
    rw [keys_setStatus, keys_setOp_erase h hmem hroot (hpres hflag)]
    · exact .removed ⟨x, hmem, hroot, hpres hflag, rfl⟩
    · exact not_present_of_marked (by simp [Mem.marked])
  | @publishRelocation x r hr _ _ hw =>
    refine hsilent ?_ (phases_setStatus_same (.waiting _) hw rfl)
    rw [keys_setStatus]
    exact keys_setOp (iff_of_true (present_relocating h hr) (hpres hr.flag))
  | @commit r hr hopd =>
    have hR := h.record hr
    have hflag : (m.op (m.reloc r).dest).flag = .none := by rw [hopd, hR.destOp_flag]
    have hmem := h.mem_of_flag (by simp [hflag]) hR.dest_born
    obtain ⟨hnc, hnf⟩ := h.open_of_ready hr hopd
    have hpub := (hs (g.owner r) _ r).mpr ⟨rfl, .remove hr hnc hnf⟩
    have hkey := (hR.ready hopd (h.held_of_ready hr hopd)).2
    refine heffect (congrArg Status.phase hpub) ?_ phases_setStatus
    rw [keys_setStatus, keys_setOp_erase h hmem hR.dest_ne_root (hpres hflag), hkey]
    · exact .removed ⟨_, hmem, hR.dest_ne_root, hpres hflag, hkey⟩
    · intro hp
      exact hnc (h.committed_of_rewritten (hp.2 r (by simp) rfl))
  | @succeed r hst hcom =>
    refine hsilent (keys_congr rfl (fun _ _ => rfl) fun y _ => ?_) rfl
    exact present_frame h rfl (fun s _ => by simp) rfl
  | @fail r hr hst hnc hp =>
    have hpub := (hs (g.owner r) _ r).mpr ⟨rfl, .remove hr hnc (by simp [hst])⟩
    refine hsilent (keys_congr rfl (fun _ _ => rfl) fun y _ => ?_)
      (phases_setStatus_same (.published _ _) hpub rfl)
    exact present_frame h rfl (fun s _ => by simp) rfl
  | rewrite hw => exact hsilent (keys_rewrite h hw) rfl
  | clearRelocation hopd hw =>
    refine hsilent (keys_setOp ?_) rfl
    exact iff_of_true (present_of_flag (.inl (by simp))) (present_rewritten hopd hw)
  | @releaseMark r hopq hq =>
    refine hsilent (keys_setOp ?_) rfl
    have hR := h.record (.inl hopq)
    refine iff_of_false (not_present_of_marked (by simp [Mem.marked])) fun hp => ?_
    exact hp.1 (.inr ⟨r, hopq, hR.dest_ne_replace, (hR.finished hq).1⟩)
  | releaseFailed hopq hst =>
    refine hsilent (keys_setOp ?_) rfl
    exact iff_of_true (present_of_flag (.inl (by simp))) (present_failed h hopq hst)

end LockFree
