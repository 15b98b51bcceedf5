-- SUMMARY: The steps of find keep what the thread knows, and its answer is right at line 229.
import ConcurrentBST.LockFree.ThreadInv

/-!
# The steps of `find`

A step is `Sound` if it is one of the changes and the thread afterwards knows
what its new program point asks for.
-/

namespace LockFree

variable {cfg : Config} {m m' : Mem} {g g' : Ghost} {x y r s a b n c : Addr} {d e : Bool} {k : Int}
  {w v : Word} {t u : Tid} {spent : Addr → Prop} {call : Call} {f : FindVars} {pc pc' : PC}
  {fresh : Addr}

/-- A step of `t` from `pc` to `pc'`. -/
def Sound (cfg : Config) (t : Tid) (call : Call) (m : Mem) (g : Ghost) (pc : PC) (m' : Mem)
    (pc' : PC) : Prop :=
  ∃ g' spent, Change cfg t spent m g m' g' ∧ (∀ a, spent a → a ∈ pc.owns) ∧
    PcInv cfg m' g' t call pc' ∧ ∀ a ∈ pc'.owns, a ∈ pc.owns ∨ ¬ Taken cfg m a

theorem Sound.read {q : PC} (hp : PcInv cfg m g t call q) (hown : q.owns = []) :
    Sound cfg t call m g pc m q :=
  ⟨g, fun _ => False, .read, fun _ h => h.elim, hp, by simp [hown]⟩

/-! ## Program points that are put together -/

@[simp] theorem pcInv_hp : PcInv cfg m g t call (.hp cfg w pc) ↔ PcInv cfg m g t call pc := by
  unfold PC.hp
  split <;> exact Iff.rfl

@[simp] theorem pcInv_hpField :
    PcInv cfg m g t call (.hpField cfg n d pc) ↔ PcInv cfg m g t call pc := by
  unfold PC.hpField
  split <;> exact Iff.rfl

@[simp] theorem owns_hp : (PC.hp cfg w pc).owns = pc.owns := by
  unfold PC.hp
  split <;> rfl

@[simp] theorem owns_hpField : (PC.hpField cfg n d pc).owns = pc.owns := by
  unfold PC.hpField
  split <;> rfl

@[simp] theorem owns_findStart : (findStart cfg f).owns = [] := by
  simp [findStart, PC.owns]

@[simp] theorem owns_callStart : (callStart cfg f).owns = [] := owns_findStart

theorem pcInv_findStart (h : Retrying m g t call f) : PcInv cfg m g t call (findStart cfg f) :=
  pcInv_hp.mpr ⟨h, rfl⟩

theorem pcInv_callStart (h : g.status t = .waiting call) :
    PcInv cfg m g t call (callStart cfg f) :=
  pcInv_findStart ⟨h, trivial⟩

/-! ## Going down -/

theorem MemInv.mem_of_seen (h : MemInv cfg m g) (hs : Seen m g x w) (hx : m.op x = w) :
    x ∈ g.tree.nodes :=
  h.mem_of_flag (by simp [hx, hs.flag]) hs.born

theorem MemInv.not_gone_of_seen (hs : Seen m g x w) (hx : m.op x = w) : ¬ gone m g x :=
  not_gone_of_flag (.inl (by rw [hx, hs.flag]))

theorem MemInv.ne_root_of_below (h : MemInv cfg m g) (hx : g.tree.Below y e x) : x ≠ baseRoot :=
  fun heq => h.not_below_root (heq ▸ hx)

/-- The child a thread has just read. -/
theorem MemInv.link_child (h : MemInv cfg m g) (hs : Seen m g x w) (hc : m.child x d = .ptr c) :
    Link m g x w c :=
  ⟨hs, h.child_born hc, fun _ => ⟨d, hc⟩, .inl ⟨d, hc⟩⟩

theorem CallerInv.aux_mem (h : MemInv cfg m g) {fc : FindCaller} (hc : CallerInv m g call fc)
    (ha : Anchored m fc) : fc.auxRoot ∈ g.tree.nodes := by
  cases fc with
  | root => exact h.root
  | replacement aux auxOp => exact h.mem_of_seen hc.2.1.toSeen ha

/-- The first step of a search goes to the right. -/
theorem MemInv.path_first (h : MemInv cfg m g) (hx : x ∈ g.tree.nodes)
    (hc : m.child x false = .ptr c) : Path m g x k c x := by
  have hc' := h.childPtr_eq_some.mpr hc
  refine ⟨h.fits.child_below hx hc', fun y hy hyc => ?_, fun y hy hyc => ?_⟩
  · rcases h.fits.child_anc hc' hyc with hb | ⟨_, hf⟩
    · exact absurd (h.lawful.trans hb hy) h.lawful.irrefl
    · cases hf
  · rcases hy with rfl | hy
    · exact .inl rfl
    · rcases h.fits.child_anc hc' hyc with hb | ⟨rfl, _⟩
      · exact .inr hb
      · exact .inl rfl

theorem MemInv.path_left (h : MemInv cfg m g) (hp : Path m g x k y r) (hk : k < m.key y)
    (hc : m.child y true = .ptr c) : Path m g x k c r := by
  have hc' := h.childPtr_eq_some.mpr hc
  refine ⟨h.fits.child_up hc' hp.below, fun z hz hzc => ?_, fun z hz hzc => ?_⟩
  · rcases h.fits.child_anc hc' hzc with hb | ⟨rfl, _⟩
    · exact hp.left z hz hb
    · exact hk
  · rcases h.fits.child_anc hc' hzc with hb | ⟨_, hf⟩
    · exact hp.right z hz hb
    · cases hf

theorem MemInv.path_right (h : MemInv cfg m g) (hp : Path m g x k y r)
    (hc : m.child y false = .ptr c) : Path m g x k c y := by
  have hc' := h.childPtr_eq_some.mpr hc
  refine ⟨h.fits.child_up hc' hp.below, fun z hz hzc => ?_, fun z hz hzc => ?_⟩
  · rcases h.fits.child_anc hc' hzc with hb | ⟨_, hf⟩
    · exact hp.left z hz hb
    · cases hf
  · rcases h.fits.child_anc hc' hzc with hb | ⟨rfl, _⟩
    · exact .inr hb
    · exact .inl rfl

/-- The loop goes on at the child or ends at the empty slot. -/
theorem pcInv_findLoop (cfg : Config) (f : FindVars) (result : FindResult) (h : MemInv cfg m g)
    (hw : g.status t = .waiting call) (hres : result ≠ .found)
    (hvisit : ∀ c, m.child x d = .ptr c →
      Visit m g call { f with pred := f.curr, predOp := f.currOp, curr := c })
    (hend : isNull (m.child x d) = true → Ended m g call f result) :
    PcInv cfg m g t call (findLoop f (m.child x d) result) ∧
      (findLoop f (m.child x d) result).owns = [] := by
  unfold findLoop
  by_cases hn : isNull (m.child x d) = true
  · simp only [hn, Bool.not_true, Bool.false_and, Bool.false_eq_true, if_false, findEnd, if_neg hres]
    exact ⟨⟨hw, hend hn⟩, rfl⟩
  · rw [Bool.not_eq_true] at hn
    have hptr := h.child_eq_ptr hn
    have hne : (m.child x d).addr ≠ 0 := fun h0 => h.zero_unborn (h0 ▸ h.child_born hptr)
    have hgo : (!isNull (m.child x d) && m.child x d != .ptr 0) = true := by
      rw [hn, hptr]
      simp [hne]
    rw [if_pos hgo]
    exact ⟨⟨hw, hvisit _ hptr⟩, rfl⟩

/-! ## The accesses -/

theorem sound_findOp (h : MemInv cfg m g) (hp : PcInv cfg m g t call (.findOp f))
    (he : exec cfg t call fresh m (.findOp f) = some (m', pc')) :
    Sound cfg t call m g (.findOp f) m' pc' := by
  obtain ⟨⟨hw, hc⟩, hcurr⟩ := hp
  simp only [exec] at he
  split at he
  · next hflag =>
    split at he
    · next hroot =>
      -- Only a child CAS can be at work on `base_root`.
      cases he
      rw [hroot] at hcurr
      refine .read (q := childStart m _ _ _) ⟨.inl ?_, hw, hc⟩ rfl
      have hop := h.root_op.resolve_left (by simpa [hcurr] using hflag)
      rw [hcurr]
      exact Word.ext rfl hop
    · next hroot =>
      cases he
      cases hfc : f.caller with
      | root => simp [hfc, FindCaller.auxRoot] at hroot
      | replacement aux auxOp =>
        simp only [findReturn, if_true]
        exact .read (pcInv_callStart hw) owns_callStart
  · next hflag =>
    cases he
    refine .read (pcInv_hpField.mpr ⟨⟨hw, hc⟩, hcurr, ?_⟩) (by simp [PC.owns])
    refine ⟨?_, .inl rfl, by simpa using hflag⟩
    rw [hcurr]
    cases hfc : f.caller with
    | root => exact h.born_of_mem h.root
    | replacement aux auxOp =>
      rw [hfc] at hc
      exact hc.2.1.born

theorem sound_findNext (h : MemInv cfg m g) (hp : PcInv cfg m g t call (.findNext f))
    (he : exec cfg t call fresh m (.findNext f) = some (m', pc')) :
    Sound cfg t call m g (.findNext f) m' pc' := by
  obtain ⟨⟨hw, hc⟩, hcurr, hs⟩ := hp
  simp only [exec] at he
  cases he
  have hlast : ∀ P : Prop, m.op f.curr = f.currOp → f.curr ≠ f.caller.auxRoot → P :=
    fun _ _ hne => absurd hcurr hne
  have hvisit : ∀ c, m.child f.curr false = .ptr c → Visit m g call { f with
      pred := f.curr, predOp := f.currOp, curr := c, lastRight := f.curr,
      lastRightOp := f.currOp } := by
    intro c hchild
    refine ⟨hc, h.link_child hs hchild, hs, hlast _, fun ha => ?_⟩
    have hmem := hc.aux_mem h ha
    rw [← hcurr] at hmem ⊢
    exact h.path_first hmem hchild
  have hloop := pcInv_findLoop cfg { f with lastRight := f.curr, lastRightOp := f.currOp }
    .notFoundR h hw (by simp) hvisit
    fun hn => ⟨hc, hs, hs, hlast _, .inr ⟨rfl, rfl, rfl, .inl hcurr, fun _ => hn⟩⟩
  exact .read hloop.1 hloop.2

theorem sound_findCurrOp (h : MemInv cfg m g) (hp : PcInv cfg m g t call (.findCurrOp f))
    (he : exec cfg t call fresh m (.findCurrOp f) = some (m', pc')) :
    Sound cfg t call m g (.findCurrOp f) m' pc' := by
  obtain ⟨hw, hv⟩ := hp
  simp only [exec] at he
  have hv' : Visit m g call { f with currOp := m.op f.curr } :=
    ⟨hv.caller, hv.link, hv.last, hv.last_lt, hv.path⟩
  split at he
  · next hflag =>
    cases he
    unfold help getFlag
    split
    · next hf => exact .read (q := childStart m _ _ _) ⟨.inl (Word.ext rfl hf), hw, hv.caller⟩ rfl
    · next hf =>
      have hop : m.op f.curr = .rel (m.op f.curr).addr := Word.ext rfl hf
      refine .read ⟨⟨(h.place (.inl hop)).1, .inl hop, hv.link, fun _ _ => .inl ?_⟩, hw, hv.caller⟩ rfl
      exact hv.link.above.resolve_right (unmarked_of_flag (by simp [hf]))
    · next hf => exact .read ⟨⟨hv.link, hf⟩, hw, hv.caller⟩ rfl
    · next hf => exact absurd hf hflag
  · next hflag =>
    cases he
    exact .read ⟨hw, hv', hv.link.born, .inl rfl, by simpa using hflag⟩ rfl

theorem sound_findKey (h : MemInv cfg m g) (hp : PcInv cfg m g t call (.findKey f))
    (he : exec cfg t call fresh m (.findKey f) = some (m', pc')) :
    Sound cfg t call m g (.findKey f) m' pc' := by
  obtain ⟨hw, hv, hs⟩ := hp
  simp only [exec] at he
  split at he
  · next hlt =>
    cases he
    exact .read (pcInv_hpField.mpr ⟨hw, hv, hs, fun _ => hlt, by simp⟩) (by simp [PC.owns])
  · next hnlt =>
    split at he
    · next hgt =>
      cases he
      exact .read (pcInv_hpField.mpr ⟨hw, hv, hs, by simp, fun _ _ => hgt⟩) (by simp [PC.owns])
    · next hngt =>
      cases he
      have hkey : m.key f.curr = call.key := le_antisymm (not_lt.mp hnlt) (not_lt.mp hngt)
      refine .read (q := .findCurr f .found) ⟨hw, ?_⟩ rfl
      unfold Answer
      split
      · next heq =>
        have hpath := hv.path (by rw [heq]; trivial)
        exact .inl ⟨rfl, ⟨hs, h.ne_root_of_below hpath.below, fun _ => hkey⟩, hv.link⟩
      · next aux auxOp heq =>
        refine ⟨hv.caller, by simp, hs, fun ha => ⟨hv.link, fun hx => ?_⟩⟩
        -- The keys on the right of `aux` are larger than its own.
        have hc := hv.caller
        have hpath := hv.path (by rw [heq]; exact ha)
        rw [heq] at hc hpath
        obtain ⟨_, ht, _⟩ := hc
        have hlt := (h.sorted (h.mem_of_seen ht.toSeen ha) (h.mem_of_seen hs hx) ht.ne_root
          (h.ne_root_of_below hpath.below) (.inr (.inl hpath.below))).2
          (MemInv.not_gone_of_seen ht.toSeen ha) (MemInv.not_gone_of_seen hs hx)
        rw [ht.key ha, hkey] at hlt
        exact absurd hlt (lt_irrefl _)

theorem sound_findChild (h : MemInv cfg m g) {isLeft : Bool}
    (hp : PcInv cfg m g t call (.findChild f isLeft))
    (he : exec cfg t call fresh m (.findChild f isLeft) = some (m', pc')) :
    Sound cfg t call m g (.findChild f isLeft) m' pc' := by
  obtain ⟨hw, hv, hs, hl, hr⟩ := hp
  simp only [exec] at he
  cases isLeft with
  | true =>
    cases he
    have hvisit : ∀ c, m.child f.curr true = .ptr c →
        Visit m g call { f with pred := f.curr, predOp := f.currOp, curr := c } := fun c hchild =>
      ⟨hv.caller, h.link_child hs hchild, hv.last, hv.last_lt,
        fun ha => h.path_left (hv.path ha) (hl rfl) hchild⟩
    have hloop := pcInv_findLoop cfg f .notFoundL h hw (by simp) hvisit
      fun hn => ⟨hv.caller, hs, hv.last, hv.last_lt, .inl ⟨rfl, hv, hl rfl, fun _ => hn⟩⟩
    exact .read hloop.1 hloop.2
  | false =>
    cases he
    have hlt : m.op f.curr = f.currOp → f.curr ≠ f.caller.auxRoot → m.key f.curr < call.key :=
      fun hx _ => hr rfl hx
    have hhere : Visit m g call { f with lastRight := f.curr, lastRightOp := f.currOp } :=
      ⟨hv.caller, hv.link, hs, hlt, fun ha =>
        ⟨(hv.path ha).below, (hv.path ha).left, fun _ _ hb => .inr hb⟩⟩
    have hvisit : ∀ c, m.child f.curr false = .ptr c → Visit m g call { f with
        pred := f.curr, predOp := f.currOp, curr := c, lastRight := f.curr,
        lastRightOp := f.currOp } := fun c hchild =>
      ⟨hv.caller, h.link_child hs hchild, hs, hlt, fun ha => h.path_right (hv.path ha) hchild⟩
    have hloop := pcInv_findLoop cfg { f with lastRight := f.curr, lastRightOp := f.currOp }
      .notFoundR h hw (by simp) hvisit
      fun hn => ⟨hv.caller, hs, hs, hlt, .inr ⟨rfl, rfl, rfl, .inr hhere, fun _ => hn⟩⟩
    exact .read hloop.1 hloop.2

/-! ## The check of `last_right` -/

/-- The search for `k` from `base_root` has come to the gap of `k`. -/
theorem gap_of_ended (h : MemInv cfg m g) {result : FindResult} (he : Ended m g call f result)
    (hroot : f.caller = .root) (hlast : m.op f.lastRight = f.lastRightOp)
    (hx : m.op f.curr = f.currOp) :
    result = .notFoundL ∧ Gap m g f.curr true call.key ∨
      result = .notFoundR ∧ Gap m g f.curr false call.key := by
  have haux : f.caller.auxRoot = baseRoot := by rw [hroot]; rfl
  have hmem := h.mem_of_seen he.curr hx
  have hlmem := h.mem_of_seen he.last hlast
  have hle : ∀ {y z}, y ∈ g.tree.nodes → z ∈ g.tree.nodes → y ≠ baseRoot → z ≠ baseRoot →
      y = z ∨ g.tree.Before y z → m.key y ≤ m.key z := by
    intro y z hy hz hyr hzr hyz
    rcases hyz with rfl | hyz
    · exact le_rfl
    · exact (h.sorted hy hz hyr hzr hyz).1
  -- Everything up to `last_right` is smaller.
  have hsmall : ∀ y ∈ g.tree.nodes, y ≠ baseRoot → y = f.lastRight ∨ g.tree.Before y f.lastRight →
      m.key y < call.key := by
    intro y hy hyr hb
    have hlr : f.lastRight ≠ baseRoot := by
      intro heq
      rcases hb with rfl | hb
      · exact hyr heq
      · exact h.not_before_root hy (heq ▸ hb)
    exact (hle hy hlmem hyr hlr hb).trans_lt (he.last_lt hlast (haux ▸ hlr))
  rcases he.slot with ⟨hr, hv, hk, hn⟩ | ⟨hr, hl, _, hv, hn⟩
  · have hpath := hv.path (by rw [hroot]; trivial)
    rw [haux] at hpath
    have hcr := h.ne_root_of_below hpath.below
    refine .inl ⟨hr, fun heq => absurd heq hcr, fun y hy hyr hb => ?_, fun y hy hyr hb => ?_⟩
    · refine hsmall y hy hyr (h.fits.beforeGap_left hmem hy (Mem.childPtr_eq_none.mpr (hn hx))
        (fun z hz => hpath.right z ?_ hz) hb)
      by_cases hzr : z = baseRoot
      · exact .inl hzr
      · exact .inr (h.right_of_root hz.mem hzr)
    · refine hk.trans_le (hle hmem hy hcr hyr ?_)
      exact hb.symm.imp (fun hb => hb.2.symm) id
  · refine .inr ⟨hr, fun _ => rfl, fun y hy hyr hb => ?_, fun y hy hyr hb => ?_⟩
    · apply hsmall y hy hyr
      rw [hl]
      exact hb.symm.imp_left And.right
    · obtain ⟨z, hz, hzy⟩ := h.fits.afterGap_right hmem hy (Mem.childPtr_eq_none.mpr (hn hx)) hb
      have hzr : z ≠ baseRoot := by
        rintro rfl
        have hcr : f.curr ≠ baseRoot := h.ne_root_of_below hz
        simpa using h.lawful.unique hz (h.right_of_root hmem hcr)
      rcases hv with hv | hv
      · rw [haux] at hv
        exact absurd (hv ▸ hz) h.not_below_root
      · have hpath := hv.path (by rw [hroot]; trivial)
        rw [haux] at hpath
        exact (hpath.left z (h.right_of_root hz.mem hzr) hz).trans_le
          (hle hz.mem hy hzr hyr (hzy.imp_left Eq.symm))

/-- The search for a replacement went once to the right and then to the left. -/
theorem leftPath_of_ended (h : MemInv cfg m g) {result : FindResult} {aux : Addr} {auxOp : Word}
    (he : Ended m g call f result) (hfc : f.caller = .replacement aux auxOp)
    (hlast : m.op f.lastRight = f.lastRightOp) (ha : m.op aux = auxOp) :
    Link m g f.pred f.predOp f.curr ∧
      (m.op f.curr = f.currOp → LeftPath g aux f.curr ∧ isNull (m.child f.curr true) = true) := by
  have hc := he.caller
  have hslot := he.slot
  have hlt := he.last_lt hlast
  have hpath : Visit m g call f → Path m g aux call.key f.curr f.lastRight := by
    intro hv
    have hpath := hv.path (by rw [hfc]; exact ha)
    rwa [hfc] at hpath
  rw [hfc] at hc hslot hlt
  obtain ⟨_, ht, hright⟩ := hc
  have hamem := h.mem_of_seen ht.toSeen ha
  -- The last turn to the right was taken at `aux`, since no key on its right is smaller.
  have hlr : Visit m g call f → f.lastRight = aux := by
    intro hv
    by_contra hne
    have hb := ((hpath hv).right aux (.inl rfl) (hpath hv).below).resolve_left (Ne.symm hne)
    have hle := (h.sorted hamem (h.mem_of_seen he.last hlast) ht.ne_root (h.ne_root_of_below hb)
      (.inr (.inl hb))).1
    rw [ht.key ha] at hle
    exact absurd (hlt hne) (not_lt.mpr hle)
  rcases hslot with ⟨_, hv, _, hn⟩ | ⟨_, hl, hlo, hv, hn⟩
  · refine ⟨hv.link, fun hx => ⟨⟨(hpath hv).below, fun z e hz haz => ?_⟩, hn hx⟩⟩
    cases e with
    | true => rfl
    | false =>
      rcases (hpath hv).right z (.inr haz) hz with heq | hb
      · rw [heq, hlr hv] at haz
        exact absurd haz h.lawful.irrefl
      · rw [hlr hv] at hb
        exact absurd (h.lawful.trans hb haz) h.lawful.irrefl
  · exfalso
    rcases hv with hv | hv
    · have hempty := hn (hl ▸ hlo ▸ hlast)
      rw [hv] at hempty
      simp [FindCaller.auxRoot, hright ha] at hempty
    · have hb := (hpath hv).below
      rw [← hl, hlr hv] at hb
      exact h.lawful.irrefl hb

theorem sound_findLastRight (h : MemInv cfg m g) {result : FindResult}
    (hp : PcInv cfg m g t call (.findLastRight f result))
    (he : exec cfg t call fresh m (.findLastRight f result) = some (m', pc')) :
    Sound cfg t call m g (.findLastRight f result) m' pc' := by
  obtain ⟨hw, hend⟩ := hp
  simp only [exec] at he
  split at he
  · cases he
    exact .read (pcInv_findStart ⟨hw, hend.caller⟩) owns_findStart
  · next hlast =>
    cases he
    replace hlast : m.op f.lastRight = f.lastRightOp := (not_not.mp hlast).symm
    refine .read (q := .findCurr f result) ⟨hw, ?_⟩ rfl
    unfold Answer
    split
    · next hfc =>
      have hgap := gap_of_ended h hend hfc hlast
      rcases hend.slot with ⟨rfl, _, _, hn⟩ | ⟨rfl, _, _, _, hn⟩
      · refine .inr (.inl ⟨rfl, hend.curr, hn, fun hx => ?_⟩)
        simpa using hgap hx
      · refine .inr (.inr ⟨rfl, hend.curr, hn, fun hx => ?_⟩)
        simpa using hgap hx
    · next aux auxOp hfc =>
      refine ⟨hend.caller, ?_, hend.curr, leftPath_of_ended h hend hfc hlast⟩
      rcases hend.slot with ⟨rfl, _⟩ | ⟨rfl, _⟩ <;> simp

end LockFree
