-- SUMMARY: A helper that runs alone finishes, and the flag it was called for is gone.
import ConcurrentBST.LockFree.Solo

/-!
# Helpers running alone

Each helper is followed from its first access to its return. What happens in
between is not needed afterwards, except which `op` fields have changed and
which node has left the tree.
-/

namespace LockFree

variable {cfg : Config} {m m' : Mem} {g g' : Ghost} {t : Tid} {call : Call} {pc : PC}
  {Q : Mem → PC → Prop} {x r dest : Addr} {w : Word} {f : FindVars} {ret : HelpRet} {a : HelpArgs}

theorem Later.not_mem (h : Later g g') (hb : x ∈ g.born) (hx : x ∉ g.tree.nodes) :
    x ∉ g'.tree.nodes :=
  fun hx' => hx (h.mem_of hb hx')

/-- As long as `pred_op` is up to date, `curr` is a child of `pred`. -/
theorem Link.below {pred curr : Addr} {predOp : Word} (hl : Link m g pred predOp curr)
    (h : MemInv cfg m g) (hpred : m.op pred = predOp) :
    curr ∈ g.tree.nodes ∧ ∃ d, g.tree.Below pred d curr := by
  obtain ⟨d, hd⟩ := hl.slot hpred
  have hmem := h.mem_of_seen hl.seen hpred
  have hd := h.childPtr_eq_some.mpr hd
  exact ⟨h.fits.child_mem hmem hd, d, h.fits.child_below hmem hd⟩

theorem Link.ne {pred curr : Addr} {predOp : Word} (hl : Link m g pred predOp curr)
    (h : MemInv cfg m g) (hpred : m.op pred = predOp) : pred ≠ curr := by
  obtain ⟨_, d, hb⟩ := hl.below h hpred
  rintro rfl
  exact h.lawful.irrefl hb

theorem Lighter.of_eq (h : m'.op = m.op) : Lighter m m' g' := fun x _ => by rw [h]

/-- An `op` field loses its flag. -/
theorem Lighter.of_ptr (h : m'.op = Function.update m.op x (.ptr r)) : Lighter m m' g' := by
  intro y _
  rw [h]
  by_cases hy : y = x
  · rw [hy, Function.update_self]
    exact Nat.zero_le _
  · rw [Function.update_of_ne hy]

theorem Lighter.trans {m'' : Mem} {g'' : Ghost} (h : Lighter m m' g'')
    (h' : Lighter m' m'' g'') : Lighter m m'' g'' :=
  fun x hx => (h' x hx).trans (h x hx)

namespace Ready

variable (hcfg : cfg.hazardPointers = false)

include hcfg

-- ---------------------------------------------------------------------------
-- helpChildCAS
-- ---------------------------------------------------------------------------

/-- `helpChildCAS` for the record that is installed on `dest`. -/
theorem ends_childStart (h : Ready cfg t call m g (childStart m r dest ret))
    (hop : m.op dest = .cas r)
    (hnext : ∀ m' g', Ready cfg t call m' g' (helpReturn cfg ret) → Later g g' →
      m'.op = Function.update m.op dest (.ptr r) →
      (∀ c, (m.cas r).expected = .ptr c → c ∉ g'.tree.nodes) →
      Ends cfg t call Q m' (helpReturn cfg ret)) :
    Ends cfg t call Q m (childStart m r dest ret) := by
  refine h.step hcfg (by simp [childStart]) (fun _ => rfl) fun g₁ h₁ hl₁ => ?_
  refine h₁.step hcfg (by simp) (fun _ => rfl) fun g₂ h₂ hl₂ => ?_
  generalize hm₂ : m.addToHpList t _ = m₂ at h₂ ⊢
  have hop₂ : m₂.op = m.op := by rw [← hm₂, Mem.addToHpList_op]
  have hcas₂ : m₂.cas = m.cas := by rw [← hm₂, Mem.addToHpList_cas]
  -- line 365
  obtain ⟨m₃, he, hop₃, hcas₃⟩ : ∃ m₃, (∀ fresh, exec cfg t call fresh m₂ (.childSlot r dest ret) =
      some (m₃, .childOp r dest ret)) ∧ m₃.op = m₂.op ∧ m₃.cas = m₂.cas := by
    by_cases hslot : m₂.child dest (m₂.cas r).isLeft = (m₂.cas r).expected
    · refine ⟨m₂.setChild dest (m₂.cas r).isLeft (m₂.cas r).update, fun _ => ?_, by simp, rfl⟩
      simp [exec, hslot, hcfg]
    · exact ⟨m₂, fun _ => by simp [exec, hslot], rfl, rfl⟩
  refine h₂.step hcfg (by simp) he fun g₃ h₃ hl₃ => ?_
  -- line 402
  have hop' : m₃.op dest = .cas r := by rw [hop₃, hop₂, hop]
  have he : ∀ fresh, exec cfg t call fresh m₃ (.childOp r dest ret) =
      some (m₃.setOp dest (.ptr r), helpReturn cfg ret) := fun _ => by simp [exec, hop']
  refine h₃.step hcfg (by simp) he fun g₄ h₄ hl₄ => ?_
  refine hnext _ _ h₄ (hl₁.trans (hl₂.trans (hl₃.trans hl₄))) ?_ fun c hc => ?_
  · funext y
    simp [Function.update_apply, hop₃, hop₂]
  · obtain ⟨_, hpast, _⟩ := h₃.pc
    rw [hcas₃, hcas₂, hc] at hpast
    obtain ⟨hb, hn⟩ := h₃.mem.past_spliced hpast
    exact hl₄.not_mem hb hn

-- ---------------------------------------------------------------------------
-- helpMarked
-- ---------------------------------------------------------------------------

/-- `helpMarked` from line 433. -/
theorem ends_markedNew (h : Ready cfg t call m g (.markedNew a w))
    (hnext : ∀ m' g', Ready cfg t call m' g' (helpReturn cfg a.ret) → Later g g' →
      Lighter m m' g' → (m.op a.pred = a.predOp → a.curr ∉ g'.tree.nodes) →
      Ends cfg t call Q m' (helpReturn cfg a.ret)) :
    Ends cfg t call Q m (.markedNew a w) := by
  refine h.alloc hcfg (by simp) (fun _ => rfl) fun r g₁ _ h₁ hl₁ => ?_
  generalize hm₁ : m.newCas r _ = m₁ at h₁ ⊢
  have hop₁ : m₁.op = m.op := by rw [← hm₁, Mem.newCas_op]
  have hexp := h₁.pc.2.2.2.1
  -- line 438
  by_cases hx : m₁.op a.pred = a.predOp
  · have he : ∀ fresh, exec cfg t call fresh m₁ (.markedCas a r) =
        some (m₁.setOp a.pred (.cas r),
          childStart (m₁.setOp a.pred (.cas r)) r a.pred a.ret) := fun _ => by simp [exec, hx]
    refine h₁.step hcfg (by simp) he fun g₂ h₂ hl₂ => ?_
    refine h₂.ends_childStart hcfg (by simp) fun m' g' h' hl' hop' hgone => ?_
    refine hnext m' g' h' (hl₁.trans (hl₂.trans hl')) (.of_ptr (x := a.pred) (r := r) ?_) fun _ => ?_
    · rw [hop', ← hop₁]
      funext y
      by_cases hy : y = a.pred <;> simp [hy]
    · exact hgone _ (by rw [Mem.setOp_cas, hexp])
  · have he : ∀ fresh, exec cfg t call fresh m₁ (.markedCas a r) =
        some (m₁.delete r, helpReturn cfg a.ret) := fun _ => by simp [exec, hx]
    refine h₁.step hcfg (by simp) he fun g₂ h₂ hl₂ => ?_
    refine hnext _ g₂ h₂ (hl₁.trans hl₂) (.of_eq hop₁) fun hx' => absurd ?_ hx
    rw [hop₁, hx']

/-- `helpMarked` takes the marked node out if `pred_op` is up to date. -/
theorem ends_markedLeft (h : Ready cfg t call m g (.markedLeft a))
    (hnext : ∀ m' g', Ready cfg t call m' g' (helpReturn cfg a.ret) → Later g g' →
      Lighter m m' g' → (m.op a.pred = a.predOp → a.curr ∉ g'.tree.nodes) →
      Ends cfg t call Q m' (helpReturn cfg a.ret)) :
    Ends cfg t call Q m (.markedLeft a) := by
  have href : ∀ d g₁, Ready cfg t call m g₁ (.markedRef a d) → Later g g₁ →
      Ends cfg t call Q m (.markedRef a d) := by
    intro d g₁ h₁ hl₁
    refine h₁.step hcfg (by simp) (fun _ => rfl) fun g₂ h₂ hl₂ => ?_
    exact h₂.ends_markedNew hcfg fun m' g' h' hl' => hnext m' g' h' (hl₁.trans (hl₂.trans hl'))
  by_cases hl : isNull (m.child a.curr true) = true
  · have he : ∀ fresh, exec cfg t call fresh m (.markedLeft a) = some (m, .markedRight a) :=
      fun _ => by simp [exec, hl]
    refine h.step hcfg (by simp) he fun g₁ h₁ hl₁ => ?_
    by_cases hr : isNull (m.child a.curr false) = true
    · have he : ∀ fresh, exec cfg t call fresh m (.markedRight a) =
          some (m, .markedNew a (setNull (.ptr a.curr))) := fun _ => by simp [exec, hr]
      refine h₁.step hcfg (by simp) he fun g₂ h₂ hl₂ => ?_
      exact h₂.ends_markedNew hcfg fun m' g' h' hl' => hnext m' g' h' (hl₁.trans (hl₂.trans hl'))
    · have he : ∀ fresh, exec cfg t call fresh m (.markedRight a) = some (m, .markedRef a false) :=
        fun _ => by simp [exec, hr, PC.hpField, hcfg]
      exact h₁.step hcfg (by simp) he fun g₂ h₂ hl₂ => href false g₂ h₂ (hl₁.trans hl₂)
  · have he : ∀ fresh, exec cfg t call fresh m (.markedLeft a) = some (m, .markedRef a true) :=
      fun _ => by simp [exec, hl, PC.hpField, hcfg]
    exact h.step hcfg (by simp) he fun g₁ h₁ hl₁ => href true g₁ h₁ hl₁

-- ---------------------------------------------------------------------------
-- helpRelocate
-- ---------------------------------------------------------------------------

/-- `helpRelocate` from line 511 when the relocation has failed. -/
theorem ends_relocFailed {op : Addr} (h : Ready cfg t call m g (relocTail cfg m op a false))
    (hfail : m.state op = .failed) (hcurr : m.op a.curr = .rel op)
    (hnext : ∀ m' g', Ready cfg t call m' g' (relocReturn cfg op false a.ret) → Later g g' →
      m'.op = Function.update m.op a.curr (.ptr op) →
      Ends cfg t call Q m' (relocReturn cfg op false a.ret)) :
    Ends cfg t call Q m (relocTail cfg m op a false) := by
  -- A failed relocation has not come to `dest`.
  have hne : (m.reloc op).dest ≠ a.curr := fun heq =>
    h.mem.state_of_committed (r := op) (.inl (by rw [heq, hcurr])) hfail
  have htail : relocTail cfg m op a false = .relocCurr op a false := if_neg hne
  rw [htail] at h ⊢
  have he : ∀ fresh, exec cfg t call fresh m (.relocCurr op a false) =
      some (m.setOp a.curr (.ptr op), relocReturn cfg op false a.ret) := fun _ => by
    simp [exec, hcurr]
  refine h.step hcfg (by simp) he fun g₁ h₁ hl₁ => hnext _ g₁ h₁ hl₁ ?_
  funext y
  simp [Function.update_apply]

/-- `helpRelocate` from line 496 to line 500. -/
theorem ends_relocKey {op : Addr} (h : Ready cfg t call m g (.relocKey op a))
    (hnext : ∀ m' g', Ready cfg t call m' g' (relocTail cfg m' op a true) → Later g g' →
      m'.reloc = m.reloc →
      (∀ y, m'.op y =
        if y = (m.reloc op).dest ∧ m.op y = .rel op then .ptr op else m.op y) →
      Ends cfg t call Q m' (relocTail cfg m' op a true)) :
    Ends cfg t call Q m (.relocKey op a) := by
  refine h.step hcfg (by simp) (fun _ => rfl) fun g₁ h₁ hl₁ => ?_
  generalize hm₁ : (if m.key (m.reloc op).dest = (m.reloc op).removeKey then _ else m) = m₁ at h₁ ⊢
  have hop₁ : m₁.op = m.op := by
    rw [← hm₁]
    split <;> simp
  have hreloc₁ : m₁.reloc = m.reloc := by
    rw [← hm₁]
    split <;> rfl
  refine h₁.step hcfg (by simp) (fun _ => rfl) fun g₂ h₂ hl₂ => hnext _ g₂ h₂ (hl₁.trans hl₂) ?_ ?_
  · split <;> exact hreloc₁
  · intro y
    simp only [hreloc₁, hop₁, setFlag_ptr]
    by_cases hd : m.op (m.reloc op).dest = .rel op
    · by_cases hy : y = (m.reloc op).dest
      · simp [hy, hd]
      · simp [hy, hd, hop₁]
    · rw [if_neg hd, if_neg (by rintro ⟨rfl, hy⟩; exact hd hy), hop₁]

/-- The same to the end, when `curr` is the node that gets the new key. -/
theorem ends_relocKey_dest {op : Addr} (h : Ready cfg t call m g (.relocKey op a))
    (hcurr : m.op a.curr = .rel op) (hdest : (m.reloc op).dest = a.curr)
    (hnext : ∀ m' g', Ready cfg t call m' g' (relocReturn cfg op true a.ret) → Later g g' →
      m'.op = Function.update m.op a.curr (.ptr op) →
      Ends cfg t call Q m' (relocReturn cfg op true a.ret)) :
    Ends cfg t call Q m (.relocKey op a) := by
  refine h.ends_relocKey hcfg fun m' g' h' hl' hreloc hop => ?_
  have htail : relocTail cfg m' op a true = relocReturn cfg op true a.ret :=
    if_pos (by rw [hreloc, hdest])
  rw [htail] at h' ⊢
  apply hnext m' g' h' hl'
  funext y
  rw [hop, hdest, Function.update_apply]
  by_cases hy : y = a.curr <;> simp [hy, hcurr]

/-- The same to `helpMarked`, when `curr` is the node that gives its key away. -/
theorem ends_relocKey_curr {op : Addr} (h : Ready cfg t call m g (.relocKey op a))
    (hcurr : m.op a.curr = .rel op) (hdest : (m.reloc op).dest ≠ a.curr)
    (hnext : ∀ m' g', Ready cfg t call m' g' (.markedLeft { a with
        predOp := if (m.reloc op).dest = a.pred then .ptr op else a.predOp }) → Later g g' →
      (∀ y, m'.op y = if y = a.curr then ⟨op, .mark⟩
        else if y = (m.reloc op).dest ∧ m.op y = .rel op then .ptr op else m.op y) →
      Ends cfg t call Q m' (.markedLeft { a with
        predOp := if (m.reloc op).dest = a.pred then .ptr op else a.predOp })) :
    Ends cfg t call Q m (.relocKey op a) := by
  refine h.ends_relocKey hcfg fun m₁ g₁ h₁ hl₁ hreloc hop => ?_
  have htail : relocTail cfg m₁ op a true = .relocCurr op a true :=
    if_neg (by rw [hreloc]; exact hdest)
  rw [htail] at h₁ ⊢
  have hcurr₁ : m₁.op a.curr = .rel op := by
    rw [hop, if_neg fun hc => hdest hc.1.symm, hcurr]
  have he : ∀ fresh, exec cfg t call fresh m₁ (.relocCurr op a true) =
      some (m₁.setOp a.curr ⟨op, .mark⟩, .markedLeft { a with
        predOp := if (m.reloc op).dest = a.pred then .ptr op else a.predOp }) := fun _ => by
    simp [exec, hcurr₁, hreloc]
  refine h₁.step hcfg (by simp) he fun g₂ h₂ hl₂ => hnext _ g₂ h₂ (hl₁.trans hl₂) fun y => ?_
  rw [Mem.setOp_op, hop]

/-- `helpRelocate` called from `find`, from line 496. The fields are compared
    with those of a memory from before the relocation was installed on `dest`. -/
theorem ends_relocKey_help {op : Addr} {m₀ : Mem} {g₀ : Ghost}
    (h : Ready cfg t call m g (.relocKey op a)) (hret : a.ret = .retry f)
    (h₀ : TreeInv m₀ g₀) (hl₀ : Later g₀ g) (hcurr₀ : m₀.op a.curr = .rel op)
    (hmem₀ : a.curr ∈ g₀.tree.nodes) (hcurr : m.op a.curr = .rel op)
    (hop₀ : ∀ y, m.op y = m₀.op y ∨ y = (m.reloc op).dest ∧ m.op y = .rel op ∧ y ≠ a.curr)
    (hnext : ∀ m' g', Ready cfg t call m' g' (findStart cfg f) → Later g₀ g' →
      pending m' g' < pending m₀ g₀ → Ends cfg t call Q m' (findStart cfg f)) :
    Ends cfg t call Q m (.relocKey op a) := by
  by_cases hdest : (m.reloc op).dest = a.curr
  · refine h.ends_relocKey_dest hcfg hcurr hdest fun m' g' h' hl' hop => ?_
    rw [hret] at h' ⊢
    refine hnext m' g' h' (hl₀.trans hl') (h₀.pending_lt h'.mem.toTreeInv (hl₀.trans hl') ?_ hmem₀ ?_)
    · refine .of_ptr (x := a.curr) (r := op) ?_
      funext y
      rw [hop]
      by_cases hy : y = a.curr
      · simp [hy]
      · rw [Function.update_of_ne hy, Function.update_of_ne hy]
        exact (hop₀ y).resolve_right fun hd => hy (hd.1.trans hdest)
    · rw [hop, hcurr₀, Function.update_self]
      exact .inl (by simp [Flag.weight])
  · refine h.ends_relocKey_curr hcfg hcurr hdest fun m₁ g₁ h₁ hl₁ hop => ?_
    refine h₁.ends_markedLeft hcfg fun m' g' h' hl' hlight _ => ?_
    replace hl' := hl₀.trans (hl₁.trans hl')
    simp only [hret] at h' ⊢
    refine hnext m' g' h' hl' (h₀.pending_lt h'.mem.toTreeInv hl' (fun y hy => ?_) hmem₀ ?_)
    · apply (hlight y hy).trans
      rw [hop]
      by_cases hyc : y = a.curr
      · rw [hyc, hcurr₀, if_pos rfl]
        simp [Flag.weight]
      · rw [if_neg hyc]
        rcases hop₀ y with heq | ⟨hyd, hrel, _⟩
        · rw [heq]
          split
          · exact Nat.zero_le _
          · exact le_rfl
        · rw [if_pos ⟨hyd, hrel⟩]
          exact Nat.zero_le _
    · rw [hcurr₀]
      by_cases hin : a.curr ∈ g'.tree.nodes
      · refine .inl ((hlight _ hin).trans_lt ?_)
        rw [hop, if_pos rfl]
        simp [Flag.weight]
      · exact .inr ⟨hin, by simp [Flag.weight]⟩

/-- Line 472 of a relocation that can still succeed. -/
theorem ends_relocDest {op : Addr} (h : Ready cfg t call m g (.relocDest op a))
    (hstate : m.state op = .ongoing)
    (hdest : m.op (m.reloc op).dest = (m.reloc op).destOp ∨ m.op (m.reloc op).dest = .rel op)
    (hnext : ∀ m' g', Ready cfg t call m' g' (.relocKey op a) → Later g g' →
      (m'.reloc op).dest = (m.reloc op).dest →
      m'.op = Function.update m.op (m.reloc op).dest (.rel op) →
      Ends cfg t call Q m' (.relocKey op a)) :
    Ends cfg t call Q m (.relocDest op a) := by
  obtain ⟨m₁, he, hop₁, hreloc₁⟩ : ∃ m₁, (∀ fresh, exec cfg t call fresh m (.relocDest op a) =
      some (m₁, .relocSucceed op a)) ∧
      m₁.op = Function.update m.op (m.reloc op).dest (.rel op) ∧ m₁.reloc = m.reloc := by
    by_cases hd : m.op (m.reloc op).dest = (m.reloc op).destOp
    · refine ⟨m.setOp (m.reloc op).dest (.rel op), fun _ => by simp [exec, hd], ?_, rfl⟩
      funext y
      simp [Function.update_apply]
    · have hrel := hdest.resolve_left hd
      have hne : Word.rel op ≠ (m.reloc op).destOp := hrel ▸ hd
      refine ⟨m, fun _ => by simp [exec, hrel, hne], ?_, rfl⟩
      rw [← hrel, Function.update_eq_self]
  refine h.step hcfg (by simp) he fun g₁ h₁ hl₁ => ?_
  have hstate₁ : m₁.state op = .ongoing := by
    rw [Mem.state, hreloc₁]
    exact hstate
  have he : ∀ fresh, exec cfg t call fresh m₁ (.relocSucceed op a) =
      some (m₁.setState op .successful, .relocKey op a) := fun _ => by simp [exec, hstate₁]
  refine h₁.step hcfg (by simp) he fun g₂ h₂ hl₂ => hnext _ g₂ h₂ (hl₁.trans hl₂) ?_ ?_
  · rw [Mem.setState_dest, hreloc₁]
  · rw [Mem.setState_op, hop₁]

/-- `helpRelocate` called from `find`. -/
theorem ends_relocState {op : Addr} (h : Ready cfg t call m g (.relocState op a))
    (hret : a.ret = .retry f) (hcurr : m.op a.curr = .rel op)
    (hnext : ∀ m' g', Ready cfg t call m' g' (findStart cfg f) → Later g g' →
      pending m' g' < pending m g → Ends cfg t call Q m' (findStart cfg f)) :
    Ends cfg t call Q m (.relocState op a) := by
  have hmem : a.curr ∈ g.tree.nodes :=
    h.mem.mem_of_flag (by simp [hcurr]) (h.mem.born_of_flag (by simp [hcurr]))
  have hfailed : ∀ m₁ g₁, Ready cfg t call m₁ g₁ (relocTail cfg m₁ op a false) → Later g g₁ →
      m₁.state op = .failed → m₁.op = m.op →
      Ends cfg t call Q m₁ (relocTail cfg m₁ op a false) := by
    intro m₁ g₁ h₁ hl₁ hstate hop
    refine h₁.ends_relocFailed hcfg hstate (by rw [hop, hcurr]) fun m' g' h' hl' hop' => ?_
    rw [hret] at h' ⊢
    replace hl' := hl₁.trans hl'
    rw [hop] at hop'
    refine hnext m' g' h' hl' (h.mem.pending_lt h'.mem.toTreeInv hl' (.of_ptr hop') hmem ?_)
    rw [hop', hcurr, Function.update_self]
    exact .inl (by simp [Flag.weight])
  cases hstate : (m.reloc op).state with
  | failed =>
    have he : ∀ fresh, exec cfg t call fresh m (.relocState op a) =
        some (m, relocTail cfg m op a false) := fun _ => by simp [exec, PC.hp, hcfg, hstate]
    exact h.step hcfg (by simp) he fun g₁ h₁ hl₁ => hfailed m g₁ h₁ hl₁ hstate rfl
  | successful =>
    have he : ∀ fresh, exec cfg t call fresh m (.relocState op a) = some (m, .relocKey op a) :=
      fun _ => by simp [exec, PC.hp, hcfg, hstate]
    refine h.step hcfg (by simp) he fun g₁ h₁ hl₁ => ?_
    exact h₁.ends_relocKey_help hcfg hret h.mem.toTreeInv hl₁ hcurr hmem hcurr (fun _ => .inl rfl)
      hnext
  | ongoing =>
    have he : ∀ fresh, exec cfg t call fresh m (.relocState op a) = some (m, .relocDest op a) :=
      fun _ => by simp [exec, PC.hp, hcfg, hstate]
    refine h.step hcfg (by simp) he fun g₁ h₁ hl₁ => ?_
    by_cases hd : m.op (m.reloc op).dest = (m.reloc op).destOp ∨ m.op (m.reloc op).dest = .rel op
    · refine h₁.ends_relocDest hcfg hstate hd fun m₂ g₂ h₂ hl₂ hdest hop => ?_
      have hcurr₂ : m₂.op a.curr = .rel op := by
        rw [hop]
        by_cases hc : a.curr = (m.reloc op).dest
        · rw [hc, Function.update_self]
        · rw [Function.update_of_ne hc, hcurr]
      refine h₂.ends_relocKey_help hcfg hret h.mem.toTreeInv (hl₁.trans hl₂) hcurr hmem hcurr₂
        (fun y => ?_) hnext
      by_cases hyd : y = (m.reloc op).dest
      · by_cases hyc : y = a.curr
        · exact .inl (by rw [hyc, hcurr, hcurr₂])
        · exact .inr ⟨by rw [hyd, hdest], by rw [hop, hyd, Function.update_self], hyc⟩
      · exact .inl (by rw [hop, Function.update_of_ne hyd])
    · rw [not_or] at hd
      have he : ∀ fresh, exec cfg t call fresh m (.relocDest op a) = some (m, .relocFail op a) :=
        fun _ => by simp [exec, hd.1, hd.2]
      refine h₁.step hcfg (by simp) he fun g₂ h₂ hl₂ => ?_
      have he : ∀ fresh, exec cfg t call fresh m (.relocFail op a) =
          some (m.setState op .failed, relocTail cfg (m.setState op .failed) op a false) :=
        fun _ => by simp [exec, Mem.state, hstate]
      refine h₂.step hcfg (by simp) he fun g₃ h₃ hl₃ => ?_
      exact hfailed _ g₃ h₃ (hl₁.trans (hl₂.trans hl₃)) (by simp) rfl

/-- `helpRelocate` for the relocation the thread has just installed on `curr`. -/
theorem ends_relocState_own {op : Addr} (h : Ready cfg t call m g (.relocState op a))
    (hstate : m.state op = .ongoing) (hcurr : m.op a.curr = .rel op)
    (hdest : m.op (m.reloc op).dest = (m.reloc op).destOp) (hne : (m.reloc op).dest ≠ a.curr)
    (hpred : m.op a.pred = a.predOp)
    (hnext : ∀ m' g', Ready cfg t call m' g' (helpReturn cfg a.ret) → Later g g' →
      Lighter m m' g' → a.curr ∉ g'.tree.nodes → Ends cfg t call Q m' (helpReturn cfg a.ret)) :
    Ends cfg t call Q m (.relocState op a) := by
  have hpc : a.pred ≠ a.curr := h.pc.1.link.ne h.mem hpred
  have he : ∀ fresh, exec cfg t call fresh m (.relocState op a) = some (m, .relocDest op a) :=
    fun _ => by
      unfold Mem.state at hstate
      simp [exec, PC.hp, hcfg, hstate]
  refine h.step hcfg (by simp) he fun g₁ h₁ hl₁ => ?_
  refine h₁.ends_relocDest hcfg hstate (.inl hdest) fun m₂ g₂ h₂ hl₂ hdest₂ hop₂ => ?_
  have hcurr₂ : m₂.op a.curr = .rel op := by rw [hop₂, Function.update_of_ne hne.symm, hcurr]
  refine h₂.ends_relocKey_curr hcfg hcurr₂ (by rw [hdest₂]; exact hne) fun m₃ g₃ h₃ hl₃ hop₃ => ?_
  rw [hdest₂, hop₂] at hop₃
  have hcurrent : m₃.op a.pred = if (m₂.reloc op).dest = a.pred then .ptr op else a.predOp := by
    rw [hop₃, hdest₂, if_neg hpc]
    by_cases hd : (m.reloc op).dest = a.pred
    · rw [if_pos ⟨hd.symm, by rw [hd, Function.update_self]⟩, if_pos hd]
    · rw [if_neg fun hc => hd hc.1.symm, if_neg hd, Function.update_of_ne (Ne.symm hd), hpred]
  refine h₃.ends_markedLeft hcfg fun m' g' h' hl' hlight hgone => ?_
  refine hnext m' g' h' (hl₁.trans (hl₂.trans (hl₃.trans hl'))) ?_ ?_
  · intro y hy
    have hyc : y ≠ a.curr := by
      rintro rfl
      exact hgone hcurrent hy
    apply (hlight y hy).trans
    rw [hop₃, if_neg hyc]
    by_cases hyd : y = (m.reloc op).dest
    · rw [if_pos ⟨hyd, by rw [hyd, Function.update_self]⟩]
      exact Nat.zero_le _
    · rw [if_neg fun hc => hyd hc.1, Function.update_of_ne hyd]
  · exact hgone hcurrent

end Ready

end LockFree
