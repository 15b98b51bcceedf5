-- SUMMARY: remove takes a key out of the tree, whatever the shape around its node.
import ConcurrentBST.FineGrained.Searching

/-!
# Removal

A leaf is cut off under the lock of its parent. Any other node takes over the key
of its neighbour, which is cut off instead. The loop that looks for the neighbour
walks down hand over hand and leaves only unlocked nodes between the node and
where it is.
-/

namespace FineGrained

open Threads

variable {t : Tid} {σ : World} {x p s c : Addr} {d : Bool} {k : Int} {n nx np ns nc rt : Node}
  {ph : Phase Call Result} {L M : List Cell} {F : Fact t} {r : Option Node}

-- ---------------------------------------------------------------------------
-- Neighbours
-- ---------------------------------------------------------------------------

/-- A node that is held is above a node that hangs from one of its children. -/
theorem At.above_child (h : At t ph L F σ) (hi : Inv σ) {i : Nat}
    (hx : L[i]? = some (.settled x n)) (hc : n.child d = c) (h0 : c ≠ treeLock) :
    σ.ghost.Below x d c :=
  hi.below_of_slot (h.slot_some hx hc h0)

/-- What is not between two nodes may be locked. -/
theorem Clear.lock (h : Clear x d p σ) (hc : ∀ f, ¬ σ.ghost.Below c f p) :
    Clear x d p ⟨σ.mem.setLock c (some t), σ.ghost⟩ := by
  intro y e f hxy hyp
  obtain ⟨hy, hside⟩ := h y e f hxy hyp
  have hyc : y ≠ c := by
    rintro rfl
    exact hc f hyp
  exact ⟨(Function.update_of_ne hyc ..).trans hy, hside⟩

/-- A child cannot be above its parent. -/
theorem Inv.not_above (hi : Inv σ) (h : σ.ghost.Below x d c) {f : Bool} : ¬ σ.ghost.Below c f x :=
  fun hb => hi.tree.lawful.irrefl (hi.tree.lawful.trans h hb)

theorem runs_removeAdjacent (hx : x ≠ treeLock) (hs : s ≠ treeLock) (hslot : nx.child d = s)
    (hlast : ns.child (!d) = 0) :
    Runs t (.pending (.remove nx.value)) [.settled s ns, .settled x nx] .empty
      (removeAdjacent x d s) := by
  apply Runs.read (.child 0 rfl hs)
  by_cases h0 : ns.child d = 0
  · rw [if_neg (not_not.mpr h0)]
    apply Runs.commitAdjacent (Z := []) (.value 0 rfl hs) hs hx hslot hlast (.none h0)
    rw [h0]
    refine .write (.value 1 rfl hx) fun _ => ?_
    refine .write (.child 1 rfl hx (.inl ?_)) fun _ => ?_
    · cases d <;> simp [Node.child, ← hslot]
    apply Runs.free 0 rfl
    exact .unlock_ret rfl
  · rw [if_pos h0]
    apply Runs.read (.child 0 rfl hs)
    refine .lockChild (G := .empty) 0 rfl rfl h0 (fun σ hi h c hc => ?_) (List.nil_subset _)
      (fun _ _ _ _ => trivial) fun nz _ => ?_
    · rcases List.mem_pair.mp hc with rfl | rfl
      · exact .inl rfl
      · exact .inr ⟨d, h.above_child (i := 1) hi rfl hslot hs⟩
    apply Runs.commitAdjacent (Z := [_]) (.value 1 rfl hs) hs hx hslot hlast (.some h0)
    refine .write (.value 2 rfl hx) fun _ => ?_
    apply Runs.read (.child 1 rfl hs)
    refine .write (.child 2 rfl hx (.inl ?_)) fun _ => ?_
    · cases d <;> simp [Node.child, ← hslot]
    apply Runs.read (.child 1 rfl hs)
    refine .write (.parent 0 rfl h0) fun _ => ?_
    apply Runs.read (.child 1 rfl hs)
    apply Runs.release 0 rfl
    apply Runs.free 0 rfl
    exact .unlock_ret rfl

theorem runs_removeDeep (hx : x ≠ treeLock) (hp : p ≠ treeLock) (hs : s ≠ treeLock)
    (hslot : np.child (!d) = s) (hparent : ns.parent = p) (hlast : ns.child (!d) = 0) :
    Runs t (.pending (.remove nx.value)) [.settled s ns, .settled p np, .settled x nx]
      (.spine x d p) (removeDeep x d s) := by
  apply Runs.read (.parent 0 rfl hs)
  rw [hparent]
  apply Runs.read (.child 0 rfl hs)
  by_cases h0 : ns.child d = 0
  · rw [if_neg (not_not.mpr h0)]
    apply Runs.commitDeep (Z := []) (.value 0 rfl hs) hs hx hslot hlast (.none h0)
    rw [h0]
    refine .write (.value 2 rfl hx) fun _ => ?_
    refine .write (.child 1 rfl hp (.inl ?_)) fun _ => ?_
    · rw [hslot]
      exact List.mem_cons_self
    apply Runs.free 0 rfl
    apply Runs.release 0 rfl
    exact .unlock_ret rfl
  · rw [if_pos h0]
    apply Runs.read (.child 0 rfl hs)
    refine .lockChild (G := .spine x d p) 0 rfl rfl h0 (fun σ hi h c hc => ?_)
      (by simp [Fact.spine]) (fun σ hi h hz => ?_) fun nz _ => ?_
    · have hps := h.above_child (i := 1) hi rfl hslot hs
      simp only [List.mem_cons, List.not_mem_nil, or_false] at hc
      rcases hc with rfl | rfl | rfl
      · exact .inl rfl
      · exact .inr ⟨!d, hps⟩
      · exact .inr ⟨d, hi.tree.lawful.trans h.fact.1 hps⟩
    · have hpc := hi.tree.lawful.trans (h.above_child (i := 1) hi rfl hslot hs) (hi.below_of_slot hz)
      exact ⟨h.fact.1, h.fact.2.lock fun f => hi.not_above hpc⟩
    apply Runs.commitDeep (Z := [_]) (.child 1 rfl hs) hs hx hslot hlast (.some h0)
    refine .write (.child 2 rfl hp (.inl ?_)) fun _ => ?_
    · simp [hslot]
    apply Runs.read (.child 1 rfl hs)
    refine .write (.parent 0 rfl h0) fun _ => ?_
    apply Runs.read (.value 1 rfl hs)
    refine .write (.value 3 rfl hx) fun _ => ?_
    apply Runs.read (.child 1 rfl hs)
    apply Runs.release 0 rfl
    apply Runs.free 0 rfl
    apply Runs.release 0 rfl
    exact .unlock_ret rfl

theorem runs_neighbourFrom (hx : x ≠ treeLock) (hp : p ≠ treeLock) (hs : s ≠ treeLock)
    (hslot : np.child (!d) = s) (hparent : ns.parent = p) :
    Runs t (.pending (.remove nx.value)) [.settled s ns, .settled p np, .settled x nx]
      (.spine x d p) (neighbourFrom x p s d) := by
  apply Runs.read (.child 0 rfl hs)
  by_cases h0 : ns.child (!d) = 0
  · rw [if_neg (not_not.mpr h0)]
    exact runs_removeDeep hx hp hs hslot hparent h0
  rw [if_pos h0]
  apply Runs.read (.child 0 rfl hs)
  refine .unlock (G := .spine x d s) 1 rfl (by simp [Fact.spine]) (fun σ hi h => ?_) ?_
  · -- `p` comes to the nodes between `x` and where the loop is.
    obtain ⟨hxp, hclear⟩ := h.fact
    have hps := h.slot_some (i := 1) (x := p) (n := np) rfl hslot hs
    refine ⟨hi.tree.lawful.trans hxp (hi.below_of_slot hps), fun y e f hxy hys => ?_⟩
    rcases hi.above_parent hps hys with rfl | hyp
    · exact ⟨Function.update_self .., hi.tree.lawful.unique hxy hxp,
        hi.tree.lawful.unique hys (hi.below_of_slot hps)⟩
    · obtain ⟨hy, hside⟩ := hclear y e f hxy hyp
      have hyp' : y ≠ p := by
        rintro rfl
        exact hi.tree.lawful.irrefl hyp
      exact ⟨(Function.update_of_ne hyp' ..).trans hy, hside⟩
  refine .lockChild (G := .spine x d s) 0 rfl rfl h0 (fun σ hi h c hc => ?_)
    (by simp [Fact.spine]) (fun σ hi h hz => ?_) fun nc hnc => ?_
  · rcases List.mem_pair.mp hc with rfl | rfl
    · exact .inl rfl
    · exact .inr ⟨d, h.fact.1⟩
  · exact ⟨h.fact.1, h.fact.2.lock fun f => hi.not_above (hi.below_of_slot hz)⟩
  apply Runs.read (.parent 0 rfl h0)
  rw [hnc]
  exact Logic.Valid.call At.stable fun σ _ h => ⟨nc, ns, nx, h0, hs, hx, rfl, hnc, h⟩

theorem runs_getInorderNeighbour (hx : x ≠ treeLock) (hc : c ≠ treeLock) (hslot : nx.child d = c)
    (h0 : nc.child (!d) ≠ 0) :
    Runs t (.pending (.remove nx.value)) [.settled c nc, .settled x nx] .empty
      (getInorderNeighbour x d) := by
  apply Runs.read (.child 1 rfl hx)
  rw [hslot]
  apply Runs.read (.child 0 rfl hc)
  refine .lockChild (G := .spine x d c) 0 rfl rfl h0 (fun σ hi h b hb => ?_)
    (by simp [Fact.spine]) (fun σ hi h hz => ?_) fun ns hns => ?_
  · rcases List.mem_pair.mp hb with rfl | rfl
    · exact .inl rfl
    · exact .inr ⟨d, h.above_child (i := 1) hi rfl hslot hc⟩
  · -- Nothing is between a node and its child.
    have hxc := h.slot_some (i := 1) (x := x) (n := nx) rfl hslot hc
    refine ⟨hi.below_of_slot hxc, fun y e f hxy hyc => ?_⟩
    rcases hi.above_parent hxc hyc with rfl | hyx
    · exact absurd hxy hi.tree.lawful.irrefl
    · exact absurd hyx (hi.not_above hxy)
  exact Logic.Valid.call At.stable fun σ _ h => ⟨ns, nc, nx, h0, hc, hx, rfl, hns, h⟩

-- ---------------------------------------------------------------------------
-- remove
-- ---------------------------------------------------------------------------

theorem runs_removeSide (hx : x ≠ treeLock) (h0 : nx.child d ≠ 0) :
    Runs t (.pending (.remove nx.value)) [.settled x nx] .empty (removeSide x d) := by
  apply Runs.read (.child 0 rfl hx)
  refine .lockChild (G := .empty) 0 rfl rfl h0 (fun σ hi h c hc => .inl ?_) (List.nil_subset _)
    (fun _ _ _ _ => trivial) fun nc _ => ?_
  · rw [List.mem_singleton.mp hc]
  apply Runs.read (.child 1 rfl hx)
  apply Runs.read (.child 0 rfl h0)
  by_cases hb : nc.child (!d) = 0
  · rw [if_pos hb]
    apply Runs.read (.child 1 rfl hx)
    exact runs_removeAdjacent hx h0 rfl hb
  · rw [if_neg hb]
    cases d
    · exact runs_getInorderNeighbour hx h0 rfl hb
    · exact runs_getInorderNeighbour hx h0 rfl hb

/-- A node has a child on one side. -/
theorem Node.exists_child (h : ¬ ∀ d, n.child d = 0) : n.child false ≠ 0 ∨ n.child true ≠ 0 := by
  by_contra hnone
  refine h fun d => ?_
  cases d
  · exact not_not.mp fun hne => hnone (.inl hne)
  · exact not_not.mp fun hne => hnone (.inr hne)

theorem runs_removeInner (hx : x ≠ treeLock) (hinner : ¬ ∀ d, nx.child d = 0) :
    Runs t (.pending (.remove nx.value)) [.settled x nx] .empty (removeInner x) := by
  apply Runs.read (.child 0 rfl hx)
  by_cases hr : nx.child false = 0
  · rw [if_neg (not_not.mpr hr)]
    apply Runs.read (.child 0 rfl hx)
    have hl := (Node.exists_child hinner).resolve_left (not_not.mpr hr)
    rw [if_pos hl]
    exact runs_removeSide hx hl
  · rw [if_pos hr]
    exact runs_removeSide hx hr

/-- The test for a leaf, when the branch for leaves is not taken. -/
theorem Runs.ifLeaf_other {leaf other : Prog} (i : Nat) (hi : L[i]? = some ⟨x, n, r⟩)
    (hx : x ≠ treeLock) (hinner : ¬ ∀ d, n.child d = 0) (hk : Runs t ph L F other) :
    Runs t ph L F (ifLeaf x leaf other) := by
  apply Runs.read (.child i hi hx)
  by_cases hl : n.child true = 0
  · rw [if_pos hl]
    apply Runs.read (.child i hi hx)
    have hr := (Node.exists_child hinner).resolve_right (not_not.mpr hl)
    rw [if_neg hr]
    exact hk
  · rw [if_neg hl]
    exact hk

theorem Runs.ifLeaf_leaf {leaf other : Prog} (i : Nat) (hi : L[i]? = some ⟨x, n, r⟩)
    (hx : x ≠ treeLock) (hleaf : ∀ d, n.child d = 0) (hk : Runs t ph L F leaf) :
    Runs t ph L F (ifLeaf x leaf other) := by
  apply Runs.read (.child i hi hx)
  rw [if_pos (hleaf true)]
  apply Runs.read (.child i hi hx)
  rw [if_pos (hleaf false)]
  exact hk

theorem runs_removeLeaf (hx : x ≠ treeLock) (hp : p ≠ treeLock) (hslot : np.child d = x)
    (hside : Ancestry.Beyond d np.value nx.value) (hleaf : ∀ d, nx.child d = 0) :
    Runs t (.pending (.remove nx.value)) [.settled x nx, .settled p np] .empty
      (removeLeaf x p) := by
  have hcut : Runs t (.done (.removed 0))
      [⟨x, nx, none⟩, ⟨p, np, some (np.setChild d 0)⟩] .empty (removeLeafSide x p d) := by
    apply Runs.free 0 rfl
    refine .write (.child 0 rfl hp (.inr fun w hw => ?_)) fun _ => .unlock_ret rfl
    rw [← Option.some.inj hw, Node.setChild_child, if_pos rfl, hslot]
    exact Ne.symm hx
  apply Runs.read (.value 0 rfl hx)
  apply Runs.commitLeaf (.value 1 rfl hp) hx rfl hleaf hslot
  cases d
  · have hlt : np.value < nx.value := hside
    rw [if_neg hlt.not_gt]
    exact hcut
  · have hlt : nx.value < np.value := hside
    rw [if_pos hlt]
    exact hcut

/-- `remove` of a node that is not the root. -/
theorem runs_removeFound (hx : x ≠ treeLock) (hp : p ≠ treeLock) (hparent : nx.parent = p)
    (hslot : np.child d = x) (hside : Ancestry.Beyond d np.value nx.value) :
    Runs t (.pending (.remove nx.value)) [.settled x nx, .settled p np, .settled treeLock rt] .empty
      (removeFound x) := by
  have hp0 : p ≠ 0 := hp
  have hnode : Runs t (.pending (.remove nx.value))
      [.settled x nx, .settled p np, .settled treeLock rt] .empty (removeNode x p) := by
    apply Runs.release 2 rfl
    by_cases hleaf : ∀ d, nx.child d = 0
    · exact .ifLeaf_leaf 0 rfl hx hleaf (runs_removeLeaf hx hp hslot hside hleaf)
    · refine .ifLeaf_other 0 rfl hx hleaf ?_
      rw [if_pos hp0]
      exact .release 1 rfl (runs_removeInner hx hleaf)
  apply Runs.read (.parent 0 rfl hx)
  rw [hparent]
  by_cases hleaf : ∀ d, nx.child d = 0
  · refine .ifLeaf_leaf 0 rfl hx hleaf ?_
    rw [if_neg hp0]
    exact hnode
  · exact .ifLeaf_other 0 rfl hx hleaf hnode

/-- `remove` of a root with children. -/
theorem runs_removeFound_root (hx : x ≠ treeLock) (hparent : nx.parent = 0)
    (hinner : ¬ ∀ d, nx.child d = 0) :
    Runs t (.pending (.remove nx.value)) [.settled x nx, .settled treeLock rt] .empty
      (removeFound x) := by
  apply Runs.read (.parent 0 rfl hx)
  rw [hparent]
  refine .ifLeaf_other 0 rfl hx hinner ?_
  apply Runs.release 1 rfl
  refine .ifLeaf_other 0 rfl hx hinner ?_
  rw [if_neg (not_not.mpr rfl)]
  exact runs_removeInner hx hinner

-- ---------------------------------------------------------------------------
-- del_search
-- ---------------------------------------------------------------------------

theorem runs_delSearchSide (hx : x ≠ treeLock) (hd : Ancestry.Beyond d n.value k) :
    Runs t (.pending (.remove k)) [.settled x n, .settled treeLock rt] (.within k x)
      (delSearchSide k x d) := by
  by_cases h0 : n.child d = 0
  · refine .settle (R := .removed 0) (.child 0 rfl hx) (fun σ hi h => ?_) ?_
    · have hk := h.absent hi (i := 0) rfl hx hd h0
      have hstep : SetStep σ.ghost.keys (.remove k) (.removed 0) (σ.ghost.keys \ {k}) :=
        .removed ⟨_, h.key_mem (i := 0) rfl hx⟩
      rwa [Set.sdiff_singleton_eq_self hk] at hstep
    · rw [if_pos h0]
      exact .release 0 rfl (.unlock_ret rfl)
  · apply Runs.read (.child 0 rfl hx)
    rw [if_neg h0]
    refine .lockSide hx hd h0 (by simp) fun nc hnc => ?_
    apply Runs.read (.child 1 rfl hx)
    apply Runs.read (.value 0 rfl h0)
    by_cases hk : k = nc.value
    · rw [if_pos hk]
      subst hk
      apply Runs.read (.child 1 rfl hx)
      exact .forget (runs_removeFound h0 hx hnc rfl hd)
    · rw [if_neg hk]
      refine .leave hx h0 rfl ?_
      exact Logic.Valid.call At.stable fun σ _ h => ⟨nc, rt, h0, fun heq => absurd heq.symm hk, h⟩

theorem runs_delSearch (hx : x ≠ treeLock)
    (hroot : n.value = k → n.parent = 0 ∧ ¬ ∀ d, n.child d = 0) :
    Runs t (.pending (.remove k)) [.settled x n, .settled treeLock rt] (.within k x)
      (delSearch k x) := by
  apply Runs.read (.value 0 rfl hx)
  by_cases hk : k = n.value
  · rw [if_pos hk]
    obtain ⟨hparent, hinner⟩ := hroot hk.symm
    subst hk
    exact .forget (runs_removeFound_root hx hparent hinner)
  rw [if_neg hk]
  apply Runs.read (.value 0 rfl hx)
  by_cases hlt : k < n.value
  · rw [if_pos hlt]
    exact runs_delSearchSide hx hlt
  · rw [if_neg hlt]
    exact runs_delSearchSide hx (lt_of_le_of_ne (not_lt.mp hlt) (Ne.symm hk))

theorem runs_remove : Runs t (.pending (.remove k)) [] .empty (remove k) := by
  refine .lockTree fun rt => ?_
  by_cases h0 : rt.child true = 0
  · refine .settle (R := .removed (-einval)) (.root 0 rfl) (fun σ hi h => ?_) ?_
    · rw [h.keys_empty hi (i := 0) rfl h0]
      exact .empty
    · rw [if_pos h0]
      exact .unlock_ret rfl
  apply Runs.read (.root 0 rfl)
  rw [if_neg h0]
  apply Runs.read (.root 0 rfl)
  refine .lockChild (G := .within k (rt.child true)) 0 rfl rfl h0 (fun _ _ _ c hc => .inl ?_)
    (by simp [Fact.within]) (fun σ hi h hslot => ?_) fun n hn => ?_
  · rw [List.mem_singleton.mp hc]
  · exact ⟨hi.child_mem hslot, hi.tree.within_top hslot⟩
  have hcall : (n.value = k → ¬ ∀ d, n.child d = 0) → Runs t (.pending (.remove k))
      [.settled (rt.child true) n, .settled treeLock rt] (.within k (rt.child true))
      (.call (.delSearch k (rt.child true))) := fun hinner =>
    Logic.Valid.call At.stable fun σ _ h => ⟨n, rt, h0, fun hk => ⟨hn, hinner hk⟩, h⟩
  apply Runs.read (.value 0 rfl h0)
  by_cases hk : k = n.value
  swap
  · rw [if_neg hk]
    exact hcall fun heq => absurd heq.symm hk
  rw [if_pos hk]
  by_cases hleaf : ∀ d, n.child d = 0
  swap
  · exact .ifLeaf_other 0 rfl h0 hleaf (hcall fun _ => hleaf)
  -- The root is the only node.
  apply Runs.read (.child 0 rfl h0)
  rw [if_pos (hleaf true)]
  apply Runs.commitLeaf (.child 0 rfl h0) h0 hk.symm hleaf rfl
  rw [if_pos (hleaf false)]
  apply Runs.free 0 rfl
  refine .write (.root 0 rfl (.inr fun w hw => ?_)) fun _ => .unlock_ret rfl
  rw [← Option.some.inj hw, Node.setChild_child, if_pos rfl]
  exact Ne.symm h0

end FineGrained
