-- SUMMARY: The rules for the accesses at which calls of the fine-grained tree take effect.
import ConcurrentBST.FineGrained.Regions

/-!
# Commit rules

A call takes effect with one of its accesses. `insert` does so when it creates the
node. `remove` does so with a read, before its first write. From then on the
abstract tree is ahead of what is in memory, and the rest of the call brings the
nodes it holds in line.
-/

namespace FineGrained

open Threads

variable {t u : Tid} {σ σ' : World} {m : Mem} {g' : Ghost} {x y z p s : Addr} {d e f : Bool}
  {k v : Int} {n nx np ns : Node} {call : Call} {res : Result} {ph ph' : Phase Call Result}
  {L L' : List Cell} {F G : Fact t} {i : Nat}

/-- A change of the abstract tree that is what the call has to do. -/
theorem Keeps.commits (h : Keeps t σ ⟨m, g'⟩) (hphase : σ.ghost.phase t = .pending call)
    (hsame : g'.phase = σ.ghost.phase) (hstep : SetStep σ.ghost.keys call res g'.keys) :
    logic.Allows t none σ ⟨m, g'.setPhase t (.done res)⟩ := by
  have hk := h.trans (.setPhase h.inv t (.done res))
  have hmoves : Moves setObject none σ.ghost.keys σ.ghost.phase g'.keys
      (Function.update g'.phase t (.done res)) := by
    rw [hsame]
    exact .effect hphase hstep
  exact ⟨hmoves, hk.inv, hk.rely⟩

theorem Cell.Holds.setPhase {c : Cell} (h : c.Holds σ) :
    c.Holds ⟨σ.mem, σ.ghost.setPhase t ph⟩ := by
  refine ⟨h.view, fun n hn => ?_, h.outside⟩
  have hr := h.inside n hn
  exact ⟨hr.mem, hr.key, hr.slot, hr.parent⟩

/-- The region after a change of the abstract tree. -/
theorem At.change (h : At t ph L F σ) (haddr : L'.map Cell.addr = L.map Cell.addr)
    (hcell : ∀ c ∈ L', c.Holds ⟨σ.mem, g'⟩) :
    At t ph' L' .empty ⟨σ.mem, g'.setPhase t ph'⟩ := by
  refine ⟨Function.update_self .., fun x => ?_, haddr ▸ h.apart, fun c hc => (hcell c hc).setPhase,
    List.nil_subset _, trivial⟩
  rw [haddr, ← h.mine x]
  exact Iff.rfl

-- ---------------------------------------------------------------------------
-- Calls that change nothing
-- ---------------------------------------------------------------------------

/-- The call does not change the set. -/
theorem Runs.settle {a : Act} {v : a.Ret} {kont : a.Ret → Prog} {R : Result} (hr : Reads L a v)
    (hstep : ∀ σ, Inv σ → At t (.pending call) L F σ → SetStep σ.ghost.keys call R σ.ghost.keys)
    (hk : Runs t (.done R) L .empty (kont v)) : Runs t (.pending call) L F (.act a kont) :=
  .commit hr (fun σ hi h => ⟨σ.ghost.setPhase t (.done R),
    (Keeps.refl hi).commits h.phase rfl (hstep σ hi h), h.change rfl h.cell⟩) hk

/-- A node that is held has its key in the set. -/
theorem At.key_mem (h : At t ph L F σ) (hx : L[i]? = some (.settled x n)) (hxt : x ≠ treeLock) :
    n.value ∈ σ.ghost.keys := by
  have hr := (h.cell _ (List.mem_of_getElem? hx)).inside n rfl
  exact ⟨x, hr.mem, hxt, hr.key hxt⟩

/-- A child that is missing in memory is missing in the tree. -/
theorem At.slot_none (h : At t ph L F σ) (hx : L[i]? = some (.settled x n)) (hd : n.child d = 0) :
    σ.ghost.slot x d = none := by
  rw [((h.cell _ (List.mem_of_getElem? hx)).inside n rfl).slot d, hd]
  rfl

theorem At.slot_some (h : At t ph L F σ) (hx : L[i]? = some (.settled x n)) (hd : n.child d = y)
    (hy : y ≠ 0) : σ.ghost.slot x d = some y := by
  rw [((h.cell _ (List.mem_of_getElem? hx)).inside n rfl).slot d, hd]
  exact if_neg hy

theorem At.key_eq (h : At t ph L F σ) (hx : L[i]? = some (.settled x n)) (hxt : x ≠ treeLock) :
    σ.ghost.key x = n.value :=
  ((h.cell _ (List.mem_of_getElem? hx)).inside n rfl).key hxt

theorem At.absent (h : At t ph L (.within k x) σ) (hi : Inv σ) (hx : L[i]? = some (.settled x n))
    (hxt : x ≠ treeLock) (hd : Ancestry.Beyond d n.value k) (hnone : n.child d = 0) :
    k ∉ σ.ghost.keys :=
  hi.tree.absent h.fact.1 hxt h.fact.2 (h.key_eq hx hxt ▸ hd) (h.slot_none hx hnone)

-- ---------------------------------------------------------------------------
-- Insertion
-- ---------------------------------------------------------------------------

/-- `insert` takes effect when it creates the node. -/
theorem Runs.create {kont : Addr → Prog} (i : Nat) (hp : L[i]? = some (.settled p n))
    (hnone : n.child d = 0) (hroot : p = treeLock → d = true)
    (hside : ∀ σ, Inv σ → At t (.pending (.insert k)) L F σ → ∀ x ∈ σ.ghost.tree.nodes,
      x ≠ treeLock → σ.ghost.key x < k ∧ σ.ghost.tree.BeforeGap p d x ∨
        k < σ.ghost.key x ∧ σ.ghost.tree.AfterGap p d x)
    (hk : ∀ a, a ≠ 0 →
      Runs t (.done .inserted) (L.set i ⟨p, n, some (n.setChild d a)⟩) .empty (kont a)) :
    Runs t (.pending (.insert k)) L F (.act (.create k p) kont) := by
  refine Logic.Valid.act (B := fun a σ => a ≠ 0 ∧
      At t (.done .inserted) (L.set i ⟨p, n, some (n.setChild d a)⟩) .empty σ) At.stable
    (fun _ _ _ => trivial) (fun σ v _ m hi h hexec => ?_) fun a σ hi hB => hk a hB.1 σ hi hB.2
  simp only [lang, exec] at hexec
  split at hexec
  swap
  · cases hexec
  next hfresh =>
  cases hexec
  have hpm := h.holds (List.mem_of_getElem? hp)
  have hcell := h.cell _ (List.mem_of_getElem? hp)
  have hrec := hcell.inside n rfl
  have hslot := h.slot_none hp hnone
  obtain ⟨hf0, hdead⟩ := ne_of_allocatable hfresh
  have hnew : v ∉ σ.ghost.tree.nodes := fun hin => hdead (hi.live v hin)
  have hne : ∀ {c}, c ∈ L → c.addr ≠ v := fun hc heq => hdead (heq ▸ (h.holds hc).2)
  have hpv : p ≠ v := hne (List.mem_of_getElem? hp)
  have htree : (σ.ghost.insert p d v k).tree.SearchTree (σ.ghost.insert p d v k).slot treeLock
      (σ.ghost.insert p d v k).key :=
    hi.tree.insert hrec.mem hslot hnew (hside σ hi h) hroot (if_pos ⟨rfl, rfl⟩)
      fun x e hx => if_neg hx
  have hkeeps := Keeps.create hi hpm hrec.mem hslot hfresh htree
  have habsent : k ∉ σ.ghost.keys := by
    rintro ⟨x, hx, hxt, hkey⟩
    rcases hside σ hi h x hx hxt with ⟨hlt, _⟩ | ⟨hlt, _⟩
    · exact absurd hkey hlt.ne
    · exact absurd hkey hlt.ne'
  have hstep : SetStep σ.ghost.keys (.insert k) .inserted (σ.ghost.insert p d v k).keys := by
    have hkeys : (σ.ghost.insert p d v k).keys = Insert.insert k σ.ghost.keys :=
      hi.tree.keySet_insert hnew
    exact hkeys ▸ .inserted habsent
  refine ⟨_, hkeeps.commits h.phase rfl hstep, hf0, ?_⟩
  have haddr : (L.set i ⟨p, n, some (n.setChild d v)⟩).map Cell.addr = L.map Cell.addr :=
    map_set_eq hp rfl
  refine ⟨Function.update_self .., fun x => ?_, haddr ▸ h.apart, fun c hc => ?_, List.nil_subset _,
    trivial⟩
  · rw [haddr, ← h.mine x]
    exact mine_alloc hfresh
  · refine Cell.Holds.setPhase (σ := ⟨_, σ.ghost.insert p d v k⟩) ?_
    rcases (mem_set_iff h.apart hp).mp hc with rfl | ⟨hc, hcp⟩
    · refine ⟨(Mem.view_alloc hpv).trans hcell.view, fun n' hn' => ?_, fun hn' => by cases hn'⟩
      obtain rfl := Option.some.inj hn'
      exact hrec.insert_parent hslot hpv hf0
    · have hold := h.cell c hc
      refine ⟨(Mem.view_alloc (hne hc)).trans hold.view, fun n' hn' => ?_, fun hn' => ?_⟩
      · exact (hold.inside n' hn').insert_other hslot (hne hc) hcp
      · rintro (heq | hin)
        · exact hne hc heq
        · exact hold.outside hn' hin

-- ---------------------------------------------------------------------------
-- Removal
-- ---------------------------------------------------------------------------

namespace Detachable

theorem record_other (h : Detachable t p d s e σ) (hr : σ.ghost.Record x n) (hxp : x ≠ p) (hxs : x ≠ s)
    (hxz : σ.ghost.slot s (!e) ≠ some x) : (σ.ghost.detach p d s e).Record x n := by
  refine ⟨⟨hr.mem, hxs⟩, hr.key, fun f => ?_, fun hxt => ?_⟩
  · simpa [Ghost.detach, hxp, hxs] using hr.slot f
  · obtain ⟨f, hf⟩ := hr.parent hxt
    exact ⟨f, h.slot_kept hf hxs hxz⟩

theorem record_parent (h : Detachable t p d s e σ) (hi : Inv σ) (hr : σ.ghost.Record p np)
    (hz : σ.ghost.slot s (!e) = ptr z) : (σ.ghost.detach p d s e).Record p (np.setChild d z) := by
  have hps := h.ne hi
  refine ⟨⟨hr.mem, hps⟩, fun hpt => ?_, fun f => ?_, fun hpt => ?_⟩
  · rw [Node.setChild_value]
    exact hr.key hpt
  · rw [Node.setChild_child]
    by_cases hf : f = d
    · subst hf
      simp [Ghost.detach, hps, hz]
    · simpa [Ghost.detach, hps, hf] using hr.slot f
  · -- `p` is not below `s`.
    have hsp : σ.ghost.slot s (!e) ≠ some p := fun heq =>
      hi.tree.lawful.irrefl (hi.tree.lawful.trans (hi.below_of_slot h.slot) (hi.below_of_slot heq))
    obtain ⟨f, hf⟩ := hr.parent hpt
    rw [Node.setChild_parent]
    exact ⟨f, h.slot_kept hf hps hsp⟩

theorem record_child (h : Detachable t p d s e σ) (hi : Inv σ) (hr : σ.ghost.Record z n)
    (hz : σ.ghost.slot s (!e) = some z) :
    (σ.ghost.detach p d s e).Record z { n with parent := p } := by
  have hsz := hi.below_of_slot hz
  have hzs : z ≠ s := fun heq => hi.tree.lawful.irrefl (heq ▸ hsz)
  have hzp : z ≠ p := fun heq =>
    hi.tree.lawful.irrefl (hi.tree.lawful.trans (hi.below_of_slot h.slot) (heq ▸ hsz))
  refine ⟨⟨hr.mem, hzs⟩, hr.key, fun f => ?_, fun _ => ⟨d, ?_⟩⟩
  · exact (by simp [Ghost.detach, hzp, hzs] : _ = σ.ghost.slot z f).trans (hr.slot f)
  · simp [Ghost.detach, h.ne hi, hz]

end Detachable

theorem Ghost.Record.promote_other {g : Ghost} (hr : g.Record x n) (hxy : x ≠ y) :
    (g.promote y s).Record x n :=
  ⟨hr.mem, fun hxt => (Function.update_of_ne hxy ..).trans (hr.key hxt), hr.slot, hr.parent⟩

theorem Ghost.Record.promote_self {g : Ghost} (hr : g.Record x n) (hv : g.key s = v) :
    (g.promote x s).Record x { n with value := v } :=
  ⟨hr.mem, fun _ => (Function.update_self ..).trans hv,
    fun d => (hr.slot d).trans (by cases d <;> rfl), hr.parent⟩

/-- The child of a node that goes gets its parent. It is held, if there is one. -/
inductive Rehangs (p z : Addr) : List Cell → List Cell → Prop where
  | none : z = 0 → Rehangs p z [] []
  | some {nz : Node} : z ≠ 0 →
      Rehangs p z [.settled z nz] [⟨z, nz, some { nz with parent := p }⟩]

theorem Rehangs.map_addr {Z Z' : List Cell} (h : Rehangs p z Z Z') :
    Z'.map Cell.addr = Z.map Cell.addr := by
  cases h <;> rfl

theorem Rehangs.mem {Z Z' : List Cell} (h : Rehangs p z Z Z') (hz : z ≠ 0) :
    z ∈ Z.map Cell.addr := by
  cases h with
  | none h0 => exact absurd h0 hz
  | some => exact List.mem_singleton_self _

/-- `remove` of a leaf takes effect. -/
theorem Runs.commitLeaf {a : Act} {v : a.Ret} {kont : a.Ret → Prog}
    (hr : Reads [.settled s ns, .settled p np] a v) (hs : s ≠ treeLock) (hk : ns.value = k)
    (hleaf : ∀ e, ns.child e = 0) (hslot : np.child d = s)
    (hkont : Runs t (.done (.removed 0)) [⟨s, ns, none⟩, ⟨p, np, some (np.setChild d 0)⟩] .empty
      (kont v)) :
    Runs t (.pending (.remove k)) [.settled s ns, .settled p np] F (.act a kont) := by
  refine .commit hr (fun σ hi h => ?_) hkont
  have hempty : ∀ e, σ.ghost.slot s e = none := fun e => h.slot_none (i := 0) rfl (hleaf e)
  have hd : Detachable t p d s true σ :=
    ⟨h.holds (c := .settled p np) (by simp), h.holds (c := .settled s ns) (by simp),
      h.slot_some (i := 1) rfl hslot hs, hempty true,
      fun z hz => absurd (hz.symm.trans (hempty _)) (by simp)⟩
  have hkey := h.key_eq (i := 0) rfl hs
  have hmem := hi.child_mem hd.slot
  have hkeys : (σ.ghost.detach p d s true).keys = σ.ghost.keys \ {k} := by
    rw [← hk, ← hkey]
    exact hi.tree.keySet_erase hmem hs
  have hstep : SetStep σ.ghost.keys (.remove k) (.removed 0) (σ.ghost.detach p d s true).keys :=
    hkeys ▸ .removed ⟨_, h.key_mem (i := 0) rfl hs⟩
  refine ⟨_, (hd.detach hi).commits h.phase rfl hstep, h.change rfl fun c hc => ?_⟩
  rcases List.mem_pair.mp hc with rfl | rfl
  · have hview := (h.cell (.settled s ns) (by simp)).view
    exact ⟨hview, by simp, fun _ hin => hin.2 rfl⟩
  · have hcell := h.cell (.settled p np) (by simp)
    refine ⟨hcell.view, fun n hn => ?_, fun hn => by cases hn⟩
    obtain rfl := Option.some.inj hn
    exact hd.record_parent hi (hcell.inside np rfl) (hempty _)

/-- What is left of a node that has gone. -/
theorem holds_gone (h : At t ph L F σ) (hs : .settled s ns ∈ L) :
    Cell.Holds ⟨s, ns, none⟩ ⟨σ.mem, (σ.ghost.detach p d s e).promote x s⟩ :=
  ⟨(h.cell _ hs).view, by simp, fun _ hin => hin.2 rfl⟩

/-- The child of the node that has gone. -/
theorem Rehangs.holds {Z Z' : List Cell} (hR : Rehangs p z Z Z') (h : At t ph L F σ) (hi : Inv σ)
    (hd : Detachable t p d s e σ) (hZ : Z ⊆ L) (hz : σ.ghost.slot s (!e) = ptr z)
    (hx : x ∉ Z.map Cell.addr) :
    ∀ c ∈ Z', c.Holds ⟨σ.mem, (σ.ghost.detach p d s e).promote x s⟩ := by
  cases hR with
  | none => simp
  | @some nz hz0 =>
    rintro c hc
    obtain rfl := List.mem_singleton.mp hc
    have hcell := h.cell (.settled z nz) (hZ (List.mem_singleton_self _))
    have hzx : z ≠ x := fun heq => hx (heq ▸ List.mem_singleton_self _)
    refine ⟨hcell.view, fun n hn => ?_, fun hn => by cases hn⟩
    obtain rfl := Option.some.inj hn
    have hrec := hd.record_child hi (hcell.inside nz rfl) (hz.trans (if_neg hz0))
    exact hrec.promote_other hzx

/-- A node that is held has in the tree the children it has in memory. -/
theorem At.slot_eq (h : At t ph L F σ) (hx : .settled x n ∈ L) (d : Bool) :
    σ.ghost.slot x d = ptr (n.child d) :=
  ((h.cell _ hx).inside n rfl).slot d

/-- A node that is held with its parent and its only child can be taken out. -/
theorem At.detachable {Z Z' : List Cell} (h : At t ph L F σ) (hp : .settled p np ∈ L)
    (hsc : .settled s ns ∈ L) (hs : s ≠ treeLock) (hslot : np.child e = s)
    (hlast : ns.child (!d) = 0) (hz : Rehangs x (ns.child d) Z Z') (hZ : Z ⊆ L) :
    Detachable t p e s (!d) σ := by
  refine ⟨h.holds hp, h.holds hsc, ?_, ?_, fun z hz' => (h.mine z).mpr ?_⟩
  · rw [h.slot_eq hp, hslot]
    exact if_neg hs
  · rw [h.slot_eq hsc, hlast]
    rfl
  · rw [Bool.not_not, h.slot_eq hsc, ptr] at hz'
    split at hz'
    · cases hz'
    · next hz0 =>
      rw [← Option.some.inj hz']
      exact List.map_subset _ hZ (hz.mem hz0)

theorem At.not_mem_left {Z : List Cell} (h : At t ph (Z ++ L) F σ) (hx : x ∈ L.map Cell.addr) :
    x ∉ Z.map Cell.addr := by
  have hapart := h.apart
  rw [List.map_append] at hapart
  exact fun hin => List.disjoint_of_nodup_append hapart hin hx

/-- The key of `x` goes when its neighbour goes and leaves it its key. -/
theorem At.promote (h : At t (.pending (.remove nx.value)) L F σ) (hi : Inv σ)
    (hd : Detachable t p d s e σ) (hx : .settled x nx ∈ L) (hxt : x ≠ treeLock)
    (hn : Ancestry.SearchTree.Neighbour σ.ghost.tree σ.ghost.slot x f s)
    (hclear : ∀ u y, u ≠ t → Mine u y σ → ¬ (σ.ghost.Below x f y ∧ ∃ e, σ.ghost.Below y e s))
    (haddr : L'.map Cell.addr = L.map Cell.addr)
    (hcell : ∀ c ∈ L', c.Holds ⟨σ.mem, (σ.ghost.detach p d s e).promote x s⟩) :
    ∃ g, logic.Allows t none σ ⟨σ.mem, g⟩ ∧
      At t (.done (.removed 0)) L' .empty ⟨σ.mem, g⟩ := by
  have hrec := (h.cell _ hx).inside nx rfl
  have hkeys : ((σ.ghost.detach p d s e).promote x s).keys = σ.ghost.keys \ {nx.value} := by
    rw [← hrec.key hxt]
    exact hi.tree.keySet_promote hn hxt
  have hstep : SetStep σ.ghost.keys (.remove nx.value) (.removed 0)
      ((σ.ghost.detach p d s e).promote x s).keys :=
    hkeys ▸ .removed ⟨_, x, hrec.mem, hxt, rfl⟩
  exact ⟨_, (hd.promote hi (h.holds hx) hxt hn hclear).commits h.phase rfl hstep,
    h.change haddr hcell⟩

/-- `remove` takes effect when the neighbour is a child. -/
theorem Runs.commitAdjacent {a : Act} {v : a.Ret} {kont : a.Ret → Prog} {Z Z' : List Cell}
    (hr : Reads (Z ++ [.settled s ns, .settled x nx]) a v) (hs : s ≠ treeLock) (hx : x ≠ treeLock)
    (hslot : nx.child d = s) (hlast : ns.child (!d) = 0) (hz : Rehangs x (ns.child d) Z Z')
    (hkont : Runs t (.done (.removed 0)) (Z' ++ [⟨s, ns, none⟩,
      ⟨x, nx, some ({ nx with value := ns.value }.setChild d (ns.child d))⟩]) .empty (kont v)) :
    Runs t (.pending (.remove nx.value)) (Z ++ [.settled s ns, .settled x nx]) F
      (.act a kont) := by
  refine .commit hr (fun σ hi h => ?_) hkont
  have hsc : Cell.settled s ns ∈ Z ++ [.settled s ns, .settled x nx] := by simp
  have hxc : Cell.settled x nx ∈ Z ++ [.settled s ns, .settled x nx] := by simp
  have hsr := (h.cell _ hsc).inside ns rfl
  have hxr := (h.cell _ hxc).inside nx rfl
  have hZ := List.subset_append_left Z [.settled s ns, .settled x nx]
  have hd := h.detachable hxc hsc hs hslot hlast hz hZ
  have hchild : σ.ghost.slot s (!!d) = ptr (ns.child d) := by
    rw [Bool.not_not]
    exact hsr.slot d
  have hbelow := hi.below_of_slot hd.slot
  -- Nothing is between a node and its child.
  have hbetween : ∀ y e, σ.ghost.Below x d y → ¬ σ.ghost.Below y e s := by
    intro y e hxy hys
    rcases hi.above_parent hd.slot hys with rfl | hyx
    · exact hi.tree.lawful.irrefl hxy
    · exact hi.tree.lawful.irrefl (hi.tree.lawful.trans hxy hyx)
  refine h.promote hi hd hxc hx ⟨hbelow, hi.child_mem hd.slot, hd.empty, fun y e hxy hys => ?_⟩
    (fun u y _ _ hy => hbetween y _ hy.1 hy.2.choose_spec) ?_ fun c hc => ?_
  · exact absurd hys (hbetween y e hxy)
  · rw [List.map_append, List.map_append, hz.map_addr]
    rfl
  · rcases List.mem_append.mp hc with hc | hc
    · exact hz.holds h hi hd hZ hchild (h.not_mem_left (by simp)) c hc
    · rcases List.mem_pair.mp hc with rfl | rfl
      · exact holds_gone h hsc
      · refine ⟨(h.cell _ hxc).view, fun n hn => ?_, fun hn => by cases hn⟩
        obtain rfl := Option.some.inj hn
        have hp := (hd.record_parent hi hxr hchild).promote_self (hsr.key hs)
        cases d <;> exact hp

/-- `remove` takes effect when the neighbour is deeper. -/
theorem Runs.commitDeep {a : Act} {v : a.Ret} {kont : a.Ret → Prog} {Z Z' : List Cell}
    (hr : Reads (Z ++ [.settled s ns, .settled p np, .settled x nx]) a v) (hs : s ≠ treeLock)
    (hx : x ≠ treeLock) (hslot : np.child (!d) = s) (hlast : ns.child (!d) = 0)
    (hz : Rehangs p (ns.child d) Z Z')
    (hkont : Runs t (.done (.removed 0)) (Z' ++ [⟨s, ns, none⟩,
      ⟨p, np, some (np.setChild (!d) (ns.child d))⟩,
      ⟨x, nx, some { nx with value := ns.value }⟩]) .empty (kont v)) :
    Runs t (.pending (.remove nx.value)) (Z ++ [.settled s ns, .settled p np, .settled x nx])
      (.spine x d p) (.act a kont) := by
  refine .commit hr (fun σ hi h => ?_) hkont
  have hsc : Cell.settled s ns ∈ Z ++ [.settled s ns, .settled p np, .settled x nx] := by simp
  have hpc : Cell.settled p np ∈ Z ++ [.settled s ns, .settled p np, .settled x nx] := by simp
  have hxc : Cell.settled x nx ∈ Z ++ [.settled s ns, .settled p np, .settled x nx] := by simp
  have hsr := (h.cell _ hsc).inside ns rfl
  have hpr := (h.cell _ hpc).inside np rfl
  have hxr := (h.cell _ hxc).inside nx rfl
  have hZ := List.subset_append_left Z [.settled s ns, .settled p np, .settled x nx]
  have hd := h.detachable hpc hsc hs hslot hlast hz hZ
  have hchild : σ.ghost.slot s (!!d) = ptr (ns.child d) := by
    rw [Bool.not_not]
    exact hsr.slot d
  obtain ⟨hxp, hclear⟩ := h.fact
  have hbelow := hi.below_of_slot hd.slot
  have hpx : p ≠ x := fun heq => hi.tree.lawful.irrefl (heq ▸ hxp)
  have hxs : s ≠ x := fun heq =>
    hi.tree.lawful.irrefl (hi.tree.lawful.trans hxp (heq ▸ hbelow))
  refine h.promote hi hd hxc hx
    ⟨hi.tree.lawful.trans hxp hbelow, hi.child_mem hd.slot, hd.empty, fun y e hxy hys => ?_⟩
    (fun u y hut hy hb => ?_) ?_ fun c hc => ?_
  · rcases hi.above_parent hd.slot hys with rfl | hyp
    · exact hi.tree.lawful.unique hys hbelow
    · obtain ⟨_, _, he⟩ := hclear y d e hxy hyp
      exact he
  · obtain ⟨hxy, e, hys⟩ := hb
    rcases hi.above_parent hd.slot hys with rfl | hyp
    · exact hut ((h.holds hpc).unique hy)
    · exact absurd (hy.1.symm.trans (hclear y d e hxy hyp).1) (by simp)
  · rw [List.map_append, List.map_append, hz.map_addr]
    rfl
  · rcases List.mem_append.mp hc with hc | hc
    · exact hz.holds h hi hd hZ hchild (h.not_mem_left (by simp)) c hc
    · simp only [List.mem_cons, List.not_mem_nil, or_false] at hc
      rcases hc with rfl | rfl | rfl
      · exact holds_gone h hsc
      · refine ⟨(h.cell _ hpc).view, fun n hn => ?_, fun hn => by cases hn⟩
        obtain rfl := Option.some.inj hn
        exact (hd.record_parent hi hpr hchild).promote_other hpx
      · refine ⟨(h.cell _ hxc).view, fun n hn => ?_, fun hn => by cases hn⟩
        obtain rfl := Option.some.inj hn
        -- `x` is neither the parent of `s` nor its child.
        have hsx : σ.ghost.slot s (!!d) ≠ some x := fun heq => hi.tree.lawful.irrefl
          (hi.tree.lawful.trans (hi.tree.lawful.trans hxp hbelow) (hi.below_of_slot heq))
        exact (hd.record_other hxr hpx.symm hxs.symm hsx).promote_self (hsr.key hs)

end FineGrained
