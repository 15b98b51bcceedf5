-- SUMMARY: search, insert and del_search walk down from the root and find what is there.
import ConcurrentBST.FineGrained.Commits

/-!
# Walking down

The functions that walk down hold the node they are at, and lock the child before
they unlock it. So no other thread gets past them, and the node they are at stays
on the way to the key they look for.
-/

namespace FineGrained

open Threads

variable {t : Tid} {x c : Addr} {d : Bool} {k : Int} {n nc : Node} {call : Call} {res : Result}
  {ph : Phase Call Result} {L M : List Cell} {F : Fact t}

theorem Runs.ret : Runs t (.done res) [] .empty (.ret res) :=
  Logic.Valid.ret At.stable fun _ _ h => h

theorem Runs.unlock_ret (hx : L = [.settled x n]) :
    Runs t (.done res) L .empty (.act (.unlock x) fun _ => .ret res) := by
  subst hx
  exact .release 0 rfl .ret

/-- The child on the side of the key is locked. -/
theorem Runs.lockSide {kont : Addr → Unit → Prog} (hx : x ≠ treeLock)
    (hd : Ancestry.Beyond d n.value k) (h0 : n.child d ≠ 0) (hM : ∀ c ∈ M, c.addr = treeLock)
    (hk : ∀ nc, nc.parent = x → Runs t ph (.settled (n.child d) nc :: .settled x n :: M)
      (.within k (n.child d)) (kont (n.child d) ())) :
    Runs t ph (.settled x n :: M) (.within k x)
      (.act (.child x d) fun c => .act (.lock c) (kont c)) := by
  refine .read (.child 0 rfl hx) (.lockChild 0 rfl rfl h0 (fun σ hi h c hc => ?_)
    (by simp [Fact.within]) (fun σ hi h hslot => ?_) hk)
  · rcases List.mem_cons.mp hc with rfl | hc
    · exact .inl rfl
    · rw [hM c hc]
      exact .inr ⟨true, hi.tree.top_above h.fact.1 hx⟩
  · have hkey := h.key_eq (i := 0) rfl hx
    exact ⟨hi.child_mem hslot, hi.tree.within_child h.fact.2 (hkey ▸ hd) hslot⟩

/-- The parent is unlocked, and its pointer read once more. -/
theorem Runs.leave {kont : Addr → Prog} (hx : x ≠ treeLock) (h0 : c ≠ treeLock)
    (hc : n.child d = c) (hk : Runs t ph (.settled c nc :: M) (.within k c) (kont c)) :
    Runs t ph (.settled c nc :: .settled x n :: M) (.within k c)
      (.act (.unlock x) fun _ => .act (.child x d) kont) := by
  refine .unlock (G := .followed k x d c) 1 rfl (by simp [Fact.followed]) (fun σ hi h => ?_)
    (.readLink hk hx)
  have hcell := h.cell (.settled x n) (by simp)
  have hslot := h.slot_some (i := 1) (x := x) (n := n) rfl hc h0
  exact ⟨h.fact, hx, hslot, (congrArg (Node.child · d) hcell.view).trans hc⟩

/-- The start of `search` and `insert`. -/
theorem Runs.enter {empty : Prog} {kont : Addr → Prog}
    (hempty : ∀ n k, n.child true = 0 → k 0 = empty →
      Runs t ph [.settled treeLock n] .empty (.act .root k))
    (hk : ∀ root n, root ≠ treeLock → Runs t ph [.settled root n] (.within k root) (kont root)) :
    Runs t ph [] .empty (enter empty kont) := by
  refine .lockTree fun n => ?_
  by_cases h0 : n.child true = 0
  · exact hempty n _ h0 rfl
  apply Runs.read (.root 0 rfl)
  rw [if_neg h0]
  refine .read (.root 0 rfl) (.lockChild (G := .within k (n.child true)) 0 rfl rfl h0
    (fun _ _ _ c hc => .inl ?_) (by simp [Fact.within]) (fun σ hi h hslot => ?_) fun nr hnr => ?_)
  · rw [List.mem_singleton.mp hc]
  · exact ⟨hi.child_mem hslot, hi.tree.within_top hslot⟩
  · refine .read (.root 1 rfl) (.unlock (G := .within k (n.child true)) 1 rfl
      (by simp [Fact.within]) (fun _ _ h => h.fact) ?_)
    exact hk _ nr h0

-- ---------------------------------------------------------------------------
-- search
-- ---------------------------------------------------------------------------

theorem runs_searchSide (hx : x ≠ treeLock) (hd : Ancestry.Beyond d n.value k) :
    Runs t (.pending (.search k)) [.settled x n] (.within k x) (searchSide k x d) := by
  by_cases h0 : n.child d = 0
  · refine .settle (R := .searched false) (.child 0 rfl hx)
      (fun σ hi h => .notFound (h.absent hi (i := 0) rfl hx hd h0)) ?_
    rw [if_pos h0]
    exact .unlock_ret rfl
  · apply Runs.read (.child 0 rfl hx)
    rw [if_neg h0]
    refine .lockSide hx hd h0 (by simp) fun nc _ => ?_
    apply Runs.leave hx h0 rfl
    exact Logic.Valid.call At.stable fun σ _ h => ⟨nc, h0, h⟩

theorem runs_searchFrom (hx : x ≠ treeLock) :
    Runs t (.pending (.search k)) [.settled x n] (.within k x) (searchFrom k x) := by
  rcases lt_trichotomy k n.value with hlt | heq | hlt
  · apply Runs.read (.value 0 rfl hx)
    rw [if_pos hlt]
    exact runs_searchSide hx hlt
  · apply Runs.read (.value 0 rfl hx)
    rw [if_neg (by omega)]
    refine .settle (R := .searched true) (.value 0 rfl hx)
      (fun σ _ h => .found (heq ▸ h.key_mem (i := 0) rfl hx)) ?_
    rw [if_neg (by omega)]
    exact .unlock_ret rfl
  · apply Runs.read (.value 0 rfl hx)
    rw [if_neg (by omega)]
    apply Runs.read (.value 0 rfl hx)
    rw [if_pos hlt]
    exact runs_searchSide hx hlt

theorem At.keys_empty {σ : World} (h : At t ph L F σ) (hi : Inv σ) {i : Nat}
    (hx : L[i]? = some (.settled treeLock n)) (h0 : n.child true = 0) : σ.ghost.keys = ∅ := by
  apply Set.eq_empty_iff_forall_notMem.mpr
  rintro j ⟨y, hy, hyt, _⟩
  exact hyt (hi.tree.eq_top_of_none (h.slot_none hx h0) hy)

theorem runs_search : Runs t (.pending (.search k)) [] .empty (search k) := by
  refine .enter (k := k) (fun n kont h0 hkont => ?_) fun root n hroot => ?_
  · refine .settle (R := .searched false) (.root 0 rfl)
      (fun σ hi h => .notFound ?_) (h0 ▸ hkont ▸ .unlock_ret rfl)
    simp [h.keys_empty hi (i := 0) rfl h0]
  · exact Logic.Valid.call At.stable fun σ _ h => ⟨n, hroot, h⟩

-- ---------------------------------------------------------------------------
-- insert
-- ---------------------------------------------------------------------------

theorem runs_insertSide (hx : x ≠ treeLock) (hd : Ancestry.Beyond d n.value k) :
    Runs t (.pending (.insert k)) [.settled x n] (.within k x) (insertSide k x d) := by
  apply Runs.read (.child 0 rfl hx)
  by_cases h0 : n.child d = 0
  · rw [if_pos h0]
    refine .create 0 rfl h0 (fun heq => absurd heq hx) (fun σ hi h y hy hyt => ?_) fun a ha => ?_
    · exact hi.tree.side_of_gap h.fact.1 hx h.fact.2 (h.key_eq (i := 0) rfl hx ▸ hd)
        (h.slot_none (i := 0) rfl h0) hy hyt
    · refine .write (.child 0 rfl hx (.inr fun w hw => ?_)) fun _ => .unlock_ret rfl
      rw [← Option.some.inj hw, Node.setChild_child, if_pos rfl, h0]
      exact ha
  · rw [if_neg h0]
    refine .lockSide hx hd h0 (by simp) fun nc _ => ?_
    apply Runs.leave hx h0 rfl
    exact Logic.Valid.call At.stable fun σ _ h => ⟨nc, h0, h⟩

/-- `insert` of a key that is there. -/
theorem runs_assertFail {kont : Unit → Prog} (hx : x ≠ treeLock) (hk : k = n.value) :
    Runs t (.pending (.insert k)) [.settled x n] F (.act .assertFail kont) := by
  refine Logic.Valid.act (B := fun _ _ => False) At.stable
    (fun σ _ h => ⟨k, h.phase, hk ▸ h.key_mem (i := 0) rfl hx⟩) (fun σ i v m _ _ hexec => ?_)
    fun _ _ _ => False.elim
  cases hexec

theorem runs_insertFrom (hx : x ≠ treeLock) :
    Runs t (.pending (.insert k)) [.settled x n] (.within k x) (insertFrom k x) := by
  apply Runs.read (.value 0 rfl hx)
  by_cases hlt : k < n.value
  · rw [if_pos hlt]
    exact runs_insertSide hx hlt
  rw [if_neg hlt]
  apply Runs.read (.value 0 rfl hx)
  by_cases hgt : k > n.value
  · rw [if_pos hgt]
    exact runs_insertSide hx hgt
  · rw [if_neg hgt]
    exact runs_assertFail hx (le_antisymm (not_lt.mp hgt) (not_lt.mp hlt))

theorem runs_insert : Runs t (.pending (.insert k)) [] .empty (insert k) := by
  refine .enter (k := k) (fun n kont h0 hkont => ?_) fun root n hroot => ?_
  · apply Runs.read (.root 0 rfl)
    rw [h0, hkont]
    refine .create (d := true) 0 rfl h0 (fun _ => rfl) (fun σ hi h y hy hyt => ?_) fun a ha => ?_
    · exact absurd (hi.tree.eq_top_of_none (h.slot_none (i := 0) rfl h0) hy) hyt
    · refine .write (.root 0 rfl (.inr fun w hw => ?_)) fun _ => .unlock_ret rfl
      rw [← Option.some.inj hw, Node.setChild_child, if_pos rfl, h0]
      exact ha
  · exact Logic.Valid.call At.stable fun σ _ h => ⟨n, hroot, h⟩

end FineGrained
