-- SUMMARY: A thread that runs alone: what it keeps, and the work that is pending for it.
import ConcurrentBST.Library.Termination
import ConcurrentBST.LockFree.Invariant
import Mathlib.Algebra.BigOperators.Finprod
import Mathlib.Algebra.Order.BigOperators.Group.Finset

/-!
# Running alone

One thread runs and all others stand still. Then what the thread has read stays
true until it writes itself. What it may have to do for others is measured by
the flags in the tree.
-/

namespace LockFree

/-- The steps of thread `t` in a call, with the allocator's answer as label. -/
def soloNext (cfg : Config) (t : Tid) (call : Call) (s : Mem × PC) (fresh : Addr) :
    Option (Mem × PC) :=
  exec cfg t call fresh s.1 s.2

/-- Running alone, the thread gets to a program point and a memory that satisfy `Q`. -/
def Ends (cfg : Config) (t : Tid) (call : Call) (Q : Mem → PC → Prop) (m : Mem) (pc : PC) : Prop :=
  Until (soloNext cfg t call) (fun s => ¬ Reckless cfg s.2) (fun s => Q s.1 s.2) (m, pc)

/-- What holds of the memory and its history while the thread is at `pc`. -/
structure Ready (cfg : Config) (t : Tid) (call : Call) (m : Mem) (g : Ghost) (pc : PC) : Prop where
  mem : MemInv cfg m g
  status : StatusInv m g
  pc : PcInv cfg m g t call pc
  finite : {a | m.cell a ≠ .unused}.Finite

/-- No node has come back to the tree. -/
structure Later (g g' : Ghost) : Prop where
  born : g.born ⊆ g'.born
  mem_of : ∀ {x}, x ∈ g.born → x ∈ g'.tree.nodes → x ∈ g.tree.nodes

variable {cfg : Config} {m m' : Mem} {g g' g'' : Ghost} {t : Tid} {call : Call} {pc pc' : PC}
  {Q : Mem → PC → Prop} {x a : Addr} {w : Word} {f : FindVars} {spent : Addr → Prop}

theorem Later.refl : Later g g := ⟨subset_rfl, fun _ h => h⟩

theorem Later.trans (h : Later g g') (h' : Later g' g'') : Later g g'' :=
  ⟨h.born.trans h'.born, fun hb hx => h.mem_of hb (h'.mem_of (h.born hb) hx)⟩

-- ---------------------------------------------------------------------------
-- The allocator
-- ---------------------------------------------------------------------------

theorem finite_alloc {cell : Addr → Cell} {k : Cell} (h : {a | cell a ≠ .unused}.Finite) :
    {b | Function.update cell a k b ≠ .unused}.Finite := by
  refine (h.insert a).subset fun b hb => ?_
  by_cases hba : b = a
  · exact .inl hba
  · simp only [Set.mem_ofPred_eq, Function.update_of_ne hba] at hb
    exact .inr hb

theorem finite_foldl_delete {as : List Addr} (h : {a | m.cell a ≠ .unused}.Finite) :
    {a | (as.foldl Mem.delete m).cell a ≠ .unused}.Finite := by
  induction as generalizing m with
  | nil => exact h
  | cons a as ih => exact ih (m := m.delete a) (finite_alloc h)

theorem Change.finite (hc : Change cfg t spent m g m' g') (h : {a | m.cell a ≠ .unused}.Finite) :
    {a | m'.cell a ≠ .unused}.Finite := by
  cases hc with
  | newNode | newCas | newReloc => exact finite_alloc h
  | delete as => exact finite_foldl_delete h
  | _ => exact h

/-- There is always an address that has never been handed out. -/
theorem exists_allocatable (h : {a | m.cell a ≠ .unused}.Finite) :
    ∃ a, m.allocatable cfg a = true := by
  obtain ⟨a, ha⟩ := (h.insert 0).exists_notMem
  simp only [Set.mem_insert_iff, Set.mem_ofPred_eq, not_or, not_not] at ha
  exact ⟨a, by simp [Mem.allocatable, ha.1, ha.2]⟩

-- ---------------------------------------------------------------------------
-- One step
-- ---------------------------------------------------------------------------

namespace Ready

/-- A step of the thread. -/
theorem ends (hcfg : cfg.hazardPointers = false) (h : Ready cfg t call m g pc)
    (hok : ¬ Reckless cfg pc) (hex : ∃ fresh, (exec cfg t call fresh m pc).isSome)
    (hnext : ∀ fresh m' pc' g', exec cfg t call fresh m pc = some (m', pc') →
      Ready cfg t call m' g' pc' → Later g g' → Ends cfg t call Q m' pc') :
    Ends cfg t call Q m pc := by
  refine .step hok hex ?_
  rintro fresh ⟨m', pc'⟩ he
  obtain ⟨g', spent, hc, _, hpc, _⟩ := sound_exec hcfg h.mem h.status h.pc hok he
  have hev := hc.evolves h.mem
  exact hnext fresh m' pc' g' he
    ⟨hc.memInv h.mem, hc.statusInv h.mem h.status, hpc, hc.finite h.finite⟩ ⟨hev.born, hev.mem_of⟩

/-- A step without allocation. -/
theorem step (hcfg : cfg.hazardPointers = false) (h : Ready cfg t call m g pc)
    (hok : ∀ f r, pc ≠ .removeDelete f r)
    (he : ∀ fresh, exec cfg t call fresh m pc = some (m', pc'))
    (hnext : ∀ g', Ready cfg t call m' g' pc' → Later g g' → Ends cfg t call Q m' pc') :
    Ends cfg t call Q m pc := by
  refine h.ends hcfg (fun hr => ?_) ⟨0, by rw [he]; rfl⟩ fun fresh m₁ pc₁ g₁ he₁ => ?_
  · obtain ⟨_, f, r, hpc⟩ := hr
    exact hok f r hpc
  · cases (he fresh).symm.trans he₁
    exact hnext g₁

/-- A step that allocates. -/
theorem alloc (hcfg : cfg.hazardPointers = false) (h : Ready cfg t call m g pc)
    (hok : ∀ f r, pc ≠ .removeDelete f r) {next : Addr → Mem × PC}
    (he : ∀ fresh, exec cfg t call fresh m pc =
      if m.allocatable cfg fresh then some (next fresh) else none)
    (hnext : ∀ fresh g', m.allocatable cfg fresh = true →
      Ready cfg t call (next fresh).1 g' (next fresh).2 → Later g g' →
      Ends cfg t call Q (next fresh).1 (next fresh).2) :
    Ends cfg t call Q m pc := by
  refine h.ends hcfg (fun hr => ?_) ?_ fun fresh m₁ pc₁ g₁ he₁ => ?_
  · obtain ⟨_, f, r, hpc⟩ := hr
    exact hok f r hpc
  · obtain ⟨a, ha⟩ : ∃ a, m.allocatable cfg a = true := exists_allocatable h.finite
    exact ⟨a, by rw [he, if_pos ha]; rfl⟩
  · rw [he] at he₁
    split at he₁
    · next ha =>
      obtain ⟨rfl, rfl⟩ := Prod.mk.inj (Option.some.inj he₁)
      exact hnext fresh g₁ ha
    · cases he₁

/-- The thread is where it was to get to. -/
theorem here (h : Q m pc) : Ends cfg t call Q m pc := .done h

end Ready

-- ---------------------------------------------------------------------------
-- Pending work
-- ---------------------------------------------------------------------------

/-- How much work the flag of an `op` field stands for. -/
def Flag.weight : Flag → Nat
  | .none => 0
  | .mark | .childCas => 1
  | .relocate => 2

/-- No flag in the tree stands for more work than before. -/
def Lighter (m m' : Mem) (g' : Ghost) : Prop :=
  ∀ x ∈ g'.tree.nodes, (m'.op x).flag.weight ≤ (m.op x).flag.weight

/-- The work a node of the tree stands for. -/
noncomputable def work (m : Mem) (g : Ghost) (x : Addr) : Nat :=
  open Classical in if x ∈ g.tree.nodes then (m.op x).flag.weight else 0

/-- The work that is pending in the tree. -/
noncomputable def pending (m : Mem) (g : Ghost) : Nat := ∑ᶠ x, work m g x

theorem work_of_mem (hx : x ∈ g.tree.nodes) : work m g x = (m.op x).flag.weight := if_pos hx

theorem work_of_not_mem (hx : x ∉ g.tree.nodes) : work m g x = 0 := if_neg hx

/-- It is enough to count over finitely many nodes. -/
theorem TreeInv.pending_eq_sum (h : TreeInv m g) {s : Finset Addr} (hs : h.finite.toFinset ⊆ s) :
    pending m g = ∑ x ∈ s, work m g x := by
  refine finsum_eq_sum_of_support_subset _ fun x hx => hs ?_
  rw [Set.Finite.mem_toFinset]
  by_contra hn
  exact hx (work_of_not_mem hn)

/-- No node of the new tree stands for more work than before. -/
theorem TreeInv.work_le (h : TreeInv m g) (hl : Later g g') (hop : Lighter m m' g') :
    work m' g' x ≤ work m g x := by
  by_cases hx' : x ∈ g'.tree.nodes
  · rw [work_of_mem hx']
    by_cases hb : x ∈ g.born
    · rw [work_of_mem (hl.mem_of hb hx')]
      exact hop x hx'
    · apply (hop x hx').trans
      rw [(h.unborn hb).1]
      exact Nat.zero_le _
  · rw [work_of_not_mem hx']
    exact Nat.zero_le _

theorem TreeInv.pending_le (h : TreeInv m g) (h' : TreeInv m' g') (hl : Later g g')
    (hop : Lighter m m' g') : pending m' g' ≤ pending m g := by
  rw [h.pending_eq_sum Finset.subset_union_left, h'.pending_eq_sum Finset.subset_union_right]
  exact Finset.sum_le_sum fun x _ => h.work_le hl hop

/-- The work of one node has got less. -/
theorem TreeInv.pending_lt (h : TreeInv m g) (h' : TreeInv m' g') (hl : Later g g')
    (hop : Lighter m m' g') (hx : x ∈ g.tree.nodes)
    (hlt : (m'.op x).flag.weight < (m.op x).flag.weight ∨
      x ∉ g'.tree.nodes ∧ 0 < (m.op x).flag.weight) : pending m' g' < pending m g := by
  have hlt : work m' g' x < work m g x := by
    rw [work_of_mem hx]
    by_cases hx' : x ∈ g'.tree.nodes
    · rw [work_of_mem hx']
      exact hlt.resolve_right fun hn => hn.1 hx'
    · rw [work_of_not_mem hx']
      exact hlt.elim (Nat.zero_le _).trans_lt And.right
  rw [h.pending_eq_sum Finset.subset_union_left, h'.pending_eq_sum Finset.subset_union_right]
  refine Finset.sum_lt_sum (fun x _ => h.work_le hl hop) ⟨x, ?_, hlt⟩
  exact Finset.mem_union_left _ (h.finite.mem_toFinset.mpr hx)

theorem Flag.weight_eq_zero {f : Flag} : f.weight = 0 ↔ f = .none := by
  cases f <;> simp [Flag.weight]

theorem TreeInv.pending_eq_zero (h : TreeInv m g) :
    pending m g = 0 ↔ ∀ x ∈ g.tree.nodes, (m.op x).flag = .none := by
  rw [h.pending_eq_sum subset_rfl, Finset.sum_eq_zero_iff]
  simp only [Set.Finite.mem_toFinset]
  refine forall₂_congr fun x hx => ?_
  rw [work_of_mem hx, Flag.weight_eq_zero]

end LockFree
