-- SUMMARY: Binary trees given by the sided ancestors of their nodes, with insertion, splicing and the in-order relation.
import Mathlib.Data.Set.Insert

/-!
# Trees by ancestry

A tree that loses nodes only by splicing and gains nodes only at empty slots
never gives a node a new ancestor. Such a tree is described by its current
nodes and by the sided ancestors each node was born with. The birth ancestors
of a node never change, so facts about them survive every later operation. The
current ancestors are the birth ancestors that are still nodes.

Sides are booleans, `true` for left.
-/

universe u

/-- The current nodes of a tree and the sided ancestors every node was born with. -/
structure Ancestry (α : Type u) where
  nodes : Set α
  anc : α → Set (α × Bool)

namespace Ancestry

variable {α : Type u} {A : Ancestry α} {child : α → Bool → Option α}

/-- `y` is below `x`, on side `d`. -/
def Below (A : Ancestry α) (x : α) (d : Bool) (y : α) : Prop :=
  x ∈ A.nodes ∧ (x, d) ∈ A.anc y

/-- The in-order relation. -/
def Before (A : Ancestry α) (x y : α) : Prop :=
  A.Below y true x ∨ A.Below x false y ∨ ∃ z, A.Below z true x ∧ A.Below z false y

/-- The ancestors describe a binary tree. -/
structure Lawful (A : Ancestry α) : Prop where
  irrefl : ∀ {x d}, ¬ A.Below x d x
  trans : ∀ {x d y e z}, A.Below x d y → A.Below y e z → A.Below x d z
  unique : ∀ {x d e y}, A.Below x d y → A.Below x e y → d = e
  total : ∀ {x y}, x ∈ A.nodes → y ∈ A.nodes →
    x = y ∨ (∃ d, A.Below x d y) ∨ (∃ d, A.Below y d x) ∨ ∃ z d, A.Below z d x ∧ A.Below z (!d) y

/-- The child pointers of a memory are those of the tree. The two clauses
    without a membership hypothesis also speak about nodes that have been spliced
    out and still point into the tree. -/
structure Fits (A : Ancestry α) (child : α → Bool → Option α) : Prop where
  child_mem : ∀ {x d c}, x ∈ A.nodes → child x d = some c → c ∈ A.nodes
  child_below : ∀ {x d c}, x ∈ A.nodes → child x d = some c → A.Below x d c
  child_anc : ∀ {x d c y e}, child x d = some c → A.Below y e c → A.Below y e x ∨ y = x ∧ e = d
  child_up : ∀ {x d c y e}, child x d = some c → A.Below y e x → A.Below y e c
  child_sub : ∀ {x d c z}, x ∈ A.nodes → child x d = some c → z ∈ A.nodes → A.Below x d z →
    z = c ∨ ∃ e, A.Below c e z
  none_sub : ∀ {x d z}, x ∈ A.nodes → child x d = none → z ∈ A.nodes → ¬ A.Below x d z

theorem Below.mem {x y : α} {d : Bool} (h : A.Below x d y) : x ∈ A.nodes := h.1

/-- Only one slot of the tree leads to a node. -/
theorem Fits.child_inj (hF : A.Fits child) (hA : A.Lawful) {x y c : α} {d e : Bool}
    (hx : x ∈ A.nodes) (hy : y ∈ A.nodes) (hxc : child x d = some c) (hyc : child y e = some c) :
    x = y ∧ d = e := by
  rcases hF.child_anc hyc (hF.child_below hx hxc) with hxy | h
  · rcases hF.child_anc hxc (hF.child_below hy hyc) with hyx | h
    · exact absurd (hA.trans hxy hyx) hA.irrefl
    · exact ⟨h.1.symm, h.2.symm⟩
  · exact h

/-! ## The in-order relation -/

namespace Lawful

variable {x y z : α} {d e : Bool}

/-- Two ancestors of one node are comparable. -/
theorem chain (hA : A.Lawful) (hx : A.Below x d z) (hy : A.Below y e z) :
    x = y ∨ (∃ f, A.Below x f y) ∨ ∃ f, A.Below y f x := by
  rcases hA.total hx.mem hy.mem with h | h | h | ⟨w, f, hwx, hwy⟩
  · exact .inl h
  · exact .inr (.inl h)
  · exact .inr (.inr h)
  · have := hA.unique (hA.trans hwx hx) (hA.trans hwy hy)
    simp at this

theorem before_total (hA : A.Lawful) (hx : x ∈ A.nodes) (hy : y ∈ A.nodes) :
    x = y ∨ A.Before x y ∨ A.Before y x := by
  rcases hA.total hx hy with h | ⟨d, h⟩ | ⟨d, h⟩ | ⟨z, d, h₁, h₂⟩
  · exact .inl h
  · cases d with
    | false => exact .inr (.inl (.inr (.inl h)))
    | true => exact .inr (.inr (.inl h))
  · cases d with
    | false => exact .inr (.inr (.inr (.inl h)))
    | true => exact .inr (.inl (.inl h))
  · cases d with
    | false => exact .inr (.inr (.inr (.inr ⟨z, h₂, h₁⟩)))
    | true => exact .inr (.inl (.inr (.inr ⟨z, h₁, h₂⟩)))

theorem before_asymm (hA : A.Lawful) (hxy : A.Before x y) : ¬ A.Before y x := by
  intro hyx
  rcases hxy with h | h | ⟨z, h₁, h₂⟩ <;> rcases hyx with h' | h' | ⟨w, h₁', h₂'⟩
  · exact hA.irrefl (hA.trans h h')
  · simpa using hA.unique h h'
  · simpa using hA.unique (hA.trans h₁' h) h₂'
  · simpa using hA.unique h h'
  · exact hA.irrefl (hA.trans h h')
  · simpa using hA.unique h₁' (hA.trans h₂' h)
  · simpa using hA.unique (hA.trans h₁ h') h₂
  · simpa using hA.unique h₁ (hA.trans h₂ h')
  · rcases hA.chain h₁ h₂' with rfl | ⟨f, h⟩ | ⟨f, h⟩
    · simpa using hA.unique h₁ h₂'
    · have h₃ := hA.unique (hA.trans h h₁') h₂
      have h₄ := hA.unique (hA.trans h h₂') h₁
      simp [h₃] at h₄
    · have h₃ := hA.unique (hA.trans h h₁) h₂'
      have h₄ := hA.unique (hA.trans h h₂) h₁'
      simp [h₃] at h₄

theorem before_irrefl (hA : A.Lawful) : ¬ A.Before x x :=
  fun h => hA.before_asymm h h

end Lawful

/-! ## Gaps

An empty slot is a gap of the in-order sequence: every node comes before it or
after it. -/

/-- `x` comes before the gap on side `d` of `p`. -/
def BeforeGap (A : Ancestry α) (p : α) (d : Bool) (x : α) : Prop :=
  A.Before x p ∨ d = false ∧ x = p

/-- `x` comes after the gap on side `d` of `p`. -/
def AfterGap (A : Ancestry α) (p : α) (d : Bool) (x : α) : Prop :=
  A.Before p x ∨ d = true ∧ x = p

theorem Lawful.gap_total (hA : A.Lawful) {p x : α} (d : Bool) (hp : p ∈ A.nodes)
    (hx : x ∈ A.nodes) : A.BeforeGap p d x ∨ A.AfterGap p d x := by
  rcases hA.before_total hp hx with rfl | h | h
  · cases d
    · exact .inl (.inr ⟨rfl, rfl⟩)
    · exact .inr (.inr ⟨rfl, rfl⟩)
  · exact .inr (.inl h)
  · exact .inl (.inl h)

/-- The last node before a gap on the left of `p` is the deepest ancestor that
    has `p` on its right. -/
theorem Fits.beforeGap_left (hF : A.Fits child) {p r x : α} (hp : p ∈ A.nodes)
    (hx : x ∈ A.nodes) (hnone : child p true = none)
    (hr : ∀ y, A.Below y false p → y = r ∨ A.Below y false r)
    (h : A.BeforeGap p true x) : x = r ∨ A.Before x r := by
  have hno := hF.none_sub hp hnone hx
  rcases h with (h | h | ⟨z, h₁, h₂⟩) | ⟨h, _⟩
  · exact absurd h hno
  · exact (hr x h).imp_right fun h => .inr (.inl h)
  · rcases hr z h₂ with rfl | hz
    · exact .inr (.inl h₁)
    · exact .inr (.inr (.inr ⟨z, h₁, hz⟩))
  · cases h

/-- A node after a gap on the right of `p` is, or comes after, an ancestor that
    has `p` on its left. -/
theorem Fits.afterGap_right (hF : A.Fits child) {p x : α} (hp : p ∈ A.nodes)
    (hx : x ∈ A.nodes) (hnone : child p false = none) (h : A.AfterGap p false x) :
    ∃ z, A.Below z true p ∧ (x = z ∨ A.Before z x) := by
  have hno := hF.none_sub hp hnone hx
  rcases h with (h | h | ⟨z, h₁, h₂⟩) | ⟨h, _⟩
  · exact ⟨x, h, .inl rfl⟩
  · exact absurd h hno
  · exact ⟨z, h₁, .inr (.inr (.inl h₂))⟩
  · cases h

/-- `y` comes right after `x` in order. -/
def Adjacent (A : Ancestry α) (x y : α) : Prop :=
  A.Below x false y ∧ ∀ z ∈ A.nodes, A.Before x z → ¬ A.Before z y

/-- The leftmost node on the right of `x` comes right after `x`. -/
theorem Lawful.adjacent_of_leftmost (hA : A.Lawful) (hF : A.Fits child) {x y : α}
    (hy : y ∈ A.nodes) (hxy : A.Below x false y) (hnone : child y true = none)
    (hpath : ∀ z e, A.Below z e y → A.Below x false z → e = true) : A.Adjacent x y := by
  refine ⟨hxy, fun z hz hxz hzy => ?_⟩
  have hasymm := hA.before_asymm hzy
  -- `z` lies on the right of `x`.
  have hxz' : A.Below x false z := by
    rcases hxz with h | h | ⟨w, h₁, h₂⟩
    · exact absurd (.inl (hA.trans h hxy)) hasymm
    · exact h
    · exact absurd (.inr (.inr ⟨w, hA.trans h₁ hxy, h₂⟩)) hasymm
  rcases hzy with h | h | ⟨w, h₁, h₂⟩
  · exact hF.none_sub hy hnone hz h
  · simpa using hpath z false h hxz'
  · rcases hA.chain h₂ hxy with rfl | ⟨f, h⟩ | ⟨f, h⟩
    · simpa using hA.unique h₁ hxz'
    · simpa using (hA.unique (hA.trans h hxz') h₁).symm.trans (hA.unique (hA.trans h hxy) h₂)
    · obtain rfl := hA.unique (hA.trans h h₂) hxy
      simpa using hpath w false h₂ h

/-- A gap between two adjacent nodes is the empty left slot of the second. -/
theorem Adjacent.gap (hF : A.Fits child) {x y p : α} {d : Bool}
    (hadj : A.Adjacent x y) (hy : y ∈ A.nodes) (hp : p ∈ A.nodes) (hnone : child p d = none)
    (hx : A.BeforeGap p d x) (hy' : A.AfterGap p d y) : p = y ∧ d = true := by
  rcases hx with hx | ⟨rfl, rfl⟩
  · rcases hy' with hy' | ⟨rfl, rfl⟩
    · exact absurd hy' (hadj.2 p hp hx)
    · exact ⟨rfl, rfl⟩
  · exact absurd hadj.1 (hF.none_sub hp hnone hy)

/-! ## Insertion -/

/-- `n` is born in the slot on side `d` of `p`. -/
def insert (A : Ancestry α) (p : α) (d : Bool) (n : α) : Ancestry α where
  nodes := {x | x = n ∨ x ∈ A.nodes}
  anc := fun y => {a | (y ≠ n ∧ a ∈ A.anc y) ∨ y = n ∧ (A.Below a.1 a.2 p ∨ a = (p, d))}

/-- What insertion asks of the tree and the new node. -/
structure Insertable (A : Ancestry α) (child : α → Bool → Option α) (p : α) (d : Bool) (n : α) :
    Prop where
  parent : p ∈ A.nodes
  empty : child p d = none
  fresh : n ∉ A.nodes
  unborn : ∀ y e, (n, e) ∉ A.anc y
  childless : ∀ e, child n e = none
  unpointed : ∀ x e, child x e ≠ some n

namespace Insertable

variable {p n x y : α} {d e : Bool}

theorem ne_parent (h : A.Insertable child p d n) : p ≠ n :=
  fun heq => h.fresh (heq ▸ h.parent)

theorem below_old (h : A.Insertable child p d n) (hy : y ≠ n) :
    (A.insert p d n).Below x e y ↔ A.Below x e y := by
  have := h.unborn y e
  simp only [Below, insert, Set.mem_ofPred_eq, hy, false_and, or_false, ne_eq, not_false_eq_true,
    true_and]
  grind

theorem below_new (h : A.Insertable child p d n) :
    (A.insert p d n).Below x e n ↔ A.Below x e p ∨ x = p ∧ e = d := by
  have := h.parent
  simp only [Below, insert, Set.mem_ofPred_eq, ne_eq, not_true_eq_false, false_and, true_and,
    false_or, Prod.mk.injEq]
  grind

theorem below_of_new (h : A.Insertable child p d n) : ¬ (A.insert p d n).Below n e y := by
  have := h.unborn
  have := h.fresh
  have := h.ne_parent
  simp only [Below, insert, Set.mem_ofPred_eq, Prod.mk.injEq]
  grind

theorem lawful (h : A.Insertable child p d n) (hA : A.Lawful) (hF : A.Fits child) :
    (A.insert p d n).Lawful where
  irrefl := by
    intro x e hx
    by_cases hxn : x = n
    · exact h.below_of_new (hxn ▸ hx)
    · exact hA.irrefl ((h.below_old hxn).mp hx)
  trans := by
    intro x e y f z hxy hyz
    have hyn : y ≠ n := fun heq => h.below_of_new (heq ▸ hyz)
    rw [h.below_old hyn] at hxy
    by_cases hzn : z = n
    · subst hzn
      rw [h.below_new] at hyz ⊢
      rcases hyz with hyz | ⟨rfl, rfl⟩
      · exact .inl (hA.trans hxy hyz)
      · exact .inl hxy
    · rw [h.below_old hzn] at hyz ⊢
      exact hA.trans hxy hyz
  unique := by
    intro x e f y h₁ h₂
    by_cases hyn : y = n
    · subst hyn
      rw [h.below_new] at h₁ h₂
      rcases h₁ with h₁ | ⟨rfl, rfl⟩ <;> rcases h₂ with h₂ | ⟨h₂, rfl⟩
      · exact hA.unique h₁ h₂
      · exact absurd (h₂ ▸ h₁) hA.irrefl
      · exact absurd h₂ hA.irrefl
      · rfl
    · rw [h.below_old hyn] at h₁ h₂
      exact hA.unique h₁ h₂
  total := by
    -- A new node is compared with an old one through its parent.
    have hnew : ∀ x ∈ A.nodes, x ≠ n → (∃ e, (A.insert p d n).Below x e n) ∨
        ∃ z e, (A.insert p d n).Below z e x ∧ (A.insert p d n).Below z (!e) n := by
      intro x hx hxn
      simp only [h.below_new, h.below_old hxn]
      rcases hA.total hx h.parent with rfl | ⟨e, hxp⟩ | ⟨e, hpx⟩ | ⟨z, e, h₁, h₂⟩
      · exact .inl ⟨d, .inr ⟨rfl, rfl⟩⟩
      · exact .inl ⟨e, .inl hxp⟩
      · have hne : e ≠ d := fun heq => hF.none_sub h.parent h.empty hx (heq ▸ hpx)
        refine .inr ⟨p, e, hpx, .inr ⟨rfl, ?_⟩⟩
        cases e <;> cases d <;> simp_all
      · exact .inr ⟨z, e, h₁, .inl h₂⟩
    intro x y hx hy
    by_cases hxn : x = n <;> by_cases hyn : y = n
    · exact .inl (hxn.trans hyn.symm)
    · subst hxn
      rcases hnew y (hy.resolve_left hyn) hyn with hb | ⟨z, e, h₁, h₂⟩
      · exact .inr (.inr (.inl hb))
      · exact .inr (.inr (.inr ⟨z, !e, h₂, by simpa using h₁⟩))
    · subst hyn
      rcases hnew x (hx.resolve_left hxn) hxn with hb | ⟨z, e, h₁, h₂⟩
      · exact .inr (.inl hb)
      · exact .inr (.inr (.inr ⟨z, e, h₁, h₂⟩))
    · simp only [h.below_old hxn, h.below_old hyn]
      exact hA.total (hx.resolve_left hxn) (hy.resolve_left hyn)

theorem fits (h : A.Insertable child p d n) (hF : A.Fits child)
    {child' : α → Bool → Option α} (hset : child' p d = some n)
    (hframe : ∀ x e, ¬ (x = p ∧ e = d) → child' x e = child x e) :
    (A.insert p d n).Fits child' := by
  -- The only pointer to `n` is the new one, and `n` itself points nowhere.
  have hself : ∀ e, child' n e = none := fun e =>
    (hframe n e (fun heq => h.ne_parent heq.1.symm)).trans (h.childless e)
  have hold : ∀ {x e c}, ¬ (x = p ∧ e = d) → child' x e = some c →
      child x e = some c ∧ x ≠ n ∧ c ≠ n := by
    intro x e c hne hc
    have hc' := (hframe x e hne).symm.trans hc
    refine ⟨hc', ?_, fun heq => h.unpointed x e (heq ▸ hc')⟩
    rintro rfl
    simp [hself] at hc
  refine ⟨?_, ?_, ?_, ?_, ?_, ?_⟩
  · intro x e c hx hc
    by_cases hpd : x = p ∧ e = d
    · obtain ⟨rfl, rfl⟩ := hpd
      exact .inl (Option.some.inj (hc.symm.trans hset))
    · obtain ⟨hc, hxn, _⟩ := hold hpd hc
      exact .inr (hF.child_mem (hx.resolve_left hxn) hc)
  · intro x e c hx hc
    by_cases hpd : x = p ∧ e = d
    · obtain ⟨rfl, rfl⟩ := hpd
      obtain rfl := Option.some.inj (hc.symm.trans hset)
      exact h.below_new.mpr (.inr ⟨rfl, rfl⟩)
    · obtain ⟨hc, hxn, hcn⟩ := hold hpd hc
      rw [h.below_old hcn]
      exact hF.child_below (hx.resolve_left hxn) hc
  · intro x e c y f hc hy
    by_cases hpd : x = p ∧ e = d
    · obtain ⟨rfl, rfl⟩ := hpd
      obtain rfl := Option.some.inj (hc.symm.trans hset)
      rw [h.below_old h.ne_parent]
      exact h.below_new.mp hy
    · obtain ⟨hc, hxn, hcn⟩ := hold hpd hc
      rw [h.below_old hxn]
      exact hF.child_anc hc ((h.below_old hcn).mp hy)
  · intro x e c y f hc hy
    by_cases hpd : x = p ∧ e = d
    · obtain ⟨rfl, rfl⟩ := hpd
      obtain rfl := Option.some.inj (hc.symm.trans hset)
      exact h.below_new.mpr (.inl ((h.below_old h.ne_parent).mp hy))
    · obtain ⟨hc, hxn, hcn⟩ := hold hpd hc
      rw [h.below_old hcn]
      exact hF.child_up hc ((h.below_old hxn).mp hy)
  · intro x e c z hx hc hz hb
    by_cases hpd : x = p ∧ e = d
    · obtain ⟨rfl, rfl⟩ := hpd
      obtain rfl := Option.some.inj (hc.symm.trans hset)
      by_cases hzn : z = c
      · exact .inl hzn
      · exact absurd ((h.below_old hzn).mp hb)
          (hF.none_sub h.parent h.empty (hz.resolve_left hzn))
    · obtain ⟨hc, hxn, hcn⟩ := hold hpd hc
      replace hx := hx.resolve_left hxn
      by_cases hzn : z = n
      · subst hzn
        -- The new node is below its parent, and the parent is below `c` or is `c`.
        rcases h.below_new.mp hb with hb | hb
        · rcases hF.child_sub hx hc h.parent hb with rfl | ⟨f, hf⟩
          · exact .inr ⟨d, h.below_new.mpr (.inr ⟨rfl, rfl⟩)⟩
          · exact .inr ⟨f, h.below_new.mpr (.inl hf)⟩
        · exact absurd hb hpd
      · rw [h.below_old hzn] at hb
        simp only [h.below_old hzn]
        exact hF.child_sub hx hc (hz.resolve_left hzn) hb
  · intro x e z hx hnone hz hb
    have hpd : ¬ (x = p ∧ e = d) := by
      rintro ⟨rfl, rfl⟩
      simp [hset] at hnone
    have hxn : x ≠ n := fun heq => h.below_of_new (heq ▸ hb)
    replace hx := hx.resolve_left hxn
    rw [hframe _ _ hpd] at hnone
    by_cases hzn : z = n
    · subst hzn
      rcases h.below_new.mp hb with hb | hb
      · exact hF.none_sub hx hnone h.parent hb
      · exact hpd hb
    · exact hF.none_sub hx hnone (hz.resolve_left hzn) ((h.below_old hzn).mp hb)

/-- Old nodes keep their order. -/
theorem before_old (h : A.Insertable child p d n) (hx : x ≠ n) (hy : y ≠ n) :
    (A.insert p d n).Before x y ↔ A.Before x y := by
  simp only [Before, h.below_old hx, h.below_old hy]

theorem before_new (h : A.Insertable child p d n) (hF : A.Fits child) (hx : x ∈ A.nodes) :
    (A.insert p d n).Before x n ↔ A.BeforeGap p d x := by
  have hxn : x ≠ n := fun heq => h.fresh (heq ▸ hx)
  have hno := hF.none_sub h.parent h.empty hx
  have hto : ¬ A.Below n true x := fun hb => h.unborn x true hb.2
  simp only [Before, BeforeGap, h.below_new, h.below_old hxn]
  cases d <;> grind

theorem new_before (h : A.Insertable child p d n) (hF : A.Fits child) (hx : x ∈ A.nodes) :
    (A.insert p d n).Before n x ↔ A.AfterGap p d x := by
  have hxn : x ≠ n := fun heq => h.fresh (heq ▸ hx)
  have hno := hF.none_sub h.parent h.empty hx
  have hto : ¬ A.Below n false x := fun hb => h.unborn x false hb.2
  simp only [Before, AfterGap, h.below_new, h.below_old hxn]
  cases d <;> grind

/-! An insertion elsewhere cannot spoil a gap: an old node lies in between. -/

theorem beforeGap_old (h : A.Insertable child p d n) (hx : x ≠ n) (hy : y ≠ n) :
    (A.insert p d n).BeforeGap x e y ↔ A.BeforeGap x e y := by
  simp only [BeforeGap, h.before_old hy hx]

theorem afterGap_old (h : A.Insertable child p d n) (hx : x ≠ n) (hy : y ≠ n) :
    (A.insert p d n).AfterGap x e y ↔ A.AfterGap x e y := by
  simp only [AfterGap, h.before_old hx hy]

variable {child' : α → Bool → Option α}

theorem beforeGap_new (h : A.Insertable child p d n) (hF : A.Fits child)
    (hF' : (A.insert p d n).Fits child') (hx : x ∈ A.nodes) (hnone : child' x e = none)
    (hb : (A.insert p d n).BeforeGap x e n) : ∃ z ∈ A.nodes, A.AfterGap p d z ∧ A.BeforeGap x e z := by
  have hxn : x ≠ n := fun heq => h.fresh (heq ▸ hx)
  rcases hb with hb | ⟨_, heq⟩
  · cases e with
    | false => exact ⟨x, hx, (h.new_before hF hx).mp hb, .inr ⟨rfl, rfl⟩⟩
    | true =>
      rcases hb with hb | hb | ⟨z, h₁, h₂⟩
      · exact absurd hb (hF'.none_sub (.inr hx) hnone (.inl rfl))
      · exact absurd hb h.below_of_new
      · have hzn : z ≠ n := fun heq => h.below_of_new (heq ▸ h₂)
        have hz : z ∈ A.nodes := h₁.mem.resolve_left hzn
        exact ⟨z, hz, (h.new_before hF hz).mp (.inl h₁),
          .inl (.inr (.inl ((h.below_old hxn).mp h₂)))⟩
  · exact absurd heq.symm hxn

theorem afterGap_new (h : A.Insertable child p d n) (hF : A.Fits child)
    (hF' : (A.insert p d n).Fits child') (hx : x ∈ A.nodes) (hnone : child' x e = none)
    (hb : (A.insert p d n).AfterGap x e n) : ∃ z ∈ A.nodes, A.BeforeGap p d z ∧ A.AfterGap x e z := by
  have hxn : x ≠ n := fun heq => h.fresh (heq ▸ hx)
  rcases hb with hb | ⟨_, heq⟩
  · cases e with
    | true => exact ⟨x, hx, (h.before_new hF hx).mp hb, .inr ⟨rfl, rfl⟩⟩
    | false =>
      rcases hb with hb | hb | ⟨z, h₁, h₂⟩
      · exact absurd hb h.below_of_new
      · exact absurd hb (hF'.none_sub (.inr hx) hnone (.inl rfl))
      · have hzn : z ≠ n := fun heq => h.below_of_new (heq ▸ h₁)
        have hz : z ∈ A.nodes := h₁.mem.resolve_left hzn
        exact ⟨z, hz, (h.before_new hF hz).mp (.inr (.inl h₂)),
          .inl (.inl ((h.below_old hxn).mp h₁))⟩
  · exact absurd heq.symm hxn

/-- Adjacent nodes stay adjacent unless the new node is put between them. -/
theorem adjacent (h : A.Insertable child p d n) (hF : A.Fits child) (hadj : A.Adjacent x y)
    (hy : y ∈ A.nodes) (hother : ¬ (p = y ∧ d = true)) : (A.insert p d n).Adjacent x y := by
  have hyn : y ≠ n := fun heq => h.fresh (heq ▸ hy)
  have hx := hadj.1.mem
  have hxn : x ≠ n := fun heq => h.fresh (heq ▸ hx)
  refine ⟨(h.below_old hyn).mpr hadj.1, fun z hz hxz hzy => ?_⟩
  by_cases hzn : z = n
  · subst hzn
    exact hother (hadj.gap hF hy h.parent h.empty ((h.before_new hF hx).mp hxz)
      ((h.new_before hF hy).mp hzy))
  · exact hadj.2 z (hz.resolve_left hzn) ((h.before_old hxn hzn).mp hxz)
      ((h.before_old hzn hyn).mp hzy)

end Insertable

/-! ## Splicing -/

/-- `c` leaves the tree. -/
def remove (A : Ancestry α) (c : α) : Ancestry α where
  nodes := {x | x ∈ A.nodes ∧ x ≠ c}
  anc := A.anc

theorem below_remove {c x y : α} {d : Bool} :
    (A.remove c).Below x d y ↔ A.Below x d y ∧ x ≠ c := by
  simp only [Below, remove, Set.mem_ofPred_eq]
  grind

theorem Before.of_remove {c x y : α} (h : (A.remove c).Before x y) : A.Before x y := by
  simp only [Before, below_remove] at h ⊢
  grind

theorem BeforeGap.of_remove {c p x : α} {d : Bool} (h : (A.remove c).BeforeGap p d x) :
    A.BeforeGap p d x :=
  h.imp_left Before.of_remove

theorem AfterGap.of_remove {c p x : α} {d : Bool} (h : (A.remove c).AfterGap p d x) :
    A.AfterGap p d x :=
  h.imp_left Before.of_remove

theorem Adjacent.remove {c x y : α} (h : A.Adjacent x y) (hx : x ≠ c) :
    (A.remove c).Adjacent x y :=
  ⟨below_remove.mpr ⟨h.1, hx⟩, fun z hz hxz hzy => h.2 z hz.1 hxz.of_remove hzy.of_remove⟩

/-- What splicing `c` out from below `p` asks of the tree: a side `e` on which
    `c` has no child. -/
structure Spliceable (A : Ancestry α) (child : α → Bool → Option α) (p : α) (d : Bool) (c : α)
    (e : Bool) : Prop where
  parent : p ∈ A.nodes
  slot : child p d = some c
  empty : child c e = none

namespace Spliceable

variable {p c x y : α} {d e : Bool}

theorem mem (h : A.Spliceable child p d c e) (hF : A.Fits child) : c ∈ A.nodes :=
  hF.child_mem h.parent h.slot

theorem lawful (h : A.Spliceable child p d c e) (hA : A.Lawful) (hF : A.Fits child) :
    (A.remove c).Lawful where
  irrefl := fun hx => hA.irrefl (below_remove.mp hx).1
  trans := fun hxy hyz => below_remove.mpr
    ⟨hA.trans (below_remove.mp hxy).1 (below_remove.mp hyz).1, (below_remove.mp hxy).2⟩
  unique := fun h₁ h₂ => hA.unique (below_remove.mp h₁).1 (below_remove.mp h₂).1
  total := by
    intro x y hx hy
    simp only [below_remove]
    rcases hA.total hx.1 hy.1 with hxy | ⟨f, hf⟩ | ⟨f, hf⟩ | ⟨z, f, h₁, h₂⟩
    · exact .inl hxy
    · exact .inr (.inl ⟨f, hf, hx.2⟩)
    · exact .inr (.inr (.inl ⟨f, hf, hy.2⟩))
    · refine .inr (.inr (.inr ⟨z, f, ⟨h₁, ?_⟩, h₂, ?_⟩)) <;>
      · -- `c` has nothing on side `e`, so nothing parts at `c`.
        rintro rfl
        have hx' := hF.none_sub (h.mem hF) h.empty hx.1
        have hy' := hF.none_sub (h.mem hF) h.empty hy.1
        cases e <;> cases f <;> simp_all

theorem fits (h : A.Spliceable child p d c e) (hA : A.Lawful) (hF : A.Fits child)
    {child' : α → Bool → Option α} (hset : child' p d = child c (!e))
    (hframe : ∀ x f, ¬ (x = p ∧ f = d) → child' x f = child x f) :
    (A.remove c).Fits child' := by
  have hcp : c ≠ p := by
    rintro rfl
    exact hA.irrefl (hF.child_below h.parent h.slot)
  have hpc : A.Below p d c := hF.child_below h.parent h.slot
  -- The child that takes the place of `c`, if `c` has one.
  have hnew : ∀ {c'}, child' p d = some c' → child c (!e) = some c' ∧ c' ∈ A.nodes ∧ c' ≠ c ∧
      A.Below c (!e) c' := by
    intro c' hc'
    have hc := hset.symm.trans hc'
    have hb := hF.child_below (h.mem hF) hc
    refine ⟨hc, hF.child_mem (h.mem hF) hc, ?_, hb⟩
    rintro rfl
    exact hA.irrefl hb
  -- Another slot of the tree does not lead to `c`.
  have hother : ∀ {x f c'}, x ∈ A.nodes → ¬ (x = p ∧ f = d) → child x f = some c' → c' ≠ c := by
    rintro x f c' hx hne hc rfl
    exact hne (hF.child_inj hA hx h.parent hc h.slot)
  refine ⟨?_, ?_, ?_, ?_, ?_, ?_⟩
  · rintro x f c' ⟨hx, hxc⟩ hc
    by_cases hpd : x = p ∧ f = d
    · obtain ⟨rfl, rfl⟩ := hpd
      obtain ⟨_, hmem, hne, _⟩ := hnew hc
      exact ⟨hmem, hne⟩
    · rw [hframe _ _ hpd] at hc
      exact ⟨hF.child_mem hx hc, hother hx hpd hc⟩
  · rintro x f c' ⟨hx, hxc⟩ hc
    refine below_remove.mpr ⟨?_, hxc⟩
    by_cases hpd : x = p ∧ f = d
    · obtain ⟨rfl, rfl⟩ := hpd
      exact hA.trans hpc (hnew hc).2.2.2
    · rw [hframe _ _ hpd] at hc
      exact hF.child_below hx hc
  · intro x f c' y g hc hy
    obtain ⟨hy, hyc⟩ := below_remove.mp hy
    rw [below_remove]
    by_cases hpd : x = p ∧ f = d
    · obtain ⟨rfl, rfl⟩ := hpd
      rcases hF.child_anc (hnew hc).1 hy with hy | hy
      · exact (hF.child_anc h.slot hy).imp_left fun hy => ⟨hy, hyc⟩
      · exact absurd hy.1 hyc
    · rw [hframe _ _ hpd] at hc
      exact (hF.child_anc hc hy).imp_left fun hy => ⟨hy, hyc⟩
  · intro x f c' y g hc hy
    obtain ⟨hy, hyc⟩ := below_remove.mp hy
    refine below_remove.mpr ⟨?_, hyc⟩
    by_cases hpd : x = p ∧ f = d
    · obtain ⟨rfl, rfl⟩ := hpd
      exact hF.child_up (hnew hc).1 (hF.child_up h.slot hy)
    · rw [hframe _ _ hpd] at hc
      exact hF.child_up hc hy
  · rintro x f c' z ⟨hx, hxc⟩ hc ⟨hz, hzc⟩ hb
    replace hb := (below_remove.mp hb).1
    by_cases hpd : x = p ∧ f = d
    · obtain ⟨rfl, rfl⟩ := hpd
      obtain ⟨hc', _, hne, _⟩ := hnew hc
      -- Everything below the slot was `c` or below its only child.
      rcases hF.child_sub hx h.slot hz hb with hzc' | ⟨g, hg⟩
      · exact absurd hzc' hzc
      · have hge : g = !e := by
          have := hF.none_sub (h.mem hF) h.empty hz
          cases g <;> cases e <;> simp_all
        rcases hF.child_sub (h.mem hF) hc' hz (hge ▸ hg) with hzc' | ⟨k, hk⟩
        · exact .inl hzc'
        · exact .inr ⟨k, below_remove.mpr ⟨hk, hne⟩⟩
    · rw [hframe _ _ hpd] at hc
      rcases hF.child_sub hx hc hz hb with hzc' | ⟨g, hg⟩
      · exact .inl hzc'
      · exact .inr ⟨g, below_remove.mpr ⟨hg, hother hx hpd hc⟩⟩
  · rintro x f z ⟨hx, hxc⟩ hnone ⟨hz, hzc⟩ hb
    replace hb := (below_remove.mp hb).1
    by_cases hpd : x = p ∧ f = d
    · obtain ⟨rfl, rfl⟩ := hpd
      rcases hF.child_sub hx h.slot hz hb with hzc' | ⟨g, hg⟩
      · exact hzc hzc'
      · have hge : g = !e := by
          have := hF.none_sub (h.mem hF) h.empty hz
          cases g <;> cases e <;> simp_all
        exact hF.none_sub (h.mem hF) (hset.symm.trans hnone) hz (hge ▸ hg)
    · exact hF.none_sub hx ((hframe _ _ hpd).symm.trans hnone) hz hb

end Spliceable

end Ancestry
