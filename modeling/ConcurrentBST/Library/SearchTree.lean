-- SUMMARY: Ordered keys on trees by ancestry: search positions, insertion, deletion, and promotion of a neighbour.
import ConcurrentBST.Library.Ancestry
import Mathlib.Data.Set.Finite.Basic
import Mathlib.Order.Basic

/-!
# Search trees

Keys on the nodes of an ancestry that follow its in-order relation. One node at
the top has no key; the tree hangs from its left side. A node with two children
is deleted by giving it the key of its in-order neighbour and splicing that one
out, and `Within` says which searches may go on below while this happens.
-/

universe u v

namespace Ancestry

variable {α : Type u} {κ : Type v} {A B : Ancestry α} {child child' : α → Bool → Option α}
  {c n p s x y z : α} {d e : Bool}

-- ---------------------------------------------------------------------------
-- Forgetting a node
-- ---------------------------------------------------------------------------

/-- `c` leaves the tree and may come back as a new node. -/
def erase (A : Ancestry α) (c : α) : Ancestry α where
  nodes := {x | x ∈ A.nodes ∧ x ≠ c}
  anc := fun y => {a | a ∈ A.anc y ∧ a.1 ≠ c}

theorem below_erase : (A.erase c).Below x d y ↔ A.Below x d y ∧ x ≠ c := by
  simp only [Below, erase, Set.mem_ofPred_eq]
  grind

theorem below_erase_iff_remove : (A.erase c).Below x d y ↔ (A.remove c).Below x d y :=
  below_erase.trans below_remove.symm

theorem Before.of_erase (h : (A.erase c).Before x y) : A.Before x y := by
  simp only [Before, below_erase] at h ⊢
  grind

theorem Lawful.of_remove (h : (A.remove c).Lawful) : (A.erase c).Lawful where
  irrefl := fun hx => h.irrefl (below_erase_iff_remove.mp hx)
  trans := fun hxy hyz => below_erase_iff_remove.mpr
    (h.trans (below_erase_iff_remove.mp hxy) (below_erase_iff_remove.mp hyz))
  unique := fun h₁ h₂ => h.unique (below_erase_iff_remove.mp h₁) (below_erase_iff_remove.mp h₂)
  total := by
    intro x y hx hy
    simp only [below_erase_iff_remove]
    exact h.total hx hy

/-- Only the slots of nodes count. -/
theorem Fits.of_remove (h : (A.remove c).Fits child)
    (hin : ∀ {x d}, x ∈ A.nodes → x ≠ c → child' x d = child x d)
    (hout : ∀ {x d}, ¬ (x ∈ A.nodes ∧ x ≠ c) → child' x d = none) : (A.erase c).Fits child' := by
  have hchild : ∀ {x d z}, child' x d = some z → child x d = some z := by
    intro x d z hz
    by_cases hx : x ∈ A.nodes ∧ x ≠ c
    · rwa [← hin hx.1 hx.2]
    · rw [hout hx] at hz
      cases hz
  refine ⟨fun hx hc => h.child_mem hx (hchild hc), fun hx hc => ?_, fun hc hy => ?_, fun hc hy => ?_,
    fun hx hc hz hb => ?_, fun hx hc hz hb => ?_⟩
  · exact below_erase_iff_remove.mpr (h.child_below hx (hchild hc))
  · simp only [below_erase_iff_remove] at hy ⊢
    exact h.child_anc (hchild hc) hy
  · simp only [below_erase_iff_remove] at hy ⊢
    exact h.child_up (hchild hc) hy
  · simp only [below_erase_iff_remove] at hb ⊢
    exact h.child_sub hx (hchild hc) hz hb
  · rw [below_erase_iff_remove] at hb
    exact h.none_sub hx ((hin hx.1 hx.2).symm.trans hc) hz hb

-- ---------------------------------------------------------------------------
-- Sides of keys
-- ---------------------------------------------------------------------------

/-- `b` lies on side `d` of `a`. -/
def Beyond [LT κ] (d : Bool) (a b : κ) : Prop :=
  if d then b < a else a < b

section Beyond

variable [Preorder κ] {a b : κ} {k : κ}

@[simp] theorem beyond_true : Beyond true a b ↔ b < a := Iff.rfl

@[simp] theorem beyond_false : Beyond false a b ↔ a < b := Iff.rfl

theorem Beyond.trans (h : Beyond d a b) (h' : Beyond d b k) : Beyond d a k := by
  cases d
  · exact lt_trans (α := κ) h h'
  · exact lt_trans (α := κ) h' h

theorem beyond_not : Beyond (!d) a b ↔ Beyond d b a := by
  cases d <;> exact Iff.rfl

theorem Beyond.ne (h : Beyond d a b) : a ≠ b := by
  rintro rfl
  cases d <;> exact lt_irrefl _ h

end Beyond

/-- `y` comes after `x` on the way to side `d`. -/
def Toward (A : Ancestry α) (d : Bool) (x y : α) : Prop :=
  A.Below x d y ∨ A.Below y (!d) x ∨ ∃ z, A.Below z (!d) x ∧ A.Below z d y

theorem toward_false : A.Toward false x y ↔ A.Before x y := by
  simp only [Toward, Before, Bool.not_false]
  grind

theorem toward_true : A.Toward true x y ↔ A.Before y x := by
  simp only [Toward, Before, Bool.not_true, and_comm]

theorem Lawful.toward_total (hA : A.Lawful) (d : Bool) (hx : x ∈ A.nodes) (hy : y ∈ A.nodes) :
    x = y ∨ A.Toward d x y ∨ A.Toward (!d) x y := by
  cases d
  · simpa only [toward_false, Bool.not_false, toward_true] using hA.before_total hx hy
  · simpa only [toward_true, Bool.not_true, toward_false, or_comm] using hA.before_total hx hy

-- ---------------------------------------------------------------------------
-- Search trees
-- ---------------------------------------------------------------------------

/-- A tree of ordered keys that hangs from the left side of `top`. -/
structure SearchTree [LT κ] (A : Ancestry α) (child : α → Bool → Option α) (top : α)
    (key : α → κ) : Prop where
  lawful : A.Lawful
  fits : A.Fits child
  finite : A.nodes.Finite
  outside : ∀ {x d}, x ∉ A.nodes → child x d = none
  clean : ∀ {x d y}, (x, d) ∈ A.anc y → x ∈ A.nodes
  top_mem : top ∈ A.nodes
  top_first : ∀ {x d}, ¬ A.Below x d top
  top_above : ∀ {x}, x ∈ A.nodes → x ≠ top → A.Below top true x
  sorted : ∀ {x y}, x ∈ A.nodes → y ∈ A.nodes → x ≠ top → y ≠ top → A.Before x y → key x < key y

/-- A search for `k` goes by every node above `x` on the side of `x`. -/
def Within [LT κ] (A : Ancestry α) (top : α) (key : α → κ) (k : κ) (x : α) : Prop :=
  ∀ y d, A.Below y d x → y ≠ top → Beyond d (key y) k

/-- The keys of the tree. -/
def keySet (A : Ancestry α) (top : α) (key : α → κ) : Set κ :=
  {k | ∃ x ∈ A.nodes, x ≠ top ∧ key x = k}

namespace SearchTree

variable [LinearOrder κ] {top : α} {key : α → κ} {k : κ}

theorem beyond (h : A.SearchTree child top key) (hx : x ∈ A.nodes) (hy : y ∈ A.nodes)
    (hxt : x ≠ top) (hyt : y ≠ top) (hxy : A.Toward d x y) : Beyond d (key x) (key y) := by
  cases d
  · exact h.sorted hx hy hxt hyt (toward_false.mp hxy)
  · exact h.sorted hy hx hyt hxt (toward_true.mp hxy)

theorem key_inj (h : A.SearchTree child top key) (hx : x ∈ A.nodes) (hy : y ∈ A.nodes)
    (hxt : x ≠ top) (hyt : y ≠ top) (hxy : key x = key y) : x = y := by
  rcases h.lawful.toward_total false hx hy with heq | ht | ht
  · exact heq
  · exact absurd hxy (h.beyond hx hy hxt hyt ht).ne
  · exact absurd hxy (h.beyond hx hy hxt hyt ht).ne

theorem ne_top_of_child (h : A.SearchTree child top key) (hx : x ∈ A.nodes)
    (hc : child x d = some c) : c ≠ top := by
  rintro rfl
  exact h.top_first (h.fits.child_below hx hc)

theorem mem_of_child (h : A.SearchTree child top key) (hc : child x d = some c) : x ∈ A.nodes := by
  by_contra hx
  rw [h.outside hx] at hc
  cases hc

/-- Nothing is on the right of `top`. -/
theorem ne_top_of_right (h : A.SearchTree child top key) (hy : y ∈ A.nodes)
    (hxy : A.Below x false y) : x ≠ top := by
  rintro rfl
  have hyx : y ≠ x := fun heq => h.top_first (heq ▸ hxy)
  simpa using h.lawful.unique hxy (h.top_above hy hyx)

/-- Two nodes part at a node with a key. -/
theorem ne_top_of_parting (h : A.SearchTree child top key) (hx : x ∈ A.nodes) (hy : y ∈ A.nodes)
    (hzx : A.Below z d x) (hzy : A.Below z (!d) y) : z ≠ top := by
  cases d
  · exact h.ne_top_of_right hx hzx
  · exact h.ne_top_of_right hy hzy

theorem beyond_below (h : A.SearchTree child top key) (hy : y ∈ A.nodes) (hxt : x ≠ top)
    (hxy : A.Below x d y) : Beyond d (key x) (key y) := by
  have hyt : y ≠ top := fun heq => h.top_first (heq ▸ hxy)
  exact h.beyond hxy.mem hy hxt hyt (.inl hxy)

-- ---------------------------------------------------------------------------
-- Searching
-- ---------------------------------------------------------------------------

/-- The children of `top`. -/
theorem within_top (h : A.SearchTree child top key) (hc : child top d = some c) :
    A.Within top key k c := by
  intro y e hy hyt
  rcases h.fits.child_anc hc hy with hb | ⟨rfl, _⟩
  · exact absurd hb h.top_first
  · exact absurd rfl hyt

/-- One step down on the side of `k`. -/
theorem within_child (h : A.SearchTree child top key) (hw : A.Within top key k x)
    (hd : Beyond d (key x) k) (hc : child x d = some c) : A.Within top key k c := by
  intro y e hy hyt
  rcases h.fits.child_anc hc hy with hb | ⟨rfl, rfl⟩
  · exact hw y e hb hyt
  · exact hd

/-- On which side of an empty slot a node is, in order and by its key, when the
    search for `k` ends there. -/
theorem side_of_gap (h : A.SearchTree child top key) (hp : p ∈ A.nodes) (hpt : p ≠ top)
    (hw : A.Within top key k p) (hd : Beyond d (key p) k) (hnone : child p d = none)
    (hx : x ∈ A.nodes) (hxt : x ≠ top) :
    key x < k ∧ A.BeforeGap p d x ∨ k < key x ∧ A.AfterGap p d x := by
  rcases h.lawful.total hx hp with rfl | ⟨e, hxp⟩ | ⟨e, hpx⟩ | ⟨z, e, hzx, hzp⟩
  · cases d
    · exact .inl ⟨hd, .inr ⟨rfl, rfl⟩⟩
    · exact .inr ⟨hd, .inr ⟨rfl, rfl⟩⟩
  · have hk := hw x e hxp hxt
    cases e
    · exact .inl ⟨hk, .inl (.inr (.inl hxp))⟩
    · exact .inr ⟨hk, .inl (.inl hxp)⟩
  · -- The other side of `p`.
    have hk := h.beyond_below hx hpt hpx
    cases d <;> cases e
    · exact absurd hpx (h.fits.none_sub hp hnone hx)
    · exact .inl ⟨lt_trans (α := κ) hk hd, .inl (.inl hpx)⟩
    · exact .inr ⟨lt_trans (α := κ) hd hk, .inl (.inr (.inl hpx))⟩
    · exact absurd hpx (h.fits.none_sub hp hnone hx)
  · have hzt := h.ne_top_of_parting hx hp hzx hzp
    have hkz := hw z (!e) hzp hzt
    have hkx := h.beyond_below hx hzt hzx
    cases e
    · exact .inr ⟨lt_trans (α := κ) hkz hkx, .inl (.inr (.inr ⟨z, hzp, hzx⟩))⟩
    · exact .inl ⟨lt_trans (α := κ) hkx hkz, .inl (.inr (.inr ⟨z, hzx, hzp⟩))⟩

/-- A search that ends at an empty slot has not missed its key. -/
theorem absent (h : A.SearchTree child top key) (hp : p ∈ A.nodes) (hpt : p ≠ top)
    (hw : A.Within top key k p) (hd : Beyond d (key p) k) (hnone : child p d = none) :
    k ∉ A.keySet top key := by
  rintro ⟨x, hx, hxt, hk⟩
  rcases h.side_of_gap hp hpt hw hd hnone hx hxt with ⟨hlt, _⟩ | ⟨hlt, _⟩
  · exact absurd hk hlt.ne
  · exact absurd hk hlt.ne'

/-- The tree is empty if nothing hangs from `top`. -/
theorem eq_top_of_none (h : A.SearchTree child top key) (hnone : child top true = none)
    (hx : x ∈ A.nodes) : x = top := by
  by_contra hxt
  exact h.fits.none_sub h.top_mem hnone hx (h.top_above hx hxt)

-- ---------------------------------------------------------------------------
-- Insertion
-- ---------------------------------------------------------------------------

theorem insertable (h : A.SearchTree child top key) (hp : p ∈ A.nodes) (hnone : child p d = none)
    (hn : n ∉ A.nodes) : A.Insertable child p d n where
  parent := hp
  empty := hnone
  fresh := hn
  unborn := fun _ _ ha => hn (h.clean ha)
  childless := fun _ => h.outside hn
  unpointed := fun _ _ hx => hn (h.fits.child_mem (h.mem_of_child hx) hx)

theorem gap_exclusive (h : A.SearchTree child top key) :
    ¬ (A.BeforeGap p d x ∧ A.AfterGap p d x) := by
  rintro ⟨hb | ⟨rfl, rfl⟩, ha | ⟨hd, heq⟩⟩
  · exact h.lawful.before_asymm hb ha
  · exact h.lawful.before_irrefl (heq ▸ hb)
  · exact h.lawful.before_irrefl ha
  · cases hd

section Insertion

variable [DecidableEq α]

/-- A new key where the search for it ends. -/
theorem insert (h : A.SearchTree child top key) (hp : p ∈ A.nodes) (hnone : child p d = none)
    (hn : n ∉ A.nodes)
    (hside : ∀ x ∈ A.nodes, x ≠ top →
      key x < k ∧ A.BeforeGap p d x ∨ k < key x ∧ A.AfterGap p d x)
    (hroot : p = top → d = true)
    (hset : child' p d = some n) (hframe : ∀ x e, ¬ (x = p ∧ e = d) → child' x e = child x e) :
    (A.insert p d n).SearchTree child' top (Function.update key n k) := by
  have hi := h.insertable hp hnone hn
  have hnt : n ≠ top := fun heq => hn (heq ▸ h.top_mem)
  refine ⟨hi.lawful h.lawful h.fits, hi.fits h.fits hset hframe, h.finite.insert n, fun {x e} hx => ?_,
    fun {x e y} ha => ?_, .inr h.top_mem, fun {x e} hb => ?_, fun {x} hx hxt => ?_,
    fun {x y} hx hy hxt hyt hxy => ?_⟩
  · have hpx : ¬ (x = p ∧ e = d) := fun heq => hx (.inr (heq.1 ▸ hp))
    rw [hframe x e hpx]
    exact h.outside fun hmem => hx (.inr hmem)
  · rcases ha with ⟨_, ha⟩ | ⟨_, hb | heq⟩
    · exact .inr (h.clean ha)
    · exact .inr hb.mem
    · cases heq
      exact .inr hp
  · exact h.top_first ((hi.below_old hnt.symm).mp hb)
  · by_cases hxn : x = n
    · subst hxn
      rw [hi.below_new]
      by_cases hpt : p = top
      · exact .inr ⟨hpt.symm, (hroot hpt).symm⟩
      · exact .inl (h.top_above hp hpt)
    · rw [hi.below_old hxn]
      exact h.top_above (hx.resolve_left hxn) hxt
  · by_cases hxn : x = n
    · subst hxn
      have hyn : y ≠ x := fun heq => (hi.lawful h.lawful h.fits).before_irrefl (heq ▸ hxy)
      have hy' := hy.resolve_left hyn
      rw [Function.update_self, Function.update_of_ne hyn]
      have hafter := (hi.new_before h.fits hy').mp hxy
      rcases hside y hy' hyt with ⟨_, hb⟩ | ⟨hlt, _⟩
      · exact absurd ⟨hb, hafter⟩ h.gap_exclusive
      · exact hlt
    · have hx' := hx.resolve_left hxn
      rw [Function.update_of_ne hxn]
      by_cases hyn : y = n
      · subst hyn
        rw [Function.update_self]
        have hbefore := (hi.before_new h.fits hx').mp hxy
        rcases hside x hx' hxt with ⟨hlt, _⟩ | ⟨_, ha⟩
        · exact hlt
        · exact absurd ⟨hbefore, ha⟩ h.gap_exclusive
      · rw [Function.update_of_ne hyn]
        exact h.sorted hx' (hy.resolve_left hyn) hxt hyt ((hi.before_old hxn hyn).mp hxy)

theorem keySet_insert (h : A.SearchTree child top key) (hn : n ∉ A.nodes) :
    (A.insert p d n).keySet top (Function.update key n k) = Insert.insert k (A.keySet top key) := by
  have hnt : n ≠ top := fun heq => hn (heq ▸ h.top_mem)
  ext j
  constructor
  · rintro ⟨x, rfl | hx, hxt, rfl⟩
    · exact .inl (Function.update_self ..)
    · have hxn : x ≠ n := fun heq => hn (heq ▸ hx)
      exact .inr ⟨x, hx, hxt, (Function.update_of_ne hxn ..).symm⟩
  · rintro (rfl | ⟨x, hx, hxt, rfl⟩)
    · exact ⟨n, .inl rfl, hnt, Function.update_self ..⟩
    · have hxn : x ≠ n := fun heq => hn (heq ▸ hx)
      exact ⟨x, .inr hx, hxt, Function.update_of_ne hxn ..⟩

/-- An insertion does not get between the root and a search. -/
theorem within_insert (h : A.SearchTree child top key) (hp : p ∈ A.nodes)
    (hnone : child p d = none) (hn : n ∉ A.nodes) {j : κ} (hx : x ∈ A.nodes)
    (hw : A.Within top key j x) :
    (A.insert p d n).Within top (Function.update key n k) j x := by
  have hi := h.insertable hp hnone hn
  intro y e hy hyt
  have hxn : x ≠ n := fun heq => hn (heq ▸ hx)
  rw [hi.below_old hxn] at hy
  have hyn : y ≠ n := fun heq => hn (heq ▸ hy.mem)
  rw [Function.update_of_ne hyn]
  exact hw y e hy hyt

end Insertion

-- ---------------------------------------------------------------------------
-- Deletion
-- ---------------------------------------------------------------------------

/-- A node that is spliced out takes its key with it. -/
theorem splice (h : A.SearchTree child top key) (hs : A.Spliceable child p d c e)
    (hset : child' p d = child c (!e)) (hout : ∀ f, child' c f = none)
    (hframe : ∀ x f, x ≠ c → ¬ (x = p ∧ f = d) → child' x f = child x f) :
    (A.erase c).SearchTree child' top key := by
  classical
  have hct := h.ne_top_of_child hs.parent hs.slot
  have hnone : ∀ {x f}, ¬ (x ∈ A.nodes ∧ x ≠ c) → child' x f = none := by
    intro x f hx
    by_cases hxc : x = c
    · rw [hxc, hout]
    · have hxn : x ∉ A.nodes := fun hmem => hx ⟨hmem, hxc⟩
      have hxp : ¬ (x = p ∧ f = d) := fun heq => hxn (heq.1 ▸ hs.parent)
      rw [hframe x f hxc hxp, h.outside hxn]
  -- What the slots of `c` hold does not count any more.
  have hremove : (A.remove c).Fits fun x f => if x = p ∧ f = d then child c (!e) else child x f :=
    hs.fits h.lawful h.fits (if_pos ⟨rfl, rfl⟩) fun x f hx => if_neg hx
  have hfits : (A.erase c).Fits child' := by
    refine hremove.of_remove (fun {x f} _ hxc => ?_) hnone
    by_cases hx : x = p ∧ f = d
    · rw [if_pos hx, hx.1, hx.2, hset]
    · rw [if_neg hx, hframe x f hxc hx]
  refine ⟨(hs.lawful h.lawful h.fits).of_remove, hfits, h.finite.subset fun _ hx => hx.1, hnone,
    fun {x f y} ha => ⟨h.clean ha.1, ha.2⟩, ⟨h.top_mem, hct.symm⟩,
    fun {x f} hb => h.top_first (below_erase.mp hb).1, fun {x} hx hxt => ?_,
    fun {x y} hx hy hxt hyt hxy => h.sorted hx.1 hy.1 hxt hyt hxy.of_erase⟩
  exact below_erase.mpr ⟨h.top_above hx.1 hxt, hct.symm⟩

theorem within_erase {j : κ} (hw : A.Within top key j x) : (A.erase c).Within top key j x :=
  fun y e hy => hw y e (below_erase.mp hy).1

theorem keySet_erase (h : A.SearchTree child top key) (hc : c ∈ A.nodes) (hct : c ≠ top) :
    (A.erase c).keySet top key = A.keySet top key \ {key c} := by
  ext j
  constructor
  · rintro ⟨x, ⟨hx, hxc⟩, hxt, rfl⟩
    exact ⟨⟨x, hx, hxt, rfl⟩, fun heq => hxc (h.key_inj hx hc hxt hct heq)⟩
  · rintro ⟨⟨x, hx, hxt, rfl⟩, hj⟩
    exact ⟨x, ⟨hx, fun heq => hj (by rw [heq]; rfl)⟩, hxt, rfl⟩

-- ---------------------------------------------------------------------------
-- Promotion of a neighbour
-- ---------------------------------------------------------------------------

/-- `s` is the neighbour of `x` on side `d`. -/
structure Neighbour (A : Ancestry α) (child : α → Bool → Option α) (x : α) (d : Bool) (s : α) :
    Prop where
  below : A.Below x d s
  mem : s ∈ A.nodes
  last : child s (!d) = none
  path : ∀ z e, A.Below x d z → A.Below z e s → e = !d

/-- Nothing lies between a node and its neighbour. -/
theorem Neighbour.beyond (hn : Neighbour A child x d s) (h : A.SearchTree child top key)
    (hy : y ∈ A.nodes) (hys : y ≠ s) (hxy : A.Toward d x y) : A.Toward d s y := by
  have hA := h.lawful
  have hflip : ∀ {z w : α}, A.Below z d w → ¬ A.Below z (!d) w := fun hd hn => by
    simpa using hA.unique hd hn
  rcases hA.toward_total d hn.mem hy with heq | hsy | hsy
  · exact absurd heq.symm hys
  · exact hsy
  exfalso
  simp only [Toward, Bool.not_not] at hsy
  -- `y` lies on side `d` of `x`.
  have hxy : A.Below x d y := by
    rcases hxy with hb | hb | ⟨w, hwx, hwy⟩
    · exact hb
    · exfalso
      have hys := hA.trans hb hn.below
      rcases hsy with hs | hs | ⟨w, hws, hwy⟩
      · exact hA.irrefl (hA.trans hs hys)
      · exact hflip hs hys
      · exact hflip hws (hA.trans hwy hys)
    · exfalso
      have hws := hA.trans hwx hn.below
      rcases hsy with hs | hs | ⟨v, hvs, hvy⟩
      · exact hflip hwy (hA.trans hws hs)
      · exact hflip (hA.trans hwy hs) hws
      · rcases hA.chain hws hvs with rfl | ⟨f, hf⟩ | ⟨f, hf⟩
        · exact hflip hvs hws
        · obtain rfl := hA.unique (hA.trans hf hvs) hws
          exact hflip hwy (hA.trans hf hvy)
        · obtain rfl := hA.unique (hA.trans hf hws) hvs
          exact hflip (hA.trans hf hwy) hvy
  rcases hsy with hs | hs | ⟨w, hws, hwy⟩
  · exact h.fits.none_sub hn.mem hn.last hy hs
  · simpa using hn.path y d hxy hs
  · rcases hA.chain hn.below hws with rfl | ⟨f, hf⟩ | ⟨f, hf⟩
    · exact hflip hxy hwy
    · obtain rfl := hA.unique (hA.trans hf hws) hn.below
      simpa using hn.path w f hf hws
    · obtain rfl := hA.unique (hA.trans hf hn.below) hws
      exact hflip (hA.trans hf hxy) hwy

section Promotion

variable [DecidableEq α]

/-- When its neighbour has left the tree, a node can take over its key. -/
theorem promote (h : A.SearchTree child top key) (hn : Neighbour A child x d s) (hxt : x ≠ top)
    (hs : (A.erase s).SearchTree child' top key) :
    (A.erase s).SearchTree child' top (Function.update key x (key s)) := by
  have hst : s ≠ top := fun heq => h.top_first (heq ▸ hn.below)
  have hxs : Beyond d (key x) (key s) := h.beyond_below hn.mem hxt hn.below
  -- A node beyond `x` is beyond `s`, and a node on the other side of `x` is so of `s`.
  have hside : ∀ {y f}, y ∈ A.nodes → y ≠ s → y ≠ top → A.Toward f x y →
      Beyond f (key s) (key y) := by
    intro y f hy hys hyt hxy
    by_cases hf : f = d
    · subst hf
      exact h.beyond hn.mem hy hst hyt (hn.beyond h hy hys hxy)
    · obtain rfl : f = !d := by cases f <;> cases d <;> simp_all
      exact (beyond_not.mpr hxs).trans (h.beyond hn.below.mem hy hxt hyt hxy)
  refine { hs with sorted := fun {y z} hy hz hyt hzt hyz => ?_ }
  have hirrefl : ¬ (A.erase s).Before x x := hs.lawful.before_irrefl
  by_cases hyx : y = x
  · have hzx : z ≠ x := by
      intro hzx
      rw [hyx, hzx] at hyz
      exact hirrefl hyz
    rw [hyx, Function.update_self, Function.update_of_ne hzx]
    exact hside hz.1 hz.2 hzt (toward_false.mpr (hyx ▸ hyz).of_erase)
  · rw [Function.update_of_ne hyx]
    by_cases hzx : z = x
    · rw [hzx, Function.update_self]
      exact hside hy.1 hy.2 hyt (toward_true.mpr (hzx ▸ hyz).of_erase)
    · rw [Function.update_of_ne hzx]
      exact hs.sorted hy hz hyt hzt hyz

/-- A search that is not on the way between the two nodes goes on. -/
theorem within_promote {j : κ} (h : A.SearchTree child top key) (hn : Neighbour A child x d s)
    (hxt : x ≠ top) (hy : y ∈ A.nodes) (hys : y ≠ s)
    (hbetween : ¬ (A.Below x d y ∧ ∃ e, A.Below y e s)) (hw : A.Within top key j y) :
    (A.erase s).Within top (Function.update key x (key s)) j y := by
  have hA := h.lawful
  have hst : s ≠ top := fun heq => h.top_first (heq ▸ hn.below)
  have hxs : Beyond d (key x) (key s) := h.beyond_below hn.mem hxt hn.below
  intro z e hz hzt
  replace hz := (below_erase.mp hz).1
  by_cases hzx : z = x
  swap
  · rw [Function.update_of_ne hzx]
    exact hw z e hz hzt
  subst hzx
  rw [Function.update_self]
  have hk := hw z e hz hzt
  by_cases hed : e = d
  swap
  · obtain rfl : e = !d := by cases e <;> cases d <;> simp_all
    exact (beyond_not.mpr hxs).trans hk
  subst hed
  rcases hA.total hn.mem hy with heq | ⟨f, hsy⟩ | ⟨f, hys⟩ | ⟨w, f, hws, hwy⟩
  · exact absurd heq.symm hys
  · -- `y` is below `s`, and not on the empty side.
    have hfe : f ≠ !e := fun heq => h.fits.none_sub hn.mem hn.last hy (heq ▸ hsy)
    obtain rfl : f = e := by cases f <;> cases e <;> simp_all
    exact hw s f hsy hst
  · exact absurd ⟨hz, f, hys⟩ hbetween
  · -- The ways to `s` and `y` part below `z`.
    have hzw : A.Below z e w := by
      rcases hA.chain hn.below hws with rfl | ⟨g, hg⟩ | ⟨g, hg⟩
      · have hf := hA.unique hws hn.below
        have hf' := hA.unique hwy hz
        simp [hf] at hf'
      · exact hA.unique (hA.trans hg hws) hn.below ▸ hg
      · have hf := hA.unique (hA.trans hg hn.below) hws
        have hf' := hA.unique (hA.trans hg hz) hwy
        simp [hf] at hf'
    obtain rfl := hn.path w f hzw hws
    have hwt : w ≠ top := fun heq => h.top_first (heq ▸ hzw)
    have hsw : Beyond e (key s) (key w) := beyond_not.mp (h.beyond_below hn.mem hwt hws)
    exact hsw.trans (hw w e (by simpa using hwy) hwt)

/-- The key of the node has gone, and the key of the neighbour has not. -/
theorem keySet_promote (h : A.SearchTree child top key) (hn : Neighbour A child x d s)
    (hxt : x ≠ top) :
    (A.erase s).keySet top (Function.update key x (key s)) = A.keySet top key \ {key x} := by
  have hst : s ≠ top := fun heq => h.top_first (heq ▸ hn.below)
  have hsx : s ≠ x := by
    rintro rfl
    exact h.lawful.irrefl hn.below
  have hx := hn.below.mem
  ext j
  constructor
  · rintro ⟨y, ⟨hy, hys⟩, hyt, rfl⟩
    by_cases hyx : y = x
    · rw [hyx, Function.update_self]
      exact ⟨⟨s, hn.mem, hst, rfl⟩, fun heq => hsx (h.key_inj hn.mem hx hst hxt heq)⟩
    · rw [Function.update_of_ne hyx]
      exact ⟨⟨y, hy, hyt, rfl⟩, fun heq => hyx (h.key_inj hy hx hyt hxt heq)⟩
  · rintro ⟨⟨y, hy, hyt, rfl⟩, hj⟩
    have hyx : y ≠ x := fun heq => hj (by rw [heq]; rfl)
    by_cases hys : y = s
    · exact ⟨x, ⟨hx, hsx.symm⟩, hxt, by rw [hys, Function.update_self]⟩
    · exact ⟨y, ⟨hy, hys⟩, hyt, Function.update_of_ne hyx ..⟩

end Promotion

end SearchTree

end Ancestry
