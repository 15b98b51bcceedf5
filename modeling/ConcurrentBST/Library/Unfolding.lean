-- SUMMARY: Finite trees unfolded from child pointers, and the one that an ancestry stands for.
import ConcurrentBST.Library.Ancestry
import Mathlib.Data.Set.Card
import Mathlib.Data.Tree.Basic

/-!
# Unfolding child pointers

What a reader finds that starts at a pointer and follows child pointers. If the
pointers are those of a lawful ancestry with finitely many nodes, it is a finite
tree whose in-order list follows the in-order relation of the ancestry.
-/

universe u

variable {α : Type u} {A : Ancestry α} {child : α → Bool → Option α} {c : Option α} {x y z : α}
  {d : Bool} {t : BinaryTree α}

def BinaryTree.inorder : BinaryTree α → List α
  | .nil => []
  | .node x l r => l.inorder ++ x :: r.inorder

attribute [local simp] BinaryTree.inorder

/-- Follow the child pointers on the sides of a path. -/
def follow (child : α → Bool → Option α) : Option α → List Bool → Option α
  | c, [] => c
  | none, _ :: _ => none
  | some x, d :: path => follow child (child x d) path

/-- Some path from the pointer `c` leads to `x`. -/
def Leads (child : α → Bool → Option α) (c : Option α) (x : α) : Prop :=
  ∃ path, follow child c path = some x

/-- The child pointers unfold from the pointer `c` to a finite tree. -/
inductive Unfolds (child : α → Bool → Option α) : Option α → BinaryTree α → Prop where
  | nil : Unfolds child none .nil
  | node {x : α} {l r : BinaryTree α} : Unfolds child (child x true) l →
      Unfolds child (child x false) r → Unfolds child (some x) (.node x l r)

-- ---------------------------------------------------------------------------
-- Paths
-- ---------------------------------------------------------------------------

theorem not_leads_none : ¬ Leads child none x := by
  rintro ⟨path, h⟩
  cases path <;> cases h

theorem leads_some : Leads child (some x) y ↔ y = x ∨ ∃ d, Leads child (child x d) y := by
  constructor
  · rintro ⟨path, h⟩
    cases path with
    | nil => exact .inl (Option.some.inj h).symm
    | cons d path => exact .inr ⟨d, path, h⟩
  · rintro (rfl | ⟨d, path, h⟩)
    · exact ⟨[], rfl⟩
    · exact ⟨d :: path, h⟩

theorem follow_append {p q : List Bool} :
    follow child c (p ++ q) = follow child (follow child c p) q := by
  induction p generalizing c with
  | nil => cases c <;> rfl
  | cons e p ih =>
    cases c with
    | none => cases q <;> rfl
    | some x => exact ih

namespace Unfolds

theorem mem_inorder (h : Unfolds child c t) : x ∈ t.inorder ↔ Leads child c x := by
  induction h with
  | nil => simp [not_leads_none]
  | node _ _ ihl ihr =>
    simp only [BinaryTree.inorder, List.mem_append, List.mem_cons, leads_some, ihl, ihr,
      Bool.exists_bool]
    tauto

/-- Only the pointers of the tree's own nodes count. -/
theorem congr {child' : α → Bool → Option α} (h : Unfolds child c t)
    (heq : ∀ x ∈ t.inorder, ∀ d, child' x d = child x d) : Unfolds child' c t := by
  induction h with
  | nil => exact .nil
  | @node x l r _ _ ihl ihr =>
    have hx : ∀ d, child' x d = child x d := heq x (by simp)
    refine .node ?_ ?_
    · rw [hx]
      exact ihl fun y hy => heq y (by simp [hy])
    · rw [hx]
      exact ihr fun y hy => heq y (by simp [hy])

/-- No node is reached twice. -/
theorem path_unique (h : Unfolds child c t) (hnd : t.inorder.Nodup) {p q : List Bool}
    (hp : follow child c p = some x) (hq : follow child c q = some x) : p = q := by
  induction h generalizing p q with
  | nil => exact absurd ⟨p, hp⟩ not_leads_none
  | @node y l r hl hr ihl ihr =>
    obtain ⟨hndl, hndr, hdisj⟩ := List.nodup_append.mp hnd
    have hyr : y ∉ r.inorder := (List.nodup_cons.mp hndr).1
    have hyl : y ∉ l.inorder := fun hy => hdisj y hy y (.head _) rfl
    -- Below `y`, a path stays in the subtree of its first side.
    have hside : ∀ {d p z}, follow child (child y d) p = some z →
        z ∈ (if d then l else r).inorder := by
      intro d p z hp
      cases d with
      | true => exact hl.mem_inorder.mpr ⟨p, hp⟩
      | false => exact hr.mem_inorder.mpr ⟨p, hp⟩
    have hbelow : ∀ {d p}, follow child (child y d) p ≠ some y := by
      intro d p hp
      have := hside hp
      cases d with
      | true => exact hyl this
      | false => exact hyr this
    cases p with
    | nil =>
      obtain rfl : y = x := Option.some.inj hp
      cases q with
      | nil => rfl
      | cons e q => exact absurd hq hbelow
    | cons d p =>
      cases q with
      | nil =>
        obtain rfl : y = x := Option.some.inj hq
        exact absurd hp hbelow
      | cons e q =>
        have hxd := hside hp
        have hxe := hside hq
        cases d <;> cases e
        · rw [ihr (List.nodup_cons.mp hndr).2 hp hq]
        · exact absurd rfl (hdisj x hxe x (.tail _ hxd))
        · exact absurd rfl (hdisj x hxd x (.tail _ hxe))
        · rw [ihl hndl hp hq]

/-- A pointer unfolds to one tree only. -/
theorem unique (h : Unfolds child c t) {t' : BinaryTree α} (h' : Unfolds child c t') : t = t' := by
  induction h generalizing t' with
  | nil =>
    cases h'
    rfl
  | node _ _ ihl ihr =>
    cases h' with
    | node hl hr => rw [ihl hl, ihr hr]

/-- What hangs from a slot of a node of the tree. -/
theorem exists_slot (h : Unfolds child c t) (hnd : t.inorder.Nodup) (hx : x ∈ t.inorder) (d : Bool) :
    ∃ s, Unfolds child (child x d) s ∧ x ∉ s.inorder ∧ s.inorder.Sublist t.inorder := by
  induction h with
  | nil => cases hx
  | @node y l r hl hr ihl ihr =>
    obtain ⟨hndl, hndr, hdisj⟩ := List.nodup_append.mp hnd
    obtain ⟨hyr, hndr⟩ := List.nodup_cons.mp hndr
    have hyl : y ∉ l.inorder := fun hy => hdisj y hy y (.head _) rfl
    have hleft : l.inorder.Sublist (BinaryTree.node y l r).inorder := List.sublist_append_left ..
    have hright : r.inorder.Sublist (BinaryTree.node y l r).inorder :=
      (List.sublist_cons_self ..).trans (List.sublist_append_right ..)
    rcases List.mem_append.mp hx with hxl | hxr
    · obtain ⟨s, hs, hxs, hsub⟩ := ihl hndl hxl
      exact ⟨s, hs, hxs, hsub.trans hleft⟩
    rcases List.mem_cons.mp hxr with rfl | hxr
    · cases d with
      | true => exact ⟨l, hl, hyl, hleft⟩
      | false => exact ⟨r, hr, hyr, hright⟩
    · obtain ⟨s, hs, hxs, hsub⟩ := ihr hndr hxr
      exact ⟨s, hs, hxs, hsub.trans hright⟩

/-- A slot of the tree that changes: what hangs from it is replaced in the in-order list. -/
theorem replace {child' : α → Bool → Option α} {s s' : BinaryTree α} (h : Unfolds child c t)
    (hnd : t.inorder.Nodup) (hx : x ∈ t.inorder) (hs : Unfolds child (child x d) s)
    (hs' : Unfolds child' (child' x d) s')
    (hframe : ∀ y ∈ t.inorder, ∀ e, ¬(y = x ∧ e = d) → child' y e = child y e) :
    ∃ t' pre post, Unfolds child' c t' ∧ t.inorder = pre ++ s.inorder ++ post ∧
      t'.inorder = pre ++ s'.inorder ++ post := by
  induction h with
  | nil => cases hx
  | @node y l r hl hr ihl ihr =>
    obtain ⟨hndl, hndr, hdisj⟩ := List.nodup_append.mp hnd
    obtain ⟨hyr, hndr⟩ := List.nodup_cons.mp hndr
    have hmeml : ∀ z ∈ l.inorder, z ∈ (BinaryTree.node y l r).inorder := fun z hz =>
      List.mem_append_left _ hz
    have hmemr : ∀ z ∈ r.inorder, z ∈ (BinaryTree.node y l r).inorder := fun z hz =>
      List.mem_append_right _ (.tail _ hz)
    -- A subtree that does not contain `x` stays as it is.
    have hstay : ∀ {u e}, Unfolds child (child y e) u → x ∉ u.inorder → ¬(y = x ∧ e = d) →
        (∀ z ∈ u.inorder, z ∈ (BinaryTree.node y l r).inorder) → Unfolds child' (child' y e) u := by
      intro u e hu hxu hye hsub
      rw [hframe y (by simp) e hye]
      exact hu.congr fun z hz e' => hframe z (hsub z hz) e' fun heq => hxu (heq.1 ▸ hz)
    by_cases hxy : y = x
    · subst hxy
      have hyl : y ∉ l.inorder := fun hy => hdisj y hy y (.head _) rfl
      cases d with
      | true =>
        obtain rfl := hl.unique hs
        exact ⟨.node y s' r, [], y :: r.inorder, .node hs' (hstay hr hyr (by simp) hmemr), rfl, rfl⟩
      | false =>
        obtain rfl := hr.unique hs
        exact ⟨.node y l s', l.inorder ++ [y], [], .node (hstay hl hyl (by simp) hmeml) hs',
          by simp, by simp⟩
    · have hside : ∀ {e}, ¬(y = x ∧ e = d) := fun heq => hxy heq.1
      have hchild : ∀ e, child' y e = child y e := fun e =>
        hframe y (by simp) e hside
      rcases List.mem_append.mp hx with hxl | hxr
      · have hxr : x ∉ r.inorder := fun hx' => hdisj x hxl x (.tail _ hx') rfl
        obtain ⟨l', pre, post, hl', heq, heq'⟩ := ihl hndl hxl fun z hz => hframe z (hmeml z hz)
        exact ⟨.node y l' r, pre, post ++ y :: r.inorder,
          .node (hchild true ▸ hl') (hstay hr hxr hside hmemr),
          by simp [heq], by simp [heq']⟩
      · have hxr : x ∈ r.inorder := (List.mem_cons.mp hxr).resolve_left fun heq => hxy heq.symm
        have hxl : x ∉ l.inorder := fun hx' => hdisj x hx' x (.tail _ hxr) rfl
        obtain ⟨r', pre, post, hr', heq, heq'⟩ := ihr hndr hxr fun z hz => hframe z (hmemr z hz)
        exact ⟨.node y l r', l.inorder ++ y :: pre, post,
          .node (hstay hl hxl hside hmeml) (hchild false ▸ hr'),
          by simp [heq], by simp [heq']⟩

end Unfolds

-- ---------------------------------------------------------------------------
-- Trees cut short
-- ---------------------------------------------------------------------------

section Prune

variable {p : α → Bool}

/-- The tree without the subtrees whose root satisfies `p`. -/
def BinaryTree.prune (p : α → Bool) : BinaryTree α → BinaryTree α
  | .nil => .nil
  | .node x l r => if p x then .nil else .node x (l.prune p) (r.prune p)

attribute [local simp] BinaryTree.prune in
@[simp] theorem BinaryTree.prune_node {l r : BinaryTree α} (h : p x = false) :
    (BinaryTree.node x l r).prune p = .node x (l.prune p) (r.prune p) := by
  simp [h]

theorem BinaryTree.numNodes_prune_le : (t.prune p).numNodes ≤ t.numNodes := by
  induction t with
  | nil => rfl
  | node x l r ihl ihr =>
    rw [BinaryTree.prune]
    split
    · exact Nat.zero_le _
    · simp only [BinaryTree.numNodes]
      omega

theorem BinaryTree.prune_sublist :
    (t.prune p).inorder.Sublist (t.inorder.filter (!p ·)) := by
  induction t with
  | nil => exact .slnil
  | node x l r ihl ihr =>
    rw [BinaryTree.prune]
    cases hp : p x with
    | true => exact List.nil_sublist _
    | false =>
      simp only [BinaryTree.inorder, List.filter_append, List.filter_cons, hp]
      exact ihl.append (ihr.cons_cons x)

theorem BinaryTree.prune_eq_self (h : ∀ x ∈ t.inorder, p x = false) : t.prune p = t := by
  induction t with
  | nil => rfl
  | node x l r ihl ihr =>
    have hl : l.prune p = l := ihl fun y hy => h y (List.mem_append_left _ hy)
    have hr : r.prune p = r := ihr fun y hy => h y (List.mem_append_right _ (.tail _ hy))
    have hx : p x = false := h x (List.mem_append_right _ (.head _))
    rw [BinaryTree.prune_node hx, hl, hr]

/-- The pointers that are followed by a reader who stops at `p`. -/
theorem Unfolds.prune (h : Unfolds child c t) :
    Unfolds (fun x d => (child x d).filter (!p ·)) (c.filter (!p ·)) (t.prune p) := by
  induction h with
  | nil => exact .nil
  | @node x l r _ _ ihl ihr =>
    rw [BinaryTree.prune, Option.filter_some]
    cases hp : p x with
    | true => exact .nil
    | false => exact .node ihl ihr

theorem follow_filter {q : List Bool} :
    follow (fun x d => (child x d).filter (!p ·)) (c.filter (!p ·)) q = some x ↔
      follow child c q = some x ∧
        ∀ q₁ q₂ y, q = q₁ ++ q₂ → follow child c q₁ = some y → p y = false := by
  induction q generalizing c with
  | nil =>
    simp only [follow, Option.filter_eq_some_iff, List.nil_eq, List.append_eq_nil_iff]
    refine and_congr_right fun hc => ⟨fun hp => ?_, fun h => by simpa using h [] [] x ⟨rfl, rfl⟩ hc⟩
    rintro _ _ y ⟨rfl, rfl⟩ hy
    cases hc.symm.trans hy
    simpa using hp
  | cons d q ih =>
    cases c with
    | none => simp [follow]
    | some z =>
      -- The first node counts as well.
      have hstep : (∀ q₁ q₂ y, d :: q = q₁ ++ q₂ → follow child (some z) q₁ = some y → p y = false) ↔
          p z = false ∧
            ∀ q₁ q₂ y, q = q₁ ++ q₂ → follow child (child z d) q₁ = some y → p y = false := by
        constructor
        · intro h
          exact ⟨h [] (d :: q) z rfl rfl, fun q₁ q₂ y hq hy => h (d :: q₁) q₂ y (by rw [hq]; rfl) hy⟩
        · rintro ⟨hz, h⟩ q₁ q₂ y hq hy
          cases q₁ with
          | nil =>
            cases hy
            exact hz
          | cons e q₁ =>
            obtain ⟨rfl, hrest⟩ := List.cons.inj hq
            exact h q₁ q₂ y hrest hy
      rw [hstep, Option.filter_some]
      cases hp : p z with
      | true => simp [follow]
      | false =>
        simp only [Bool.not_false, if_true, follow, true_and]
        exact ih

/-- A node is cut off if `p` holds for it or for a node it hangs from. -/
theorem Unfolds.mem_prune (h : Unfolds child c t) (hnd : t.inorder.Nodup) :
    x ∈ (t.prune p).inorder ↔ x ∈ t.inorder ∧ p x = false ∧
      ∀ y ∈ t.inorder, p y = true → ∀ d, ¬ Leads child (child y d) x := by
  rw [h.prune.mem_inorder, h.mem_inorder]
  constructor
  · rintro ⟨q, hq⟩
    obtain ⟨hq, hall⟩ := follow_filter.mp hq
    refine ⟨⟨q, hq⟩, hall q [] x (List.append_nil q).symm hq, fun y hy hp d ⟨q₂, hq₂⟩ => ?_⟩
    obtain ⟨q₁, hq₁⟩ := h.mem_inorder.mp hy
    have hvia : follow child c (q₁ ++ d :: q₂) = some x := by
      rw [follow_append, hq₁]
      exact hq₂
    have heq := h.path_unique hnd hq hvia
    cases hp.symm.trans (hall q₁ (d :: q₂) y heq hq₁)
  · rintro ⟨⟨q, hq⟩, hp, habove⟩
    refine ⟨q, follow_filter.mpr ⟨hq, fun q₁ q₂ y heq hy => ?_⟩⟩
    rw [heq, follow_append, hy] at hq
    cases q₂ with
    | nil =>
      cases hq
      exact hp
    | cons d q₂ =>
      by_contra hpy
      exact habove y (h.mem_inorder.mpr ⟨q₁, hy⟩) (by simpa using hpy) d ⟨q₂, hq⟩

end Prune

-- ---------------------------------------------------------------------------
-- The tree of an ancestry
-- ---------------------------------------------------------------------------

namespace Ancestry

/-- `t` is the tree of the nodes that satisfy `P`, hanging from the pointer `c`. -/
structure Spans (A : Ancestry α) (child : α → Bool → Option α) (c : Option α) (P : α → Prop)
    (t : BinaryTree α) : Prop where
  unfolds : Unfolds child c t
  mem : ∀ {y}, y ∈ t.inorder ↔ y ∈ A.nodes ∧ P y
  ordered : t.inorder.Pairwise A.Before

variable {P : α → Prop}

theorem Spans.leads_iff (h : A.Spans child c P t) : Leads child c y ↔ y ∈ A.nodes ∧ P y :=
  h.unfolds.mem_inorder.symm.trans h.mem

theorem Spans.nodup (h : A.Spans child c P t) (hA : A.Lawful) : t.inorder.Nodup := by
  apply h.ordered.imp
  rintro y _ hy rfl
  exact hA.before_irrefl hy

/-- Two subtrees and the node above them. -/
theorem Spans.node {l r : BinaryTree α} (hx : x ∈ A.nodes)
    (hl : A.Spans child (child x true) (A.Below x true) l)
    (hr : A.Spans child (child x false) (A.Below x false) r) :
    A.Spans child (some x) (fun y => y = x ∨ ∃ d, A.Below x d y) (.node x l r) where
  unfolds := .node hl.unfolds hr.unfolds
  mem := by
    intro y
    simp only [BinaryTree.inorder, List.mem_append, List.mem_cons, hl.mem, hr.mem, Bool.exists_bool]
    grind
  ordered := by
    refine List.pairwise_append.mpr ⟨hl.ordered, ?_, ?_⟩
    · refine List.pairwise_cons.mpr ⟨fun y hy => ?_, hr.ordered⟩
      exact .inr (.inl (hr.mem.mp hy).2)
    · intro y hy z hz
      have hy := (hl.mem.mp hy).2
      rcases List.mem_cons.mp hz with rfl | hz
      · exact .inl hy
      · exact .inr (.inr ⟨x, hy, (hr.mem.mp hz).2⟩)

/-- What hangs from an empty slot. -/
theorem Fits.spans_none (hF : A.Fits child) (hx : x ∈ A.nodes) (hc : child x d = none) :
    A.Spans child (child x d) (A.Below x d) .nil where
  unfolds := hc ▸ .nil
  mem := by
    intro y
    simp only [BinaryTree.inorder, List.not_mem_nil, false_iff, not_and]
    exact hF.none_sub hx hc
  ordered := .nil

/-- What hangs from a slot is the tree of the child in it. -/
theorem Spans.of_child (hF : A.Fits child) (hA : A.Lawful) (hx : x ∈ A.nodes)
    (hc : child x d = some z) (h : A.Spans child (some z) (fun y => y = z ∨ ∃ e, A.Below z e y) t) :
    A.Spans child (child x d) (A.Below x d) t where
  unfolds := hc ▸ h.unfolds
  mem := by
    intro y
    rw [h.mem]
    refine and_congr_right fun hy => ⟨?_, fun hb => hF.child_sub hx hc hy hb⟩
    have hxz := hF.child_below hx hc
    rintro (rfl | ⟨e, he⟩)
    · exact hxz
    · exact hA.trans hxz he
  ordered := h.ordered

/-- The nodes below a node form a finite tree. By induction on how many there are. -/
theorem Fits.exists_spans (hF : A.Fits child) (hA : A.Lawful) (hfin : A.nodes.Finite)
    (hx : x ∈ A.nodes) : ∃ t, A.Spans child (some x) (fun y => y = x ∨ ∃ d, A.Below x d y) t := by
  generalize hn : {y ∈ A.nodes | ∃ d, A.Below x d y}.ncard = n
  induction n using Nat.strong_induction_on generalizing x with
  | _ n ih =>
    subst hn
    have hslot : ∀ d, ∃ t, A.Spans child (child x d) (A.Below x d) t := by
      intro d
      cases hc : child x d with
      | none => exact hc ▸ ⟨.nil, hF.spans_none hx hc⟩
      | some z =>
        have hz := hF.child_mem hx hc
        have hxz := hF.child_below hx hc
        -- `z` is below `x` but not below itself.
        have hlt : {y ∈ A.nodes | ∃ e, A.Below z e y}.ncard <
            {y ∈ A.nodes | ∃ e, A.Below x e y}.ncard := by
          refine Set.ncard_lt_ncard ⟨?_, fun hsub => ?_⟩ (hfin.subset fun _ hy => hy.1)
          · rintro y ⟨hy, e, he⟩
            exact ⟨hy, d, hA.trans hxz he⟩
          · obtain ⟨_, e, he⟩ := hsub ⟨hz, d, hxz⟩
            exact hA.irrefl he
        obtain ⟨t, ht⟩ := ih _ hlt hz rfl
        exact hc ▸ ⟨t, ht.of_child hF hA hx hc⟩
    obtain ⟨l, hl⟩ := hslot true
    obtain ⟨r, hr⟩ := hslot false
    exact ⟨.node x l r, .node hx hl hr⟩

/-- The same for one side of a node. -/
theorem Fits.exists_spans_child (hF : A.Fits child) (hA : A.Lawful) (hfin : A.nodes.Finite)
    (hx : x ∈ A.nodes) (d : Bool) : ∃ t, A.Spans child (child x d) (A.Below x d) t := by
  cases hc : child x d with
  | none => exact hc ▸ ⟨.nil, hF.spans_none hx hc⟩
  | some z =>
    obtain ⟨t, ht⟩ := hF.exists_spans hA hfin (hF.child_mem hx hc)
    exact hc ▸ ⟨t, ht.of_child hF hA hx hc⟩

end Ancestry
