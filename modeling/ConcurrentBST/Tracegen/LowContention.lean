-- SUMMARY: The low contention trace lists a perfect tree, each node before those below it.
import ConcurrentBST.Library.Insertion
import ConcurrentBST.Tracegen.Program

/-!
# Low contention

The recursion of `create_lc_trace` is that of a tree: a call owns the open
interval of radius `range` around `elem`, and halves it. The halves are rounded
down, so unless `range` is a power of two some keys of the interval are left out.
-/

namespace Tracegen

open BinaryTree

variable {h e r k : Nat}

/-- The keys that are written below `e`, which has `h` levels below it. -/
def lcKeys : Nat → Nat → Nat → List Nat
  | 0, _, _ => []
  | h + 1, e, r =>
      (e - r / 2) :: (e + r / 2) :: (lcKeys h (e - r / 2) (r / 2) ++ lcKeys h (e + r / 2) (r / 2))

/-- The tree they make. -/
def lcTree : Nat → Nat → Nat → BinaryTree Nat
  | 0, e, _ => .node e .nil .nil
  | h + 1, e, r => .node e (lcTree h (e - r / 2) (r / 2)) (lcTree h (e + r / 2) (r / 2))

theorem lcTree_perfect : (lcTree h e r).Perfect (h + 1) := by
  induction h generalizing e r with
  | zero => exact .node .nil .nil
  | succ h ih => exact .node ih ih

theorem pow_le_half (hr : 2 ^ (h + 1) ≤ r) : 2 ^ h ≤ r / 2 := by
  rw [Nat.le_div_iff_mul_le Nat.two_pos]
  exact hr

theorem half_pos (hr : 2 ^ (h + 1) ≤ r) : 1 ≤ r / 2 :=
  Nat.one_le_two_pow.trans (pow_le_half hr)

/-- The keys lie in the interval. -/
theorem lcKeys_bounds (hr : 2 ^ h ≤ r) (he : r ≤ e) (hk : k ∈ lcKeys h e r) :
    e < k + r ∧ k < e + r := by
  induction h generalizing e r with
  | zero => cases hk
  | succ h ih =>
    have hpos := half_pos hr
    have hhalf := pow_le_half hr
    simp only [lcKeys, List.mem_cons, List.mem_append] at hk
    rcases hk with rfl | rfl | hk | hk
    · omega
    · omega
    · have := ih hhalf (by omega) hk
      omega
    · have := ih hhalf (by omega) hk
      omega

/-- Inserted one after the other they make the tree. By induction on the levels:
    what one call writes goes to the subtree of its key. -/
theorem insertKeys_lcKeys (hr : 2 ^ h ≤ r) (he : r ≤ e) :
    insertKeys (lcKeys h e r) (.node e .nil .nil) = some (lcTree h e r) := by
  induction h generalizing e r with
  | zero => rfl
  | succ h ih =>
    have hpos := half_pos hr
    have hhalf := pow_le_half hr
    have hleft : insertKeys ((e - r / 2) :: lcKeys h (e - r / 2) (r / 2)) .nil =
        some (lcTree h (e - r / 2) (r / 2)) := ih hhalf (by omega)
    have hright : insertKeys ((e + r / 2) :: lcKeys h (e + r / 2) (r / 2)) .nil =
        some (lcTree h (e + r / 2) (r / 2)) := ih hhalf (by omega)
    have hl : insertKeys (lcKeys h (e - r / 2) (r / 2))
        (.node e (.node (e - r / 2) .nil .nil) (.node (e + r / 2) .nil .nil)) =
          some (.node e (lcTree h (e - r / 2) (r / 2)) (.node (e + r / 2) .nil .nil)) := by
      refine insertKeys_left (fun k hk => ?_) hleft
      have := lcKeys_bounds hhalf (by omega) hk
      omega
    have hr : insertKeys (lcKeys h (e + r / 2) (r / 2))
        (.node e (lcTree h (e - r / 2) (r / 2)) (.node (e + r / 2) .nil .nil)) =
          some (lcTree (h + 1) e r) := by
      refine insertKeys_right (fun k hk => ?_) hright
      have := lcKeys_bounds hhalf (by omega) hk
      omega
    have hlt : e - r / 2 < e := by omega
    have hgt : e < e + r / 2 := by omega
    rw [lcKeys, insertKeys, insertKey_of_lt hlt, insertKey, Option.map_some, Option.bind_some,
      insertKeys, insertKey_of_gt hgt, insertKey, Option.map_some, Option.bind_some,
      insertKeys_append, hl, Option.bind_some, hr]

/-- If the range is a power of two, no key of the interval is left out. -/
theorem mem_lcKeys_pow (he : 2 ^ h ≤ e) (hlow : e < k + 2 ^ h) (hhigh : k < e + 2 ^ h) :
    k ∈ e :: lcKeys h e (2 ^ h) := by
  induction h generalizing e with
  | zero =>
    obtain rfl : k = e := by omega
    exact .head _
  | succ h ih =>
    have hhalf : 2 ^ (h + 1) / 2 = 2 ^ h := by omega
    have hpow : 2 ^ (h + 1) = 2 ^ h + 2 ^ h := by omega
    simp only [lcKeys, hhalf, List.mem_cons, List.mem_append]
    rcases Nat.lt_trichotomy k e with hlt | rfl | hgt
    · have := ih (e := e - 2 ^ h) (by omega) (by omega) (by omega)
      simp only [List.mem_cons] at this
      tauto
    · exact .inl rfl
    · have := ih (e := e + 2 ^ h) (by omega) (by omega) (by omega)
      simp only [List.mem_cons] at this
      tauto

/-- Otherwise the smallest key of the interval is left out. -/
theorem lcKeys_lower (hr : 2 ^ h < r) (hr' : r < 2 ^ (h + 1)) (he : r ≤ e)
    (hk : k ∈ e :: lcKeys h e r) : e + 2 ≤ k + r := by
  induction h generalizing e r k with
  | zero => omega
  | succ h ih =>
    have hpow : 2 ^ (h + 1) = 2 ^ h + 2 ^ h := by omega
    have hpow' : 2 ^ (h + 1 + 1) = 2 ^ (h + 1) + 2 ^ (h + 1) := by omega
    have hpos := Nat.two_pow_pos h
    have hleft : ∀ {k}, k ∈ (e - r / 2) :: lcKeys h (e - r / 2) (r / 2) → e + 2 ≤ k + r := by
      intro k hk
      by_cases hhalf : 2 ^ h < r / 2
      · have := ih hhalf (by omega) (by omega) hk
        omega
      · -- The half is a power of two, and `r` is odd.
        rcases List.mem_cons.mp hk with rfl | hk
        · omega
        · have := lcKeys_bounds (pow_le_half hr.le) (by omega) hk
          omega
    have hright : ∀ {k}, k ∈ lcKeys h (e + r / 2) (r / 2) → e + 2 ≤ k + r := by
      intro k hk
      have := lcKeys_bounds (pow_le_half hr.le) (by omega) hk
      omega
    simp only [lcKeys, List.mem_cons, List.mem_append] at hk
    rcases hk with rfl | rfl | rfl | hk | hk
    · omega
    · exact hleft (.head _)
    · omega
    · exact hleft (.tail _ hk)
    · exact hright hk

-- ---------------------------------------------------------------------------
-- The recursion on machine words
-- ---------------------------------------------------------------------------

theorem toNat_half {a : UInt64} : (a / 2).toNat = a.toNat / 2 := UInt64.toNat_div ..

/-- Nothing wraps around. -/
theorem createLcTrace_eq {fuel : Nat} {elem range : UInt64} (hr : 2 ^ h ≤ range.toNat)
    (hr' : range.toNat < 2 ^ (h + 1)) (he : range.toNat ≤ elem.toNat)
    (hsum : elem.toNat + range.toNat < 2 ^ 64) (hfuel : h < fuel) :
    createLcTrace fuel elem range =
      some (linesOf .insert ((lcKeys h elem.toNat range.toNat).map .ofNat)) := by
  induction fuel generalizing h elem range with
  | zero => omega
  | succ fuel ih =>
    cases h with
    | zero =>
      have hone : range = 1 := UInt64.toNat_inj.mp (show range.toNat = 1 by omega)
      rw [createLcTrace, if_pos hone]
      rfl
    | succ h =>
      have hpow : 2 ^ (h + 1 + 1) = 2 ^ (h + 1) + 2 ^ (h + 1) := by omega
      have hone : range ≠ 1 := by
        rintro rfl
        have : 2 ^ (h + 1) ≤ 1 := hr
        have := Nat.two_pow_pos h
        omega
      have hsub : (elem - range / 2).toNat = elem.toNat - range.toNat / 2 := by
        have hle : range / 2 ≤ elem := by
          rw [UInt64.le_iff_toNat_le, toNat_half]
          omega
        rw [UInt64.toNat_sub_of_le _ _ hle, toNat_half]
      have hadd : (elem + range / 2).toNat = elem.toNat + range.toNat / 2 := by
        rw [UInt64.toNat_add, toNat_half]
        exact Nat.mod_eq_of_lt (by omega)
      have hhalf := pow_le_half hr
      have hleft : createLcTrace fuel (elem - range / 2) (range / 2) = _ :=
        ih (h := h) (by rw [toNat_half]; exact hhalf) (by rw [toNat_half]; omega)
          (by rw [hsub, toNat_half]; omega) (by rw [hsub, toNat_half]; omega) (by omega)
      have hright : createLcTrace fuel (elem + range / 2) (range / 2) = _ :=
        ih (h := h) (by rw [toNat_half]; exact hhalf) (by rw [toNat_half]; omega)
          (by rw [hadd, toNat_half]; omega) (by rw [hadd, toNat_half]; omega) (by omega)
      rw [createLcTrace, if_neg hone, hleft, hright, hsub, hadd, toNat_half]
      have hfirst : UInt64.ofNat (elem.toNat - range.toNat / 2) = elem - range / 2 := by
        rw [← hsub, UInt64.ofNat_toNat]
      have hsecond : UInt64.ofNat (elem.toNat + range.toNat / 2) = elem + range / 2 := by
        rw [← hadd, UInt64.ofNat_toNat]
      simp [lcKeys, linesOf, hfirst, hsecond]

/-- The recursion does not stop at range 0. -/
theorem createLcTrace_zero (fuel : Nat) (elem : UInt64) : createLcTrace fuel elem 0 = none := by
  induction fuel generalizing elem with
  | zero => rfl
  | succ fuel ih =>
    have hzero : (0 : UInt64) / 2 = 0 := rfl
    rw [createLcTrace, if_neg (by decide), hzero, ih]
    rfl

end Tracegen
