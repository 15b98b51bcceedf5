-- SUMMARY: The counts for which the generator writes a well formed trace.
import ConcurrentBST.Tracegen.LowContention

/-!
# Well formed traces

A trace is well formed if it inserts no key that is present, and searches for and
deletes only keys that are.
-/

namespace Tracegen

open BinaryTree

variable {S : Finset UInt64} {keys searched deleted : List UInt64} {lines : List Line} {op : Op}
  {k numInserts numDeletes numSearches : UInt64} {type : TraceType} {h : Nat}

/-- The trace is well formed where the keys of `S` are present. -/
def WellFormed : Finset UInt64 → List Line → Prop
  | _, [] => True
  | S, ⟨.insert, k⟩ :: lines => k ∉ S ∧ WellFormed (Insert.insert k S) lines
  | S, ⟨.search, k⟩ :: lines => k ∈ S ∧ WellFormed S lines
  | S, ⟨.delete, k⟩ :: lines => k ∈ S ∧ WellFormed (S.erase k) lines

instance decidableWellFormed : ∀ S lines, Decidable (WellFormed S lines)
  | _, [] => inferInstanceAs (Decidable True)
  | S, ⟨.insert, k⟩ :: lines =>
      have := decidableWellFormed (Insert.insert k S) lines
      inferInstanceAs (Decidable (k ∉ S ∧ _))
  | S, ⟨.search, k⟩ :: lines =>
      have := decidableWellFormed S lines
      inferInstanceAs (Decidable (k ∈ S ∧ _))
  | S, ⟨.delete, k⟩ :: lines =>
      have := decidableWellFormed (S.erase k) lines
      inferInstanceAs (Decidable (k ∈ S ∧ _))

/-- The generator comes to an end and has written a well formed trace. -/
def WritesWellFormed (numInserts numDeletes numSearches : UInt64) (type : TraceType) : Prop :=
  ∃ lines, Writes numInserts numDeletes numSearches type lines ∧ WellFormed ∅ lines

/-- The counts for which it does. -/
def Fits (numInserts numDeletes numSearches : UInt64) : TraceType → Prop
  | .sequential => numInserts.toNat < 2 ^ 64 - 1
  | .mixed => numInserts.toNat ≤ 2 ^ 64 - 4
  | .lowContention => numInserts = 0 ∨ 2 ≤ numInserts.toNat ∧
      (numSearches.toNat ≤ 1 ∧ numDeletes.toNat ≤ 1 ∨ ∃ h, numInserts.toNat = 2 ^ h ∨
        numInserts.toNat = 2 ^ h + 1 ∧ numSearches.toNat ≤ 2 ^ h ∧ numDeletes.toNat ≤ 2 ^ h)

-- ---------------------------------------------------------------------------
-- Lines of one operation
-- ---------------------------------------------------------------------------

theorem wellFormed_inserts : WellFormed S (linesOf .insert keys ++ lines) ↔
    keys.Nodup ∧ (∀ k ∈ keys, k ∉ S) ∧ WellFormed (S ∪ keys.toFinset) lines := by
  induction keys generalizing S with
  | nil => simp [linesOf]
  | cons k keys ih =>
    have hset : Insert.insert k S ∪ keys.toFinset = S ∪ (k :: keys).toFinset := by
      rw [List.toFinset_cons, Finset.insert_union, Finset.union_insert]
    have hstep : WellFormed S (linesOf .insert (k :: keys) ++ lines) ↔
        k ∉ S ∧ WellFormed (Insert.insert k S) (linesOf .insert keys ++ lines) := Iff.rfl
    rw [hstep, ih, hset, List.nodup_cons]
    simp only [Finset.mem_insert, not_or, List.forall_mem_cons]
    constructor
    · rintro ⟨hk, hnd, hnew, hrest⟩
      exact ⟨⟨fun hmem => (hnew k hmem).1 rfl, hnd⟩, ⟨hk, fun j hj => (hnew j hj).2⟩, hrest⟩
    · rintro ⟨⟨hk, hnd⟩, ⟨hkS, hnew⟩, hrest⟩
      exact ⟨hkS, hnd, fun j hj => ⟨fun heq => hk (heq ▸ hj), hnew j hj⟩, hrest⟩

theorem wellFormed_searches : WellFormed S (linesOf .search keys ++ lines) ↔
    (∀ k ∈ keys, k ∈ S) ∧ WellFormed S lines := by
  induction keys with
  | nil => simp [linesOf]
  | cons k keys ih =>
    have hstep : WellFormed S (linesOf .search (k :: keys) ++ lines) ↔
        k ∈ S ∧ WellFormed S (linesOf .search keys ++ lines) := Iff.rfl
    rw [hstep, ih, List.forall_mem_cons, and_assoc]

theorem wellFormed_deletes : WellFormed S (linesOf .delete keys ++ lines) ↔
    keys.Nodup ∧ (∀ k ∈ keys, k ∈ S) ∧ WellFormed (S \ keys.toFinset) lines := by
  induction keys generalizing S with
  | nil => simp [linesOf]
  | cons k keys ih =>
    have hset : S.erase k \ keys.toFinset = S \ (k :: keys).toFinset := by
      ext j
      simp only [Finset.mem_sdiff, Finset.mem_erase, List.mem_toFinset, List.mem_cons]
      tauto
    have hstep : WellFormed S (linesOf .delete (k :: keys) ++ lines) ↔
        k ∈ S ∧ WellFormed (S.erase k) (linesOf .delete keys ++ lines) := Iff.rfl
    rw [hstep, ih, hset, List.nodup_cons]
    simp only [Finset.mem_erase, List.forall_mem_cons]
    constructor
    · rintro ⟨hk, hnd, hold, hrest⟩
      exact ⟨⟨fun hmem => (hold k hmem).1 rfl, hnd⟩, ⟨hk, fun j hj => (hold j hj).2⟩, hrest⟩
    · rintro ⟨⟨hk, hnd⟩, ⟨hkS, hold⟩, hrest⟩
      exact ⟨hkS, hnd, fun j hj => ⟨fun heq => hk (heq ▸ hj), hold j hj⟩, hrest⟩

/-- First all inserts, then all searches, then all deletes. -/
theorem wellFormed_phases :
    WellFormed ∅ (linesOf .insert keys ++ linesOf .search searched ++ linesOf .delete deleted ++ lines) ↔
      keys.Nodup ∧ (∀ k ∈ searched, k ∈ keys) ∧ deleted.Nodup ∧ (∀ k ∈ deleted, k ∈ keys) ∧
        WellFormed (keys.toFinset \ deleted.toFinset) lines := by
  rw [List.append_assoc, List.append_assoc, wellFormed_inserts, wellFormed_searches,
    wellFormed_deletes]
  simp

/-- The same without further lines. -/
theorem wellFormed_three :
    WellFormed ∅ (linesOf .insert keys ++ linesOf .search searched ++ linesOf .delete deleted) ↔
      keys.Nodup ∧ (∀ k ∈ searched, k ∈ keys) ∧ deleted.Nodup ∧ ∀ k ∈ deleted, k ∈ keys := by
  have hphases : WellFormed ∅ (linesOf .insert keys ++ linesOf .search searched ++
    linesOf .delete deleted ++ []) ↔ _ := wellFormed_phases
  rw [List.append_nil] at hphases
  simpa [WellFormed] using hphases

-- ---------------------------------------------------------------------------
-- Sequential traces
-- ---------------------------------------------------------------------------

/-- The keys of a loop that counts to `num`. -/
def keysUpTo (offset : UInt64) (num : Nat) : List UInt64 :=
  (List.range' 1 num).map fun i => offset + .ofNat i

theorem countUp_one {offset num : UInt64} {fuel : Nat} (hnum : num.toNat + 1 < 2 ^ 64)
    (hfuel : num.toNat < fuel) :
    countUp op offset num fuel 1 = some (linesOf op (keysUpTo offset num.toNat)) := by
  have hone : (1 : UInt64).toNat = 1 := rfl
  rw [countUp_eq hnum (by omega) (by omega), hone, Nat.add_sub_cancel]
  rfl

theorem nodup_keysUpTo {offset : UInt64} {num : Nat} (hnum : num < 2 ^ 64) :
    (keysUpTo offset num).Nodup := by
  refine List.Nodup.map_on (fun i hi j hj heq => ?_) List.nodup_range'
  rw [List.mem_range'_1] at hi hj
  have heq : (UInt64.ofNat i).toNat = (UInt64.ofNat j).toNat := by rw [(UInt64.add_right_inj offset).mp heq]
  rwa [UInt64.toNat_ofNat_of_lt' (show i < 2 ^ 64 by omega),
    UInt64.toNat_ofNat_of_lt' (show j < 2 ^ 64 by omega)] at heq

theorem mem_keysUpTo {num : Nat} (hnum : num < 2 ^ 64) :
    k ∈ keysUpTo 0 num ↔ 1 ≤ k.toNat ∧ k.toNat ≤ num := by
  simp only [keysUpTo, List.mem_map, List.mem_range'_1, UInt64.zero_add]
  constructor
  · rintro ⟨i, hi, rfl⟩
    rw [UInt64.toNat_ofNat_of_lt' (show i < 2 ^ 64 by omega)]
    omega
  · rintro ⟨hlow, hhigh⟩
    exact ⟨k.toNat, by omega, UInt64.ofNat_toNat⟩

theorem sequential_iff (hS : numSearches ≤ numInserts) (hD : numDeletes ≤ numInserts) :
    WritesWellFormed numInserts numDeletes numSearches .sequential ↔
      Fits numInserts numDeletes numSearches .sequential := by
  have hI := numInserts.toNat_lt
  rw [UInt64.le_iff_toNat_le] at hS hD
  constructor
  · rintro ⟨lines, ⟨fuel, hwrites⟩, _⟩
    by_contra hfits
    have hmax : numInserts.toNat + 1 = 2 ^ 64 := by
      simp only [Fits] at hfits
      omega
    have := hwrites 0
    rw [generateTraceFile, countUp_forever hmax] at this
    cases this
  · intro hfits
    have hfits : numInserts.toNat < 2 ^ 64 - 1 := hfits
    refine ⟨linesOf .insert (keysUpTo 0 numInserts.toNat) ++
      linesOf .search (keysUpTo 0 numSearches.toNat) ++ linesOf .delete (keysUpTo 0 numDeletes.toNat),
      ⟨numInserts.toNat + 1, fun more => ?_⟩, wellFormed_three.mpr
      ⟨nodup_keysUpTo hI, fun k hk => ?_, nodup_keysUpTo numDeletes.toNat_lt, fun k hk => ?_⟩⟩
    · rw [generateTraceFile, countUp_one (by omega) (by omega), countUp_one (by omega) (by omega),
        countUp_one (by omega) (by omega)]
      rfl
    · rw [mem_keysUpTo numSearches.toNat_lt] at hk
      rw [mem_keysUpTo hI]
      omega
    · rw [mem_keysUpTo numDeletes.toNat_lt] at hk
      rw [mem_keysUpTo hI]
      omega

-- ---------------------------------------------------------------------------
-- Low contention traces
-- ---------------------------------------------------------------------------

/-- From both ends every key is written once. By induction on the length of the interval. -/
theorem fromBothEnds_eq (start stop : UInt64) (hstart : 1 ≤ start.toNat)
    (hstop : stop.toNat + 1 < 2 ^ 64) :
    ∃ keys : List UInt64, keys.Nodup ∧ (∀ k, k ∈ keys ↔ start ≤ k ∧ k ≤ stop) ∧
      ∀ op fuel, stop.toNat + 1 - start.toNat < fuel →
        fromBothEnds op fuel start stop = some (linesOf op keys) := by
  generalize hn : stop.toNat + 1 - start.toNat = n
  induction n using Nat.strong_induction_on generalizing start stop with
  | _ n ih =>
    subst hn
    by_cases hle : start ≤ stop
    swap
    · refine ⟨[], .nil, fun k => ?_, fun op fuel hfuel => ?_⟩
      · simp only [List.not_mem_nil, false_iff]
        exact fun hk => hle (UInt64.le_trans hk.1 hk.2)
      · obtain ⟨fuel, rfl⟩ := Nat.exists_eq_succ_of_ne_zero (Nat.ne_zero_of_lt hfuel)
        rw [fromBothEnds, if_neg hle]
        rfl
    have hle' : start.toNat ≤ stop.toNat := UInt64.le_iff_toNat_le.mp hle
    have hsucc : (start + 1).toNat = start.toNat + 1 := by
      rw [UInt64.toNat_add]
      exact Nat.mod_eq_of_lt (show start.toNat + 1 < 2 ^ 64 by omega)
    have hpred : (stop - 1).toNat = stop.toNat - 1 := by
      rw [UInt64.toNat_sub_of_le]
      · rfl
      · rw [UInt64.le_iff_toNat_le]
        exact hstart.trans hle'
    obtain ⟨keys, hnd, hmem, hrun⟩ := ih _ (by omega) (start + 1) (stop - 1) (by omega) (by omega) rfl
    simp only [UInt64.le_iff_toNat_le, hsucc, hpred] at hmem
    have hout : ∀ k ∈ keys, k.toNat ≠ start.toNat ∧ k.toNat ≠ stop.toNat := by
      intro k hk
      have := (hmem k).mp hk
      omega
    have hnstart : start ∉ keys := fun hk => (hout _ hk).1 rfl
    have hnstop : stop ∉ keys := fun hk => (hout _ hk).2 rfl
    by_cases heq : start = stop
    · refine ⟨start :: keys, List.nodup_cons.mpr ⟨hnstart, hnd⟩, fun k => ?_, fun op fuel hfuel => ?_⟩
      · rw [List.mem_cons, hmem, UInt64.le_iff_toNat_le, UInt64.le_iff_toNat_le, ← UInt64.toNat_inj]
        rw [← UInt64.toNat_inj] at heq
        omega
      · obtain ⟨fuel, rfl⟩ := Nat.exists_eq_succ_of_ne_zero (Nat.ne_zero_of_lt hfuel)
        rw [fromBothEnds, if_pos hle, hrun op fuel (by omega)]
        simp [heq, linesOf]
    · refine ⟨start :: stop :: keys, ?_, fun k => ?_, fun op fuel hfuel => ?_⟩
      · refine List.nodup_cons.mpr ⟨?_, List.nodup_cons.mpr ⟨hnstop, hnd⟩⟩
        rw [List.mem_cons, not_or]
        exact ⟨heq, hnstart⟩
      · rw [List.mem_cons, List.mem_cons, hmem, UInt64.le_iff_toNat_le, UInt64.le_iff_toNat_le,
          ← UInt64.toNat_inj, ← UInt64.toNat_inj]
        omega
      · obtain ⟨fuel, rfl⟩ := Nat.exists_eq_succ_of_ne_zero (Nat.ne_zero_of_lt hfuel)
        rw [fromBothEnds, if_pos hle, hrun op fuel (by omega)]
        simp [heq, linesOf]

/-- The searches and deletes name the keys below their number. -/
theorem lcOthers_eq (num : UInt64) :
    ∃ keys : List UInt64, keys.Nodup ∧ (∀ k, k ∈ keys ↔ 1 ≤ k.toNat ∧ k.toNat < num.toNat) ∧
      ∀ op fuel, num.toNat < fuel → lcOthers op fuel num = some (linesOf op keys) := by
  have hlt := num.toNat_lt
  by_cases h0 : num = 0
  · subst h0
    refine ⟨[], .nil, fun k => ?_, fun op fuel _ => rfl⟩
    simp
  have hpos : 1 ≤ num.toNat := by
    rw [← UInt64.toNat_inj] at h0
    exact Nat.one_le_iff_ne_zero.mpr h0
  have hpred : (num - 1).toNat = num.toNat - 1 := UInt64.toNat_sub_of_le _ _
    (UInt64.le_iff_toNat_le.mpr hpos)
  have hone : (1 : UInt64).toNat = 1 := rfl
  obtain ⟨keys, hnd, hmem, hrun⟩ := fromBothEnds_eq 1 (num - 1) le_rfl (by omega)
  refine ⟨keys, hnd, fun k => ?_, fun op fuel hfuel => ?_⟩
  · rw [hmem, UInt64.le_iff_toNat_le, UInt64.le_iff_toNat_le, hpred, hone]
    omega
  · rw [lcOthers, if_pos h0]
    exact hrun op fuel (by omega)

/-- The keys that a low contention trace inserts. -/
def lcAll (h n : Nat) : List Nat :=
  (n / 2) :: lcKeys h (n / 2) (n / 2)

theorem lcInserts_eq {fuel : Nat} (hn : 2 ^ (h + 1) ≤ numInserts.toNat)
    (hn' : numInserts.toNat < 2 ^ (h + 1 + 1)) (hfuel : h < fuel) :
    lcInserts fuel numInserts = some (linesOf .insert ((lcAll h numInserts.toNat).map .ofNat)) := by
  have hpow : 2 ^ (h + 1 + 1) = 2 ^ (h + 1) + 2 ^ (h + 1) := by omega
  have hlt := numInserts.toNat_lt
  have h0 : numInserts ≠ 0 := by
    rintro rfl
    exact absurd (Nat.two_pow_pos (h + 1)) (Nat.not_lt.mpr hn)
  have hrun : createLcTrace fuel (numInserts / 2) (numInserts / 2) = _ :=
    createLcTrace_eq (h := h) (by rw [toNat_half]; exact pow_le_half hn) (by rw [toNat_half]; omega)
      le_rfl (by rw [toNat_half]; omega) hfuel
  have hfirst : UInt64.ofNat (numInserts.toNat / 2) = numInserts / 2 := by
    rw [← toNat_half, UInt64.ofNat_toNat]
  rw [lcInserts, if_pos h0, hrun, toNat_half]
  simp [lcAll, linesOf, hfirst]

theorem insertKeys_lcAll {n : Nat} (hn : 2 ^ (h + 1) ≤ n) :
    insertKeys (lcAll h n) .nil = some (lcTree h (n / 2) (n / 2)) := by
  rw [lcAll, insertKeys, insertKey, Option.bind_some]
  exact insertKeys_lcKeys (pow_le_half hn) le_rfl

theorem lcAll_bounds {n i : Nat} (hn : 2 ^ (h + 1) ≤ n) (hi : i ∈ lcAll h n) : 1 ≤ i ∧ i < n := by
  have hpos := half_pos hn
  rcases List.mem_cons.mp hi with rfl | hi
  · omega
  · have := lcKeys_bounds (pow_le_half hn) le_rfl hi
    omega

theorem lcAll_nodup {n : Nat} (hn : 2 ^ (h + 1) ≤ n) : (lcAll h n).Nodup :=
  (insertKeys_sorted .nil (insertKeys_lcAll hn)).1

/-- All keys below `m` are written only if `n` is a power of two, or one more. -/
theorem lcAll_covers {n m : Nat} (hn : 2 ^ (h + 1) ≤ n) (hn' : n < 2 ^ (h + 1 + 1)) (hm : m ≤ n) :
    (∀ i, 1 ≤ i → i < m → i ∈ lcAll h n) ↔
      m ≤ 1 ∨ n = 2 ^ (h + 1) ∨ n = 2 ^ (h + 1) + 1 ∧ m ≤ 2 ^ (h + 1) := by
  have hpow : 2 ^ (h + 1 + 1) = 2 ^ (h + 1) + 2 ^ (h + 1) := by omega
  have hpow' : 2 ^ (h + 1) = 2 ^ h + 2 ^ h := by omega
  have hhalf := pow_le_half hn
  constructor
  · intro hall
    by_contra hno
    have h1 := hall 1 le_rfl (by omega)
    by_cases hr : n / 2 = 2 ^ h
    · -- `n` is one more than a power of two, and the greatest key is too great.
      have hlast := hall (2 ^ (h + 1)) (by omega) (by omega)
      rcases List.mem_cons.mp hlast with heq | hmem
      · omega
      · have := lcKeys_bounds hhalf le_rfl hmem
        omega
    · have := lcKeys_lower (by omega) (by omega) le_rfl h1
      omega
  · rintro (hm1 | hpos) i hi him
    · omega
    · have hr : n / 2 = 2 ^ h := by omega
      rw [lcAll, hr]
      exact mem_lcKeys_pow le_rfl (by omega) (by omega)

theorem exists_level {n : Nat} (hn : 2 ≤ n) : ∃ h, 2 ^ (h + 1) ≤ n ∧ n < 2 ^ (h + 1 + 1) := by
  have hlog : Nat.log2 n ≠ 0 := by
    rw [Ne, Nat.log2_eq_iff (by omega)]
    omega
  obtain ⟨h, hh⟩ := Nat.exists_eq_succ_of_ne_zero hlog
  exact ⟨h, (Nat.log2_eq_iff (by omega)).mp hh⟩

/-- The words of numbers below a word are as different as the numbers. -/
theorem mem_map_ofNat {is : List Nat} (his : ∀ i ∈ is, i < 2 ^ 64) :
    k ∈ is.map UInt64.ofNat ↔ k.toNat ∈ is := by
  rw [List.mem_map]
  constructor
  · rintro ⟨i, hi, rfl⟩
    rwa [UInt64.toNat_ofNat_of_lt' (his i hi)]
  · exact fun hk => ⟨_, hk, UInt64.ofNat_toNat⟩

theorem nodup_map_ofNat {is : List Nat} (his : ∀ i ∈ is, i < 2 ^ 64) (hnd : is.Nodup) :
    (is.map UInt64.ofNat).Nodup := by
  refine List.Nodup.map_on (fun i hi j hj heq => ?_) hnd
  have heq : (UInt64.ofNat i).toNat = (UInt64.ofNat j).toNat := by rw [heq]
  rwa [UInt64.toNat_ofNat_of_lt' (his i hi), UInt64.toNat_ofNat_of_lt' (his j hj)] at heq

/-- What is written for low contention: the keys of the tree, and then the keys below each number. -/
theorem lowContention_eq (hn : 2 ^ (h + 1) ≤ numInserts.toNat)
    (hn' : numInserts.toNat < 2 ^ (h + 1 + 1)) (numDeletes numSearches : UInt64) :
    ∃ searched deleted : List UInt64, deleted.Nodup ∧
      (∀ k, k ∈ searched ↔ 1 ≤ k.toNat ∧ k.toNat < numSearches.toNat) ∧
      (∀ k, k ∈ deleted ↔ 1 ≤ k.toNat ∧ k.toNat < numDeletes.toNat) ∧
      ∀ fuel, numInserts.toNat + numSearches.toNat + numDeletes.toNat < fuel →
        generateTraceFile fuel numInserts numDeletes numSearches .lowContention =
          some (linesOf .insert ((lcAll h numInserts.toNat).map .ofNat) ++
            linesOf .search searched ++ linesOf .delete deleted) := by
  have hh : h < numInserts.toNat := by
    have hle : h + 1 < 2 ^ (h + 1) := Nat.lt_two_pow_self
    omega
  obtain ⟨searched, _, hsearched, hsearch⟩ := lcOthers_eq numSearches
  obtain ⟨deleted, hnd, hdeleted, hdelete⟩ := lcOthers_eq numDeletes
  refine ⟨searched, deleted, hnd, hsearched, hdeleted, fun fuel hfuel => ?_⟩
  rw [generateTraceFile, lcInserts_eq hn hn' (by omega), hsearch _ _ (by omega),
    hdelete _ _ (by omega)]
  rfl

/-- What a low contention trace is well formed by: its searches and deletes name inserted keys. -/
theorem lowContention_covers (hn : 2 ^ (h + 1) ≤ numInserts.toNat)
    (hn' : numInserts.toNat < 2 ^ (h + 1 + 1)) :
    WritesWellFormed numInserts numDeletes numSearches .lowContention ↔
      (∀ i, 1 ≤ i → i < numSearches.toNat → i ∈ lcAll h numInserts.toNat) ∧
        ∀ i, 1 ≤ i → i < numDeletes.toNat → i ∈ lcAll h numInserts.toNat := by
  have hlt := numInserts.toNat_lt
  have hsmall : ∀ i ∈ lcAll h numInserts.toNat, i < 2 ^ 64 := fun i hi =>
    (lcAll_bounds hn hi).2.trans hlt
  obtain ⟨searched, deleted, hnd, hsearched, hdeleted, hrun⟩ :=
    lowContention_eq hn hn' numDeletes numSearches
  -- The keys below a number, as words and as numbers.
  have hcover : ∀ {num : UInt64} {keys : List UInt64},
      (∀ k, k ∈ keys ↔ 1 ≤ k.toNat ∧ k.toNat < num.toNat) →
      ((∀ k ∈ keys, k ∈ (lcAll h numInserts.toNat).map UInt64.ofNat) ↔
        ∀ i, 1 ≤ i → i < num.toNat → i ∈ lcAll h numInserts.toNat) := by
    intro num keys hkeys
    constructor
    · intro hall i h1 hi
      have hi' : (UInt64.ofNat i).toNat = i := UInt64.toNat_ofNat_of_lt' (hi.trans num.toNat_lt)
      have hmem := hall (.ofNat i) ((hkeys _).mpr (by rw [hi']; exact ⟨h1, hi⟩))
      rwa [mem_map_ofNat hsmall, hi'] at hmem
    · intro hall k hk
      obtain ⟨h1, hk⟩ := (hkeys k).mp hk
      exact (mem_map_ofNat hsmall).mpr (hall _ h1 hk)
  rw [← hcover hsearched, ← hcover hdeleted]
  constructor
  · rintro ⟨lines, ⟨fuel, hwrites⟩, hwf⟩
    have heq := (hwrites (numInserts.toNat + numSearches.toNat + numDeletes.toNat + 1)).symm.trans
      (hrun _ (by omega))
    rw [Option.some.inj heq, wellFormed_three] at hwf
    exact ⟨hwf.2.1, hwf.2.2.2⟩
  · rintro ⟨hsearched, hdeleted⟩
    refine ⟨_, ⟨_, fun more => hrun _ (Nat.lt_of_lt_of_le (Nat.lt_succ_self _) (Nat.le_add_right _ more))⟩,
      wellFormed_three.mpr ⟨nodup_map_ofNat hsmall (lcAll_nodup hn), hsearched, hnd, hdeleted⟩⟩

theorem lowContention_iff (hS : numSearches ≤ numInserts) (hD : numDeletes ≤ numInserts) :
    WritesWellFormed numInserts numDeletes numSearches .lowContention ↔
      Fits numInserts numDeletes numSearches .lowContention := by
  rw [UInt64.le_iff_toNat_le] at hS hD
  by_cases h0 : numInserts = 0
  · subst h0
    have hS0 : numSearches = 0 := UInt64.toNat_inj.mp (Nat.le_zero.mp hS)
    have hD0 : numDeletes = 0 := UInt64.toNat_inj.mp (Nat.le_zero.mp hD)
    subst hS0 hD0
    exact iff_of_true ⟨[], ⟨0, fun _ => rfl⟩, trivial⟩ (.inl rfl)
  have hpos : numInserts.toNat ≠ 0 := fun heq => h0 (UInt64.toNat_inj.mp heq)
  by_cases h1 : numInserts.toNat = 1
  · refine iff_of_false ?_ ?_
    · rintro ⟨lines, ⟨fuel, hwrites⟩, _⟩
      have hhalf : numInserts / 2 = 0 := UInt64.toNat_inj.mp (by rw [toNat_half, h1]; rfl)
      have := hwrites 0
      rw [generateTraceFile, lcInserts, if_pos h0, hhalf, createLcTrace_zero] at this
      cases this
    · rintro (heq | ⟨hge, _⟩)
      · exact h0 heq
      · omega
  obtain ⟨h, hn, hn'⟩ := exists_level (show 2 ≤ numInserts.toNat by omega)
  rw [lowContention_covers hn hn', lcAll_covers hn hn' hS, lcAll_covers hn hn' hD]
  have hpow : 2 ^ (h + 1 + 1) = 2 ^ (h + 1) + 2 ^ (h + 1) := by omega
  constructor
  · intro hboth
    refine .inr ⟨by omega, ?_⟩
    by_cases hsmall : numSearches.toNat ≤ 1 ∧ numDeletes.toNat ≤ 1
    · exact .inl hsmall
    · refine .inr ⟨h + 1, ?_⟩
      omega
  · rintro (heq | ⟨_, hsmall | ⟨j, hj⟩⟩)
    · exact absurd heq h0
    · exact ⟨.inl hsmall.1, .inl hsmall.2⟩
    · -- Only one power of two is near.
      have hle : j ≤ h + 1 := by
        have hlt : 2 ^ j < 2 ^ (h + 1 + 1) := by omega
        exact Nat.lt_succ_iff.mp ((Nat.pow_lt_pow_iff_right Nat.one_lt_two).mp hlt)
      rcases Nat.lt_or_eq_of_le hle with hlt | rfl
      · have hle : 2 ^ j ≤ 2 ^ h := Nat.pow_le_pow_right Nat.two_pos (Nat.lt_succ_iff.mp hlt)
        have hpow' : 2 ^ (h + 1) = 2 ^ h + 2 ^ h := by omega
        have := Nat.two_pow_pos j
        omega
      · omega

-- ---------------------------------------------------------------------------
-- Mixed traces
-- ---------------------------------------------------------------------------

/-- What is written before the counter goes on. -/
def mixedStep (completed : UInt64) : List Line :=
  linesOf .insert (keysUpTo completed 500) ++ linesOf .search (keysUpTo completed 500) ++
    linesOf .delete (keysUpTo completed 500)

theorem mixedFrom_step {fuel : Nat} {completed : UInt64} (hlt : completed < numInserts)
    (hfuel : 500 < fuel)
    (hrest : mixedFrom numInserts fuel (completed + mixedWorkloadStep) = some lines) :
    mixedFrom numInserts (fuel + 1) completed = some (mixedStep completed ++ lines) := by
  have hblock : ∀ op, countUp op completed mixedWorkloadStep fuel 1 =
      some (linesOf op (keysUpTo completed 500)) := fun op => countUp_one (by decide) hfuel
  rw [mixedFrom, if_pos hlt, hblock, hblock, hblock, hrest]
  rfl

/-- Each step begins and ends without keys. -/
theorem wellFormed_mixedStep {completed : UInt64} (hwf : WellFormed ∅ lines) :
    WellFormed ∅ (mixedStep completed ++ lines) := by
  have hnd : (keysUpTo completed 500).Nodup := nodup_keysUpTo (by decide)
  rw [mixedStep, wellFormed_phases, Finset.sdiff_self]
  exact ⟨hnd, fun k hk => hk, hnd, fun k hk => hk, hwf⟩

/-- After this many steps the counter is the greatest multiple of 4. -/
def mixedLast : Nat := 2545650682171918123

theorem mixedLast_eq : (UInt64.ofNat (500 * mixedLast)).toNat = 2 ^ 64 - 4 := by decide +kernel

/-- The counter may wrap around, but stops at the greatest multiple of 4 at the latest. -/
theorem mixedFrom_terminates (hI : numInserts.toNat ≤ 2 ^ 64 - 4) {d j : Nat}
    (hj : j + d = mixedLast) : ∃ lines, WellFormed ∅ lines ∧
      ∀ fuel, 501 + d < fuel → mixedFrom numInserts fuel (.ofNat (500 * j)) = some lines := by
  induction d generalizing j with
  | zero =>
    refine ⟨[], trivial, fun fuel hfuel => ?_⟩
    obtain ⟨fuel, rfl⟩ := Nat.exists_eq_succ_of_ne_zero (Nat.ne_zero_of_lt hfuel)
    rw [mixedFrom, if_neg]
    rw [UInt64.lt_iff_toNat_lt, show j = mixedLast from hj, mixedLast_eq]
    omega
  | succ d ih =>
    obtain ⟨lines, hwf, hrest⟩ := ih (j := j + 1) (by omega)
    have hnext : UInt64.ofNat (500 * (j + 1)) = .ofNat (500 * j) + mixedWorkloadStep := by
      rw [Nat.mul_succ, UInt64.ofNat_add]
      rfl
    by_cases hlt : UInt64.ofNat (500 * j) < numInserts
    · rw [hnext] at hrest
      refine ⟨mixedStep (.ofNat (500 * j)) ++ lines, wellFormed_mixedStep hwf, fun fuel hfuel => ?_⟩
      obtain ⟨fuel, rfl⟩ := Nat.exists_eq_succ_of_ne_zero (Nat.ne_zero_of_lt hfuel)
      exact mixedFrom_step hlt (by omega) (hrest _ (by omega))
    · refine ⟨[], trivial, fun fuel hfuel => ?_⟩
      obtain ⟨fuel, rfl⟩ := Nat.exists_eq_succ_of_ne_zero (Nat.ne_zero_of_lt hfuel)
      rw [mixedFrom, if_neg hlt]

theorem mixedFrom_forever (hI : 2 ^ 64 - 4 < numInserts.toNat) (fuel : Nat) {completed : UInt64}
    (hmod : completed.toNat % 4 = 0) : mixedFrom numInserts fuel completed = none := by
  induction fuel generalizing completed with
  | zero => rfl
  | succ fuel ih =>
    have hbound := completed.toNat_lt
    have hlt : completed < numInserts := by
      rw [UInt64.lt_iff_toNat_lt]
      omega
    have hstep : (completed + mixedWorkloadStep).toNat % 4 = 0 := by
      have h500 : mixedWorkloadStep.toNat = 500 := rfl
      rw [UInt64.toNat_add, h500]
      omega
    rw [mixedFrom, if_pos hlt, ih hstep]
    simp

theorem mixed_iff : WritesWellFormed numInserts numDeletes numSearches .mixed ↔
    Fits numInserts numDeletes numSearches .mixed := by
  constructor
  · rintro ⟨lines, ⟨fuel, hwrites⟩, _⟩
    by_contra hfits
    have := hwrites 0
    rw [generateTraceFile, mixedFrom_forever (Nat.lt_of_not_le hfits) _ rfl] at this
    cases this
  · intro hfits
    obtain ⟨lines, hwf, hrun⟩ := mixedFrom_terminates hfits (Nat.zero_add _)
    exact ⟨lines, ⟨502 + mixedLast, fun more => hrun _ (by omega)⟩, hwf⟩

-- ---------------------------------------------------------------------------
-- All traces
-- ---------------------------------------------------------------------------

/-- With no more searches and deletes than inserts, the generator comes to an end and
    writes a well formed trace for exactly these counts. -/
theorem writesWellFormed_iff (type : TraceType) (hS : numSearches ≤ numInserts)
    (hD : numDeletes ≤ numInserts) :
    WritesWellFormed numInserts numDeletes numSearches type ↔
      Fits numInserts numDeletes numSearches type := by
  cases type with
  | sequential => exact sequential_iff hS hD
  | lowContention => exact lowContention_iff hS hD
  | mixed => exact mixed_iff

theorem writesWellFormed_eight : WritesWellFormed 8 4 8 .lowContention :=
  (writesWellFormed_iff .lowContention (by decide) (by decide)).mpr
    (.inr ⟨by decide, .inr ⟨3, .inl rfl⟩⟩)

/-- For 6 inserts and 6 searches, only 2, 3 and 4 are inserted, but 1 to 5 are searched for. -/
theorem not_writesWellFormed : ¬ ∀ numInserts numDeletes numSearches type,
    numSearches ≤ numInserts → numDeletes ≤ numInserts →
      WritesWellFormed numInserts numDeletes numSearches type := by
  intro hall
  have hwrites := hall 6 0 6 .lowContention (by decide) (by decide)
  have hcovers := (lowContention_covers (h := 1) (by decide) (by decide)).mp hwrites
  exact absurd (hcovers.1 1 (by decide) (by decide)) (by decide)

end Tracegen
