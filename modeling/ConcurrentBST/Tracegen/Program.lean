-- SUMMARY: The generator of trace files, and what its loops write.
import Mathlib.Algebra.Group.Nat.Defs
import Mathlib.Data.Finset.Basic

/-!
# The trace generator

`create_lc_trace` and `generate_trace_file` of `tracegen.cpp`. An `unsigned long`
has 64 bits. A function returns the lines it writes to the file, and nothing when
`fuel` steps of its loops and recursions are not enough. Every `write` succeeds.
-/

namespace Tracegen

/-- The first word of a line. -/
inductive Op where
  | insert
  | search
  | delete
deriving DecidableEq, Repr

/-- A line of the trace file. -/
structure Line where
  op : Op
  key : UInt64
deriving DecidableEq, Repr

/-- `type`. For any other value the file stays empty. -/
inductive TraceType where
  | sequential
  | lowContention
  | mixed
deriving DecidableEq, Repr

def mixedWorkloadStep : UInt64 := 500

-- ---------------------------------------------------------------------------
-- The functions
-- ---------------------------------------------------------------------------

def createLcTrace : Nat → UInt64 → UInt64 → Option (List Line)
  | 0, _, _ => none
  | fuel + 1, elem, range =>
      if range = 1 then some []
      else do
        let left ← createLcTrace fuel (elem - range / 2) (range / 2)
        let right ← createLcTrace fuel (elem + range / 2) (range / 2)
        return ⟨.insert, elem - range / 2⟩ :: ⟨.insert, elem + range / 2⟩ :: (left ++ right)

/-- `while (count <= num)`, where each line has the key `offset + count++`. -/
def countUp (op : Op) (offset num : UInt64) : Nat → UInt64 → Option (List Line)
  | 0, _ => none
  | fuel + 1, count =>
      if count ≤ num then do
        let rest ← countUp op offset num fuel (count + 1)
        return ⟨op, offset + count⟩ :: rest
      else some []

/-- `while (start <= end)`. The key in the middle is written once. -/
def fromBothEnds (op : Op) : Nat → UInt64 → UInt64 → Option (List Line)
  | 0, _, _ => none
  | fuel + 1, start, stop =>
      if start ≤ stop then do
        let rest ← fromBothEnds op fuel (start + 1) (stop - 1)
        if start ≠ stop then return ⟨op, start⟩ :: ⟨op, stop⟩ :: rest
        else return ⟨op, start⟩ :: rest
      else some []

/-- `while (completed < num_inserts)`. -/
def mixedFrom (numInserts : UInt64) : Nat → UInt64 → Option (List Line)
  | 0, _ => none
  | fuel + 1, completed =>
      if completed < numInserts then do
        let inserts ← countUp .insert completed mixedWorkloadStep fuel 1
        let searches ← countUp .search completed mixedWorkloadStep fuel 1
        let deletes ← countUp .delete completed mixedWorkloadStep fuel 1
        let rest ← mixedFrom numInserts fuel (completed + mixedWorkloadStep)
        return inserts ++ searches ++ deletes ++ rest
      else some []

/-- The inserts of a low contention trace. -/
def lcInserts (fuel : Nat) (numInserts : UInt64) : Option (List Line) :=
  if numInserts ≠ 0 then do
    let rest ← createLcTrace fuel (numInserts / 2) (numInserts / 2)
    return ⟨.insert, numInserts / 2⟩ :: rest
  else some []

/-- The searches or deletes of a low contention trace. -/
def lcOthers (op : Op) (fuel : Nat) (num : UInt64) : Option (List Line) :=
  if num ≠ 0 then fromBothEnds op fuel 1 (num - 1) else some []

def generateTraceFile (fuel : Nat) (numInserts numDeletes numSearches : UInt64) :
    TraceType → Option (List Line)
  | .sequential => do
      let inserts ← countUp .insert 0 numInserts fuel 1
      let searches ← countUp .search 0 numSearches fuel 1
      let deletes ← countUp .delete 0 numDeletes fuel 1
      return inserts ++ searches ++ deletes
  | .lowContention => do
      let inserts ← lcInserts fuel numInserts
      let searches ← lcOthers .search fuel numSearches
      let deletes ← lcOthers .delete fuel numDeletes
      return inserts ++ searches ++ deletes
  | .mixed => mixedFrom numInserts fuel 0

/-- `generate_trace_file` comes to an end and has written `lines`. -/
def Writes (numInserts numDeletes numSearches : UInt64) (type : TraceType) (lines : List Line) :
    Prop :=
  ∃ fuel, ∀ more, generateTraceFile (fuel + more) numInserts numDeletes numSearches type = some lines

-- ---------------------------------------------------------------------------
-- Lines of one operation
-- ---------------------------------------------------------------------------

/-- Lines with the same operation. -/
def linesOf (op : Op) (keys : List UInt64) : List Line :=
  keys.map fun k => ⟨op, k⟩

/-- `num` lines from `count` on. -/
theorem countUp_eq {op : Op} {offset num : UInt64} {fuel : Nat} {count : UInt64}
    (hnum : num.toNat + 1 < 2 ^ 64) (hcount : count.toNat ≤ num.toNat + 1)
    (hfuel : num.toNat + 1 < fuel + count.toNat) :
    countUp op offset num fuel count = some (linesOf op
      ((List.range' count.toNat (num.toNat + 1 - count.toNat)).map fun i => offset + .ofNat i)) := by
  induction fuel generalizing count with
  | zero => omega
  | succ fuel ih =>
    rw [countUp]
    split
    · next hle =>
      have hle : count.toNat ≤ num.toNat := UInt64.le_iff_toNat_le.mp hle
      have hsucc : (count + 1).toNat = count.toNat + 1 := by
        rw [UInt64.toNat_add]
        exact Nat.mod_eq_of_lt (show count.toNat + 1 < 2 ^ 64 by omega)
      rw [ih (by omega) (by omega), hsucc]
      have hlen : num.toNat + 1 - count.toNat = num.toNat + 1 - (count.toNat + 1) + 1 := by omega
      rw [hlen, List.range'_succ]
      simp [linesOf]
    · next hle =>
      have hlt : num.toNat < count.toNat := by
        rw [UInt64.le_iff_toNat_le] at hle
        omega
      have hlen : num.toNat + 1 - count.toNat = 0 := by omega
      simp [hlen, linesOf]

/-- A count that starts before the greatest number never gets beyond it. -/
theorem countUp_forever {op : Op} {offset num : UInt64} (hnum : num.toNat + 1 = 2 ^ 64)
    (fuel : Nat) (count : UInt64) : countUp op offset num fuel count = none := by
  induction fuel generalizing count with
  | zero => rfl
  | succ fuel ih =>
    have hle : count ≤ num := by
      rw [UInt64.le_iff_toNat_le]
      have := count.toNat_lt
      omega
    rw [countUp, if_pos hle, ih]
    rfl

end Tracegen
