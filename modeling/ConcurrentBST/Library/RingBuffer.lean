-- SUMMARY: Ring buffers: the last writes are still there.
import Mathlib.Logic.Function.Basic

/-!
# Ring buffers

A window of a store is written round and round. The last `size` writes can be
read back, an older one is gone.
-/

universe u

/-- A store with a window of `size` cells from `base` on, and the cell of the window
    that is written next. -/
structure RingBuffer (α : Type u) (base size : Nat) where
  cell : Nat → α
  off : Nat
  lower : base ≤ off
  upper : off < base + size

namespace RingBuffer

variable {α : Type u} {base size k : Nat} {r : RingBuffer α base size} {a : α}

/-- Write a cell and move on to the next one, from the last one to the first. -/
def put (r : RingBuffer α base size) (a : α) : RingBuffer α base size where
  cell := Function.update r.cell r.off a
  off := if r.off + 1 = base + size then base else r.off + 1
  lower := by
    have := r.lower
    split <;> omega
  upper := by
    have := r.lower
    have := r.upper
    split <;> omega

/-- The cell that was written `k` writes before the last one. -/
def back (r : RingBuffer α base size) (k : Nat) : Nat :=
  if base + k < r.off then r.off - 1 - k else r.off + size - 1 - k

/-- What was written `k` writes before the last one. -/
def last (r : RingBuffer α base size) (k : Nat) : α := r.cell (r.back k)

theorem back_put_zero : (r.put a).back 0 = r.off := by
  have := r.lower
  have := r.upper
  unfold back put
  grind

theorem back_put_succ (h : k + 1 < size) : (r.put a).back (k + 1) = r.back k := by
  have := r.lower
  have := r.upper
  unfold back put
  grind

theorem back_ne (h : k + 1 < size) : r.back k ≠ r.off := by
  have := r.lower
  unfold back
  split <;> omega

@[simp] theorem last_put_zero : (r.put a).last 0 = a := by
  unfold last
  rw [back_put_zero]
  exact Function.update_self ..

theorem last_put_succ (h : k + 1 < size) : (r.put a).last (k + 1) = r.last k := by
  unfold last
  rw [back_put_succ h]
  exact Function.update_of_ne (back_ne h) ..

/-- The last `size` writes are in the window. -/
theorem exists_cell (h : k < size) : ∃ j < size, r.cell (base + j) = r.last k := by
  have hlower : base ≤ r.back k := by
    have := r.lower
    unfold back
    split <;> omega
  have hupper : r.back k < base + size := by
    have := r.upper
    unfold back
    split <;> omega
  refine ⟨r.back k - base, by omega, ?_⟩
  rw [Nat.add_sub_cancel' hlower]
  rfl

end RingBuffer
