-- SUMMARY: The child pointers of all nodes, also of those that have been taken out, never form a cycle.
import ConcurrentBST.LockFree.Releases

/-!
# Descents end

A thread may be on a node that has been spliced out long ago and goes on from
there through child fields nobody keeps up to date. Every child pointer leads
from an older node to a younger one all the same, so every descent ends.
-/

namespace LockFree

variable {cfg : Config} {m m' : Mem} {g g' : Ghost} {t : Tid} {spent : Addr → Prop} {s : State}
  {rk : Addr → Nat} {x n c : Addr} {d : Bool}

/-- Every child pointer leads to a node of lower rank. -/
def Ranked (m : Mem) (rk : Addr → Nat) : Prop :=
  ∀ x d c, m.child x d = .ptr c → rk c < rk x

theorem ranked_initial : Ranked .initial fun _ => 0 := by
  intro x d c hc
  cases d <;> cases congrArg Word.flag hc

/-- A new leaf goes to the bottom. -/
theorem Ranked.link (h : MemInv cfg m g) (hrk : Ranked m rk) (hx : x ∈ g.born)
    (hn : n ∉ g.born) :
    Ranked (m.setChild x d (.ptr n)) fun y => if y = n then 0 else rk y + 1 := by
  intro y e c hc
  rw [Mem.setChild_child] at hc
  split at hc
  · next hy =>
    obtain rfl : n = c := congrArg Word.addr hc
    have hyn : y ≠ n := fun heq => hn (heq ▸ hy.1 ▸ hx)
    simp [hyn]
  · have hcn : c ≠ n := fun heq => hn (heq ▸ h.child_born hc)
    have hyn : y ≠ n := by
      rintro rfl
      rw [(h.unborn hn).2 e] at hc
      cases congrArg Word.flag hc
    simpa [hcn, hyn] using hrk y e c hc

/-- What replaces a node that is spliced out was below it. -/
theorem Ranked.unlink (h : MemInv cfg m g) (hrk : Ranked m rk) (hc : m.child x d = .ptr c)
    (hm : m.marked c) : Ranked (m.setChild x d (m.replacement c)) rk := by
  intro y e z hz
  rw [Mem.setChild_child] at hz
  split at hz
  · next hy =>
    obtain ⟨rfl, rfl⟩ := hy
    rcases h.replacement_cases hm with ⟨hrep, _⟩ | ⟨f, _, _, hrep⟩
    · rw [hrep] at hz
      cases congrArg Word.flag hz
    · exact (hrk c _ z (hrep.symm.trans hz)).trans (hrk y e c hc)
  · exact hrk y e z hz

theorem Change.ranked (hc : Change cfg t spent m g m' g') (h : MemInv cfg m g)
    (hrk : Ranked m rk) : ∃ rk', Ranked m' rk' := by
  have hsame : m'.child = m.child → ∃ rk', Ranked m' rk' := by
    intro heq
    refine ⟨rk, fun x d c hx => hrk x d c ?_⟩
    rwa [heq] at hx
  cases hc with
  | read | observe | hpList | newCas | newReloc | succeed | fail => exact hsame rfl
  | publishInsertion | publishSplicing | clearCas | mark | publishRelocation | commit |
    clearRelocation | releaseMark | releaseFailed | rewrite => exact hsame (by simp)
  | newNode k ha =>
    have hborn : _ ∉ g.born := fun hb => h.not_public_of_allocatable ha (.node hb)
    exact hsame (funext₂ (MemInv.newNode_child hborn h))
  | delete as => exact hsame (child_foldl_delete as)
  | link hop _ _ _ hn => exact ⟨_, hrk.link h (h.born_of_flag (by simp [hop])) hn⟩
  | unlink _ hslot hexp _ hm => exact ⟨rk, hrk.unlink h (hslot.trans hexp) hm⟩

theorem exists_ranked (hs : (system .plain).Reachable s) : ∃ rk, Ranked s.mem rk := by
  have hinv := hs.invariant (P := fun s => (∃ g, Inv .plain s g) ∧ ∃ rk, Ranked s.mem rk)
    ⟨⟨_, Inv.initial⟩, _, ranked_initial⟩ fun s l s' hP hnext => ?_
  · exact hinv.2
  · obtain ⟨⟨g, h⟩, rk, hrk⟩ := hP
    obtain ⟨g', h', htrace⟩ := h.step rfl (careful_of_fresh rfl) hnext
    obtain ⟨_, _, _, _, hc, _⟩ := htrace.change
    exact ⟨⟨g', h'⟩, hc.ranked h.mem hrk⟩

end LockFree
