-- SUMMARY: The fine-grained tree is a linearizable set of integers.
import ConcurrentBST.FineGrained.Removing

/-!
# Linearizability of the fine-grained tree

Every function has been verified, so by soundness of the logic every run of the
threads is one of an atomic set.
-/

namespace FineGrained

open Threads

variable {t : Tid} {σ : World} {call : Call} {res : Result} {n : Nat}

theorem ghost_initial_tree :
    Ghost.initial.tree.SearchTree Ghost.initial.slot treeLock Ghost.initial.key where
  lawful := by
    constructor <;> simp [Ghost.initial, Ancestry.Below]
  fits := by constructor <;> simp [Ghost.initial, Ancestry.Below]
  finite := Set.finite_singleton _
  outside := fun _ => rfl
  clean := fun h => absurd h (Set.notMem_empty _)
  top_mem := Set.mem_singleton _
  top_first := fun h => absurd h.2 (Set.notMem_empty _)
  top_above := fun hx hne => absurd hx hne
  sorted := fun hx _ hne => absurd hx hne

theorem Inv.initial : Inv ⟨.initial, .initial⟩ where
  tree := ghost_initial_tree
  null := rfl
  live := fun x hx => .inl hx
  known := fun x hx => by cases hx
  record := by
    rintro x rfl _
    refine ⟨Set.mem_singleton _, fun h => absurd rfl h, fun d => ?_, fun h => absurd rfl h⟩
    cases d <;> rfl

theorem keys_initial : Ghost.initial.keys = ∅ := by
  apply Set.eq_empty_iff_forall_notMem.mpr
  rintro k ⟨x, hx, hne, _⟩
  exact hne hx

/-- Nothing is held at first. -/
theorem At.initial : At t .idle [] .empty ⟨.initial, .initial⟩ := by
  refine ⟨rfl, fun x => ?_, List.nodup_nil, by simp, List.nil_subset _, trivial⟩
  simp [Mine, Mem.initial]

/-- A call is invoked or returns. -/
theorem At.turn {ph ph' : Phase Call Result} {ev : Option (Event Tid Call Result)}
    (h : At t ph [] .empty σ) (hi : Inv σ)
    (hm : Moves setObject ev σ.ghost.keys σ.ghost.phase σ.ghost.keys
      (Function.update σ.ghost.phase t ph')) :
    logic.Allows t ev σ ⟨σ.mem, σ.ghost.setPhase t ph'⟩ ∧
      At t ph' [] .empty ⟨σ.mem, σ.ghost.setPhase t ph'⟩ := by
  have hk := Keeps.setPhase hi t ph'
  exact ⟨⟨hm, hk.inv, hk.rely⟩, h.change rfl h.cell⟩

theorem runs_start : Runs t (.pending call) [] .empty (lang.start call) := by
  cases call with
  | insert k => exact runs_insert
  | search k => exact runs_search
  | remove k => exact runs_remove

theorem valid_body (t : Tid) (f : Fn) : logic.Valid lang t (Pre t f) (lang.body f) := by
  intro σ hi hpre
  cases f with
  | search k x =>
    obtain ⟨n, hx, h⟩ := hpre
    exact runs_searchFrom hx σ hi h
  | insert k x =>
    obtain ⟨n, hx, h⟩ := hpre
    exact runs_insertFrom hx σ hi h
  | delSearch k x =>
    obtain ⟨n, rt, hx, hroot, h⟩ := hpre
    exact runs_delSearch hx hroot σ hi h
  | neighbour x p s d =>
    obtain ⟨ns, np, nx, hs, hp, hx, hslot, hparent, h⟩ := hpre
    exact runs_neighbourFrom hx hp hs hslot hparent σ hi h

/-- The fine-grained tree is verified. -/
theorem sound : logic.Sound lang .initial .initial where
  refl := fun _ _ => Rely.refl
  trans := Rely.trans
  idle_stable := fun _ => At.stable
  init := ⟨.initial, fun _ => .initial⟩
  init_abs := ⟨keys_initial, rfl⟩
  start := fun {t c σ} hi (h : At t .idle [] .empty σ) => by
    obtain ⟨ha, hat⟩ := h.turn hi (.invoke h.phase)
    have hruns : Runs t (.pending c) [] .empty (lang.start c) := runs_start
    exact ⟨_, ha, hruns _ ha.inv hat⟩
  body := valid_body
  finish := fun {t r σ} hi (h : At t (.done r) [] .empty σ) => by
    obtain ⟨ha, hat⟩ := h.turn hi (.respond h.phase)
    exact ⟨_, ha, hat⟩

/-- Every history of `insert`, `search` and `remove` is one of an atomic set. -/
theorem locked_history_linearizable (e : system.Exec n) :
    Linearizable setObject (e.history Lang.observe n) :=
  sound.simulates.linearizable e

end FineGrained
