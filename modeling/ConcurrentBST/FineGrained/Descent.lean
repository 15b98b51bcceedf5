-- SUMMARY: Every tail call of the fine-grained tree goes to a younger node.
import ConcurrentBST.FineGrained.Ages

/-!
# Walking down

What a thread needs to know about ages is little: a node is not older than some
moment, and a node it holds is older than another one, or has a certain parent.
The others cannot take this away.
-/

namespace FineGrained

open Threads

/-- What a thread knows about the ages. `NULL` has none. -/
inductive Known where
  /-- `x` is not from before `n`. -/
  | since (n : Nat) (x : Addr)
  /-- `x` is from after `n`. -/
  | after (n : Nat) (x : Addr)
  | held (x : Addr)
  /-- `x`, which is held, is older than `c`. -/
  | older (x c : Addr)
  /-- `p` is the parent of `x`, which is held. -/
  | parent (x p : Addr)

variable {t : Tid} {σ σ' : Dated} {g : Ghost} {x y p s c a : Addr} {d : Bool} {m : Mem} {i : Addr}
  {n b : Nat} {K J : List Known} {φ : Known} {val : Int}

namespace Known

def Holds (t : Tid) (σ : Dated) : Known → Prop
  | .since n x => x ≠ 0 → n ≤ σ.ghost.born x
  | .after n x => x ≠ 0 → n < σ.ghost.born x
  | .held x => σ.mem.heldBy t x
  | .older x c => σ.mem.heldBy t x ∧ (c ≠ 0 → σ.ghost.born x < σ.ghost.born c)
  | .parent x p => σ.mem.heldBy t x ∧ (σ.mem.node x).parent = p

theorem Holds.stable (h : φ.Holds t σ) (hr : Ages.Rely t σ σ') : φ.Holds t σ' := by
  cases φ with
  | since n x => exact fun hx => (h hx).trans (hr.younger x)
  | after n x => exact fun hx => (h hx).trans_le (hr.younger x)
  | held x => exact hr.held x h
  | older x c => exact ⟨hr.held x h.1, fun hc => hr.born x h.1 ▸ (h.2 hc).trans_le (hr.younger c)⟩
  | parent x p => exact ⟨hr.held x h.1, (congrArg Node.parent (hr.node x h.1)).trans h.2⟩

/-- The node that has to stay locked. -/
def node : Known → Option Addr
  | .since _ _ | .after _ _ => none
  | .held x | .older x _ | .parent x _ => some x

/-- The fact outlives an action of the thread itself. -/
def Outlives (φ : Known) : Act → Prop
  | .unlock x | .free x | .setParent x _ => φ.node ≠ some x
  | _ => True

/-- What an action leaves of the nodes that are held. -/
theorem heldBy_of_exec {act : Act} {v : act.Ret} (hexec : exec t act i σ.mem = some (v, m))
    (hx : σ.mem.heldBy t x) (hkeep : ∀ y, act = .unlock y ∨ act = .free y → x ≠ y) :
    m.heldBy t x := by
  cases act with
  | root | value | child | parent | setRoot | setValue | setChild | setParent =>
    cases hexec
    exact hx
  | assertFail => simp at hexec
  | lock y =>
    simp only [exec] at hexec
    split at hexec <;> cases hexec
    refine ⟨?_, hx.2⟩
    by_cases hxy : x = y
    · exact hxy ▸ Function.update_self ..
    · exact (Function.update_of_ne hxy ..).trans hx.1
  | unlock y =>
    cases hexec
    exact ⟨(Function.update_of_ne (hkeep y (.inl rfl)) ..).trans hx.1, hx.2⟩
  | free y =>
    cases hexec
    refine ⟨hx.1, hx.2.imp_right fun hal => ?_⟩
    exact (Function.update_of_ne (hkeep y (.inr rfl)) ..).trans hal
  | create v p =>
    simp only [exec] at hexec
    split at hexec <;> cases hexec
    next hfresh =>
    have hxi : x ≠ i := fun heq => (ne_of_allocatable hfresh).2 (heq ▸ hx.2)
    exact ⟨(Mem.lock_alloc hxi).trans hx.1, (Mem.live_alloc hxi).mpr hx.2⟩

theorem born_after {act : Act} {v : act.Ret} (hi : Ages.Inv σ) :
    σ.ghost.born x ≤ (σ.ghost.after act v).born x := by
  cases act with
  | create => exact Ages.le_create hi.clock
  | _ => exact le_rfl

theorem born_of_heldBy {act : Act} {v : act.Ret} (hexec : exec t act i σ.mem = some (v, m))
    (hx : σ.mem.heldBy t x) : (σ.ghost.after act v).born x = σ.ghost.born x := by
  cases act with
  | create v p =>
    simp only [exec] at hexec
    split at hexec <;> cases hexec
    next hfresh => exact Ages.born_create fun heq => (ne_of_allocatable hfresh).2 (heq ▸ hx.2)
  | _ => rfl

theorem parent_of_exec {act : Act} {v : act.Ret} (hexec : exec t act i σ.mem = some (v, m))
    (hx : σ.mem.heldBy t x) (hkeep : ∀ p, act ≠ .setParent x p) :
    (m.node x).parent = (σ.mem.node x).parent := by
  have hset : ∀ {y : Addr} {nx : Node}, nx.parent = (σ.mem.node y).parent →
      ((σ.mem.setNode y nx).node x).parent = (σ.mem.node x).parent := by
    intro y nx hp
    by_cases hxy : x = y
    · simp only [hxy, Mem.setNode, Function.update_self, hp]
    · simp only [Mem.setNode, Function.update_of_ne hxy]
  cases act with
  | root | value | child | parent | setRoot | unlock | free =>
    cases hexec
    rfl
  | assertFail => simp at hexec
  | lock y =>
    simp only [exec] at hexec
    split at hexec <;> cases hexec
    rfl
  | setValue y | setChild y =>
    cases hexec
    exact hset (by simp)
  | setParent y p =>
    cases hexec
    have hxy : x ≠ y := by
      rintro rfl
      exact hkeep p rfl
    simp only [Mem.setNode, Function.update_of_ne hxy]
  | create v p =>
    simp only [exec] at hexec
    split at hexec <;> cases hexec
    next hfresh =>
    have hxi : x ≠ i := fun heq => (ne_of_allocatable hfresh).2 (heq ▸ hx.2)
    simp only [Mem.alloc, Function.update_of_ne hxi]

theorem Holds.of_exec {act : Act} {v : act.Ret} (h : φ.Holds t σ) (hi : Ages.Inv σ)
    (hexec : exec t act i σ.mem = some (v, m)) (ho : φ.Outlives act) :
    φ.Holds t ⟨m, σ.ghost.after act v⟩ := by
  have hne : ∀ {x}, φ.node = some x → ∀ y, act = .unlock y ∨ act = .free y → x ≠ y := by
    rintro x hx y (rfl | rfl) rfl <;> exact ho hx
  cases φ with
  | since n x => exact fun hx => (h hx).trans (born_after hi)
  | after n x => exact fun hx => (h hx).trans_le (born_after hi)
  | held x => exact heldBy_of_exec hexec h (hne rfl)
  | older x c =>
    refine ⟨heldBy_of_exec hexec h.1 (hne rfl), fun hc => ?_⟩
    rw [born_of_heldBy hexec h.1]
    exact (h.2 hc).trans_le (born_after hi)
  | parent x p =>
    refine ⟨heldBy_of_exec hexec h.1 (hne rfl), (parent_of_exec hexec h.1 ?_).trans h.2⟩
    rintro p rfl
    exact ho rfl

end Known

-- ---------------------------------------------------------------------------
-- Rules
-- ---------------------------------------------------------------------------

def Knows (t : Tid) (K : List Known) (σ : Dated) : Prop := ∀ φ ∈ K, φ.Holds t σ

/-- The tail calls of the program go to nodes from after `b`, where `K` is known. -/
abbrev Sinks (t : Tid) (b : Nat) (K : List Known) (p : Prog) : Prop :=
  ranking.Valid logic lang t b (Knows t K) p

theorem Knows.stable : ranking.Stable t (Knows t K) :=
  fun h hr φ hφ => (h φ hφ).stable hr

/-- An orderly action of the thread. -/
theorem Sinks.act {act : Act} {k : act.Ret → Prog} {P : act.Ret → Prop} {J : act.Ret → List Known}
    (hgrows : ranking.grows act → ∀ v, (k v).All (fun a => ¬ ranking.grows a) fun _ => False)
    (hstep : ∀ σ g, Ages.Inv σ → Knows t K σ → Inv ⟨σ.mem, g⟩ → Ok t act ⟨σ.mem, g⟩ →
      act.Orderly σ ∧ ∀ i v m, exec t act i σ.mem = some (v, m) →
        P v ∧ Knows t (J v) ⟨m, σ.ghost.after act v⟩)
    (hk : ∀ v, P v → Sinks t b (J v) (k v)) : Sinks t b K (.act act k) := by
  refine Ranking.Valid.act (B := fun v σ => P v ∧ Knows t (J v) σ) Knows.stable hgrows
    (fun σ g i v m hi hK hinv hok hexec => ?_) fun v σ hi hB => hk v hB.1 σ hi hB.2
  obtain ⟨horder, hnew⟩ := hstep σ g hi hK hinv hok
  refine ⟨σ.ghost.after act v, ⟨inv_of_exec hi horder hexec, fun u hu => ?_, fun hg => ?_⟩,
    hnew i v m hexec⟩
  · exact rely_of_exec hi hok hexec hu
  · cases act with
    | create => exact absurd trivial hg
    | _ => rfl

theorem Knows.of_exec {act : Act} {v : act.Ret} (h : Knows t K σ) (hi : Ages.Inv σ)
    (hexec : exec t act i σ.mem = some (v, m)) (hK : ∀ φ ∈ J, φ ∈ K ∧ φ.Outlives act) :
    Knows t J ⟨m, σ.ghost.after act v⟩ := fun φ hφ =>
  (h φ (hK φ hφ).1).of_exec hi hexec (hK φ hφ).2

/-- An action that has nothing to do with ages. -/
def Act.Plain : Act → Prop
  | .lock _ | .root | .setRoot _ | .value _ | .setValue _ _ | .child _ _ | .parent _ => True
  | _ => False

theorem Sinks.skip {a : Act} {k : a.Ret → Prog} (hact : a.Plain)
    (hk : ∀ v, Sinks t b K (k v)) : Sinks t b K (.act a k) := by
  refine .act (P := fun _ => True) (J := fun _ => K) (fun hg => ?_) (fun σ g hi hK _ _ =>
    ⟨?_, fun i v m hexec => ⟨trivial, hK.of_exec hi hexec fun φ hφ => ⟨hφ, ?_⟩⟩⟩) fun v _ => hk v
  · cases a <;> first | exact hact.elim | exact hg.elim
  · cases a <;> first | exact hact.elim | trivial
  · cases a <;> first | exact hact.elim | trivial

theorem Sinks.unlock {k : Unit → Prog} (hK : ∀ φ ∈ J, φ ∈ K ∧ φ.node ≠ some x)
    (hk : Sinks t b J (k ())) : Sinks t b K (.act (.unlock x) k) :=
  .act (P := fun _ => True) (J := fun _ => J) (fun hg => hg.elim) (fun _ _ hi h _ _ =>
    ⟨trivial, fun _ _ _ hexec => ⟨trivial, h.of_exec hi hexec hK⟩⟩) fun _ _ => hk

theorem Sinks.free {k : Unit → Prog} (hK : ∀ φ ∈ J, φ ∈ K ∧ φ.node ≠ some x)
    (hk : Sinks t b J (k ())) : Sinks t b K (.act (.free x) k) :=
  .act (P := fun _ => True) (J := fun _ => J) (fun hg => hg.elim) (fun _ _ hi h _ _ =>
    ⟨trivial, fun _ _ _ hexec => ⟨trivial, h.of_exec hi hexec hK⟩⟩) fun _ _ => hk

/-- A node whose value is read is held. -/
theorem Sinks.value {k : Int → Prog} (hk : ∀ v, Sinks t b (.held x :: K) (k v)) :
    Sinks t b K (.act (.value x) k) := by
  refine .act (P := fun _ => True) (J := fun _ => .held x :: K) (fun hg => hg.elim)
    (fun σ g hi h _ hok => ⟨trivial, fun i v m hexec => ⟨trivial, ?_⟩⟩) fun v _ => hk v
  cases hexec
  exact List.forall_mem_cons.mpr ⟨hok.2, h⟩

/-- So is one whose parent is read. -/
theorem Sinks.parent {k : Addr → Prog} (hk : ∀ p, x ≠ 0 → p ≠ x → Sinks t b (.held x :: K) (k p)) :
    Sinks t b K (.act (.parent x) k) := by
  refine .act (P := fun p => x ≠ 0 ∧ p ≠ x) (J := fun _ => .held x :: K) (fun hg => hg.elim)
    (fun σ g hi h hinv hok => ⟨trivial, fun i v m hexec => ⟨⟨?_, ?_⟩, ?_⟩⟩)
    fun p hp => hk p hp.1 hp.2
  · rintro rfl
    cases hinv.null.symm.trans hok.1
  · cases hexec
    exact hi.parent x hok.1
  · cases hexec
    exact List.forall_mem_cons.mpr ⟨hok.2, h⟩

theorem Sinks.parentOf {k : Addr → Prog} (hp : .parent x p ∈ K) (hk : Sinks t b K (k p)) :
    Sinks t b K (.act (.parent x) k) := by
  refine .act (P := fun v => v = p) (J := fun _ => K) (fun hg => hg.elim)
    (fun σ g hi h _ _ => ⟨trivial, fun i v m hexec => ?_⟩) fun v hv => hv ▸ hk
  cases hexec
  exact ⟨(h _ hp).2, h⟩

/-- What is new when the child of `x` is `c`. -/
inductive Learns (K : List Known) (x c : Addr) : Known → Prop where
  | since {n : Nat} : .since n x ∈ K → Learns K x c (.after n c)
  | after {n : Nat} : .after n x ∈ K → Learns K x c (.after n c)
  | held : .held x ∈ K → Learns K x c (.older x c)
  | older {y : Addr} : .older y x ∈ K → Learns K x c (.older y c)

theorem Learns.holds (hl : Learns K x c φ) (h : Knows t K σ)
    (hx : x ≠ 0) (hc : c ≠ 0 → σ.ghost.born x < σ.ghost.born c) : φ.Holds t σ := by
  cases hl with
  | since hm => exact fun hc0 => (h _ hm hx).trans_lt (hc hc0)
  | after hm => exact fun hc0 => (h _ hm hx).trans (hc hc0)
  | held hm => exact ⟨h _ hm, hc⟩
  | older hm => exact ⟨(h _ hm).1, fun hc0 => ((h _ hm).2 hx).trans (hc hc0)⟩

/-- A child is younger than its parent. -/
theorem Sinks.child {k : Addr → Prog} (new : Addr → List Known)
    (hl : ∀ c, ∀ φ ∈ new c, Learns K x c φ) (hk : ∀ c, Sinks t b (new c ++ K) (k c)) :
    Sinks t b K (.act (.child x d) k) := by
  refine .act (P := fun _ => True) (J := fun c => new c ++ K) (fun hg => hg.elim)
    (fun σ g hi h hinv hok => ⟨trivial, fun i v m hexec => ⟨trivial, ?_⟩⟩) fun c _ => hk c
  cases hexec
  have hx : x ≠ 0 := by
    rintro rfl
    cases hinv.null.symm.trans hok.1
  refine List.forall_mem_append.mpr ⟨fun φ hφ => ?_, h⟩
  exact (hl _ φ hφ).holds h hx (hi.child x d hok.1)

theorem Sinks.setChild {k : Unit → Prog} (ha : .older x a ∈ K ∨ a = 0) (hk : Sinks t b K (k ())) :
    Sinks t b K (.act (.setChild x d a) k) := by
  refine .act (P := fun _ => True) (J := fun _ => K) (fun hg => hg.elim)
    (fun σ g hi h _ _ => ⟨fun h0 => ?_, fun i v m hexec => ⟨trivial, ?_⟩⟩) fun _ _ => hk
  · exact (h _ (ha.resolve_right h0)).2 h0
  · exact h.of_exec hi hexec fun φ hφ => ⟨hφ, trivial⟩

theorem Sinks.setParent {k : Unit → Prog} (hp : .older p x ∈ K)
    (hk : Sinks t b [] (k ())) : Sinks t b K (.act (.setParent x p) k) := by
  refine .act (P := fun _ => True) (J := fun _ => []) (fun hg => hg.elim)
    (fun σ g hi h hinv hok => ⟨?_, fun i v m hexec => ⟨trivial, fun _ hφ => by cases hφ⟩⟩)
    fun _ _ => hk
  rintro rfl
  refine absurd ((h _ hp).2 ?_) (lt_irrefl _)
  rintro rfl
  cases hinv.null.symm.trans hok.1

/-- A new node is younger than all others. -/
theorem Sinks.create {k : Addr → Prog} (hp : .held p ∈ K ∨ p = 0)
    (hall : ∀ a, (k a).All (fun a => ¬ ranking.grows a) fun _ => False) (J : Addr → List Known)
    (hK' : ∀ a, ∀ φ ∈ J a, φ = .older p a ∧ .held p ∈ K) (hk : ∀ a, Sinks t b (J a) (k a)) :
    Sinks t b K (.act (.create val p) k) := by
  refine .act (P := fun _ => True) (J := J) (fun _ => hall)
    (fun σ g hi h _ _ => ⟨?_, fun i v m hexec => ⟨trivial, fun φ hφ => ?_⟩⟩) fun a _ => hk a
  · rcases hp with hp | rfl
    · exact (h _ hp).2
    · exact .inl rfl
  · obtain ⟨rfl, hm⟩ := hK' v φ hφ
    have hheld : σ.mem.heldBy t p := h _ hm
    refine ⟨?_, fun _ => ?_⟩
    · exact Known.heldBy_of_exec hexec hheld fun y hy => by rcases hy with hy | hy <;> cases hy
    · rw [Known.born_of_heldBy hexec hheld]
      have hclock := hi.clock p
      simpa [Ages.after, Ages.create] using hclock

theorem Sinks.assertFail {k : Unit → Prog} : Sinks t b K (.act .assertFail k) :=
  .act (P := fun _ => False) (J := fun _ => []) (fun hg => hg.elim)
    (fun _ _ _ _ _ _ => ⟨trivial, fun _ _ _ hexec => by cases hexec⟩) fun _ => False.elim

theorem Sinks.weaken {p : Prog} (hp : Sinks t b J p) (h : ∀ σ, Knows t K σ → Knows t J σ) :
    Sinks t b K p :=
  fun σ hi hK => hp σ hi (h σ hK)

theorem Sinks.ret {r : Result} : Sinks t b K (.ret r) := Ranking.Valid.ret

/-- A function is entered at a node. -/
theorem Pre.at {f : Fn} {σ : World} (h : Pre t f σ) :
    f.at ≠ 0 ∧ σ.mem.allocated f.at = true := by
  have hmine : ∀ {ph : Phase Call Result} {L : List Cell} {F : Fact t} {x : Addr} {n : Node},
      x ≠ treeLock → At t ph (.settled x n :: L) F σ → σ.mem.allocated x = true := fun hx hat =>
    (hat.holds List.mem_cons_self).allocated hx
  cases f with
  | search | insert =>
    obtain ⟨_, hx, hat⟩ := h
    exact ⟨hx, hmine hx hat⟩
  | delSearch =>
    obtain ⟨_, _, hx, _, hat⟩ := h
    exact ⟨hx, hmine hx hat⟩
  | neighbour =>
    obtain ⟨_, _, _, hs, _, _, _, _, hat⟩ := h
    exact ⟨hs, hmine hs hat⟩

theorem Sinks.call {f : Fn} (hf : .after b f.at ∈ K) : Sinks t b K (.call f) :=
  Ranking.Valid.call Knows.stable fun _ _ _ h _ hpre => h _ hf hpre.at.1

theorem Sinks.call_first {f : Fn} : Sinks t 0 K (.call f) :=
  Ranking.Valid.call Knows.stable fun _ _ hi _ _ hpre => hi.pos _ hpre.at.2

-- ---------------------------------------------------------------------------
-- search and insert
-- ---------------------------------------------------------------------------

theorem Sinks.drop_ret {r : Result} : Sinks t b K (.act (.unlock x) fun _ => .ret r) :=
  .unlock (J := []) (by simp) .ret

/-- The child is locked, the parent unlocked, and the function called again. -/
theorem Sinks.descend {x y : Addr} {f : Addr → Fn} (hx : .since b x ∈ K)
    (hf : ∀ c, (f c).at = c) :
    Sinks t b K (.act (.lock y) fun _ => .act (.unlock x) fun _ => .act (.child x d) fun c =>
      .call (f c)) := by
  refine .skip (a := .lock y) trivial fun _ => ?_
  refine .unlock (J := [.since b x]) (by simpa [Known.node] using hx) ?_
  refine .child (fun c => [.after b c]) (fun c φ hφ => ?_) fun c => .call ?_
  · rw [List.mem_singleton.mp hφ]
    exact .since (by simp)
  · simp [hf]

theorem sinks_searchSide : Sinks t b [.since b x] (searchSide val x d) := by
  refine .skip trivial fun c => ?_
  split
  · exact .drop_ret
  · exact .skip trivial fun c => .descend (f := .search val) (by simp) fun _ => rfl

theorem sinks_searchFrom : Sinks t b [.since b x] (searchFrom val x) := by
  refine .skip trivial fun v => ?_
  split
  · exact sinks_searchSide
  refine .skip trivial fun v => ?_
  split
  · exact sinks_searchSide
  · exact .drop_ret

theorem sinks_insertSide : Sinks t b [.held x, .since b x] (insertSide val x d) := by
  refine .skip trivial fun c => ?_
  split
  · refine .create (.inl (by simp)) (fun a => by simp [ranking]) (fun a => [.older x a])
      (by simp) fun a => ?_
    exact .setChild (.inl (by simp)) .drop_ret
  · exact .skip trivial fun c => .descend (f := .insert val) (by simp) fun _ => rfl

theorem sinks_insertFrom : Sinks t b [.since b x] (insertFrom val x) := by
  refine .value fun v => ?_
  split
  · exact sinks_insertSide
  refine .skip trivial fun v => ?_
  split
  · exact sinks_insertSide
  · exact .assertFail

theorem Sinks.enter {empty : Prog} {k : Addr → Prog} (hempty : Sinks t b [] empty)
    (hk : ∀ root, Sinks t b [] (k root)) : Sinks t b K (enter empty k) := by
  refine .weaken (J := []) ?_ fun _ _ _ hφ => by cases hφ
  refine .skip (a := .lock treeLock) trivial fun _ => .skip trivial fun r => ?_
  split
  · exact hempty
  · refine .skip trivial fun r => .skip (a := .lock r) trivial fun _ => .skip trivial fun r => ?_
    exact .unlock (J := []) (by simp) (hk r)

theorem sinks_search : Sinks t 0 K (search val) :=
  .enter .drop_ret fun _ => .call_first

theorem sinks_insert : Sinks t 0 K (insert val) := by
  refine .enter ?_ fun _ => .call_first
  refine .create (.inr rfl) (fun a => by simp [ranking]) (fun _ => []) (by simp) fun a => ?_
  exact .skip (a := .setRoot a) trivial fun _ => .drop_ret

-- ---------------------------------------------------------------------------
-- remove
-- ---------------------------------------------------------------------------

theorem Sinks.ifLeaf {leaf other : Prog} (hleaf : Sinks t b K leaf) (hother : Sinks t b K other) :
    Sinks t b K (ifLeaf x leaf other) := by
  refine .skip trivial fun l => ?_
  split
  · refine .skip trivial fun r => ?_
    split
    · exact hleaf
    · exact hother
  · exact hother

theorem Sinks.forget {p : Prog} (hp : Sinks t b [] p) : Sinks t b K p :=
  .weaken hp fun _ _ _ hφ => by cases hφ

theorem sinks_freeRoot : Sinks t b K (freeRoot x) := by
  refine .forget (.free (J := []) (by simp) ?_)
  exact .skip (a := .setRoot 0) trivial fun _ => .drop_ret

theorem sinks_removeLeaf : Sinks t b K (removeLeaf x p) := by
  have hside : ∀ {d}, Sinks t b [] (removeLeafSide x p d) :=
    .free (J := []) (by simp) (.setChild (.inr rfl) .drop_ret)
  refine .forget (.skip trivial fun v => .skip trivial fun w => ?_)
  split
  · exact hside
  · exact hside

theorem sinks_removeAdjacent : Sinks t b [.older x s] (removeAdjacent x d s) := by
  have hfree : Sinks t b [] (.act (.free s) fun _ => .act (.unlock x) fun _ => .ret (.removed 0)) :=
    .free (J := []) (by simp) .drop_ret
  refine .skip trivial fun z => ?_
  split
  · refine .skip trivial fun z => .skip (a := .lock z) trivial fun _ => .skip trivial fun v =>
      .skip (a := .setValue x v) trivial fun _ => ?_
    refine .child (fun z => [.older x z]) (by simpa using fun z => .older (by simp)) fun z => ?_
    refine .setChild (.inl (by simp)) ?_
    refine .child (fun z => [.older x z]) (by simpa using fun z => .older (by simp)) fun z => ?_
    refine .setParent (by simp) (.skip trivial fun z => ?_)
    exact .unlock (J := []) (by simp) hfree
  · refine .skip trivial fun v => .skip (a := .setValue x v) trivial fun _ => ?_
    exact .setChild (.inr rfl) (.forget hfree)

theorem sinks_removeDeep : Sinks t b [.parent s p, .older p s] (removeDeep x d s) := by
  have hfree : Sinks t b [] (.act (.free s) fun _ => .act (.unlock p) fun _ =>
      .act (.unlock x) fun _ => .ret (.removed 0)) :=
    .free (J := []) (by simp) (.unlock (J := []) (by simp) .drop_ret)
  refine .parentOf (p := p) (by simp) (.skip trivial fun z => ?_)
  split
  · refine .skip trivial fun z => .skip (a := .lock z) trivial fun _ => ?_
    refine .child (fun z => [.older p z]) (by simpa using fun z => .older (by simp)) fun z => ?_
    refine .setChild (.inl (by simp)) ?_
    refine .child (fun z => [.older p z]) (by simpa using fun z => .older (by simp)) fun z => ?_
    refine .setParent (by simp) (.skip trivial fun v => .skip (a := .setValue x v) trivial fun _ =>
      .skip trivial fun z => ?_)
    exact .unlock (J := []) (by simp) hfree
  · refine .skip trivial fun v => .skip (a := .setValue x v) trivial fun _ => ?_
    exact .setChild (.inr rfl) (.forget hfree)

theorem sinks_neighbourFrom :
    Sinks t b [.since b s, .parent s p, .older p s] (neighbourFrom x p s d) := by
  refine .skip trivial fun c => ?_
  split
  · refine .child (fun c => [.after b c]) (by simpa using fun c => .since (by simp)) fun c => ?_
    refine .unlock (J := [.after b c]) (by simp [Known.node]) ?_
    refine .skip (a := .lock c) trivial fun _ => .skip trivial fun q => ?_
    exact .call (List.mem_singleton.mpr rfl)
  · exact .weaken sinks_removeDeep fun σ h φ hφ => h φ (List.mem_cons_of_mem _ hφ)

theorem sinks_getInorderNeighbour : Sinks t b [.since b x] (getInorderNeighbour x d) := by
  refine .child (fun c => [.after b c]) (by simpa using fun c => .since (by simp)) fun p => ?_
  refine .child (fun c => [.after b c]) (by simpa using fun c => .after (by simp)) fun c => ?_
  exact .skip (a := .lock c) trivial fun _ => .call (List.mem_cons_self ..)

theorem sinks_removeSide : Sinks t b [.held x, .since b x] (removeSide x d) := by
  refine .skip trivial fun c => .skip (a := .lock c) trivial fun _ => .skip trivial fun c =>
    .skip trivial fun e => ?_
  split
  · refine .child (fun s => [.older x s]) (by simpa using fun s => .held (by simp)) fun s => ?_
    exact .weaken sinks_removeAdjacent fun σ h φ hφ => h φ (List.mem_append_left _ hφ)
  · have hnext : ∀ {d}, Sinks t b [.held x, .since b x] (getInorderNeighbour x d) :=
      .weaken sinks_getInorderNeighbour fun σ h φ hφ => h φ (List.mem_cons_of_mem _ hφ)
    split
    · exact hnext
    · exact hnext

theorem sinks_removeInner : Sinks t b [.held x, .since b x] (removeInner x) := by
  refine .skip trivial fun r => ?_
  split
  · exact sinks_removeSide
  refine .skip trivial fun l => ?_
  split
  · exact sinks_removeSide
  · exact .ret

theorem sinks_removeNode (hx : x ≠ 0) (hp : p ≠ x) :
    Sinks t b [.held x, .since b x] (removeNode x p) := by
  refine .unlock (J := [.held x, .since b x]) (by simp [Known.node, treeLock, hx]) ?_
  refine .ifLeaf sinks_removeLeaf ?_
  split
  · exact .unlock (J := [.held x, .since b x]) (by simp [Known.node, hp.symm]) sinks_removeInner
  · exact sinks_removeInner

theorem sinks_removeFound : Sinks t b [.since b x] (removeFound x) := by
  refine .parent fun p hx hp => .ifLeaf ?_ (sinks_removeNode hx hp)
  split
  · exact sinks_freeRoot
  · exact sinks_removeNode hx hp

theorem sinks_delSearchSide : Sinks t b [.since b x] (delSearchSide val x d) := by
  refine .skip trivial fun c => ?_
  split
  · exact .unlock (J := []) (by simp) .drop_ret
  refine .skip trivial fun c => .skip (a := .lock c) trivial fun _ => .skip trivial fun c =>
    .skip trivial fun v => ?_
  split
  · refine .child (fun c => [.after b c]) (by simpa using fun c => .since (by simp)) fun c => ?_
    refine .weaken sinks_removeFound fun σ h φ hφ => ?_
    obtain rfl := List.mem_singleton.mp hφ
    exact fun hc => (h (.after b c) (by simp) hc).le
  · refine .unlock (J := [.since b x]) (by simp [Known.node]) ?_
    refine .child (fun c => [.after b c]) (by simpa using fun c => .since (by simp)) fun c => ?_
    exact .call (List.mem_cons_self ..)

theorem sinks_delSearch : Sinks t b [.since b x] (delSearch val x) := by
  refine .skip trivial fun v => ?_
  split
  · exact sinks_removeFound
  refine .skip trivial fun v => ?_
  split
  · exact sinks_delSearchSide
  · exact sinks_delSearchSide

theorem sinks_remove : Sinks t 0 K (remove val) := by
  refine .forget (.skip (a := .lock treeLock) trivial fun _ => .skip trivial fun r => ?_)
  split
  · exact .drop_ret
  refine .skip trivial fun r => .skip (a := .lock r) trivial fun _ => .skip trivial fun v => ?_
  split
  · exact .ifLeaf sinks_freeRoot .call_first
  · exact .call_first

end FineGrained
