-- SUMMARY: A thread that is alone returns from its calls.
import ConcurrentBST.Library.Termination
import ConcurrentBST.FineGrained.Locking

/-!
# Running alone

A thread that is alone finds every lock free. Until its first write it goes down
the tree, and after that it calls no function any more.
-/

namespace FineGrained

open Threads

variable {s s' : State} {g g' : Ghost} {m m' : Mem} {t u : Tid} {call : Call} {p p' : Prog}
  {a : Act} {x y : Addr} {f : Fn} {P : Fn → Prop} {d : Bool} {k : Int}

/-- The steps of thread `t` in a call, with the answer of `malloc` as label. -/
def stepOf (t : Tid) (s : State) (fresh : Addr) : Option State :=
  system.next s (t, .access fresh)

/-- Thread `t` is at its return. -/
def Returning (t : Tid) (call : Call) (s : State) : Prop :=
  ∃ res, s.thread t = .running call (.ret res)

/-- Thread `t` returns, whatever `malloc` does. -/
def Completes (t : Tid) (call : Call) : State → Prop :=
  Until (stepOf t) (fun _ => True) (Returning t call)

/-- Thread `t` is at `p`, and no other thread is in a call. -/
structure Solo (t : Tid) (call : Call) (p : Prog) (s : State) (g : Ghost) : Prop where
  explains : Explains s g
  others : ∀ u, u ≠ t → s.thread u = .idle
  finite : {a | s.mem.allocated a = true}.Finite
  running : s.thread t = .running call p
  /-- No key is inserted that is there. -/
  allowed : ∀ k, g.phase t = .pending (.insert k) → k ∉ g.keys

-- ---------------------------------------------------------------------------
-- One step
-- ---------------------------------------------------------------------------

theorem allocated_of_exec {i : Addr} {v : a.Ret} (h : exec t a i m = some (v, m'))
    (hx : m'.allocated x = true) : x = i ∨ m.allocated x = true := by
  cases a with
  | create k p =>
    simp only [exec] at h
    split at h <;> cases h
    by_cases hxi : x = i
    · exact .inl hxi
    · exact .inr (by simpa [Mem.alloc, hxi] using hx)
  | free y =>
    cases h
    by_cases hxy : x = y
    · simp [Mem.free, hxy] at hx
    · exact .inr (by simpa [Mem.free, hxy] using hx)
  | lock =>
    simp only [exec] at h
    split at h <;> cases h
    exact .inr hx
  | assertFail => cases h
  | _ =>
    cases h
    exact .inr hx

theorem finite_allocated {l : Tid × Action Call Addr} (h : {a | s.mem.allocated a = true}.Finite)
    (hnext : system.next s l = some s') : {a | s'.mem.allocated a = true}.Finite := by
  obtain ⟨u, act⟩ := l
  cases act <;> simp only [Lang.system, Lang.next] at hnext <;> split at hnext
  · cases hnext
    exact h
  · cases hnext
  · cases hnext
  · next c p _ =>
    obtain ⟨⟨m', p'⟩, hp, rfl⟩ := Option.map_eq_some_iff.mp hnext
    cases p with
    | act a k =>
      obtain ⟨⟨v, _⟩, hexec, heq⟩ := Option.map_eq_some_iff.mp hp
      cases heq
      exact (h.insert _).subset fun x hx => allocated_of_exec hexec hx
    | call f =>
      cases hp
      exact h
    | ret r => cases hp
  · cases hnext
    exact h
  · cases hnext

namespace Solo

theorem idle (h : Solo t call p s g) (hu : u ≠ t) : At u .idle [] .empty ⟨s.mem, g⟩ := by
  have hat := h.explains.thread u
  rwa [h.others u hu] at hat

/-- A lock that is asked for is free. -/
theorem lock_free (h : Solo t call p s g) (hx : x ∈ g.tree.nodes) (ht : s.mem.lock x ≠ some t) :
    s.mem.lock x = none := by
  cases hl : s.mem.lock x with
  | none => rfl
  | some u =>
    have hut : u ≠ t := fun heq => ht (heq ▸ hl)
    simpa using ((h.idle hut).mine x).mp ⟨hl, h.explains.inv.live x hx⟩

theorem perform (h : Solo t call p s g) {fresh : Addr} (hnext : stepOf t s fresh = some s') :
    ∃ p', lang.perform t fresh s.mem p = some (s'.mem, p') ∧
      s'.thread = Function.update s.thread t (.running call p') := by
  simp only [stepOf, Lang.system, Lang.next, h.running] at hnext
  obtain ⟨⟨m', p'⟩, hp, rfl⟩ := Option.map_eq_some_iff.mp hnext
  exact ⟨p', hp, rfl⟩

theorem step (h : Solo t call p s g) {fresh : Addr} (hnext : stepOf t s fresh = some s') :
    ∃ p' g', Solo t call p' s' g' ∧ lang.perform t fresh s.mem p = some (s'.mem, p') := by
  obtain ⟨p', hp, hthread⟩ := h.perform hnext
  obtain ⟨g', hg', hmoves⟩ := h.explains.step sound hnext
  refine ⟨p', g', ⟨hg', fun u hu => ?_, finite_allocated h.finite hnext, ?_, fun k hk => ?_⟩, hp⟩
  · rw [hthread, Function.update_of_ne hu, h.others u hu]
  · rw [hthread, Function.update_self]
  · have hmoves : Moves setObject (none : Option (Event Tid Call Result)) g.keys g.phase g'.keys
        g'.phase := hmoves
    rcases hmoves.none_cases with ⟨hkeys, hphase⟩ | ⟨u, c, r, hu, _, hphase⟩
    · rw [hphase] at hk
      exact hkeys ▸ h.allowed k hk
    · have hut : u = t := by
        by_contra hne
        exact absurd ((h.idle hne).phase.symm.trans hu) (by simp)
      rw [hphase, hut, Function.update_self] at hk
      cases hk

/-- The next access can be made. -/
theorem exists_step (h : Solo t call p s g) (hp : ∀ r, p ≠ .ret r) :
    ∃ fresh, (stepOf t s fresh).isSome := by
  have hnext : ∀ fresh, stepOf t s fresh = (lang.perform t fresh s.mem p).map fun (m, p) =>
      ⟨m, Function.update s.thread t (.running call p)⟩ := fun fresh => by
    simp only [stepOf, Lang.system, Lang.next, h.running]
  cases p with
  | ret r => exact absurd rfl (hp r)
  | call f => exact ⟨0, by rw [hnext]; rfl⟩
  | act a k =>
    have hok := h.explains.ok_at ⟨call, k, h.running⟩
    suffices hex : ∃ fresh, (exec t a fresh s.mem).isSome by
      obtain ⟨fresh, hex⟩ := hex
      refine ⟨fresh, ?_⟩
      rw [hnext, Option.isSome_map]
      exact (Option.isSome_map).trans hex
    cases a with
    | lock x =>
      have hfree : s.mem.lock x = none := h.lock_free hok.1 hok.2.1
      exact ⟨0, by simp [exec, hfree]⟩
    | create v q =>
      obtain ⟨a, ha⟩ := (h.finite.insert 0).exists_notMem
      simp only [Set.mem_insert_iff, Set.mem_ofPred_eq, not_or, Bool.not_eq_true] at ha
      exact ⟨a, by simp [exec, Mem.allocatable, ha.1, ha.2]⟩
    | assertFail =>
      obtain ⟨j, hj, hmem⟩ := hok
      exact absurd hmem (h.allowed j hj)
    | _ => exact ⟨0, rfl⟩

/-- One step, and then what comes after it. -/
theorem completes (h : Solo t call p s g) (hp : ∀ r, p ≠ .ret r)
    (hnext : ∀ fresh s' p' g', Solo t call p' s' g' →
      lang.perform t fresh s.mem p = some (s'.mem, p') → Completes t call s') :
    Completes t call s := by
  refine .step trivial (h.exists_step hp) fun fresh s' hs' => ?_
  obtain ⟨p', g', h', hperform⟩ := h.step hs'
  exact hnext fresh s' p' g' h' hperform

/-- A program without tail calls comes to its end. By induction on the program. -/
theorem completes_straight (h : Solo t call p s g) (hp : p.All (fun _ => True) fun _ => False) :
    Completes t call s := by
  induction p generalizing s g with
  | ret r => exact .done ⟨r, h.running⟩
  | call f => exact hp.elim
  | act a k ih =>
    refine h.completes (by simp) fun fresh s' p' g' h' hperform => ?_
    obtain ⟨⟨v, m'⟩, _, heq⟩ := Option.map_eq_some_iff.mp hperform
    obtain ⟨_, rfl⟩ := Prod.mk.inj heq
    exact ih v h' (hp.2 v)

end Solo

-- ---------------------------------------------------------------------------
-- Walking down
-- ---------------------------------------------------------------------------

/-- What an access returns that writes to no field. -/
@[simp] def Act.reads (m : Mem) : (a : Act) → Option a.Ret
  | .lock _ | .unlock _ => some ()
  | .root => some m.gRoot
  | .value x => some (m.node x).value
  | .child x d => some ((m.node x).child d)
  | .parent x => some (m.node x).parent
  | .setRoot _ | .setValue _ _ | .setChild _ _ _ | .setParent _ _ | .create _ _ | .free _
  | .assertFail => none

/-- The program calls only functions in `P` as long as it has not written, when it
    finds the fields of `m`, and no function after that. -/
@[simp] def Walks (m : Mem) (P : Fn → Prop) : Prog → Prop
  | .act a k =>
      match a.reads m with
      | some v => Walks m P (k v)
      | none => ∀ v, (k v).All (fun _ => True) fun _ => False
  | .call f => P f
  | .ret _ => True

@[simp] theorem walks_ite {c : Prop} [Decidable c] :
    Walks m P (if c then p else p') ↔ if c then Walks m P p else Walks m P p' := by
  split <;> rfl

/-- The fields are those of `m`. -/
def SameFields (m m' : Mem) : Prop := m'.node = m.node ∧ m'.gRoot = m.gRoot

theorem reads_of_same (h : SameFields m m') : a.reads m' = a.reads m := by
  obtain ⟨hn, hr⟩ := h
  cases a <;> simp [hn, hr]

theorem exec_of_reads {i : Addr} {v w : a.Ret} (hr : a.reads m = some w)
    (h : exec t a i m = some (v, m')) : v = w ∧ SameFields m m' := by
  cases a with
  | lock x =>
    simp only [exec] at h
    split at h <;> cases h
    exact ⟨rfl, rfl, rfl⟩
  | unlock | root | value | child | parent =>
    cases h
    cases hr
    exact ⟨rfl, rfl, rfl⟩
  | _ => cases hr

/-- A program that walks down comes to its end if the functions it calls do. By
    induction on the program. -/
theorem Solo.completes_walks (h : Solo t call p s g) (hsame : SameFields m s.mem)
    (hp : Walks m P p) (hcall : ∀ f s g, P f → Solo t call (.call f) s g → SameFields m s.mem →
      Completes t call s) : Completes t call s := by
  induction p generalizing s g with
  | ret r => exact .done ⟨r, h.running⟩
  | call f => exact hcall f s g hp h hsame
  | act a k ih =>
    refine h.completes (by simp) fun fresh s' p' g' h' hperform => ?_
    obtain ⟨⟨v, m'⟩, hexec, heq⟩ := Option.map_eq_some_iff.mp hperform
    obtain ⟨rfl, rfl⟩ := Prod.mk.inj heq
    unfold Walks at hp
    split at hp
    · next w hw =>
      obtain ⟨rfl, hn, hr⟩ := exec_of_reads ((reads_of_same hsame).trans hw) hexec
      exact ih v h' ⟨hn.trans hsame.1, hr.trans hsame.2⟩ hp
    · exact h'.completes_straight (hp v)

/-- The node at which a function is. -/
def Fn.at : Fn → Addr
  | .search _ x | .insert _ x | .delSearch _ x | .neighbour _ _ x _ => x

/-- Child pointers lead down from one node to another. -/
def Mem.Down (m : Mem) : Addr → Addr → Prop :=
  Relation.TransGen fun x y => ∃ d, m.childPtr x d = some y

theorem down_child (h : (m.node x).child d ≠ 0) : m.Down x ((m.node x).child d) :=
  .single ⟨d, if_neg h⟩

/-- What is further down hangs from a smaller tree. -/
theorem Mem.Down.unfolds {tree : BinaryTree Addr} (h : m.Down x y)
    (ht : Unfolds m.childPtr (some x) tree) :
    ∃ tree', Unfolds m.childPtr (some y) tree' ∧ tree'.numNodes < tree.numNodes := by
  have hchild : ∀ {x y d tree}, m.childPtr x d = some y → Unfolds m.childPtr (some x) tree →
      ∃ tree', Unfolds m.childPtr (some y) tree' ∧ tree'.numNodes < tree.numNodes := by
    intro x y d tree hy ht
    cases ht with
    | @node _ l r hl hr =>
      cases d with
      | true => exact ⟨l, hy ▸ hl, by simp only [BinaryTree.numNodes]; omega⟩
      | false => exact ⟨r, hy ▸ hr, by simp only [BinaryTree.numNodes]; omega⟩
  induction h with
  | single hy =>
    obtain ⟨d, hy⟩ := hy
    exact hchild hy ht
  | tail _ hy ih =>
    obtain ⟨d, hy⟩ := hy
    obtain ⟨tree₁, ht₁, hlt₁⟩ := ih
    obtain ⟨tree₂, ht₂, hlt₂⟩ := hchild hy ht₁
    exact ⟨tree₂, ht₂, hlt₂.trans hlt₁⟩

theorem Walks.imp {P' : Fn → Prop} (h : Walks m P p) (hP : ∀ f, P f → P' f) : Walks m P' p := by
  induction p with
  | ret r => trivial
  | call f => exact hP f h
  | act a k ih =>
    unfold Walks at h ⊢
    split
    · next v hv =>
      rw [hv] at h
      exact ih v h
    · next hv =>
      rw [hv] at h
      exact h

theorem walks_removeSide (h0 : (m.node x).child d ≠ 0) :
    Walks m (fun f => m.Down x f.at) (removeSide x d) := by
  have hdown : (m.node ((m.node x).child d)).child (!d) ≠ 0 →
      m.Down x ((m.node ((m.node x).child d)).child (!d)) := fun h =>
    (down_child h0).trans (down_child h)
  cases d <;>
    simpa [removeSide, removeAdjacent, getInorderPredecessor, getInorderSuccessor,
      getInorderNeighbour, Fn.at] using hdown

theorem walks_removeInner : Walks m (fun f => m.Down x f.at) (removeInner x) := by
  simp only [removeInner, Walks, Act.reads, walks_ite]
  split
  · next h => exact walks_removeSide h
  split
  · next h => exact walks_removeSide h
  · trivial

theorem walks_removeFound : Walks m (fun f => m.Down x f.at) (removeFound x) := by
  have hleaf : ∀ {y}, Walks m (fun f => m.Down x f.at) (removeLeaf x y) := by
    simp [removeLeaf, removeLeafSide]
  have hinner := walks_removeInner (m := m) (x := x)
  simp [removeFound, removeNode, freeRoot, ifLeaf, hleaf, hinner]

theorem walks_delSearchSide {k : Int} :
    Walks m (fun f => m.Down x f.at) (delSearchSide k x d) := by
  simp only [delSearchSide, removeNotFound, Walks, Act.reads, walks_ite]
  split
  · trivial
  · next h =>
    have hd := down_child h
    split
    · exact walks_removeFound.imp fun f hf => hd.trans hf
    · exact hd

/-- Every function calls others further down. -/
theorem walks_body (m : Mem) (f : Fn) : Walks m (fun f' => m.Down f.at f'.at) (lang.body f) := by
  cases f with
  | search k x | insert k x =>
    have hdown : ∀ d, (m.node x).child d ≠ 0 → m.Down x ((m.node x).child d) := fun d => down_child
    have hl := hdown true
    have hr := hdown false
    simp [lang, searchFrom, searchSide, insertFrom, insertSide, Fn.at]
    split
    · exact hl
    · exact fun _ => hr
  | delSearch k x =>
    simp only [lang, delSearch, Walks, Act.reads, walks_ite]
    split
    · exact walks_removeFound
    split
    · exact walks_delSearchSide
    · exact walks_delSearchSide
  | neighbour x p s d =>
    simpa [lang, neighbourFrom, removeDeep, Fn.at] using down_child

/-- A call begins at the root. -/
theorem walks_start (m : Mem) (call : Call) :
    Walks m (fun f => m.gRoot ≠ 0 ∧ f.at = m.gRoot) (lang.start call) := by
  cases call <;> simp +contextual [lang, insert, search, remove, enter, freeRoot, ifLeaf, Fn.at]

/-- A function called in a tree comes to its end. By induction on the tree below
    the node at which it is. -/
theorem Solo.completes_call {tree : BinaryTree Addr} (h : Solo t call (.call f) s g)
    (hsame : SameFields m s.mem) (ht : Unfolds m.childPtr (some f.at) tree) :
    Completes t call s := by
  generalize hn : tree.numNodes = n
  induction n using Nat.strong_induction_on generalizing f s g tree with
  | _ n ih =>
    subst hn
    refine h.completes (by simp) fun fresh s' p' g' h' hperform => ?_
    obtain ⟨hm, rfl⟩ := Prod.mk.inj (Option.some.inj hperform)
    refine h'.completes_walks (hm ▸ hsame) (walks_body m f) fun f₁ s₁ g₁ hdown h₁ hsame₁ => ?_
    obtain ⟨tree₁, ht₁, hlt⟩ := hdown.unfolds ht
    exact ih _ hlt h₁ hsame₁ ht₁ rfl

/-- A call in a tree comes to its end. -/
theorem Solo.completes_start {tree : BinaryTree Addr} (h : Solo t call (lang.start call) s g)
    (ht : Unfolds s.mem.childPtr (ptr s.mem.gRoot) tree) : Completes t call s := by
  refine h.completes_walks ⟨rfl, rfl⟩ (walks_start s.mem call) fun f s₁ g₁ hf h₁ hsame₁ => ?_
  obtain ⟨h0, hat⟩ := hf
  have htree : Unfolds s.mem.childPtr (some f.at) tree := by
    rw [hat]
    rwa [ptr, if_neg h0] at ht
  exact h₁.completes_call hsame₁ htree

end FineGrained
