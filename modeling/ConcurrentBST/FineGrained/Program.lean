-- SUMMARY: The functions of Fine_Grained_BST_Lock.cpp as programs of accesses.
import ConcurrentBST.FineGrained.Memory
import ConcurrentBST.Library.RelyGuarantee

/-!
# The fine-grained program

`insert`, `search` and `remove`, one shared access at a time. Recursive calls are
tail calls. `del_search` and the loop that looks for the successor or predecessor
are called from one place each and continue in `remove` where they return. What
the source has twice, once for each side, has the side as a parameter here.
-/

namespace FineGrained

open Threads

inductive Call where
  | insert (val : Int)
  | search (val : Int)
  | remove (val : Int)
deriving DecidableEq, Repr

/-- How a call returns. `search` returns nothing, but prints that it failed. -/
inductive Result where
  | inserted
  | searched (found : Bool)
  | removed (rc : Int)
deriving DecidableEq, Repr

/-- The functions and loops that are entered by a tail call. -/
inductive Fn where
  | search (val : Int) (root : Addr)
  | insert (val : Int) (root : Addr)
  | delSearch (val : Int) (root : Addr)
  | neighbour (node parent curr : Addr) (isLeft : Bool)
deriving DecidableEq, Repr

abbrev Prog := Threads.Prog Act Act.Ret Fn Result

def einval : Int := 22

-- ---------------------------------------------------------------------------
-- search and insert
-- ---------------------------------------------------------------------------

/-- What `search` and `insert` do when `parent` is `NULL`. -/
def enter (empty : Prog) (k : Addr → Prog) : Prog :=
  .act (.lock treeLock) fun _ =>
  .act .root fun r =>
  if r = 0 then empty
  else
    .act .root fun r =>
    .act (.lock r) fun _ =>
    .act .root fun root =>
    .act (.unlock treeLock) fun _ =>
    k root

def searchSide (val : Int) (root : Addr) (isLeft : Bool) : Prog :=
  .act (.child root isLeft) fun c =>
  if c = 0 then
    .act (.unlock root) fun _ =>
    .ret (.searched false)
  else
    .act (.child root isLeft) fun c =>
    .act (.lock c) fun _ =>
    .act (.unlock root) fun _ =>
    .act (.child root isLeft) fun c =>
    .call (.search val c)

/-- `search` from line 27. -/
def searchFrom (val : Int) (root : Addr) : Prog :=
  .act (.value root) fun v =>
  if val < v then searchSide val root true
  else
    .act (.value root) fun v =>
    if val > v then searchSide val root false
    else
      .act (.unlock root) fun _ =>
      .ret (.searched true)

def search (val : Int) : Prog :=
  enter
    (.act (.unlock treeLock) fun _ =>
     .ret (.searched false))
    fun root => .call (.search val root)

def insertSide (val : Int) (root : Addr) (isLeft : Bool) : Prog :=
  .act (.child root isLeft) fun c =>
  if c = 0 then
    .act (.create val root) fun node =>
    .act (.setChild root isLeft node) fun _ =>
    .act (.unlock root) fun _ =>
    .ret .inserted
  else
    .act (.child root isLeft) fun c =>
    .act (.lock c) fun _ =>
    .act (.unlock root) fun _ =>
    .act (.child root isLeft) fun c =>
    .call (.insert val c)

/-- `insert` from line 71. -/
def insertFrom (val : Int) (root : Addr) : Prog :=
  .act (.value root) fun v =>
  if val < v then insertSide val root true
  else
    .act (.value root) fun v =>
    if val > v then insertSide val root false
    else .act .assertFail fun _ => .ret .inserted

def insert (val : Int) : Prog :=
  enter
    (.act (.create val 0) fun node =>
     .act (.setRoot node) fun _ =>
     .act (.unlock treeLock) fun _ =>
     .ret .inserted)
    fun root => .call (.insert val root)

-- ---------------------------------------------------------------------------
-- remove
-- ---------------------------------------------------------------------------

/-- `x->left == NULL && x->right == NULL`. -/
def ifLeaf (x : Addr) (leaf other : Prog) : Prog :=
  .act (.child x true) fun l =>
  if l = 0 then
    .act (.child x false) fun r =>
    if r = 0 then leaf else other
  else other

/-- Lines 189 to 192, and again lines 221 to 224. -/
def freeRoot (root : Addr) : Prog :=
  .act (.free root) fun _ =>
  .act (.setRoot 0) fun _ =>
  .act (.unlock treeLock) fun _ =>
  .ret (.removed 0)

/-- Lines 237 to 242 for the left side, lines 246 to 249 for the right side. -/
def removeLeafSide (node parent : Addr) (isLeft : Bool) : Prog :=
  .act (.free node) fun _ =>
  .act (.setChild parent isLeft 0) fun _ =>
  .act (.unlock parent) fun _ =>
  .ret (.removed 0)

def removeLeaf (node parent : Addr) : Prog :=
  .act (.value node) fun v =>
  .act (.value parent) fun w =>
  if v < w then removeLeafSide node parent true else removeLeafSide node parent false

/-- The neighbour `s` on side `isLeft` of `node` is its child. -/
def removeAdjacent (node : Addr) (isLeft : Bool) (s : Addr) : Prog :=
  .act (.child s isLeft) fun z =>
  if z ≠ 0 then
    .act (.child s isLeft) fun z =>
    .act (.lock z) fun _ =>
    .act (.value s) fun v =>
    .act (.setValue node v) fun _ =>
    .act (.child s isLeft) fun z =>
    .act (.setChild node isLeft z) fun _ =>
    .act (.child s isLeft) fun z =>
    .act (.setParent z node) fun _ =>
    .act (.child s isLeft) fun z =>
    .act (.unlock z) fun _ =>
    .act (.free s) fun _ =>
    .act (.unlock node) fun _ =>
    .ret (.removed 0)
  else
    .act (.value s) fun v =>
    .act (.setValue node v) fun _ =>
    .act (.setChild node isLeft 0) fun _ =>
    .act (.free s) fun _ =>
    .act (.unlock node) fun _ =>
    .ret (.removed 0)

/-- The neighbour `s` on side `isLeft` of `node` is deeper. -/
def removeDeep (node : Addr) (isLeft : Bool) (s : Addr) : Prog :=
  .act (.parent s) fun sp =>
  .act (.child s isLeft) fun z =>
  if z ≠ 0 then
    .act (.child s isLeft) fun z =>
    .act (.lock z) fun _ =>
    .act (.child s isLeft) fun z =>
    .act (.setChild sp (!isLeft) z) fun _ =>
    .act (.child s isLeft) fun z =>
    .act (.setParent z sp) fun _ =>
    .act (.value s) fun v =>
    .act (.setValue node v) fun _ =>
    .act (.child s isLeft) fun z =>
    .act (.unlock z) fun _ =>
    .act (.free s) fun _ =>
    .act (.unlock sp) fun _ =>
    .act (.unlock node) fun _ =>
    .ret (.removed 0)
  else
    .act (.value s) fun v =>
    .act (.setValue node v) fun _ =>
    .act (.setChild sp (!isLeft) 0) fun _ =>
    .act (.free s) fun _ =>
    .act (.unlock sp) fun _ =>
    .act (.unlock node) fun _ =>
    .ret (.removed 0)

/-- The loop of `get_inorder_successor` and `get_inorder_predecessor`. -/
def neighbourFrom (node parent curr : Addr) (isLeft : Bool) : Prog :=
  .act (.child curr (!isLeft)) fun c =>
  if c ≠ 0 then
    .act (.child curr (!isLeft)) fun c =>
    .act (.unlock parent) fun _ =>
    .act (.lock c) fun _ =>
    .act (.parent c) fun parent =>
    .call (.neighbour node parent c isLeft)
  else removeDeep node isLeft curr

def getInorderNeighbour (node : Addr) (isLeft : Bool) : Prog :=
  .act (.child node isLeft) fun parent =>
  .act (.child parent (!isLeft)) fun curr =>
  .act (.lock curr) fun _ =>
  .call (.neighbour node parent curr isLeft)

def getInorderSuccessor (node : Addr) : Prog := getInorderNeighbour node false

def getInorderPredecessor (node : Addr) : Prog := getInorderNeighbour node true

/-- Lines 267 to 326 for the right side, lines 336 to 394 for the left side. -/
def removeSide (node : Addr) (isLeft : Bool) : Prog :=
  .act (.child node isLeft) fun c =>
  .act (.lock c) fun _ =>
  .act (.child node isLeft) fun c =>
  .act (.child c (!isLeft)) fun b =>
  if b = 0 then
    .act (.child node isLeft) fun s =>
    removeAdjacent node isLeft s
  else if isLeft then getInorderPredecessor node
  else getInorderSuccessor node

/-- `remove` from line 265. -/
def removeInner (node : Addr) : Prog :=
  .act (.child node false) fun r =>
  if r ≠ 0 then removeSide node false
  else
    .act (.child node true) fun l =>
    if l ≠ 0 then removeSide node true
    else .ret (.removed (-1))

/-- `remove` from line 227. -/
def removeNode (node parent : Addr) : Prog :=
  .act (.unlock treeLock) fun _ =>
  ifLeaf node
    (removeLeaf node parent)
    (if parent ≠ 0 then
      .act (.unlock parent) fun _ =>
      removeInner node
    else removeInner node)

/-- `remove` from line 212, when `del_search` has returned a node. -/
def removeFound (node : Addr) : Prog :=
  .act (.parent node) fun parent =>
  ifLeaf node
    (if parent = 0 then freeRoot node else removeNode node parent)
    (removeNode node parent)

/-- `remove` from line 203, when `del_search` has returned `NULL`. -/
def removeNotFound : Prog :=
  .act (.unlock treeLock) fun _ =>
  .ret (.removed 0)

def delSearchSide (val : Int) (root : Addr) (isLeft : Bool) : Prog :=
  .act (.child root isLeft) fun c =>
  if c = 0 then
    .act (.unlock root) fun _ =>
    removeNotFound
  else
    .act (.child root isLeft) fun c =>
    .act (.lock c) fun _ =>
    .act (.child root isLeft) fun c =>
    .act (.value c) fun v =>
    if val = v then
      .act (.child root isLeft) fun c =>
      removeFound c
    else
      .act (.unlock root) fun _ =>
      .act (.child root isLeft) fun c =>
      .call (.delSearch val c)

/-- `del_search`. -/
def delSearch (val : Int) (root : Addr) : Prog :=
  .act (.value root) fun v =>
  if val = v then removeFound root
  else
    .act (.value root) fun v =>
    if val < v then delSearchSide val root true else delSearchSide val root false

def remove (val : Int) : Prog :=
  .act (.lock treeLock) fun _ =>
  .act .root fun r =>
  if r = 0 then
    .act (.unlock treeLock) fun _ =>
    .ret (.removed (-einval))
  else
    .act .root fun root =>
    .act (.lock root) fun _ =>
    .act (.value root) fun v =>
    if val = v then
      ifLeaf root (freeRoot root) (.call (.delSearch val root))
    else .call (.delSearch val root)

-- ---------------------------------------------------------------------------
-- The system
-- ---------------------------------------------------------------------------

/-- The fine-grained tree as a language of accesses. -/
def lang : Lang Tid Act Act.Ret Fn Call Result Mem Addr where
  exec := exec
  body
    | .search val root => searchFrom val root
    | .insert val root => insertFrom val root
    | .delSearch val root => delSearch val root
    | .neighbour node parent curr isLeft => neighbourFrom node parent curr isLeft
  start
    | .insert val => insert val
    | .search val => search val
    | .remove val => remove val

/-- The fine-grained tree with any number of threads, each making any calls. -/
abbrev system : Lts (Lang.State Tid Act Act.Ret Fn Call Result Mem) (Tid × Action Call Addr) :=
  lang.system .initial

end FineGrained
