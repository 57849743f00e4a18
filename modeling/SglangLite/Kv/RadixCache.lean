import Mathlib.Data.List.Sort
import SglangLite.Kv.Tree

set_option autoImplicit false

namespace SglangLite.Kv

/-- The page geometry fixed by `RadixCache.__init__`. -/
structure CacheConfig where
  blockSize : Nat
  numBlocks : Nat
  blockSize_pos : 0 < blockSize
  numBlocks_pos : 0 < numBlocks

theorem pos_four : 0 < 4 := by decide

theorem pos_eight : 0 < 8 := by decide

def CacheConfig.pages (cfg : CacheConfig) (n : Nat) : Nat :=
  (n+cfg.blockSize-1)/cfg.blockSize

/-- The mutable part of a `RadixCache` whose page slots hold values of type
`V`. `refs` is `_allocated_blocks` with its reference counts, and `free` is
`_free_blocks` with the top of the stack first. The counters that only feed
statistics are left out. -/
structure RadixCache (V : Type) where
  tree : Children
  refs : BlockId → Option Nat
  free : List BlockId
  next : Nat
  pages : BlockId → Nat → V

namespace RadixCache

variable {V : Type}

def empty [Zero V] : RadixCache V where
  tree := .nil
  refs := fun _ => none
  free := []
  next := 0
  pages := fun _ _ => 0

def setRef (c : RadixCache V) (b : BlockId) (r : Option Nat) : RadixCache V :=
  { c with refs := Function.update c.refs b r }

def bump (c : RadixCache V) (b : BlockId) : RadixCache V :=
  match c.refs b with
  | some r => c.setRef b (some (r+1))
  | none => c

def forkBlocks (c : RadixCache V) (ids : List BlockId) : RadixCache V := ids.foldl bump c

/-- The body of the loop in `release_blocks`: drop one reference; the last one
zeroes the page and returns it to the free list. -/
def releaseBlock [Zero V] (c : RadixCache V) (b : BlockId) : RadixCache V :=
  match c.refs b with
  | none => c
  | some r =>
      if r ≤ 1 then
        { c with
          refs := Function.update c.refs b none
          free := b :: c.free
          pages := Function.update c.pages b (fun _ => 0) }
      else c.setRef b (some (r-1))

def releaseLoop [Zero V] (seen : List BlockId) : RadixCache V → List BlockId → RadixCache V
  | c, [] => c
  | c, b :: ids =>
      if b ∈ seen then releaseLoop seen c ids
      else releaseLoop (b :: seen) (c.releaseBlock b) ids

def releaseBlocks [Zero V] (c : RadixCache V) (ids : List BlockId) : RadixCache V :=
  c.releaseLoop [] ids

/-- The pages of a node on which the tree holds the only reference. -/
def isPrivate (c : RadixCache V) (b : BlockId) : Bool :=
  match c.refs b with
  | some r => decide (r ≤ 1)
  | none => false

/-- The inner `walk` of `evict`: childless nodes counted at most once that
list a private page, in the order of the walk. -/
def candidates (c : RadixCache V) : Children → List (Nat × List Token)
  | .nil => []
  | .cons u n k r =>
      (if n.blockIds ≠ [] ∧ n.refCount ≤ 1 ∧ k = .nil ∧ n.blockIds.any c.isPrivate then
        [(n.refCount,[u])] else []) ++
      (candidates c k).map (fun e => (e.1,u :: e.2)) ++ candidates c r

def evictLoop [Zero V] (needed : Nat) :
    List (Nat × List Token) → RadixCache V → Nat → RadixCache V × Nat
  | [], c, evicted => (c,evicted)
  | (_,path) :: rest, c, evicted =>
      if needed ≤ evicted then (c,evicted)
      else
        let blocks := c.tree.blocksAt path
        evictLoop needed rest
          (({ c with tree := c.tree.unlink path }).releaseBlocks blocks) (evicted+blocks.length)

/-- `evict`: the cache afterwards and the number of blocks counted as freed. -/
def evict [Zero V] (c : RadixCache V) (needed : Nat) : RadixCache V × Nat :=
  if needed = 0 then (c,0)
  else
    evictLoop needed ((c.candidates c.tree).insertionSort (fun x y => x.1 ≤ y.1)) c 0

def take (c : RadixCache V) (b : BlockId) : RadixCache V := c.setRef b (some 1)

/-- The loop of `allocate_blocks` with `n` iterations to go; `none` is the
`MemoryError`, after the blocks taken so far are released again. -/
def allocateLoop [Zero V] (cfg : CacheConfig) (count : Nat) :
    Nat → List BlockId → RadixCache V → RadixCache V × Option (List BlockId)
  | 0, ids, c => (c,some ids)
  | n+1, ids, c =>
      match c.free with
      | b :: free => allocateLoop cfg count n (ids ++ [b]) ({ c with free := free }.take b)
      | [] =>
          if cfg.numBlocks ≤ c.next then
            match c.evict (count-ids.length) with
            | (c',freed) =>
                match c'.free with
                | b :: free =>
                    if freed = 0 then (c'.releaseBlocks ids,none)
                    else allocateLoop cfg count n (ids ++ [b]) ({ c' with free := free }.take b)
                | [] => (c'.releaseBlocks ids,none)
          else allocateLoop cfg count n (ids ++ [c.next]) ({ c with next := c.next+1 }.take c.next)

def allocateBlocks [Zero V] (cfg : CacheConfig) (c : RadixCache V) (count : Nat) :
    RadixCache V × Option (List BlockId) :=
  allocateLoop cfg count count [] c

def copyPage (c : RadixCache V) (src dst : BlockId) : RadixCache V :=
  { c with
    pages := Function.update c.pages dst (c.pages src)
    refs := match c.refs src with
      | some r => Function.update c.refs src (some (r-1))
      | none => c.refs }

/-- `cow_block_if_shared`; `none` is the `MemoryError` of its allocation. -/
def cowBlockIfShared [Zero V] (cfg : CacheConfig) (c : RadixCache V) (b : BlockId) :
    RadixCache V × Option BlockId :=
  match c.refs b with
  | none => (c,some b)
  | some r =>
      if r ≤ 1 then (c,some b)
      else
        match c.allocateBlocks cfg 1 with
        | (c',some (new :: _)) => (c'.copyPage b new,some new)
        | (c',_) => (c',none)

structure Match where
  len : Nat := 0
  blockIds : List BlockId := []
  pastKv : Bool := false
  lastLogits : Bool := false
  deriving DecidableEq, Repr

/-- The upward walk of `match_prefix`: the deepest node with committed pages
on the path, and its depth. -/
def deepestCommitted : Children → List Token → Option (RadixNode × Nat)
  | _, [] => none
  | .nil, _ => none
  | .cons u n k r, t :: ts =>
      if u = t then
        match deepestCommitted k ts with
        | some (m,i) => some (m,i+1)
        | none => if n.blockIds = [] then none else some (n,1)
      else deepestCommitted r (t :: ts)

/-- The node `match_prefix` takes its pages from: the deepest one reached, or,
if that has none, the nearest committed ancestor when it is as deep. -/
def matchNode (c : RadixCache V) (q : List Token) : RadixNode × Nat :=
  let w := c.tree.walk {} q
  if w.1.blockIds = [] ∧ 0 < w.2 then
    match deepestCommitted c.tree (q.take w.2) with
    | some (m,i) => if i = w.2 then (m,i) else w
    | none => w
  else w

def matchPrefix (cfg : CacheConfig) (c : RadixCache V) (q : List Token) : RadixCache V × Match :=
  let (node,i) := c.matchNode q
  if 0 < i ∧ cfg.pages i ≤ node.blockIds.length ∧
      ¬ (q.length = i ∧ node.lastLogits = false ∧ node.pastKv = false) then
    let ids := node.blockIds.take (cfg.pages i)
    (c.forkBlocks ids,
      { len := i, blockIds := ids, pastKv := node.pastKv, lastLogits := node.lastLogits })
  else (c,{})

def setBlocks [Zero V] (c : RadixCache V) (path : List Token) (ids : List BlockId) :
    RadixCache V :=
  if c.tree.blocksAt path = ids then c
  else
    let c₁ := c.releaseBlocks (c.tree.blocksAt path)
    let c₂ := c₁.forkBlocks ids
    { c₂ with tree := c₂.tree.update (fun n => { n with blockIds := ids }) path }

def insertOrUpdate [Zero V] (c : RadixCache V) (tokens : List Token) (kv : Bool)
    (ids : List BlockId) (logits : Bool) : RadixCache V :=
  if tokens = [] then c
  else
    let c₁ := { c with tree := c.tree.insertPath tokens }
    let c₂ := c₁.setBlocks tokens ids
    { c₂ with
      tree := c₂.tree.update
        (fun n => { n with pastKv := n.pastKv || kv, lastLogits := n.lastLogits || logits }) tokens }

/-- `write_kv`: the values go to consecutive positions of the page table, from
`start` on. -/
def writeKv (cfg : CacheConfig) (table : List BlockId) :
    RadixCache V → Nat → List V → RadixCache V
  | c, _, [] => c
  | c, pos, v :: vs =>
      match table[pos/cfg.blockSize]? with
      | some b =>
          writeKv cfg table
            { c with
              pages := Function.update c.pages b
                (Function.update (c.pages b) (pos%cfg.blockSize) v) } (pos+1) vs
      | none => c

end RadixCache

end SglangLite.Kv
