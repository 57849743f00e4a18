import Mathlib.Algebra.Group.PUnit
import SglangLite.Kv.Ownership

set_option autoImplicit false

namespace SglangLite.Hybrid
open Kv

/-- One batch row of the official buffers. A position of `kv_cache` is known by
the token that was processed there; `kv_state` and `score_state` run on with
every token that is fed. -/
structure Row where
  kv : Nat → Option Token := fun _ => none
  state : List Token := []

/-- The row as `ts` alone leave it. What is in `kv_cache` beyond them is written
before it is read. -/
structure Row.Holds (row : Row) (ts : List Token) : Prop where
  kv : ∀ k, k < ts.length → row.kv k = ts[k]?
  state : row.state = ts

/-- A forward over `ts` at `start_pos`. -/
def Row.feed (start : Nat) (ts : List Token) (row : Row) : Row where
  kv := fun k => if start ≤ k ∧ k < start+ts.length then ts[k-start]? else row.kv k
  state := row.state ++ ts

def Row.withKv (n : Nat) (kv : Nat → Option Token) (row : Row) : Row :=
  { row with kv := fun k => if k < n then kv k else row.kv k }

theorem Row.Holds.feed {row : Row} {ts new : List Token} (h : row.Holds ts) :
    (row.feed ts.length new).Holds (ts ++ new) := by
  refine ⟨fun k hk => ?_,by simp [Row.feed,h.state]⟩
  rw [List.length_append] at hk
  simp only [Row.feed]
  by_cases hlt : k < ts.length
  · rw [if_neg (by omega),h.kv k hlt,List.getElem?_append_left hlt]
  · rw [if_pos (by omega),List.getElem?_append_right (by omega)]

theorem Row.Holds.withKv {row : Row} {ts : List Token} {n : Nat} {kv : Nat → Option Token}
    (h : row.Holds ts) (hkv : ∀ k, k < n → k < ts.length → kv k = ts[k]?) :
    (row.withKv n kv).Holds ts := by
  refine ⟨fun k hk => ?_,h.state⟩
  simp only [Row.withKv]
  split_ifs with hn
  · exact hkv k hn hk
  · exact h.kv k hk

/-- `DualPoolHandle`. `kv` is what the restore pages hold for it; the number of
layers and the module keys are left out. -/
structure DualPoolHandle where
  swaBlocks : List BlockId := []
  compBlocks : List BlockId := []
  nTokens : Nat := 0
  kv : Nat → Option Token := fun _ => none

/-- `V4PrefixEntry`. `row` is what the CPU snapshot and, for page-primary
entries, the restore pages hold; `buffers` tells whether the snapshot has any
tensor. -/
structure V4PrefixEntry where
  tokenIds : List Token
  lastLogits : Bool := true
  row : Row
  buffers : Bool := true
  swaBlockIds : List BlockId := []
  compBlockIds : List BlockId := []
  dualPoolTokens : Nat := 0
  dualPrimary : Bool := false

abbrev PagePool := RadixCache Unit

variable {V : Type}

/-- Two page tables of their own, as opposed to one list under two names. -/
def distinctTables (swa comp : List BlockId) : Bool := decide (comp ≠ [] ∧ comp ≠ swa)

/-- The fork of both page tables in `insert` and `fork_dual_pool_for_hit`. -/
def forkTables (c : RadixCache V) (swa comp : List BlockId) : RadixCache V × List BlockId × List BlockId :=
  if swa = [] then (c,swa,comp)
  else if distinctTables swa comp then ((c.forkBlocks swa).forkBlocks comp,swa,comp)
  else (c.forkBlocks swa,swa,swa)

variable [Zero V]

def releaseEntryPages (c : RadixCache V) (en : V4PrefixEntry) : RadixCache V :=
  if distinctTables en.swaBlockIds en.compBlockIds then
    (c.releaseBlocks en.swaBlockIds).releaseBlocks en.compBlockIds
  else c.releaseBlocks en.swaBlockIds

/-- The `while` loop of `insert`: the oldest entries go first. -/
def dropOldest (maxEntries : Nat) : RadixCache V → List V4PrefixEntry → RadixCache V × List V4PrefixEntry
  | c, [] => (c,[])
  | c, en :: es =>
      if maxEntries < (en :: es).length then dropOldest maxEntries (releaseEntryPages c en) es
      else (c,en :: es)

def replaceEntry (c : RadixCache V) (en : V4PrefixEntry) :
    List V4PrefixEntry → Option (RadixCache V × List V4PrefixEntry)
  | [] => none
  | old :: es =>
      if old.tokenIds = en.tokenIds then some (releaseEntryPages c old,en :: es)
      else (replaceEntry c en es).map fun r => (r.1,old :: r.2)

/-- `V4PrefixCache.insert`. -/
def insert (maxEntries : Nat) (c : RadixCache V) (es : List V4PrefixEntry) (en : V4PrefixEntry) :
    RadixCache V × List V4PrefixEntry :=
  if en.tokenIds = [] then (c,es)
  else if en.buffers = false ∧ ¬ (en.dualPrimary ∧ en.swaBlockIds ≠ []) then (c,es)
  else
    let (c₁,swa,comp) := forkTables c en.swaBlockIds en.compBlockIds
    let en₁ := { en with swaBlockIds := swa, compBlockIds := comp }
    match replaceEntry c₁ en₁ es with
    | some r => r
    | none => dropOldest maxEntries c₁ (es ++ [en₁])

def matchOne (q : List Token) (best : Option V4PrefixEntry) (en : V4PrefixEntry) :
    Option V4PrefixEntry :=
  let bestLen := match best with
    | some b => b.tokenIds.length
    | none => 0
  if q.take en.tokenIds.length = en.tokenIds ∧ bestLen < en.tokenIds.length then some en else best

/-- `V4PrefixCache.match`: the longest entry that is a prefix of `q`. -/
def matchEntry (es : List V4PrefixEntry) (q : List Token) : Option V4PrefixEntry :=
  es.foldl (matchOne q) none

theorem matchEntry_spec {es : List V4PrefixEntry} {q : List Token} {en : V4PrefixEntry}
    (h : matchEntry es q = some en) :
    en ∈ es ∧ q.take en.tokenIds.length = en.tokenIds ∧ 0 < en.tokenIds.length := by
  have hone : ∀ (best : Option V4PrefixEntry) (x : V4PrefixEntry), matchOne q best x = some en →
      best = some en ∨ x = en ∧ q.take en.tokenIds.length = en.tokenIds ∧ 0 < en.tokenIds.length := by
    intro best x hx
    have hif : ∀ n, (if q.take x.tokenIds.length = x.tokenIds ∧ n < x.tokenIds.length then some x else best) =
        some en → best = some en ∨
          x = en ∧ q.take en.tokenIds.length = en.tokenIds ∧ 0 < en.tokenIds.length := by
      intro n hn
      split at hn
      next hc =>
        obtain rfl := Option.some.inj hn
        exact .inr ⟨rfl,hc.1,Nat.lt_of_le_of_lt (Nat.zero_le _) hc.2⟩
      next => exact .inl hn
    exact hif _ hx
  have key : ∀ (es : List V4PrefixEntry) (best : Option V4PrefixEntry),
      es.foldl (matchOne q) best = some en → best = some en ∨
        en ∈ es ∧ q.take en.tokenIds.length = en.tokenIds ∧ 0 < en.tokenIds.length := by
    intro es
    induction es with
    | nil => exact fun best h => .inl h
    | cons x es ih =>
      intro best h
      rcases ih _ h with h | ⟨hm,hp⟩
      · rcases hone best x h with h | ⟨rfl,hp⟩
        · exact .inl h
        · exact .inr ⟨by simp,hp⟩
      · exact .inr ⟨List.mem_cons_of_mem _ hm,hp⟩
  exact (key es none h).resolve_left (by simp)

/-- `fork_dual_pool_for_hit`. -/
def forkForHit (c : RadixCache V) (en : V4PrefixEntry) : RadixCache V × Option DualPoolHandle :=
  if en.swaBlockIds = [] then (c,none)
  else
    let (c₁,swa,comp) := forkTables c en.swaBlockIds en.compBlockIds
    (c₁,some
      { swaBlocks := swa
        compBlocks := comp
        nTokens := if en.dualPoolTokens = 0 then en.tokenIds.length else en.dualPoolTokens
        kv := en.row.kv })

/-- `release_dual_pool_pages`. -/
def releaseHandle (c : RadixCache V) (h : DualPoolHandle) : RadixCache V :=
  c.releaseBlocks (if h.swaBlocks = [] then h.compBlocks else h.swaBlocks)

/-- `ensure_dual_pool_capacity`; `false` is the `MemoryError`. -/
def ensureCapacity (cfg : CacheConfig) (c : RadixCache V) (h : DualPoolHandle) (n : Nat) :
    RadixCache V × DualPoolHandle × Bool :=
  let need := cfg.pages n
  if need ≤ h.swaBlocks.length then (c,h,true)
  else
    match c.allocateBlocks cfg (need-h.swaBlocks.length) with
    | (c₁,none) => (c₁,h,false)
    | (c₁,some extra) =>
        let swa := h.swaBlocks ++ extra
        if distinctTables h.swaBlocks h.compBlocks then
          if h.compBlocks.length < need then
            match c₁.allocateBlocks cfg (need-h.compBlocks.length) with
            | (c₂,some more) =>
                (c₂,{ h with swaBlocks := swa, compBlocks := h.compBlocks ++ more },true)
            | (c₂,none) => (c₂,{ h with swaBlocks := swa },false)
          else (c₁,{ h with swaBlocks := swa },true)
        else (c₁,{ h with swaBlocks := swa, compBlocks := swa },true)

/-- `dual_write_from_model`; `none` also when the allocation or a write raises,
which the caller catches. -/
def dualWrite (cfg : CacheConfig) (c : PagePool) (row : Row) (n : Nat) (fails : Bool) :
    PagePool × Option DualPoolHandle :=
  if n = 0 then (c,none)
  else
    match c.allocateBlocks cfg (cfg.pages n) with
    | (c₁,none) => (c₁,none)
    | (c₁,some ids) =>
        let h : DualPoolHandle :=
          { swaBlocks := ids
            compBlocks := ids
            nTokens := n
            kv := fun k => if k < n then row.kv k else none }
        if fails then (releaseHandle c₁ h,none) else (c₁,some h)

end SglangLite.Hybrid
