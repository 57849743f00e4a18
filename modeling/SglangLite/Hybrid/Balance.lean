import SglangLite.Transition
import SglangLite.Kv.Counted
import SglangLite.Hybrid.PrefixCache

set_option autoImplicit false

namespace SglangLite.Hybrid
open Kv

abbrev PoolId := Nat

abbrev Ledger := PoolId → BlockId → Int

def counts (pools : PoolId → PagePool) : Ledger := fun k b => ((pools k).refs b).getD 0

def oneEach (k : PoolId) (ids : List BlockId) : Ledger :=
  fun k' b => if k' = k ∧ b ∈ ids then 1 else 0

structure Stored where
  entry : V4PrefixEntry
  took : Ledger

structure Lent where
  handle : DualPoolHandle
  pool : PoolId
  took : Ledger

/-- A `V4PrefixCache` over several page pools, one of which may be bound. `held`
sums up what its own calls did to the reference counts; `returned` has, for
every entry dropped and every handle released, the references it had taken and
those that were given back. -/
structure Store where
  maxEntries : Nat
  radix : Option PoolId := none
  pools : PoolId → PagePool
  entries : List Stored := []
  handles : List Lent := []
  held : Ledger := 0
  returned : List (Ledger × Ledger) := []

/-- The fork of both page tables in `insert`, if a pool is bound. -/
def forkBound (radix : Option PoolId) (pools : PoolId → PagePool) (swa comp : List BlockId) :
    (PoolId → PagePool) × List BlockId × List BlockId :=
  match radix with
  | none => (pools,swa,comp)
  | some k =>
      let (c,swa,comp) := forkTables (pools k) swa comp
      (Function.update pools k c,swa,comp)

/-- `_release_entry_pages`. -/
def releaseBound (radix : Option PoolId) (pools : PoolId → PagePool) (en : V4PrefixEntry) :
    PoolId → PagePool :=
  match radix with
  | none => pools
  | some k => Function.update pools k (releaseEntryPages (pools k) en)

namespace Store

def drop (s : Store) (e : Stored) : Store :=
  let pools := releaseBound s.radix s.pools e.entry
  { s with
    pools := pools
    held := s.held + (counts pools - counts s.pools)
    returned := (e.took,counts s.pools - counts pools) :: s.returned }

/-- The `while` loop of `insert`. -/
def dropOldest : Store → List Stored → Store
  | s, [] => { s with entries := [] }
  | s, e :: es =>
      if s.maxEntries < (e :: es).length then dropOldest (s.drop e) es
      else { s with entries := e :: es }

/-- The end of `insert`: the new entry replaces the one with its tokens, or
goes to the end. -/
def put (s : Store) (new : Stored) : Store :=
  match s.entries.findIdx? (fun e => e.entry.tokenIds = new.entry.tokenIds) with
  | some i =>
      match s.entries[i]? with
      | some old => { s.drop old with entries := s.entries.set i new }
      | none => s
  | none => s.dropOldest (s.entries ++ [new])

/-- `insert` does not return at once. -/
def Accepts (en : V4PrefixEntry) : Prop :=
  en.tokenIds ≠ [] ∧ ¬ (en.buffers = false ∧ ¬ (en.dualPrimary ∧ en.swaBlockIds ≠ []))

instance (en : V4PrefixEntry) : Decidable (Accepts en) := inferInstanceAs (Decidable (_ ∧ _))

/-- `V4PrefixCache.insert`. -/
def insert (s : Store) (en : V4PrefixEntry) : Store :=
  if Accepts en then
    let (pools,swa,comp) := forkBound s.radix s.pools en.swaBlockIds en.compBlockIds
    let took := counts pools - counts s.pools
    put { s with pools := pools, held := s.held + took }
      ⟨{ en with swaBlockIds := swa, compBlockIds := comp },took⟩
  else s

/-- `V4PrefixCache.clear`. -/
def clear (s : Store) : Store := { s.entries.foldl drop s with entries := [] }

/-- `fork_dual_pool_for_hit` for the entry at `i`. -/
def fork (s : Store) (i : Nat) : Store :=
  match s.radix, s.entries[i]? with
  | some k, some e =>
      match forkForHit (s.pools k) e.entry with
      | (_,none) => s
      | (c,some h) =>
          let pools := Function.update s.pools k c
          { s with
            pools := pools
            handles := s.handles ++ [⟨h,k,counts pools - counts s.pools⟩] }
  | _, _ => s

/-- `release_dual_pool_pages` for the handle at `j`, called with the pool `k`. -/
def release (s : Store) (k : PoolId) (j : Nat) : Store :=
  match s.handles[j]? with
  | none => s
  | some l =>
      let pools := Function.update s.pools k (releaseHandle (s.pools k) l.handle)
      { s with
        pools := pools
        handles := s.handles.eraseIdx j
        returned := (l.took,counts s.pools - counts pools) :: s.returned }

end Store

inductive Call where
  | bind (radix : Option PoolId)
  | insert (en : V4PrefixEntry)
  | lookup (q : List Token)
  | fork (i : Nat)
  | release (k : PoolId) (j : Nat)
  | clear
  | others (k : PoolId) (c : PagePool)

namespace Store

def step (s : Store) : Call → Option Store
  | .bind radix => some { s with radix := radix }
  | .insert en => some (s.insert en)
  | .lookup _ => some s
  | .fork i => some (s.fork i)
  | .release k j => some (s.release k j)
  | .clear => some s.clear
  | .others k c => some { s with pools := Function.update s.pools k c }

end Store

section View

variable {s : Store} {k : PoolId}

def Store.view (s : Store) (k : PoolId) : PagePool × List V4PrefixEntry :=
  (s.pools k,s.entries.map Stored.entry)

theorem drop_pools (hk : s.radix = some k) (e : Stored) :
    (s.drop e).pools k = releaseEntryPages (s.pools k) e.entry := by
  simp [Store.drop,releaseBound,hk]

theorem dropOldest_view (hk : s.radix = some k) (es : List Stored) :
    (s.dropOldest es).view k
      = Hybrid.dropOldest s.maxEntries (s.pools k) (es.map Stored.entry) := by
  induction es generalizing s with
  | nil => rfl
  | cons e es ih =>
    have hdrop : (s.drop e).radix = some k := hk
    simp only [Store.dropOldest,Hybrid.dropOldest,List.map_cons,List.length_cons,List.length_map]
    split_ifs with hlen
    · rw [ih hdrop,drop_pools hk]
      rfl
    · rfl

theorem replaceEntry_eq (c : PagePool) (en : V4PrefixEntry) (es : List V4PrefixEntry) :
    replaceEntry c en es = (es.findIdx? fun e => e.tokenIds = en.tokenIds).bind fun i =>
      es[i]?.map fun old => (releaseEntryPages c old,es.set i en) := by
  induction es with
  | nil => rfl
  | cons old es ih =>
    simp only [replaceEntry,List.findIdx?_cons]
    by_cases h : old.tokenIds = en.tokenIds
    · simp [h]
    · simp only [h,if_false,decide_false,Bool.false_eq_true,ih]
      cases hf : es.findIdx? (fun e => decide (e.tokenIds = en.tokenIds)) with
      | none => simp
      | some i => cases hi : es[i]? <;> simp [hi]

theorem insert_view (hk : s.radix = some k) (en : V4PrefixEntry) :
    (s.insert en).view k
      = Hybrid.insert s.maxEntries (s.pools k) (s.entries.map Stored.entry) en := by
  unfold Store.insert Hybrid.insert
  by_cases htok : en.tokenIds = []
  · rw [if_neg (fun hacc => hacc.1 htok),if_pos htok]
    rfl
  rw [if_neg htok]
  by_cases hbuf : en.buffers = false ∧ ¬ (en.dualPrimary ∧ en.swaBlockIds ≠ [])
  · rw [if_neg (fun hacc => hacc.2 hbuf),if_pos hbuf]
    rfl
  have hacc : Store.Accepts en := ⟨htok,hbuf⟩
  rw [if_pos hacc,if_neg hbuf]
  simp only [forkBound,hk,Store.put,replaceEntry_eq,List.findIdx?_map,Function.comp_def,
    List.getElem?_map]
  cases hf : s.entries.findIdx? (fun e => decide (e.entry.tokenIds = en.tokenIds)) with
  | none =>
    simp only [Option.bind_none]
    rw [dropOldest_view rfl]
    simp
  | some i =>
    obtain ⟨hi,_⟩ := List.findIdx?_eq_some_iff_getElem.mp hf
    simp [List.getElem?_eq_getElem hi,Store.view,drop_pools,List.map_set]

end View

section Tables

def tables (swa comp : List BlockId) : List BlockId :=
  if distinctTables swa comp then swa ++ comp else swa

def V4PrefixEntry.tables (en : V4PrefixEntry) : List BlockId :=
  Hybrid.tables en.swaBlockIds en.compBlockIds

def DualPoolHandle.tables (h : DualPoolHandle) : List BlockId :=
  Hybrid.tables h.swaBlocks h.compBlocks

variable {c : PagePool} {swa comp : List BlockId}

theorem tables_self (swa : List BlockId) : tables swa swa = swa := by
  simp [tables,distinctTables]

theorem tables_nil (h : comp = []) : tables swa comp = swa := by
  simp [tables,distinctTables,h]

theorem forkTables_refs (hn : (tables swa comp).Nodup) (hs : swa = [] → comp = [])
    (ha : ∀ b ∈ tables swa comp, c.refs b ≠ none) (b : BlockId) :
    (((forkTables c swa comp).1.refs b).getD 0 : Int)
      = (c.refs b).getD 0+if b ∈ tables swa comp then 1 else 0 := by
  have hcount : ∀ ids : List BlockId, ids = tables swa comp →
      ((((c.refs b).map (· + ids.count b)).getD 0 : Nat) : Int)
        = (c.refs b).getD 0+if b ∈ tables swa comp then 1 else 0 := by
    rintro ids rfl
    by_cases hb : b ∈ tables swa comp
    · obtain ⟨r,hr⟩ := Option.ne_none_iff_exists'.mp (ha b hb)
      simp [hr,hb,List.count_eq_one_of_mem hn hb]
    · simp [hb,List.count_eq_zero.mpr hb]
  unfold forkTables
  by_cases h0 : swa = []
  · rw [if_pos h0]
    simp [tables_nil (hs h0),h0]
  · rw [if_neg h0]
    by_cases hd : distinctTables swa comp = true
    · rw [if_pos hd]
      simp only [RadixCache.forkBlocks_refs,Option.map_map]
      rw [← hcount (swa ++ comp) (by simp [tables,hd])]
      simp only [Function.comp_def,List.count_append,Nat.add_assoc]
    · rw [if_neg hd]
      simp only [RadixCache.forkBlocks_refs]
      exact hcount swa (by simp [tables,hd])

theorem forkTables_tables (c : PagePool) (swa comp : List BlockId) :
    tables (forkTables c swa comp).2.1 (forkTables c swa comp).2.2 = tables swa comp := by
  unfold forkTables
  by_cases h0 : swa = []
  · rw [if_pos h0]
  · rw [if_neg h0]
    by_cases hd : distinctTables swa comp = true
    · rw [if_pos hd]
    · rw [if_neg hd,tables_self]
      simp [tables,hd]

theorem dropRef_getD {o : Option Nat} (h : 1 ≤ o.getD 0) :
    ((RadixCache.dropRef o).getD 0 : Int) = o.getD 0-1 := by
  cases o with
  | none => simp at h
  | some r =>
    simp only [Option.getD_some] at h
    simp only [RadixCache.dropRef]
    split_ifs with h1
    · obtain rfl : r = 1 := by omega
      simp
    · simp only [Option.getD_some]
      omega

theorem releaseBlocks_getD {ids : List BlockId} (ha : ∀ b ∈ ids, 1 ≤ (c.refs b).getD 0) (b : BlockId) :
    (((c.releaseBlocks ids).refs b).getD 0 : Int)
      = (c.refs b).getD 0-if b ∈ ids then 1 else 0 := by
  rw [RadixCache.releaseBlocks_refs]
  by_cases hb : b ∈ ids
  · simp only [hb,if_true]
    exact dropRef_getD (ha b hb)
  · simp [hb]

/-- Dropping an entry gives back one reference on every page of both tables. -/
theorem releaseEntryPages_refs {en : V4PrefixEntry} (hn : en.tables.Nodup)
    (ha : ∀ b ∈ en.tables, 1 ≤ (c.refs b).getD 0) (b : BlockId) :
    (((releaseEntryPages c en).refs b).getD 0 : Int)
      = (c.refs b).getD 0-if b ∈ en.tables then 1 else 0 := by
  unfold releaseEntryPages
  unfold V4PrefixEntry.tables tables at hn ha ⊢
  by_cases hd : distinctTables en.swaBlockIds en.compBlockIds = true
  · simp only [hd,if_true] at hn ha ⊢
    obtain ⟨hswa,hcomp,hdis⟩ := List.nodup_append.mp hn
    have hfirst := releaseBlocks_getD (fun x hx => ha x (List.mem_append_left _ hx))
    have hsep : ∀ x ∈ en.compBlockIds, x ∉ en.swaBlockIds :=
      fun x hx hx' => hdis x hx' x hx rfl
    rw [releaseBlocks_getD,hfirst b]
    · by_cases hb : b ∈ en.compBlockIds
      · simp [hb,hsep b hb]
      · simp [hb]
    · intro x hx
      have h1 := ha x (List.mem_append_right _ hx)
      have h2 := hfirst x
      simp only [hsep x hx,if_false] at h2
      omega
  · simp only [hd] at hn ha ⊢
    exact releaseBlocks_getD ha b

end Tables

section Books

def handed (ls : List Lent) : Ledger := fun k b => (ls.map fun l => l.took k b).sum

def Stored.Kept (radix : Option PoolId) (e : Stored) : Prop :=
  match radix with
  | none => e.took = 0
  | some k => e.took = oneEach k e.entry.tables ∧ e.entry.tables.Nodup

structure Lent.Kept (l : Lent) : Prop where
  took : l.took = oneEach l.pool l.handle.tables
  nodup : l.handle.tables.Nodup
  pages : l.handle.swaBlocks ≠ []

structure Books (s : Store) (es : List Stored) : Prop where
  held : ∀ k b, s.held k b =
    if s.radix = some k then (es.countP (fun e => b ∈ e.entry.tables) : Int) else 0
  kept : ∀ e ∈ es, e.Kept s.radix
  lent : ∀ l ∈ s.handles, l.Kept
  cover : ∀ k b, s.held k b+handed s.handles k b ≤ counts s.pools k b
  returned : ∀ r ∈ s.returned, r.1 = r.2

variable {s : Store} {es : List Stored}

theorem counts_update (pools : PoolId → PagePool) (k k' : PoolId) (c : PagePool) (b : BlockId) :
    counts (Function.update pools k c) k' b =
      if k' = k then ((c.refs b).getD 0 : Int) else counts pools k' b := by
  unfold counts
  by_cases hk : k' = k
  · subst hk
    simp
  · simp [hk]

theorem oneEach_self (k : PoolId) (ids : List BlockId) (b : BlockId) :
    oneEach k ids k b = if b ∈ ids then 1 else 0 := by simp [oneEach]

theorem forkTables_counts {pools : PoolId → PagePool} {k : PoolId} {swa comp : List BlockId}
    (hn : (tables swa comp).Nodup) (hs : swa = [] → comp = [])
    (ha : ∀ b ∈ tables swa comp, (pools k).refs b ≠ none) :
    counts (Function.update pools k (forkTables (pools k) swa comp).1)-counts pools
      = oneEach k (tables swa comp) := by
  funext k' b
  simp only [Pi.sub_apply,counts_update]
  by_cases hk : k' = k
  · subst hk
    rw [if_pos rfl,forkTables_refs hn hs ha,oneEach_self]
    simp only [counts,add_sub_cancel_left]
  · simp [hk,oneEach]

theorem oneEach_nil (k : PoolId) : oneEach k [] = 0 := by
  funext k' b
  simp [oneEach]

theorem Lent.Kept.nonneg {l : Lent} (h : l.Kept) (k : PoolId) (b : BlockId) : 0 ≤ l.took k b := by
  rw [h.took]
  unfold oneEach
  split_ifs <;> omega

theorem handed_nonneg {ls : List Lent} (h : ∀ l ∈ ls, l.Kept) (k : PoolId) (b : BlockId) :
    0 ≤ handed ls k b := by
  refine List.sum_nonneg fun x hx => ?_
  obtain ⟨l,hl,rfl⟩ := List.mem_map.mp hx
  exact (h l hl).nonneg k b

theorem handed_eraseIdx {ls : List Lent} {j : Nat} {l : Lent} (h : ls[j]? = some l) (k : PoolId)
    (b : BlockId) : handed ls k b = l.took k b+handed (ls.eraseIdx j) k b := by
  obtain ⟨hj,rfl⟩ := List.getElem?_eq_some_iff.mp h
  have hp := (List.getElem_cons_eraseIdx_perm hj).map fun l => l.took k b
  unfold handed
  rw [← hp.sum_eq]
  simp

theorem Books.perm {es' : List Stored} (h : Books s es) (hp : es.Perm es') : Books s es' := by
  refine ⟨fun k b => ?_,fun e he => h.kept e (hp.mem_iff.mpr he),h.lent,h.cover,h.returned⟩
  rw [h.held k b,hp.countP_eq]

theorem Books.covered {k : PoolId} {e : Stored} (h : Books s es) (hk : s.radix = some k)
    (he : e ∈ es) : ∀ b ∈ e.entry.tables, 1 ≤ ((s.pools k).refs b).getD 0 := by
  intro b hb
  have hheld := h.held k b
  have hpos : 0 < es.countP (fun e => b ∈ e.entry.tables) :=
    List.countP_pos_iff.mpr ⟨e,he,by simpa using hb⟩
  have hcover := h.cover k b
  have hout := handed_nonneg h.lent k b
  simp only [hk,if_true] at hheld
  simp only [counts] at hcover
  omega

theorem Books.releaseBound {e : Stored} (h : Books s es) (he : e ∈ es) :
    counts (releaseBound s.radix s.pools e.entry) = counts s.pools-e.took := by
  have hkept := h.kept e he
  funext k' b
  cases hr : s.radix with
  | none =>
    rw [hr] at hkept
    have : e.took = 0 := hkept
    simp [Hybrid.releaseBound,this]
  | some k =>
    rw [hr] at hkept
    obtain ⟨htook,hn⟩ := hkept
    simp only [Hybrid.releaseBound,counts_update,Pi.sub_apply,htook]
    by_cases hk : k' = k
    · subst hk
      rw [if_pos rfl,releaseEntryPages_refs hn (h.covered hr he),oneEach_self]
      rfl
    · simp [hk,oneEach]

theorem Stored.Kept.took_apply {radix : Option PoolId} {e : Stored} (h : e.Kept radix)
    (k : PoolId) (b : BlockId) :
    e.took k b = if radix = some k then (if b ∈ e.entry.tables then 1 else 0) else 0 := by
  cases radix with
  | none =>
    have : e.took = 0 := h
    simp [this]
  | some k' =>
    rw [h.1]
    by_cases hk : k' = k
    · subst hk
      simp [oneEach]
    · simp [oneEach,hk,Ne.symm hk]

theorem Books.drop {e : Stored} (h : Books s (e :: es)) : Books (s.drop e) es := by
  have hrel := h.releaseBound List.mem_cons_self
  have hsum : (s.drop e).held = s.held-e.took := by
    simp only [Store.drop,hrel]
    funext k b
    simp only [Pi.add_apply,Pi.sub_apply]
    omega
  refine ⟨fun k b => ?_,fun e' he' => h.kept e' (List.mem_cons_of_mem _ he'),h.lent,
    fun k b => ?_,fun r hr => ?_⟩
  · rw [hsum,Pi.sub_apply,Pi.sub_apply,h.held k b,(h.kept e List.mem_cons_self).took_apply,
      List.countP_cons]
    show _ = if s.radix = some k then _ else 0
    by_cases hk : s.radix = some k
    · by_cases hb : b ∈ e.entry.tables <;> simp [hk,hb]
    · simp [hk]
  · have hcover := h.cover k b
    rw [hsum]
    simp only [Store.drop,hrel,Pi.sub_apply]
    omega
  · rcases List.mem_cons.mp hr with rfl | hr
    · simp only [hrel,sub_sub_cancel]
    · exact h.returned r hr

theorem Books.add {new : Stored} {pools : PoolId → PagePool} (h : Books s es)
    (hk : new.Kept s.radix) (hp : counts pools-counts s.pools = new.took) :
    Books { s with pools := pools, held := s.held+new.took } (new :: es) := by
  refine ⟨fun k b => ?_,fun e he => ?_,h.lent,fun k b => ?_,h.returned⟩
  · simp only [Pi.add_apply]
    rw [h.held k b,hk.took_apply,List.countP_cons]
    by_cases hr : s.radix = some k
    · by_cases hb : b ∈ new.entry.tables <;> simp [hr,hb]
    · simp [hr]
  · rcases List.mem_cons.mp he with rfl | he
    · exact hk
    · exact h.kept e he
  · have hcover := h.cover k b
    have := congrFun (congrFun hp k) b
    simp only [Pi.sub_apply] at this
    simp only [Pi.add_apply]
    omega

theorem Books.stored (h : Books s es) (es' : List Stored) : Books { s with entries := es' } es :=
  ⟨h.held,h.kept,h.lent,h.cover,h.returned⟩

theorem Books.dropOldest (h : Books s es) :
    Books (s.dropOldest es) (s.dropOldest es).entries := by
  induction es generalizing s with
  | nil => exact h.stored []
  | cons e es ih =>
    simp only [Store.dropOldest]
    split_ifs with hlen
    · exact ih h.drop
    · exact h.stored (e :: es)

theorem Books.put {new : Stored} (h : Books s (new :: s.entries)) :
    Books (s.put new) (s.put new).entries := by
  unfold Store.put
  cases hf : s.entries.findIdx? (fun e => e.entry.tokenIds = new.entry.tokenIds) with
  | none => exact (h.perm (List.perm_append_singleton new s.entries).symm).dropOldest
  | some i =>
    obtain ⟨hi,_⟩ := List.findIdx?_eq_some_iff_getElem.mp hf
    simp only [List.getElem?_eq_getElem hi]
    have hold := List.getElem_cons_eraseIdx_perm hi
    have hnew := List.set_perm_cons_eraseIdx hi new
    have hswap : (new :: s.entries).Perm (s.entries[i] :: (s.entries.set i new)) :=
      (List.Perm.cons new hold.symm).trans ((List.Perm.swap _ _ _).trans (hnew.symm.cons _))
    exact (h.perm hswap).drop.stored _

theorem Books.clear (h : Books s s.entries) : Books s.clear s.clear.entries := by
  have key : ∀ (es : List Stored) (s : Store), Books s es → Books (es.foldl Store.drop s) [] := by
    intro es
    induction es with
    | nil => exact fun _ h => h
    | cons e es ih => exact fun _ h => ih _ h.drop
  exact (key _ _ h).stored []

/-- What an entry has to be for the pool bound when it is inserted: its pages
are distinct and allocated, and it has a window table if it has any. -/
structure Fit (s : Store) (en : V4PrefixEntry) : Prop where
  nodup : en.tables.Nodup
  swa : en.swaBlockIds = [] → en.compBlockIds = []
  allocated : ∀ k, s.radix = some k → ∀ b ∈ en.tables, (s.pools k).refs b ≠ none

theorem Books.insert {en : V4PrefixEntry} (h : Books s s.entries)
    (hfit : Store.Accepts en → s.radix ≠ none → Fit s en) :
    Books (s.insert en) (s.insert en).entries := by
  unfold Store.insert
  split_ifs with hacc
  · refine Books.put ?_
    let r := forkBound s.radix s.pools en.swaBlockIds en.compBlockIds
    have hnew : Stored.Kept s.radix ⟨{ en with swaBlockIds := r.2.1, compBlockIds := r.2.2 },
        counts r.1-counts s.pools⟩ := by
      simp only [r]
      cases hr : s.radix with
      | none => exact sub_self (counts s.pools)
      | some k =>
        have hfit := hfit hacc (by simp [hr])
        have htook := forkTables_counts hfit.nodup hfit.swa (hfit.allocated k hr)
        have htab := forkTables_tables (s.pools k) en.swaBlockIds en.compBlockIds
        simp only [Stored.Kept,forkBound,V4PrefixEntry.tables,htab]
        exact ⟨htook,hfit.nodup⟩
    exact h.add hnew rfl
  · exact h

theorem Books.fork (i : Nat) (h : Books s s.entries) : Books (s.fork i) (s.fork i).entries := by
  unfold Store.fork
  cases hr : s.radix with
  | none => exact h
  | some k =>
    cases he : s.entries[i]? with
    | none => exact h
    | some e =>
      have hmem := List.mem_of_getElem? he
      have hkept := h.kept e hmem
      rw [hr] at hkept
      obtain ⟨_,hn⟩ := hkept
      have hcov := h.covered hr hmem
      simp only [forkForHit]
      by_cases h0 : e.entry.swaBlockIds = []
      · rw [if_pos h0]
        exact h
      rw [if_neg h0]
      have htab := forkTables_tables (s.pools k) e.entry.swaBlockIds e.entry.compBlockIds
      have halloc : ∀ b ∈ e.entry.tables, (s.pools k).refs b ≠ none := by
        intro b hb hnone
        have := hcov b hb
        simp [hnone] at this
      have htook := forkTables_counts hn (fun hnil => absurd hnil h0) halloc
      simp only [htook]
      refine ⟨?_,fun e' he' => ?_,fun l hl => ?_,fun k' b => ?_,h.returned⟩
      · rw [← hr]
        exact h.held
      · rw [← hr]
        exact h.kept e' he'
      · rcases List.mem_append.mp hl with hl | hl
        · exact h.lent l hl
        · obtain rfl := List.mem_singleton.mp hl
          refine ⟨?_,?_,?_⟩
          · simp only [DualPoolHandle.tables,htab]
          · simp only [DualPoolHandle.tables,htab]
            exact hn
          · simp only [forkTables,h0,if_false]
            split_ifs <;> exact h0
      · have hcover := h.cover k' b
        have := congrFun (congrFun htook k') b
        simp only [Pi.sub_apply] at this
        simp only [handed,List.map_append,List.sum_append,List.map_cons,List.map_nil,
          List.sum_cons,List.sum_nil] at hcover ⊢
        omega

theorem Books.release {k : PoolId} {j : Nat} (h : Books s s.entries)
    (hgood : ∀ l, s.handles[j]? = some l →
      l.pool = k ∧ distinctTables l.handle.swaBlocks l.handle.compBlocks = false) :
    Books (s.release k j) (s.release k j).entries := by
  unfold Store.release
  cases hl : s.handles[j]? with
  | none => exact h
  | some l =>
    obtain ⟨rfl,hd⟩ := hgood l hl
    have hkept := h.lent l (List.mem_of_getElem? hl)
    have htab : l.handle.tables = l.handle.swaBlocks := by
      simp [DualPoolHandle.tables,tables,hd]
    have hsplit := handed_eraseIdx hl
    have hrest : ∀ l' ∈ s.handles.eraseIdx j, l'.Kept :=
      fun l' hl' => h.lent l' (List.mem_of_mem_eraseIdx hl')
    have hcov : ∀ b ∈ l.handle.swaBlocks, 1 ≤ ((s.pools l.pool).refs b).getD 0 := by
      intro b hb
      have h1 := h.cover l.pool b
      have h2 := h.held l.pool b
      have h3 := hsplit l.pool b
      have h4 := handed_nonneg hrest l.pool b
      have h5 : (0 : Int) ≤ s.held l.pool b := by
        rw [h2]
        split_ifs <;> omega
      rw [hkept.took,oneEach_self,htab,if_pos hb] at h3
      simp only [counts] at h1
      omega
    have hgave : counts (Function.update s.pools l.pool (releaseHandle (s.pools l.pool) l.handle))
        = counts s.pools-l.took := by
      funext k' b
      rw [hkept.took,htab]
      simp only [Pi.sub_apply,counts_update]
      by_cases hk : k' = l.pool
      · subst hk
        rw [if_pos rfl,oneEach_self]
        simp only [releaseHandle,hkept.pages,if_false]
        rw [releaseBlocks_getD hcov]
        rfl
      · simp [hk,oneEach]
    simp only [hgave]
    refine ⟨h.held,h.kept,hrest,fun k' b => ?_,fun r hr => ?_⟩
    · have hcover := h.cover k' b
      have hk := hsplit k' b
      have hb := congrFun (congrFun hgave k') b
      simp only [Pi.sub_apply] at hb ⊢
      omega
    · rcases List.mem_cons.mp hr with rfl | hr
      · simp only [sub_sub_cancel]
      · exact h.returned r hr

theorem Books.bind {radix : Option PoolId} (h : Books s s.entries)
    (hgood : radix = s.radix ∨ ∀ e ∈ s.entries, e.entry.tables = []) :
    Books { s with radix := radix } s.entries := by
  rcases hgood with rfl | hempty
  · exact h
  have hcount : ∀ b, s.entries.countP (fun e => b ∈ e.entry.tables) = 0 := by
    intro b
    refine List.countP_eq_zero.mpr fun e he => ?_
    simp [hempty e he]
  refine ⟨fun k b => ?_,fun e he => ?_,h.lent,h.cover,h.returned⟩
  · have hheld := h.held k b
    simp only [hcount] at hheld ⊢
    simp only [hheld]
    split_ifs <;> rfl
  · have hkept := h.kept e he
    have htook : e.took = 0 := by
      cases hr : s.radix with
      | none => rw [hr] at hkept; exact hkept
      | some k =>
        rw [hr] at hkept
        rw [hkept.1,hempty e he,oneEach_nil]
    cases radix with
    | none => exact htook
    | some k => exact ⟨by rw [htook,hempty e he,oneEach_nil],by simp [hempty e he]⟩

end Books

section Runs

open Transition

/-- The cache holds one reference on a page for each of its entries that has the
page in a table, and every entry and every handle gave back what it took. A cache
that is bound to no pool takes no references, so its balance reads 0. -/
structure Balanced (s : Store) : Prop where
  held : ∀ k b, s.held k b =
    if s.radix = some k then (s.entries.countP (fun e => b ∈ e.entry.tables) : Int) else 0
  returned : ∀ r ∈ s.returned, r.1 = r.2

/-- The calls that keep the balance. A pool is only replaced while no entry has
pages, an entry fits the pool bound when it is inserted, a handle is released
to its own pool and has no second table, and the other users of a pool leave
the references of the cache and of the handles alone. -/
def Good (s : Store) : Call → Prop
  | .bind radix => radix = s.radix ∨ ∀ e ∈ s.entries, e.entry.tables = []
  | .insert en => Store.Accepts en → s.radix ≠ none → Fit s en
  | .release k j => ∀ l, s.handles[j]? = some l →
      l.pool = k ∧ distinctTables l.handle.swaBlocks l.handle.compBlocks = false
  | .others k c => ∀ b, s.held k b+handed s.handles k b ≤ ((c.refs b).getD 0 : Int)
  | .lookup _ | .fork _ | .clear => True

theorem books_init (maxEntries : Nat) (radix : Option PoolId) (pools : PoolId → PagePool) :
    Books { maxEntries := maxEntries, radix := radix, pools := pools } [] := by
  refine ⟨fun k b => ?_,by simp,by simp,fun k b => ?_,by simp⟩
  · simp
  · simp [handed,counts]

theorem Books.step {s s' : Store} {e : Call} (h : Books s s.entries) (hg : Good s e)
    (hs : s.step e = some s') : Books s' s'.entries := by
  cases e with
  | bind radix => cases hs; exact h.bind hg
  | insert en => cases hs; exact h.insert hg
  | lookup q => cases hs; exact h
  | fork i => cases hs; exact h.fork i
  | release k j => cases hs; exact h.release hg
  | clear => cases hs; exact h.clear
  | others k c =>
    cases hs
    refine ⟨h.held,h.kept,h.lent,fun k' b => ?_,h.returned⟩
    rw [counts_update]
    by_cases hk : k' = k
    · subst hk
      rw [if_pos rfl]
      exact hg b
    · rw [if_neg hk]
      exact h.cover k' b

/-- In every run of good calls, from an empty cache over any pools, the
references balance. -/
theorem balanced_run {maxEntries : Nat} {radix : Option PoolId} {pools : PoolId → PagePool}
    {calls : List Call} {s : Store}
    (hg : Guarded Store.step Good { maxEntries := maxEntries, radix := radix, pools := pools } calls)
    (h : exec Store.step { maxEntries := maxEntries, radix := radix, pools := pools } calls
      = some s) : Balanced s := by
  have hbooks : Books s s.entries :=
    exec_invariant (P := fun s => Books s s.entries) (fun _ _ _ hi hgood hs => hi.step hgood hs)
      (books_init maxEntries radix pools) hg h
  exact ⟨hbooks.held,hbooks.returned⟩

def twoHeld : PagePool := (RadixCache.empty.allocateBlocks ⟨4,4,pos_four,pos_four⟩ 2).1

def hitOnce (swa comp : List BlockId) : List Call :=
  [.bind (some 0),
    .insert { tokenIds := [5], row := {}, swaBlockIds := swa, compBlockIds := comp },
    .fork 0,.release 0 0]

theorem balanced_hitOnce :
    ∃ s, exec Store.step { maxEntries := 64, pools := fun _ => twoHeld } (hitOnce [0] [0])
      = some s ∧ (s.pools 0).refs 0 = some 2 ∧ Balanced s := by
  have hgood : Guarded Store.step Good { maxEntries := 64, pools := fun _ => twoHeld }
      (hitOnce [0] [0]) := by
    refine ⟨.inr (by simp),?_⟩
    rintro _ ⟨⟩
    refine ⟨fun _ _ => ⟨by decide,by decide,?_⟩,?_⟩
    · rintro k ⟨⟩
      decide
    rintro _ ⟨⟩
    refine ⟨trivial,?_⟩
    rintro _ ⟨⟩
    refine ⟨?_,fun _ _ => trivial⟩
    rintro l ⟨⟩
    exact ⟨rfl,by decide⟩
  exact ⟨_,rfl,by decide,balanced_run hgood rfl⟩

/-- With two tables the fork takes a reference on both, and the release of the
handle gives back the one on the first: page 1 keeps a reference that nobody
holds. -/
theorem two_tables_leak :
    ∃ s, exec Store.step { maxEntries := 64, pools := fun _ => twoHeld } (hitOnce [0] [1])
      = some s ∧ (s.pools 0).refs 0 = some 2 ∧ (s.pools 0).refs 1 = some 3 ∧ ¬ Balanced s := by
  refine ⟨_,rfl,by decide,by decide,fun h => ?_⟩
  have hpair := congrFun (congrFun (h.returned _ List.mem_cons_self) 0) 1
  exact absurd hpair (by decide)

end Runs

end SglangLite.Hybrid
