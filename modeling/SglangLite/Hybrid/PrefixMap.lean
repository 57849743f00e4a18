import Mathlib.Data.List.MinMax
import SglangLite.Fifo
import SglangLite.Hybrid.PrefixCache

set_option autoImplicit false

namespace SglangLite.Hybrid
open Kv

/-- `V4PrefixEntry` with all it holds, over the tensors `T`. -/
structure StoredEntry (T : Type) where
  tokenIds : List Token
  lastLogits : Option T
  buffers : List (String × T) := []
  swaBlockIds : List BlockId := []
  compBlockIds : List BlockId := []
  dualPoolTokens : Nat := 0
  dualPoolLayers : Nat := 0
  dualLayerKeys : List String := []
  dualPrimary : Bool := false
  deriving DecidableEq, Repr

/-- The arguments of `V4PrefixCache.insert`. -/
structure InsertArgs (T : Type) where
  tokenIds : List Token
  lastLogits : Option T
  buffers : List (String × T)
  swaBlockIds : Option (List BlockId) := none
  compBlockIds : Option (List BlockId) := none
  dualPoolTokens : Nat := 0
  dualPoolLayers : Nat := 0
  dualLayerKeys : Option (List String) := none
  dualPrimary : Bool := false

/-- `V4PrefixCache`, with the page pool as it is while bound. The count of hits
is left out: none of the calls here changes it. -/
structure V4PrefixCache (T V : Type) where
  maxEntries : Nat := 64
  radix : Option (RadixCache V) := none
  entries : List (StoredEntry T) := []
  dualStoreCount : Nat := 0
  dualReleaseCount : Nat := 0

namespace V4PrefixCache

variable {T V : Type}

def forkPages (s : V4PrefixCache T V) (swa comp : List BlockId) :
    V4PrefixCache T V × List BlockId × List BlockId :=
  match s.radix with
  | none => (s,swa,comp)
  | some c =>
      if swa = [] then (s,swa,comp)
      else
        let (c₁,swa₁,comp₁) := forkTables c swa comp
        ({ s with radix := some c₁, dualStoreCount := s.dualStoreCount+1 },swa₁,comp₁)

variable [Zero V]

/-- `_release_entry_pages`. The entry itself leaves the cache at once. -/
def releaseEntryPages (s : V4PrefixCache T V) (e : StoredEntry T) : V4PrefixCache T V :=
  match s.radix with
  | none => s
  | some c =>
      if distinctTables e.swaBlockIds e.compBlockIds then
        { s with
          radix := some ((c.releaseBlocks e.swaBlockIds).releaseBlocks e.compBlockIds)
          dualReleaseCount := s.dualReleaseCount+1 }
      else if e.swaBlockIds = [] then s
      else
        { s with
          radix := some (c.releaseBlocks e.swaBlockIds)
          dualReleaseCount := s.dualReleaseCount+1 }

/-- The `for` loop of `insert`: the entries with the new one in the place of the
one with its tokens, and the one that it takes the place of. -/
def replaceEntry (entry : StoredEntry T) :
    List (StoredEntry T) → Option (StoredEntry T × List (StoredEntry T))
  | [] => none
  | e :: es =>
      if e.tokenIds = entry.tokenIds then some (e,entry :: es)
      else (replaceEntry entry es).map fun r => (r.1,e :: r.2)

/-- The `while` loop of `insert`. -/
def popOldest (s : V4PrefixCache T V) : List (StoredEntry T) → V4PrefixCache T V
  | [] => { s with entries := [] }
  | old :: es =>
      if s.maxEntries < (old :: es).length then popOldest (s.releaseEntryPages old) es
      else { s with entries := old :: es }

def put (s : V4PrefixCache T V) (entry : StoredEntry T) : V4PrefixCache T V :=
  match replaceEntry entry s.entries with
  | some (e,es) => { s.releaseEntryPages e with entries := es }
  | none => s.popOldest (s.entries ++ [entry])

/-- `V4PrefixCache.insert`. `cpu` is `.detach().float().cpu().clone()`. -/
def insert (cpu : T → T) (s : V4PrefixCache T V) (a : InsertArgs T) : V4PrefixCache T V :=
  if a.tokenIds = [] then s
  else if a.buffers = [] ∧ ¬ (a.dualPrimary ∧ a.swaBlockIds.getD [] ≠ []) then s
  else
    let (s₁,swa,comp) := s.forkPages (a.swaBlockIds.getD []) (a.compBlockIds.getD [])
    s₁.put
      { tokenIds := a.tokenIds
        lastLogits := a.lastLogits.map cpu
        buffers := a.buffers
        swaBlockIds := swa
        compBlockIds := comp
        dualPoolTokens := a.dualPoolTokens
        dualPoolLayers := a.dualPoolLayers
        dualLayerKeys := a.dualLayerKeys.getD []
        dualPrimary := a.dualPrimary }

/-- `V4PrefixCache.clear`. -/
def clear (s : V4PrefixCache T V) : V4PrefixCache T V :=
  { s.entries.foldl releaseEntryPages s with entries := [] }

/-- The loop of `match`, on `best_len` and `best`. -/
def matchStep (q : List Token) (best : Nat × Option (StoredEntry T)) (e : StoredEntry T) :
    Nat × Option (StoredEntry T) :=
  let elen := e.tokenIds.length
  if elen = 0 ∨ q.length < elen then best
  else if q.take elen = e.tokenIds ∧ best.1 < elen then (elen,some e)
  else best

/-- `V4PrefixCache.match`. -/
def matchPrefix (s : V4PrefixCache T V) (q : List Token) : Nat × Option (StoredEntry T) :=
  s.entries.foldl (matchStep q) (0,none)

/-- `V4PrefixCache.__init__`. -/
def init (maxEntries : Nat) (radix : Option (RadixCache V)) : V4PrefixCache T V :=
  { maxEntries := maxEntries, radix := radix }

/-- The calls of the cache. `bind` stands for `bind_radix` and for what others
do to the pool between two calls. -/
inductive Call (T V : Type) where
  | bind (radix : Option (RadixCache V))
  | insert (a : InsertArgs T)
  | lookup (q : List Token)
  | clear

def step (cpu : T → T) (s : V4PrefixCache T V) : Call T V → V4PrefixCache T V
  | .bind radix => { s with radix := radix }
  | .insert a => s.insert cpu a
  | .lookup _ => s
  | .clear => s.clear

def run (cpu : T → T) (s : V4PrefixCache T V) (calls : List (Call T V)) : V4PrefixCache T V :=
  calls.foldl (step cpu) s

end V4PrefixCache

section Spec

variable {T V : Type}

def InsertArgs.Stores (a : InsertArgs T) : Prop :=
  a.tokenIds ≠ [] ∧ (a.buffers ≠ [] ∨ a.dualPrimary = true ∧ a.swaBlockIds.getD [] ≠ [])

instance (a : InsertArgs T) : Decidable a.Stores :=
  decidable_of_iff (a.tokenIds ≠ [] ∧ (a.buffers.isEmpty = false ∨
    a.dualPrimary = true ∧ a.swaBlockIds.getD [] ≠ [])) (by simp [InsertArgs.Stores])

/-- What an insert stores. With a pool bound, pages without a table for the
compressed rows are used for them too. -/
def InsertArgs.entry (cpu : T → T) (bound : Bool) (a : InsertArgs T) : StoredEntry T where
  tokenIds := a.tokenIds
  lastLogits := a.lastLogits.map cpu
  buffers := a.buffers
  swaBlockIds := a.swaBlockIds.getD []
  compBlockIds :=
    if bound ∧ a.compBlockIds.getD [] = [] then a.swaBlockIds.getD [] else a.compBlockIds.getD []
  dualPoolTokens := a.dualPoolTokens
  dualPoolLayers := a.dualPoolLayers
  dualLayerKeys := a.dualLayerKeys.getD []
  dualPrimary := a.dualPrimary

def noteCall (cpu : T → T) :
    Bool × List (StoredEntry T) → V4PrefixCache.Call T V → Bool × List (StoredEntry T)
  | (_,inserts), .bind radix => (radix.isSome,inserts)
  | (bound,inserts), .insert a =>
      (bound,if a.Stores then inserts ++ [a.entry cpu bound] else inserts)
  | h, .lookup _ => h
  | (bound,_), .clear => (bound,[])

def sinceClear (cpu : T → T) (bound : Bool) (calls : List (V4PrefixCache.Call T V)) : List (StoredEntry T) :=
  (calls.foldl (noteCall cpu) (bound,[])).2

/-- The answer of `match` is the longest stored prefix of `q` with its length,
or `(0, None)` when no stored list is a prefix. -/
def IsLongest (es : List (StoredEntry T)) (q : List Token) : Nat × Option (StoredEntry T) → Prop
  | (n,some e) => e ∈ es ∧ e.tokenIds <+: q ∧ n = e.tokenIds.length ∧
      ∀ x ∈ es, x.tokenIds <+: q → x ≠ e → x.tokenIds.length < n
  | (n,none) => n = 0 ∧ ∀ x ∈ es, ¬ x.tokenIds <+: q

structure LongestPrefixMap (maxEntries : Nat) (inserts : List (StoredEntry T)) (s : V4PrefixCache T V) :
    Prop where
  nonempty : ∀ e ∈ s.entries, e.tokenIds ≠ []
  distinct : (s.entries.map StoredEntry.tokenIds).Nodup
  bounded : s.entries.length ≤ maxEntries
  recent : s.entries.map StoredEntry.tokenIds =
    (Fifo.firstInserts maxEntries (inserts.map StoredEntry.tokenIds)).rtake maxEntries
  latest : ∀ e ∈ s.entries, Fifo.latest StoredEntry.tokenIds inserts e.tokenIds = some e
  longest : ∀ q, IsLongest s.entries q (s.matchPrefix q)

end Spec

namespace V4PrefixCache

variable {T V : Type} {s : V4PrefixCache T V}

section Insert

theorem forkTables_tables (c : RadixCache V) (swa comp : List BlockId) :
    (forkTables c swa comp).2 = (swa,if comp = [] then swa else comp) := by
  unfold forkTables
  by_cases hs : swa = []
  · by_cases hc : comp = [] <;> simp [hs,hc]
  · by_cases hd : distinctTables swa comp = true
    · have : comp ≠ [] ∧ comp ≠ swa := by simpa [distinctTables] using hd
      simp [hs,hd,this.1]
    · have : comp = [] ∨ comp = swa := by
        rw [distinctTables,decide_eq_true_eq,not_and_or,not_not,not_not] at hd
        exact hd
      rcases this with rfl | rfl <;> simp [hs,hd]

theorem forkPages_pool {c : RadixCache V} (hr : s.radix = some c) (swa comp : List BlockId) :
    ∃ n, s.forkPages swa comp =
      ({ s with radix := some (forkTables c swa comp).1, dualStoreCount := n },(forkTables c swa comp).2) := by
  unfold forkPages
  rw [hr]
  by_cases hs : swa = []
  · exact ⟨s.dualStoreCount,by simp [hs,forkTables,← hr]⟩
  · exact ⟨s.dualStoreCount+1,by simp [hs]⟩

/-- The fork of the page tables changes the pool and the count, and the tables
are those that the entry is to have. -/
theorem forkPages_spec (swa comp : List BlockId) :
    ∃ radix n, radix.isSome = s.radix.isSome ∧
      s.forkPages swa comp = ({ s with radix := radix, dualStoreCount := n },swa,
        if s.radix.isSome ∧ comp = [] then swa else comp) := by
  cases hr : s.radix with
  | none =>
    obtain ⟨m,_,es,stores,releases⟩ := s
    obtain rfl := hr
    exact ⟨none,stores,rfl,by simp [forkPages]⟩
  | some c =>
    obtain ⟨n,hn⟩ := forkPages_pool hr swa comp
    refine ⟨some (forkTables c swa comp).1,n,rfl,?_⟩
    simp [hn,forkTables_tables]

variable [Zero V]

@[simp] theorem releaseEntryPages_maxEntries (e : StoredEntry T) :
    (s.releaseEntryPages e).maxEntries = s.maxEntries := by
  unfold releaseEntryPages
  cases s.radix with
  | none => rfl
  | some c => simp only; split_ifs <;> rfl

@[simp] theorem releaseEntryPages_bound (e : StoredEntry T) :
    (s.releaseEntryPages e).radix.isSome = s.radix.isSome := by
  unfold releaseEntryPages
  cases h : s.radix with
  | none => simp [h]
  | some c => simp only; split_ifs <;> simp [h]

theorem popOldest_spec (es : List (StoredEntry T)) :
    (s.popOldest es).entries = es.rtake s.maxEntries ∧
      (s.popOldest es).maxEntries = s.maxEntries ∧
      (s.popOldest es).radix.isSome = s.radix.isSome := by
  induction es generalizing s with
  | nil => simp [popOldest]
  | cons old es ih =>
    rw [popOldest]
    split_ifs with hlen
    · obtain ⟨hes,hmax,hbound⟩ := @ih (s.releaseEntryPages old)
      rw [List.length_cons] at hlen
      refine ⟨?_,by simpa using hmax,by simpa using hbound⟩
      rw [hes,releaseEntryPages_maxEntries,List.rtake,List.rtake,List.length_cons,
        Nat.succ_sub (by omega),List.drop_succ_cons]
    · refine ⟨?_,rfl,rfl⟩
      rw [List.rtake,Nat.sub_eq_zero_of_le (by omega),List.drop_zero]

theorem replaceEntry_none {entry : StoredEntry T} {es : List (StoredEntry T)}
    (h : entry.tokenIds ∉ es.map StoredEntry.tokenIds) : replaceEntry entry es = none := by
  induction es with
  | nil => rfl
  | cons e es ih =>
    rw [List.map_cons,List.mem_cons,not_or] at h
    rw [replaceEntry,if_neg (Ne.symm h.1),ih h.2]
    rfl

/-- Where no two entries have the same tokens, the first one with the tokens of
the new one is the only one. -/
theorem replaceEntry_some {entry : StoredEntry T} {es : List (StoredEntry T)}
    (hn : (es.map StoredEntry.tokenIds).Nodup) (h : entry.tokenIds ∈ es.map StoredEntry.tokenIds) :
    ∃ e, replaceEntry entry es =
      some (e,es.map fun y => if y.tokenIds = entry.tokenIds then entry else y) := by
  induction es with
  | nil => simp at h
  | cons e es ih =>
    rw [List.map_cons,List.nodup_cons] at hn
    rw [replaceEntry]
    by_cases he : e.tokenIds = entry.tokenIds
    · rw [if_pos he]
      have hrest : (es.map fun y => if y.tokenIds = entry.tokenIds then entry else y) = es := by
        refine (List.map_congr_left fun y hy => if_neg fun hy' => ?_).trans (List.map_id es)
        exact hn.1 (List.mem_map.mpr ⟨y,hy,hy'.trans he.symm⟩)
      exact ⟨e,by rw [List.map_cons,if_pos he,hrest]⟩
    · rw [if_neg he]
      rw [List.map_cons,List.mem_cons] at h
      obtain ⟨old,hold⟩ := ih hn.2 (h.resolve_left (Ne.symm he))
      exact ⟨old,by rw [hold,List.map_cons,if_neg he]; rfl⟩

/-- An insert without tokens, or with neither buffers nor primary pages, does
nothing. -/
theorem insert_refused (cpu : T → T) {a : InsertArgs T} (h : ¬ a.Stores) : s.insert cpu a = s := by
  unfold insert
  by_cases htok : a.tokenIds = []
  · rw [if_pos htok]
  · have hbuf : a.buffers = [] ∧ ¬ (a.dualPrimary = true ∧ a.swaBlockIds.getD [] ≠ []) := by
      simpa only [InsertArgs.Stores,htok,ne_eq,not_false_eq_true,true_and,not_or,not_not] using h
    rw [if_neg htok,if_pos hbuf]

theorem put_spec (entry : StoredEntry T) (hn : (s.entries.map StoredEntry.tokenIds).Nodup) :
    (s.put entry).entries = Fifo.put StoredEntry.tokenIds s.maxEntries s.entries entry ∧
      (s.put entry).maxEntries = s.maxEntries ∧ (s.put entry).radix.isSome = s.radix.isSome := by
  unfold put
  by_cases hmem : entry.tokenIds ∈ s.entries.map StoredEntry.tokenIds
  · obtain ⟨e,he⟩ := replaceEntry_some hn hmem
    rw [he,Fifo.put,if_pos hmem]
    exact ⟨rfl,by simp,by simp⟩
  · rw [replaceEntry_none hmem,Fifo.put,if_neg hmem]
    exact popOldest_spec (s.entries ++ [entry])

theorem insert_spec (cpu : T → T) {a : InsertArgs T} (h : a.Stores)
    (hn : (s.entries.map StoredEntry.tokenIds).Nodup) :
    (s.insert cpu a).entries =
        Fifo.put StoredEntry.tokenIds s.maxEntries s.entries (a.entry cpu s.radix.isSome) ∧
      (s.insert cpu a).maxEntries = s.maxEntries ∧
      (s.insert cpu a).radix.isSome = s.radix.isSome := by
  have hbuf : ¬ (a.buffers = [] ∧ ¬ (a.dualPrimary = true ∧ a.swaBlockIds.getD [] ≠ [])) := by
    rintro ⟨h₁,h₂⟩
    exact h.2.elim (fun hb => hb h₁) h₂
  obtain ⟨radix,n,hr,hfork⟩ := forkPages_spec (s := s) (a.swaBlockIds.getD []) (a.compBlockIds.getD [])
  unfold insert
  rw [if_neg h.1,if_neg hbuf,hfork]
  obtain ⟨hes,hmax,hbound⟩ := @put_spec T V { s with radix := radix, dualStoreCount := n } _
    (a.entry cpu s.radix.isSome) hn
  exact ⟨hes,hmax,hbound.trans hr⟩

theorem foldl_releaseEntryPages (es : List (StoredEntry T)) :
    (es.foldl releaseEntryPages s).maxEntries = s.maxEntries ∧
      (es.foldl releaseEntryPages s).radix.isSome = s.radix.isSome := by
  induction es generalizing s with
  | nil => exact ⟨rfl,rfl⟩
  | cons e es ih => simpa using @ih (s.releaseEntryPages e)

end Insert

section Match

def Begins (q : List Token) (e : StoredEntry T) : Prop := e.tokenIds ≠ [] ∧ e.tokenIds <+: q

instance (q : List Token) (e : StoredEntry T) : Decidable (Begins q e) := inferInstanceAs (Decidable (_ ∧ _))

theorem matchStep_eq (q : List Token) (best : Nat × Option (StoredEntry T)) (e : StoredEntry T) :
    matchStep q best e =
      if Begins q e ∧ best.1 < e.tokenIds.length then (e.tokenIds.length,some e) else best := by
  unfold matchStep
  simp only
  by_cases hshort : e.tokenIds.length = 0 ∨ q.length < e.tokenIds.length
  · have hno : ¬ (e.tokenIds ≠ [] ∧ e.tokenIds <+: q) := by
      rintro ⟨hne,hpre⟩
      rcases hshort with h0 | hlt
      · exact hne (List.length_eq_zero_iff.mp h0)
      · exact absurd hpre.length_le (by omega)
    rw [if_pos hshort,if_neg (fun h => hno h.1)]
  · rw [not_or] at hshort
    have hiff : q.take e.tokenIds.length = e.tokenIds ↔ Begins q e := by
      rw [Begins,List.prefix_iff_eq_take,eq_comm]
      exact ⟨fun h => ⟨fun h0 => hshort.1 (by simp [h0]),h⟩,fun h => h.2⟩
    rw [if_neg (not_or.mpr hshort)]
    simp only [hiff]

/-- The loop of `match` finds the first of the longest entries that begin `q`. -/
theorem scan_eq_argmax (es : List (StoredEntry T)) (q : List Token) :
    es.foldl (matchStep q) (0,none) =
      match (es.filter fun e => Begins q e).argmax fun e => e.tokenIds.length with
      | some e => (e.tokenIds.length,some e)
      | none => (0,none) := by
  induction es using List.reverseRecOn with
  | nil => rfl
  | append_singleton es e ih =>
    rw [List.foldl_append,List.foldl_cons,List.foldl_nil,ih,List.filter_append,matchStep_eq]
    by_cases he : Begins q e
    · have hpos : 0 < e.tokenIds.length := List.length_pos_iff.mpr he.1
      rw [List.filter_singleton,decide_eq_true he,cond_true,List.argmax_concat]
      cases (es.filter fun e => Begins q e).argmax fun e => e.tokenIds.length with
      | none => simp [he,hpos]
      | some b => by_cases hb : b.tokenIds.length < e.tokenIds.length <;> simp [he,hb]
    · rw [List.filter_singleton,decide_eq_false he,cond_false,List.append_nil,if_neg (fun h => he h.1)]

theorem matchPrefix_longest (hne : ∀ e ∈ s.entries, e.tokenIds ≠ [])
    (hn : (s.entries.map StoredEntry.tokenIds).Nodup) (q : List Token) :
    IsLongest s.entries q (s.matchPrefix q) := by
  have hmem : ∀ e, e ∈ (s.entries.filter fun x => Begins q x) ↔ e ∈ s.entries ∧ e.tokenIds <+: q := fun e => by
    rw [List.mem_filter,decide_eq_true_eq]
    exact ⟨fun h => ⟨h.1,h.2.2⟩,fun h => ⟨h.1,hne e h.1,h.2⟩⟩
  rw [matchPrefix,scan_eq_argmax]
  cases hbest : (s.entries.filter fun e => Begins q e).argmax fun e => e.tokenIds.length with
  | none =>
    have hnil := List.argmax_eq_none.mp hbest
    refine ⟨rfl,fun x hx hpre => ?_⟩
    have := (hmem x).mpr ⟨hx,hpre⟩
    rw [hnil] at this
    cases this
  | some e =>
    obtain ⟨he,hpre⟩ := (hmem e).mp (List.argmax_mem hbest)
    refine ⟨he,hpre,rfl,fun x hx hxpre hxe => ?_⟩
    have hle := List.le_of_mem_argmax ((hmem x).mpr ⟨hx,hxpre⟩) hbest
    refine Nat.lt_of_le_of_ne hle fun hlen => hxe ?_
    -- two prefixes of `q` of one length are the same tokens
    have htok : x.tokenIds = e.tokenIds :=
      (List.prefix_of_prefix_length_le hxpre hpre hle).eq_of_length hlen
    exact List.inj_on_of_nodup_map hn hx he htok

end Match

section Engine

variable (row : List Token → List (String × T) → Row)

def seen (e : StoredEntry T) : V4PrefixEntry where
  tokenIds := e.tokenIds
  lastLogits := e.lastLogits.isSome
  row := row e.tokenIds e.buffers
  buffers := !e.buffers.isEmpty
  swaBlockIds := e.swaBlockIds
  compBlockIds := e.compBlockIds
  dualPoolTokens := e.dualPoolTokens
  dualPrimary := e.dualPrimary

theorem matchOne_seen (q : List Token) (best : Nat × Option (StoredEntry T)) (e : StoredEntry T)
    (hbest : best.1 = (best.2.map fun e => e.tokenIds.length).getD 0) :
    (matchStep q best e).2.map (seen row) = matchOne q (best.2.map (seen row)) (seen row e) := by
  obtain ⟨n,b⟩ := best
  have hiff : q.take e.tokenIds.length = e.tokenIds ∧ n < e.tokenIds.length ↔
      Begins q e ∧ n < e.tokenIds.length := by
    rw [Begins,List.prefix_iff_eq_take,eq_comm]
    refine and_congr_left fun hlt => (and_iff_right ?_).symm
    exact List.length_pos_iff.mp (Nat.zero_lt_of_lt hlt)
  have hone : matchOne q (b.map (seen row)) (seen row e) =
      if q.take e.tokenIds.length = e.tokenIds ∧ n < e.tokenIds.length then some (seen row e)
      else b.map (seen row) := by
    cases b with
    | none =>
      obtain rfl : n = 0 := hbest
      rfl
    | some b =>
      obtain rfl : n = b.tokenIds.length := hbest
      rfl
  rw [matchStep_eq,hone]
  by_cases h : Begins q e ∧ n < e.tokenIds.length
  · rw [if_pos h,if_pos (hiff.mpr h)]
    rfl
  · rw [if_neg h]
    exact (if_neg fun h' => h (hiff.mp h')).symm

theorem matchPrefix_seen (q : List Token) :
    (s.matchPrefix q).2.map (seen row) = matchEntry (s.entries.map (seen row)) q := by
  -- the engine reads the length off the entry
  have key : ∀ (es : List (StoredEntry T)) (best : Nat × Option (StoredEntry T)),
      best.1 = (best.2.map fun e => e.tokenIds.length).getD 0 →
        (es.foldl (matchStep q) best).2.map (seen row) =
          (es.map (seen row)).foldl (matchOne q) (best.2.map (seen row)) := by
    intro es
    induction es with
    | nil => exact fun _ _ => rfl
    | cons e es ih =>
      intro best hbest
      have hone := matchOne_seen row q best e hbest
      rw [List.foldl_cons,List.map_cons,List.foldl_cons,← hone]
      refine ih _ ?_
      rw [matchStep_eq]
      split_ifs
      · rfl
      · exact hbest
  exact key s.entries (0,none) rfl

variable [Zero V] {c : RadixCache V}

theorem releaseEntryPages_seen (hr : s.radix = some c) (e : StoredEntry T) :
    (s.releaseEntryPages e).radix = some (Hybrid.releaseEntryPages c (seen row e)) := by
  have hengine : Hybrid.releaseEntryPages c (seen row e) =
      if distinctTables e.swaBlockIds e.compBlockIds then
        (c.releaseBlocks e.swaBlockIds).releaseBlocks e.compBlockIds
      else c.releaseBlocks e.swaBlockIds := rfl
  unfold releaseEntryPages
  rw [hengine,hr]
  simp only
  by_cases hd : distinctTables e.swaBlockIds e.compBlockIds = true
  · rw [if_pos hd,if_pos hd]
  · rw [if_neg hd,if_neg hd]
    by_cases hs : e.swaBlockIds = []
    · rw [if_pos hs,hr,hs]
      rfl
    · rw [if_neg hs]

theorem replaceEntry_seen (entry : StoredEntry T) (es : List (StoredEntry T)) :
    Hybrid.replaceEntry c (seen row entry) (es.map (seen row)) =
      (replaceEntry entry es).map fun r => (Hybrid.releaseEntryPages c (seen row r.1),r.2.map (seen row)) := by
  induction es with
  | nil => rfl
  | cons e es ih =>
    rw [List.map_cons,Hybrid.replaceEntry,replaceEntry]
    by_cases he : e.tokenIds = entry.tokenIds
    · rw [if_pos he,if_pos (show (seen row e).tokenIds = (seen row entry).tokenIds from he)]
      rfl
    · rw [if_neg he,if_neg (show ¬ (seen row e).tokenIds = (seen row entry).tokenIds from he),ih]
      cases replaceEntry entry es <;> rfl

theorem popOldest_seen (hr : s.radix = some c) (es : List (StoredEntry T)) :
    ((s.popOldest es).radix,(s.popOldest es).entries.map (seen row)) =
      (some (dropOldest s.maxEntries c (es.map (seen row))).1,
        (dropOldest s.maxEntries c (es.map (seen row))).2) := by
  induction es generalizing s c with
  | nil => simp [popOldest,dropOldest,hr]
  | cons old es ih =>
    rw [popOldest,List.map_cons,dropOldest,List.length_cons,List.length_cons,List.length_map]
    split_ifs with hlen
    · have := ih (releaseEntryPages_seen row hr old)
      rwa [releaseEntryPages_maxEntries] at this
    · simp [hr]

theorem put_seen (hr : s.radix = some c) (entry : StoredEntry T) :
    ((s.put entry).radix,(s.put entry).entries.map (seen row)) =
      match Hybrid.replaceEntry c (seen row entry) (s.entries.map (seen row)) with
      | some r => (some r.1,r.2)
      | none =>
          (some (dropOldest s.maxEntries c (s.entries.map (seen row) ++ [seen row entry])).1,
            (dropOldest s.maxEntries c (s.entries.map (seen row) ++ [seen row entry])).2) := by
  unfold put
  rw [replaceEntry_seen]
  cases replaceEntry entry s.entries with
  | none =>
    have := popOldest_seen row hr (s.entries ++ [entry])
    rwa [List.map_append,List.map_singleton] at this
  | some r => exact Prod.ext (releaseEntryPages_seen row hr r.1) rfl

theorem insert_seen (hr : s.radix = some c) (cpu : T → T) (a : InsertArgs T) :
    ((s.insert cpu a).radix,(s.insert cpu a).entries.map (seen row)) =
      (some (Hybrid.insert s.maxEntries c (s.entries.map (seen row)) (seen row (a.entry cpu false))).1,
        (Hybrid.insert s.maxEntries c (s.entries.map (seen row)) (seen row (a.entry cpu false))).2) := by
  have hrefused : ¬ a.Stores ↔ a.tokenIds = [] ∨
      a.buffers = [] ∧ ¬ (a.dualPrimary = true ∧ a.swaBlockIds.getD [] ≠ []) := by
    rw [InsertArgs.Stores,not_and_or,not_or,ne_eq,not_not,ne_eq,not_not]
  have hempty : (!a.buffers.isEmpty) = false ↔ a.buffers = [] := by simp
  unfold Hybrid.insert
  simp only [seen,InsertArgs.entry,hempty,Bool.false_eq_true,false_and,if_false]
  by_cases htok : a.tokenIds = []
  · rw [insert_refused cpu (hrefused.mpr (.inl htok)),if_pos htok,hr]
  rw [if_neg htok]
  by_cases hbuf : a.buffers = [] ∧ ¬ (a.dualPrimary = true ∧ a.swaBlockIds.getD [] ≠ [])
  · rw [insert_refused cpu (hrefused.mpr (.inr hbuf)),if_pos hbuf,hr]
  rw [if_neg hbuf]
  obtain ⟨n,hfork⟩ := forkPages_pool hr (a.swaBlockIds.getD []) (a.compBlockIds.getD [])
  unfold insert
  rw [if_neg htok,if_neg hbuf,hfork]
  refine (put_seen row rfl _).trans ?_
  simp only [seen]
  generalize Hybrid.replaceEntry (V := V) _ _ _ = r
  cases r <;> rfl

end Engine

section Run

variable {maxEntries : Nat}

structure Follows (maxEntries : Nat) (noted : Bool × List (StoredEntry T)) (s : V4PrefixCache T V) : Prop where
  cap : s.maxEntries = maxEntries
  bound : s.radix.isSome = noted.1
  holds : Fifo.Holds StoredEntry.tokenIds maxEntries noted.2 s.entries
  nonempty : ∀ e ∈ noted.2, e.tokenIds ≠ []

theorem follows_init (radix : Option (RadixCache V)) :
    Follows maxEntries (radix.isSome,[]) (init maxEntries radix : V4PrefixCache T V) :=
  ⟨rfl,rfl,Fifo.holds_nil,by simp⟩

variable [Zero V]

theorem Follows.step (cpu : T → T) {noted : Bool × List (StoredEntry T)} (h : Follows maxEntries noted s)
    (call : Call T V) : Follows maxEntries (noteCall cpu noted call) (s.step cpu call) := by
  cases call with
  | bind radix => exact ⟨h.cap,rfl,h.holds,h.nonempty⟩
  | insert a =>
    obtain ⟨bound,inserts⟩ := noted
    by_cases ha : a.Stores
    · obtain ⟨hes,hmax,hbound⟩ := insert_spec cpu ha h.holds.nodup
      simp only [noteCall,if_pos ha]
      refine ⟨hmax.trans h.cap,hbound.trans h.bound,?_,fun e he => ?_⟩
      · have hb : s.radix.isSome = bound := h.bound
        rw [V4PrefixCache.step,hes,h.cap,hb]
        exact h.holds.put
      · rcases List.mem_append.mp he with he | he
        · exact h.nonempty e he
        · obtain rfl := List.mem_singleton.mp he
          exact ha.1
    · simp only [noteCall,if_neg ha,V4PrefixCache.step,insert_refused cpu ha]
      exact h
  | lookup q => exact h
  | clear =>
    obtain ⟨hmax,hbound⟩ := foldl_releaseEntryPages (s := s) s.entries
    exact ⟨hmax.trans h.cap,hbound.trans h.bound,Fifo.holds_nil,by simp [noteCall]⟩

theorem Follows.run (cpu : T → T) {noted : Bool × List (StoredEntry T)} (h : Follows maxEntries noted s)
    (calls : List (Call T V)) : Follows maxEntries (calls.foldl (noteCall cpu) noted) (s.run cpu calls) := by
  induction calls generalizing s noted with
  | nil => exact h
  | cons call calls ih => exact ih (h.step cpu call)

/-- After any calls the cache is the map of the inserts since the last `clear`:
the keys are those of the `maxEntries` latest first inserts, each with the data
of its latest insert, and `match` finds the longest. An insert that stores
nothing leaves it as it is. -/
theorem longest_prefix_map (cpu : T → T) (maxEntries : Nat) (radix : Option (RadixCache V))
    (calls : List (Call T V)) :
    LongestPrefixMap maxEntries (sinceClear cpu radix.isSome calls)
        (run cpu (init maxEntries radix) calls) ∧
      ∀ a : InsertArgs T, ¬ a.Stores →
        (run cpu (init maxEntries radix) calls).insert cpu a = run cpu (init maxEntries radix) calls := by
  have h : Follows maxEntries _ (run cpu (init maxEntries radix) calls) := (follows_init radix).run cpu calls
  have hnonempty : ∀ e ∈ (run cpu (init maxEntries radix) calls).entries, e.tokenIds ≠ [] :=
    fun e he => h.nonempty e (Fifo.mem_of_latest (h.holds.latest e he))
  refine ⟨⟨hnonempty,h.holds.nodup,h.holds.length_le,h.holds.keys,h.holds.latest,?_⟩,fun a ha => ?_⟩
  · exact matchPrefix_longest hnonempty h.holds.nodup
  · exact insert_refused cpu ha

def threePrompts : List (Call Nat Nat) :=
  [.insert { tokenIds := [1], lastLogits := some 10, buffers := [("attn.kv_state",0)] },
    .insert { tokenIds := [1,2], lastLogits := some 11, buffers := [("attn.kv_state",1)] },
    .insert { tokenIds := [1], lastLogits := some 12, buffers := [("attn.kv_state",2)] },
    .lookup [1,2],
    .insert { tokenIds := [1,2,3], lastLogits := some 13, buffers := [("attn.kv_state",3)] }]

/-- With room for two, the third prompt drives out the first, which keeps its
place when it comes again. -/
theorem longest_prefix_map_three_prompts :
    LongestPrefixMap 2 (sinceClear id false threePrompts) (run id (init 2 none) threePrompts) ∧
      (run id (init 2 none) threePrompts).insert id { tokenIds := [4], lastLogits := none, buffers := [] } =
        run id (init 2 none) threePrompts ∧
      (run id (init 2 none) threePrompts).entries.map (fun e => (e.tokenIds,e.lastLogits)) =
        [([1,2],some 11),([1,2,3],some 13)] ∧
      ((run id (init 2 none) threePrompts).matchPrefix [1,2,9]).1 = 2 ∧
      (run id (init 2 none) threePrompts).matchPrefix [1,5] = (0,none) := by
  have h := longest_prefix_map id 2 none threePrompts
  exact ⟨h.1,h.2 _ (by decide),by decide,by decide,by decide⟩

end Run

end V4PrefixCache

end SglangLite.Hybrid
