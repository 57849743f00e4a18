import SglangLite.Decode.Metadata

set_option autoImplicit false

namespace SglangLite.Decode
open Kv

/-- A decoder layer: the keys and values of a token at its rotary position, and
the hidden state after attention over the cached ones and the experts. -/
structure Layer (H R : Type) where
  kv : H → Int → R
  attend : H → Int → List R → H

structure Net (H R L : Type) where
  embed : Token → H
  layers : List (Layer H R)
  lmHead : H → L
  argmax : L → Token

/-- `k_cache` and `v_cache` by layer, block and slot. -/
abbrev Cells (R : Type) := Nat → BlockId → Nat → R

structure Write (R : Type) where
  layer : Nat
  block : BlockId
  slot : Nat
  entry : R

def Write.place {R : Type} (w : Write R) : Nat × BlockId × Nat := (w.layer,w.block,w.slot)

def put {R : Type} (cells : Cells R) (w : Write R) : Cells R := fun l b j =>
  if (l,b,j) = w.place then w.entry else cells l b j

/-- One sequence of a decode call as the kernels read it: `pages` and `kvLen`
for attention, `slot` for the append. -/
structure Row where
  token : Token
  position : Int
  pages : List BlockId
  kvLen : Nat
  slot : Option (BlockId × Nat)
  deriving DecidableEq

def Row.attended {R : Type} (cfg : CacheConfig) (r : Row) (cells : BlockId → Nat → R) : List R :=
  (List.range r.kvLen).filterMap (Paging.view cfg.blockSize r.pages cells)

def Row.own (cfg : CacheConfig) (token : Token) (pos : Nat) (table : List BlockId) : Row where
  token := token
  position := pos
  pages := table.take (cfg.pages (pos+1))
  kvLen := pos+1
  slot := table[pos/cfg.blockSize]?.map (·,pos%cfg.blockSize)

/-- What a run of the body returns and leaves; `writes` are its appends. -/
structure Output (R L : Type) where
  logits : List L
  cells : Cells R
  writes : List (Write R)

section Body

variable {H R L : Type} (net : Net H R L) (cfg : CacheConfig) (rows : List Row)

structure Pass (H R : Type) where
  hidden : List H
  cells : Cells R
  writes : List (Write R)

def Layer.pass (l : Nat) (layer : Layer H R) (p : Pass H R) : Pass H R :=
  let new := (rows.zip p.hidden).filterMap fun (r,h) =>
    r.slot.map fun s => ⟨l,s.1,s.2,layer.kv h r.position⟩
  let cells := new.foldl put p.cells
  { hidden := (rows.zip p.hidden).map fun (r,h) =>
      layer.attend h r.position (r.attended cfg (cells l))
    cells := cells
    writes := p.writes ++ new }

def layersFrom : List (Layer H R) → Nat → Pass H R → Pass H R
  | [], _, p => p
  | layer :: rest, l, p => layersFrom rest (l+1) (layer.pass cfg rows l p)

def Net.body (cells : Cells R) : Output R L :=
  let p := layersFrom cfg rows net.layers 0 ⟨rows.map (net.embed ·.token),cells,[]⟩
  ⟨p.hidden.map net.lmHead,p.cells,p.writes⟩

variable {net cfg rows}

theorem new_places (l : Nat) (f : Row → H → R) (hs : List H) (hlen : hs.length = rows.length) :
    ((rows.zip hs).filterMap fun (r,h) =>
        r.slot.map fun s => (⟨l,s.1,s.2,f r h⟩ : Write R)).map Write.place =
      rows.filterMap fun r => r.slot.map fun s => (l,s.1,s.2) := by
  induction rows generalizing hs with
  | nil => simp
  | cons r rows ih =>
    cases hs with
    | nil => simp at hlen
    | cons h hs =>
      have := ih hs (by simpa using hlen)
      cases hr : r.slot with
      | none => simpa [hr] using this
      | some s => simpa [hr,Write.place] using this

theorem layersFrom_writes (layers : List (Layer H R)) (l : Nat) (p : Pass H R)
    (hlen : p.hidden.length = rows.length) :
    (layersFrom cfg rows layers l p).writes.map Write.place = p.writes.map Write.place ++
      (List.range' l layers.length).flatMap fun l =>
        rows.filterMap fun r => r.slot.map fun s => (l,s.1,s.2) := by
  induction layers generalizing l p with
  | nil => simp [layersFrom]
  | cons layer rest ih =>
    rw [layersFrom,ih _ _ (by simp [Layer.pass,hlen])]
    have hnew := new_places l (fun r h => layer.kv h r.position) p.hidden hlen
    simp only [Layer.pass,List.map_append,hnew,List.length_cons,List.range'_succ,List.flatMap_cons,
      List.append_assoc]

theorem Net.body_writes (cells : Cells R) : (net.body cfg rows cells).writes.map Write.place =
    (List.range net.layers.length).flatMap fun l =>
      rows.filterMap fun r => r.slot.map fun s => (l,s.1,s.2) := by
  rw [List.range_eq_range']
  exact layersFrom_writes _ _ _ (by simp)

end Body

def PageMetadata.attended (m : PageMetadata) (b : Nat) : List BlockId :=
  (m.indices.drop (m.indptr.getD b 0)).take (m.indptr.getD (b+1) 0-m.indptr.getD b 0)

def PageMetadata.kvLen (cfg : CacheConfig) (m : PageMetadata) (b : Nat) : Nat :=
  (m.indptr.getD (b+1) 0-m.indptr.getD b 0-1)*cfg.blockSize+m.lastPageLen.getD b 0

/-- Where `append_paged_kv_cache` puts token `i`. -/
def AppendMetadata.slot (cfg : CacheConfig) (a : AppendMetadata) (i : Nat) : Option (BlockId × Nat) :=
  let p := a.positions.getD i 0
  a.kvIndices[a.kvIndptr.getD (a.batchIndices.getD i 0) 0+p/cfg.blockSize]?.map
    (·,p%cfg.blockSize)

def Row.read (cfg : CacheConfig) (token : Token) (position : Int) (m : PageMetadata) (b : Nat)
    (a : AppendMetadata) : Row :=
  ⟨token,position,m.attended b,m.kvLen cfg b,a.slot cfg 0⟩

theorem lastLen_spec (cfg : CacheConfig) (pos : Nat) :
    (cfg.pages (pos+1)-1)*cfg.blockSize+Backend.lastLen cfg (pos+1) = pos+1 := by
  have hpos := cfg.blockSize_pos
  rw [cfg.pages_succ,Nat.add_sub_cancel]
  have hdiv := Nat.div_add_mod' pos cfg.blockSize
  have hlt := Nat.mod_lt pos hpos
  have hmod : (pos+1)%cfg.blockSize = (pos%cfg.blockSize+1)%cfg.blockSize :=
    (Nat.mod_add_mod pos cfg.blockSize 1).symm
  simp only [Backend.lastLen,hmod]
  by_cases hfull : pos%cfg.blockSize+1 = cfg.blockSize
  · rw [hfull,Nat.mod_self,if_pos rfl]
    omega
  · rw [Nat.mod_eq_of_lt (by omega),if_neg (by omega)]
    omega

theorem Row.read_own {cfg : CacheConfig} {table : List BlockId} {pos b : Nat} {m : PageMetadata}
    {a : AppendMetadata} (token : Token) (hlen : cfg.pages (pos+1) ≤ table.length)
    (hm : m.attended b = table.take (cfg.pages (pos+1)))
    (hn : m.indptr.getD (b+1) 0-m.indptr.getD b 0 = cfg.pages (pos+1))
    (hl : m.lastPageLen.getD b 0 = Backend.lastLen cfg (pos+1))
    (hi : a.kvIndptr.getD (a.batchIndices.getD 0 0) 0 = 0) (hp : a.positions.getD 0 0 = pos)
    (hk : table.take (cfg.pages (pos+1)) <+: a.kvIndices) :
    Row.read cfg token pos m b a = Row.own cfg token pos table := by
  have hslot : a.kvIndices[pos/cfg.blockSize]? = table[pos/cfg.blockSize]? := by
    have hlt : pos/cfg.blockSize < (table.take (cfg.pages (pos+1))).length := by
      rw [List.length_take,Nat.min_eq_left hlen,cfg.pages_succ]
      omega
    obtain ⟨rest,hr⟩ := hk
    rw [← hr,List.getElem?_append_left hlt,List.getElem?_take_of_lt (by rw [cfg.pages_succ]; omega)]
  simp only [Row.read,Row.own,hm,PageMetadata.kvLen,hn,hl,lastLen_spec,AppendMetadata.slot,hi,hp,
    Nat.zero_add,hslot]

def StaticBuffers.pageMetadata (st : StaticBuffers) : PageMetadata :=
  ⟨st.pageIndices,[st.pageIndptr.1,st.pageIndptr.2],[st.lastPageLen]⟩

def StaticBuffers.appendMetadata (st : StaticBuffers) : AppendMetadata :=
  ⟨[st.batchIndices],[st.positions],st.kvIndices,[st.kvIndptr.1,st.kvIndptr.2],[st.kvLast]⟩

def single (cfg : CacheConfig) (pos : Nat) (table : List BlockId) : PagedAttnContext :=
  ⟨cfg,[table],[pos],[1],true⟩

/-- After `begin_forward` for one token of one sequence both the active
metadata and the whole static buffers read as the sequence's own row. -/
theorem Backend.Filled.reads {b b' : Backend} (h : Filled b) {cfg : CacheConfig} {pos : Nat}
    {table : List BlockId} {ceiling : Nat}
    (hok : b.beginForward (single cfg pos table) ceiling = (b',.ok ())) :
    cfg.pages (pos+1) ≤ table.length ∧ ∃ st m ap, b'.buffers = some st ∧ b'.metadata = some m ∧
      b'.appendOneLayer cfg table pos 1 = .ok ap ∧
      (∀ token, Row.read cfg token pos m 0 ap = Row.own cfg token pos table) ∧
      ∀ token, Row.read cfg token pos st.pageMetadata 0 st.appendMetadata =
        Row.own cfg token pos table := by
  rw [beginForward_single b ceiling rfl rfl rfl rfl] at hok
  simp only [show (single cfg pos table).cache = cfg from rfl] at hok
  have hlt : ¬ table.length < cfg.pages (pos+1) := by
    intro hlt
    rw [if_pos hlt] at hok
    simp at hok
  rw [if_neg hlt] at hok
  have hle : cfg.pages (pos+1) ≤ table.length := Nat.not_lt.mp hlt
  have hset : Filled { b with decodeFast := true } := ⟨h.page,h.kv⟩
  obtain ⟨s',st,heq,_,hfast,hst,hn,hact,hpage,hkv,hpi,hll,hpos,hbi,hki,hkl⟩ :=
    @Filled.beginFast _ hset (single cfg pos table) table pos (pos+1) ceiling hle
  obtain rfl : s' = b' := congrArg Prod.fst (heq.symm.trans hok)
  simp only [single] at hn hact hpage hkv hpi hll hki hkl
  have hlen : (table.take (cfg.pages (pos+1))).length = cfg.pages (pos+1) := by
    rw [List.length_take,Nat.min_eq_left hle]
  have hpt := take_of_prefix hpage
  have hkt := take_of_prefix hkv
  rw [hlen] at hpt hkt
  have hmeta : s'.metadata = some ⟨table.take (cfg.pages (pos+1)),[0,cfg.pages (pos+1)],
      [lastLen cfg (pos+1)]⟩ := by
    simp only [metadata,hact,hst,Option.map_some,hpt,hpi,hll]
  have happ : s'.appendOneLayer cfg table pos 1 =
      .ok ⟨[0],[pos],table.take (cfg.pages (pos+1)),[0,cfg.pages (pos+1)],[st.kvLast]⟩ := by
    simp only [appendOneLayer,if_neg hlt,hst,hfast,hn,true_and,if_true,hkt,hpos,hbi,hki]
  refine ⟨hle,st,_,_,hst,hmeta,happ,fun token => ?_,fun token => ?_⟩
  · refine Row.read_own token hle ?_ rfl rfl rfl rfl List.prefix_rfl
    simp [PageMetadata.attended,hlen]
  · refine Row.read_own token hle ?_ ?_ hll ?_ hpos hkv
    · simp [PageMetadata.attended,StaticBuffers.pageMetadata,hpi,hpt]
    · simp [StaticBuffers.pageMetadata,hpi]
    · simp [StaticBuffers.appendMetadata,hbi,hki]

structure Sliced (cfg : CacheConfig) (done : List (List BlockId × Nat)) (m : PageMetadata) : Prop where
  size : m.indptr.length = done.length+1
  last : m.indptr.getD done.length 0 = m.indices.length
  lens : m.lastPageLen = done.map (Backend.lastLen cfg ·.2)
  each : ∀ b t n, done[b]? = some (t,n) → cfg.pages n ≤ t.length ∧
    m.indptr.getD b 0+cfg.pages n = m.indptr.getD (b+1) 0 ∧
    m.indptr.getD (b+1) 0 ≤ m.indices.length ∧ m.attended b = t.take (cfg.pages n)

theorem Sliced.snoc {cfg : CacheConfig} {done : List (List BlockId × Nat)} {m : PageMetadata}
    (h : Sliced cfg done m) {t : List BlockId} {n : Nat} (hlen : cfg.pages n ≤ t.length) :
    Sliced cfg (done ++ [(t,n)])
      ⟨m.indices ++ t.take (cfg.pages n),
        m.indptr ++ [(m.indices ++ t.take (cfg.pages n)).length],
        m.lastPageLen ++ [Backend.lastLen cfg n]⟩ := by
  have hp : (t.take (cfg.pages n)).length = cfg.pages n := by
    rw [List.length_take,Nat.min_eq_left hlen]
  have hold : ∀ b, b ≤ done.length →
      (m.indptr ++ [(m.indices ++ t.take (cfg.pages n)).length]).getD b 0 = m.indptr.getD b 0 := by
    intro b hb
    rw [List.getD_eq_getElem?_getD,List.getElem?_append_left (by rw [h.size]; omega),
      ← List.getD_eq_getElem?_getD]
  have hnew : (m.indptr ++ [(m.indices ++ t.take (cfg.pages n)).length]).getD (done.length+1) 0 =
      m.indices.length+cfg.pages n := by
    rw [List.getD_eq_getElem?_getD,List.getElem?_append_right (by rw [h.size])]
    simp [h.size,hp]
  refine ⟨by simp [h.size],?_,by simp [h.lens],fun b t' n' hb => ?_⟩
  · have hl : (done ++ [(t,n)]).length = done.length+1 := by simp
    rw [hl,hnew,List.length_append,hp]
  · rcases Nat.lt_or_ge b done.length with hlt | hge
    · rw [List.getElem?_append_left hlt] at hb
      obtain ⟨hl,hs,hle,ha⟩ := h.each b t' n' hb
      refine ⟨hl,?_,?_,?_⟩
      · rw [hold b (by omega),hold (b+1) (by omega),hs]
      · rw [hold (b+1) (by omega),List.length_append]
        omega
      · rw [← ha]
        simp only [PageMetadata.attended,hold b (by omega),hold (b+1) (by omega)]
        rw [List.drop_append_of_le_length (by omega),List.take_append_of_le_length]
        rw [List.length_drop]
        omega
    · have hb' : b = done.length := by
        have := (List.getElem?_eq_some_iff.mp hb).1
        simp at this
        omega
      subst hb'
      simp at hb
      obtain ⟨rfl,rfl⟩ := hb
      refine ⟨hlen,?_,?_,?_⟩
      · rw [hold _ (Nat.le_refl _),hnew,h.last]
      · rw [hnew,List.length_append,hp]
      · simp only [PageMetadata.attended,hold _ (Nat.le_refl _),hnew,h.last]
        rw [List.drop_left,Nat.add_sub_cancel_left,List.take_of_length_le (by omega)]

theorem pageMetadataLoop_sliced {cfg : CacheConfig} {rest done : List (List BlockId × Nat)}
    {m m' : PageMetadata} (h : Sliced cfg done m)
    (hm : Backend.pageMetadataLoop cfg rest m = .ok m') : Sliced cfg (done ++ rest) m' := by
  induction rest generalizing done m with
  | nil =>
    obtain rfl : m = m' := by simpa [Backend.pageMetadataLoop] using hm
    simpa using h
  | cons e rest ih =>
    obtain ⟨t,n⟩ := e
    simp only [Backend.pageMetadataLoop] at hm
    split_ifs at hm with h0 hlt
    have := ih (h.snoc (Nat.not_lt.mp hlt)) hm
    rwa [List.append_assoc] at this

theorem pageMetadata_sliced {cfg : CacheConfig} {tables : List (List BlockId)} {lens : List Nat}
    {m : PageMetadata} (hm : Backend.pageMetadata cfg tables lens = .ok m) :
    Sliced cfg (tables.zip lens) m :=
  pageMetadataLoop_sliced (⟨rfl,rfl,rfl,by simp⟩ : Sliced cfg [] _) hm

end SglangLite.Decode
