import SglangLite.Hybrid.Compressor
import SglangLite.Hybrid.DualPool

set_option autoImplicit false

namespace SglangLite.Hybrid
open Kv

/-- The tensors of a layer. The `kv_cache` of a compressor is none of its own. -/
inductive Tensor where
  | cache
  | kvState
  | scoreState
  | indexCache
  | indexKvState
  | indexScoreState
  deriving DecidableEq, Repr

abbrev SlotRows (S : Type) := Nat → Tensor → BufferRow S

inductive ModuleName where
  | attn
  | compressor
  | indexer
  | indexerCompressor
  deriving DecidableEq, Repr

inductive Attr where
  | kvCache
  | kvState
  | scoreState
  deriving DecidableEq, Repr

/-- A buffer attribute of a module. The layer, the module and the attribute are
its key; its positions are those of the tensor from `offset` on. -/
structure BufferView where
  layer : Nat
  module : ModuleName
  attr : Attr
  tensor : Tensor
  offset : Nat
  size : Nat
  dim : Nat
  deriving DecidableEq, Repr

/-- A layer by its compression ratio. `bound` tells that a forward has run, which
gives the compressors their `kv_cache`. -/
structure LayerSpec where
  ratio : Nat
  bound : Bool
  deriving DecidableEq, Repr

/-- The module tree. The constructor of `Indexer` takes a negative power of
`index_head_dim`. -/
structure ModelTree where
  args : ModelArgs
  specs : List LayerSpec
  index_pos : (∃ sp ∈ specs, sp.ratio = 4) → 0 < args.indexHeadDim

namespace ModelTree

variable (tree : ModelTree)

def compressed (ratio : Nat) : Nat := if ratio = 0 then 0 else tree.args.maxSeqLen/ratio

def attnViews (i : Nat) (sp : LayerSpec) : List BufferView :=
  [⟨i,.attn,.kvCache,.cache,0,tree.args.windowSize+tree.compressed sp.ratio,tree.args.headDim⟩]

/-- The view that a compressor gets at its first forward. -/
def lateView (sp : LayerSpec) (v : BufferView) : List BufferView := if sp.bound then [v] else []

def stateViews (i : Nat) (m : ModuleName) (kv score : Tensor) (ratio dim : Nat) : List BufferView :=
  [⟨i,m,.kvState,kv,0,coff ratio*ratio,coff ratio*dim⟩,⟨i,m,.scoreState,score,0,coff ratio*ratio,coff ratio*dim⟩]

def compressorViews (i : Nat) (sp : LayerSpec) : List BufferView :=
  if sp.ratio = 0 then []
  else
    lateView sp ⟨i,.compressor,.kvCache,.cache,tree.args.windowSize,tree.compressed sp.ratio,tree.args.headDim⟩ ++
      stateViews i .compressor .kvState .scoreState sp.ratio tree.args.headDim

def indexerViews (i : Nat) (sp : LayerSpec) : List BufferView :=
  if sp.ratio = 4 then
    [⟨i,.indexer,.kvCache,.indexCache,0,tree.compressed sp.ratio,tree.args.indexHeadDim⟩] ++
      lateView sp ⟨i,.indexerCompressor,.kvCache,.indexCache,0,tree.compressed sp.ratio,tree.args.indexHeadDim⟩ ++
      stateViews i .indexerCompressor .indexKvState .indexScoreState sp.ratio tree.args.indexHeadDim
  else []

/-- The buffers of a layer in the order of `named_modules`. -/
def layerViews (i : Nat) (sp : LayerSpec) : List BufferView :=
  tree.attnViews i sp ++ tree.compressorViews i sp ++ tree.indexerViews i sp

def views : List BufferView :=
  (tree.specs.zipIdx.flatMap fun x => tree.layerViews x.2 x.1).filter fun v => v.size*v.dim ≠ 0

/-- The buffers that `extract_layer_kv_bf16` gives: `_try_as_t512` takes 512
components for what they are, and 512 positions for components. -/
def extracted : List BufferView :=
  tree.views.filter fun v => v.attr = .kvCache ∧ (v.dim = dsv4HeadDim ∨ v.size = dsv4HeadDim)

variable {tree}

/-- The `kv_cache` attributes of layer `i`. -/
inductive KvCache (tree : ModelTree) (i : Nat) (sp : LayerSpec) : BufferView → Prop
  | attn : KvCache tree i sp
      ⟨i,.attn,.kvCache,.cache,0,tree.args.windowSize+tree.compressed sp.ratio,tree.args.headDim⟩
  | compressor (hr : sp.ratio ≠ 0) (hb : sp.bound = true) : KvCache tree i sp
      ⟨i,.compressor,.kvCache,.cache,tree.args.windowSize,tree.compressed sp.ratio,tree.args.headDim⟩
  | indexer (hr : sp.ratio = 4) : KvCache tree i sp
      ⟨i,.indexer,.kvCache,.indexCache,0,tree.compressed sp.ratio,tree.args.indexHeadDim⟩
  | indexerCompressor (hr : sp.ratio = 4) (hb : sp.bound = true) : KvCache tree i sp
      ⟨i,.indexerCompressor,.kvCache,.indexCache,0,tree.compressed sp.ratio,tree.args.indexHeadDim⟩

theorem KvCache.layer_eq {i : Nat} {sp : LayerSpec} {v : BufferView} (h : KvCache tree i sp v) :
    v.layer = i := by
  cases h <;> rfl

theorem kvCache_of_layerViews {i : Nat} {sp : LayerSpec} {v : BufferView} (h : v ∈ tree.layerViews i sp)
    (ha : v.attr = .kvCache) : KvCache tree i sp v := by
  simp only [layerViews,List.mem_append] at h
  rcases h with (h | h) | h
  · simp only [attnViews,List.mem_singleton] at h
    exact h ▸ .attn
  · unfold compressorViews at h
    split at h
    · simp at h
    next hr =>
      rcases List.mem_append.mp h with h | h
      · unfold lateView at h
        split at h
        next hb =>
          rw [List.mem_singleton] at h
          exact h ▸ .compressor hr hb
        · simp at h
      · simp only [stateViews,List.mem_cons,List.not_mem_nil,or_false] at h
        rcases h with rfl | rfl <;> simp at ha
  · unfold indexerViews at h
    split at h
    next hr =>
      simp only [List.mem_append,List.mem_singleton] at h
      rcases h with (h | h) | h
      · exact h ▸ .indexer hr
      · unfold lateView at h
        split at h
        next hb =>
          rw [List.mem_singleton] at h
          exact h ▸ .indexerCompressor hr hb
        · simp at h
      · simp only [stateViews,List.mem_cons,List.not_mem_nil,or_false] at h
        rcases h with rfl | rfl <;> simp at ha
    · simp at h

theorem mem_views {v : BufferView} : v ∈ tree.views ↔
    (∃ i sp, tree.specs[i]? = some sp ∧ v ∈ tree.layerViews i sp) ∧ v.size*v.dim ≠ 0 := by
  simp only [views,List.mem_filter,List.mem_flatMap,decide_eq_true_eq]
  constructor
  · rintro ⟨⟨⟨sp,i⟩,hx,hv⟩,hne⟩
    exact ⟨⟨i,sp,List.mem_zipIdx_iff_getElem?.mp hx,hv⟩,hne⟩
  · rintro ⟨⟨i,sp,hi,hv⟩,hne⟩
    exact ⟨⟨(sp,i),List.mem_zipIdx_iff_getElem?.mpr hi,hv⟩,hne⟩

theorem mem_extracted {v : BufferView} (h : v ∈ tree.extracted) :
    v ∈ tree.views ∧ ∃ sp, tree.specs[v.layer]? = some sp ∧ KvCache tree v.layer sp v := by
  simp only [extracted,List.mem_filter,decide_eq_true_eq] at h
  obtain ⟨⟨i,sp,hi,hv⟩,_⟩ := mem_views.mp h.1
  have hk := kvCache_of_layerViews hv h.2.1
  rw [hk.layer_eq]
  exact ⟨h.1,sp,hi,hk⟩

end ModelTree

section Forward

variable {X S : Type} (c : Scalars S) (args : ModelArgs)

def newRows (ratio start len : Nat) : Nat :=
  if start = 0 then len/ratio else if (start+1)%ratio = 0 then 1 else 0

/-- The positions that a forward of `len` tokens at `start` writes in layer
`sp`. -/
def Touches (sp : LayerSpec) (start len : Nat) : Tensor → Nat → Prop
  | .cache, p => (∃ k, k < len ∧ p = (start+k)%args.windowSize) ∨
      sp.ratio ≠ 0 ∧ args.windowSize+start/sp.ratio ≤ p ∧
        p < args.windowSize+start/sp.ratio+newRows sp.ratio start len
  | .indexCache, p => sp.ratio = 4 ∧ start/sp.ratio ≤ p ∧ p < start/sp.ratio+newRows sp.ratio start len
  | .kvState, _ | .scoreState, _ => sp.ratio ≠ 0
  | .indexKvState, _ | .indexScoreState, _ => sp.ratio = 4

def slotOf (rows : List (LayerRow S)) : SlotRows S := fun i t p =>
  match rows[i]? with
  | none => []
  | some r =>
      match t with
      | .cache => r.cache p
      | .kvState => (r.comp.map fun st => st.kv p).getD []
      | .scoreState => (r.comp.map fun st => st.score p).getD []
      | .indexCache => (r.index.map fun ix => ix.1 p).getD []
      | .indexKvState => (r.index.map fun ix => ix.2.kv p).getD []
      | .indexScoreState => (r.index.map fun ix => ix.2.score p).getD []

variable {c args}

theorem Compressor.out_length {w : Compressor X S} {ratio dim start : Nat} {xs : List X}
    {st : CompressorRow S} {kv : List (List S)} (h : (w.forward c ratio dim start xs st).2 = some kv) :
    kv.length = newRows ratio start xs.length := by
  cases start with
  | zero =>
    simp only [Compressor.forward,Compressor.prefillOut] at h
    split at h
    · cases h
      simp [newRows]
    · cases h
  | succ start =>
    cases xs with
    | nil => cases h
    | cons x xs =>
      simp only [Compressor.forward,Compressor.decodeOut] at h
      split at h
      next hfull =>
        cases h
        simp [newRows,hfull]
      · cases h

theorem Compressor.store_other {ratio lo start p n : Nat} {out : Option (List (List S))} {row : BufferRow S}
    (hout : ∀ kv, out = some kv → kv.length = n) (hp : ¬ (lo+start/ratio ≤ p ∧ p < lo+start/ratio+n)) :
    Compressor.store ratio lo start out row p = row p := by
  cases out with
  | none => rfl
  | some kv =>
    rw [Compressor.store,Compressor.assign,hout kv rfl,if_neg hp]

theorem Layer.slide_other {l : Layer X S} {start p : Nat} {xs : List X} {row : BufferRow S}
    (hp : ∀ k, k < xs.length → p ≠ (start+k)%args.windowSize) : l.slide args start xs row p = row p := by
  induction xs generalizing start row with
  | nil => rfl
  | cons x xs ih =>
    have hhead := hp 0 (by simp)
    have htail : ∀ k, k < xs.length → p ≠ (start+1+k)%args.windowSize := by
      intro k hk
      have := hp (k+1) (by simpa using hk)
      rwa [show start+(k+1) = start+1+k by omega] at this
    have hrec : l.slide args (start+1) xs (Function.update row (start%args.windowSize) (l.wkv start x)) p
        = Function.update row (start%args.windowSize) (l.wkv start x) p := ih htail
    rw [Layer.slide] at hrec ⊢
    rw [List.zipIdx_cons,List.foldl_cons,hrec]
    exact Function.update_of_ne hhead _ _

theorem Layer.forward_cache_other {l : Layer X S} {sp : LayerSpec} {start p : Nat} {xs : List X}
    {row : LayerRow S} (hsp : sp.ratio = l.ratio) (hcomp : row.comp.isSome ↔ l.ratio ≠ 0)
    (hno : ¬ Touches args sp start xs.length .cache p) :
    (l.forward c args start xs row).1.cache p = row.cache p := by
  simp only [Touches,not_or,not_exists,not_and,hsp] at hno
  have hslide : l.slide args start xs row.cache p = row.cache p := Layer.slide_other hno.1
  simp only [Layer.forward]
  cases hc : row.comp with
  | none => simpa [Compressor.store] using hslide
  | some st =>
    have hr : l.ratio ≠ 0 := hcomp.mp (by simp [hc])
    simp only [Option.map_some,Option.getD_some]
    rw [Compressor.store_other (fun kv hkv => Compressor.out_length hkv),hslide]
    exact fun hp => hno.2 hr hp.1 hp.2

theorem Layer.forward_index_other {l : Layer X S} {sp : LayerSpec} {start p : Nat} {xs : List X}
    {row : LayerRow S} (hsp : sp.ratio = l.ratio) (hindex : row.index.isSome ↔ l.ratio = 4)
    (hno : ¬ Touches args sp start xs.length .indexCache p) :
    ((l.forward c args start xs row).1.index.map fun ix => ix.1 p) = row.index.map fun ix => ix.1 p := by
  simp only [Touches,not_and,hsp] at hno
  simp only [Layer.forward]
  cases hx : row.index with
  | none => rfl
  | some ix =>
    have hr : l.ratio = 4 := hindex.mp (by simp [hx])
    simp only [Option.map_some,Option.getD_some,Option.bind_some]
    rw [Compressor.store_other (fun kv hkv => Compressor.out_length hkv)]
    intro hp
    rw [Nat.zero_add] at hp
    exact hno hr hp.1 hp.2

structure Fits (tree : ModelTree) (net : List (Layer X S)) (rows : List (LayerRow S)) : Prop where
  specs : tree.specs = net.map fun l => ⟨l.ratio,true⟩
  length : rows.length = net.length
  comp : ∀ (i : Nat) (l : Layer X S) (r : LayerRow S), net[i]? = some l → rows[i]? = some r →
    (r.comp.isSome ↔ l.ratio ≠ 0)
  index : ∀ (i : Nat) (l : Layer X S) (r : LayerRow S), net[i]? = some l → rows[i]? = some r →
    (r.index.isSome ↔ l.ratio = 4)

theorem forwardRow_get {net : List (Layer X S)} {rows : List (LayerRow S)} {i : Nat} {l : Layer X S}
    {r : LayerRow S} (start : Nat) (xs : List X) (hl : net[i]? = some l) (hr : rows[i]? = some r) :
    ∃ ys, ys.length = xs.length ∧
      (forwardRow c args net start xs rows).1[i]? = some (l.forward c args start ys r).1 := by
  induction net generalizing rows xs i with
  | nil => simp at hl
  | cons l₀ net ih =>
    cases rows with
    | nil => simp at hr
    | cons r₀ rows =>
      cases i with
      | zero =>
        simp only [List.getElem?_cons_zero,Option.some.injEq] at hl hr
        subst hl hr
        exact ⟨xs,rfl,rfl⟩
      | succ i =>
        simp only [List.getElem?_cons_succ] at hl hr
        obtain ⟨ys,hlen,hget⟩ := ih (l₀.forward c args start xs r₀).2.1 hl hr
        refine ⟨ys,hlen.trans ?_,hget⟩
        simp [Layer.forward,Layer.length_rest]

theorem forwardRow_get_none {net : List (Layer X S)} {rows : List (LayerRow S)} {i : Nat} (start : Nat)
    (xs : List X) (hl : net[i]? = none) : (forwardRow c args net start xs rows).1[i]? = none := by
  induction net generalizing rows xs i with
  | nil => rfl
  | cons l₀ net ih =>
    cases rows with
    | nil => rfl
    | cons r₀ rows =>
      cases i with
      | zero => simp at hl
      | succ i => exact ih (l₀.forward c args start xs r₀).2.1 hl

/-- A forward of the vendored model writes no other position. -/
theorem slotOf_forwardRow {tree : ModelTree} {net : List (Layer X S)} {rows : List (LayerRow S)}
    {sp : LayerSpec} {start i p : Nat} {t : Tensor} {xs : List X} (h : Fits tree net rows)
    (hsp : tree.specs[i]? = some sp) (hno : ¬ Touches args sp start xs.length t p) :
    slotOf (forwardRow c args net start xs rows).1 i t p = slotOf rows i t p := by
  rw [h.specs,List.getElem?_map,Option.map_eq_some_iff] at hsp
  obtain ⟨l,hl,rfl⟩ := hsp
  obtain ⟨hlt,_⟩ := List.getElem?_eq_some_iff.mp hl
  obtain ⟨r,hr⟩ : ∃ r, rows[i]? = some r := ⟨_,List.getElem?_eq_getElem (h.length ▸ hlt)⟩
  obtain ⟨ys,hys,hget⟩ := forwardRow_get (c := c) start xs hl hr
  rw [← hys] at hno
  simp only [slotOf,hr]
  rw [hget]
  cases t with
  | cache => exact Layer.forward_cache_other rfl (h.comp i l r hl hr) hno
  | indexCache =>
    simp only
    rw [Layer.forward_index_other rfl (h.index i l r hl hr) hno]
  | kvState | scoreState =>
    have hnone : r.comp = none := by
      rw [← Option.not_isSome_iff_eq_none]
      exact fun hc => hno ((h.comp i l r hl hr).mp hc)
    simp [Layer.forward,hnone]
  | indexKvState | indexScoreState =>
    have hnone : r.index = none := by
      rw [← Option.not_isSome_iff_eq_none]
      exact fun hc => hno ((h.index i l r hl hr).mp hc)
    simp [Layer.forward,hnone]

end Forward

namespace BufferView

variable {S : Type} (v : BufferView)

def row (m : SlotRows S) : BufferRow S := fun p => m v.layer v.tensor (v.offset+p)

def write (k : Nat) (data : BufferRow S) (m : SlotRows S) : SlotRows S := fun i t p =>
  if i = v.layer ∧ t = v.tensor ∧ v.offset ≤ p ∧ p < v.offset+k then data (p-v.offset) else m i t p

/-- `_try_as_t512` for an extracted buffer. -/
def t512 [Zero S] (m : SlotRows S) : List (List S) :=
  if v.dim = dsv4HeadDim then (List.range v.size).map (v.row m)
  else (List.range v.dim).map fun d => (List.range dsv4HeadDim).map fun p => (v.row m p).getD d 0

/-- `_write_module_kv_row`, which knows 512 components only. -/
def writeModuleKvRow (n : Nat) (data : BufferRow S) (m : SlotRows S) : SlotRows S :=
  if v.dim = dsv4HeadDim then v.write (min n v.size) data m else m

def Covers (k : Nat) (i : Nat) (t : Tensor) (p : Nat) : Prop :=
  i = v.layer ∧ t = v.tensor ∧ v.offset ≤ p ∧ p < v.offset+k

variable {v} {m m' : SlotRows S} {data : BufferRow S} {k i p : Nat} {t : Tensor}

theorem write_covered (h : v.Covers k i t p) : v.write k data m i t p = data (p-v.offset) := if_pos h

theorem write_other (h : ¬ v.Covers k i t p) : v.write k data m i t p = m i t p := if_neg h

theorem write_toward (hd : ∀ q, q < k → data q = v.row m' q) (h : v.Covers k i t p ∨ m i t p = m' i t p) :
    v.write k data m i t p = m' i t p := by
  by_cases hc : v.Covers k i t p
  · rw [write_covered hc]
    obtain ⟨rfl,rfl,hle,hlt⟩ := hc
    rw [hd _ (by omega),row,show v.offset+(p-v.offset) = p by omega]
  · rw [write_other hc]
    exact h.resolve_left hc

end BufferView

section Restore

variable {P S : Type} (cfg : DualConfig P S) (tree : ModelTree)

def extractLayers [Zero S] (m : SlotRows S) : List (List (List S)) := tree.extracted.map (·.t512 m)

/-- `layer_keys` after a dual write: the layers that there is room for. -/
def layerKeys : List BufferView := tree.extracted.take cfg.numLayers

/-- One position of `read_restore_bf16`. -/
def readRestore (c : DualPool P S) (table : List BlockId) (layer : Nat) : BufferRow S := fun p =>
  ((c.readAt cfg.cache table p).map fun x => (x layer).restore).getD []

/-- `_apply_restore_bf16_to_model` for the layers from `layer` on. -/
def applyRestore (c : DualPool P S) (table : List BlockId) (n : Nat) :
    Nat → List BufferView → SlotRows S → SlotRows S
  | _, [], m => m
  | layer, v :: vs, m =>
      if cfg.numLayers ≤ layer ∨ table.length < cfg.cache.pages n then m
      else applyRestore c table n (layer+1) vs (v.writeModuleKvRow n (readRestore cfg c table layer) m)

/-- The restore pages have the first `n` rows of every buffer in `vs` that can be
written back. -/
def Agree (c : DualPool P S) (table : List BlockId) (vs : List BufferView) (n : Nat) (m : SlotRows S) :
    Prop :=
  ∀ l v, vs[l]? = some v → v.dim = dsv4HeadDim → ∀ q, q < min n v.size →
    readRestore cfg c table l q = v.row m q

theorem layerKeys_length : (layerKeys cfg tree).length ≤ cfg.numLayers := by
  rw [layerKeys,List.length_take]
  omega

variable {cfg} {tree}

/-- What the pages agree on is brought back, and nothing else is touched. -/
theorem applyRestore_toward {c : DualPool P S} {table : List BlockId} {n layer : Nat}
    {vs : List BufferView} {m m' : SlotRows S} {i p : Nat} {t : Tensor}
    (hroom : cfg.cache.pages n ≤ table.length) (hlay : layer+vs.length ≤ cfg.numLayers)
    (hagree : ∀ l v, vs[l]? = some v → v.dim = dsv4HeadDim → ∀ q, q < min n v.size →
      readRestore cfg c table (layer+l) q = v.row m' q)
    (h : (∃ v ∈ vs, v.dim = dsv4HeadDim ∧ v.Covers (min n v.size) i t p) ∨ m i t p = m' i t p) :
    applyRestore cfg c table n layer vs m i t p = m' i t p := by
  induction vs generalizing layer m with
  | nil =>
    rcases h with ⟨v,hv,_⟩ | h
    · exact absurd hv List.not_mem_nil
    · exact h
  | cons v vs ih =>
    rw [List.length_cons] at hlay
    unfold applyRestore
    rw [if_neg (by omega)]
    apply ih (by omega)
    · intro l w hw
      have := hagree (l+1) w hw
      rwa [show layer+(l+1) = layer+1+l by omega] at this
    · by_cases hdim : v.dim = dsv4HeadDim
      · simp only [BufferView.writeModuleKvRow,hdim,if_true]
        have hrow := hagree 0 v rfl hdim
        rcases h with ⟨w,hw,hwd,hcov⟩ | h
        · rcases List.mem_cons.mp hw with rfl | hw
          · exact .inr (BufferView.write_toward hrow (.inl hcov))
          · exact .inl ⟨w,hw,hwd,hcov⟩
        · exact .inr (BufferView.write_toward hrow (.inr h))
      · simp only [BufferView.writeModuleKvRow,hdim,if_false]
        rcases h with ⟨w,hw,hwd,hcov⟩ | h
        · rcases List.mem_cons.mp hw with rfl | hw
          · exact absurd hwd hdim
          · exact .inl ⟨w,hw,hwd,hcov⟩
        · exact .inr h

theorem Agree.applyRestore_self {c : DualPool P S} {table : List BlockId} {n : Nat} {m : SlotRows S}
    (h : Agree cfg c table (layerKeys cfg tree) n m) (hroom : cfg.cache.pages n ≤ table.length) :
    applyRestore cfg c table n 0 (layerKeys cfg tree) m = m := by
  funext i t p
  refine applyRestore_toward hroom ?_ (fun l v hv hd q hq => ?_) (.inr rfl)
  · have := layerKeys_length cfg tree
    omega
  · rw [Nat.zero_add]
    exact h l v hv hd q hq

theorem getElem?_layerKeys {l : Nat} {v : BufferView} (h : (layerKeys cfg tree)[l]? = some v) :
    l < cfg.numLayers ∧ tree.extracted[l]? = some v := by
  obtain ⟨hlt,_⟩ := List.getElem?_eq_some_iff.mp h
  have hlen := layerKeys_length cfg tree
  refine ⟨by omega,?_⟩
  rwa [layerKeys,List.getElem?_take_of_lt (by omega)] at h

theorem Wrote.agree [Zero P] [Zero S] {ts : List (List BlockId)} {c c₁ : DualPool P S} {m : SlotRows S} {n : Nat}
    {fails : Bool} {ids : List BlockId} (h : Wrote cfg ts c (extractLayers tree m) n fails c₁ ids) :
    Agree cfg (dualWriteLayers cfg c (extractLayers tree m) n fails).1 ids (layerKeys cfg tree) n m := by
  intro l v hv hdim q hq
  obtain ⟨hl,hex⟩ := getElem?_layerKeys hv
  have hne : extractLayers tree m ≠ [] := by
    intro hnil
    rw [extractLayers,List.map_eq_nil_iff] at hnil
    rw [hnil] at hex
    simp at hex
  rw [h.result]
  simp only [hne,if_false,readRestore]
  have hal : Aligned ids ids := h.tabled.aligned ids (by simp) ids (by simp)
  have hcap : n ≤ ids.length*cfg.cache.blockSize := cfg.cache.pages_le_iff.mp (Nat.le_of_eq h.length.symm)
  have hlen : ∀ kv ∈ extractLayers tree m, 0+(kv.take n).length ≤ ids.length*cfg.cache.blockSize := by
    intro kv _
    rw [List.length_take]
    omega
  rw [writeLayers_read rfl hal c₁ hlen]
  have hpage : q/cfg.cache.blockSize < ids.length :=
    (Nat.div_lt_iff_lt_mul cfg.cache.blockSize_pos).mpr (by omega)
  simp only [Nat.zero_le,if_true,RadixCache.readAt,List.getElem?_eq_getElem hpage,Option.map_some,
    Option.getD_some,Nat.sub_zero,overlay,hl,and_self]
  have hrow : ((extractLayers tree m).map fun kv => kv.take n)[l]?.bind (·[q]?) = some (v.row m q) := by
    rw [extractLayers,List.map_map,List.getElem?_map,hex]
    simp only [Option.map_some,Option.bind_some,Function.comp_apply,BufferView.t512,hdim,if_true]
    rw [List.getElem?_take_of_lt (by omega),List.getElem?_map,List.getElem?_range (by omega)]
    rfl
  rw [hrow]

end Restore

end SglangLite.Hybrid
