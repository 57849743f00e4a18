import Mathlib.Logic.Function.Basic

set_option autoImplicit false

namespace SglangLite.Hybrid

/-- The scalars of the model's tensors, as far as the buffers need them. -/
structure Scalars (S : Type) where
  zero : S
  negInf : S
  ne : zero ≠ negInf

/-- The shapes of `ModelArgs`. The constructor of `Attention` takes a negative
power of `head_dim`, so it is not 0. -/
structure ModelArgs where
  maxBatchSize : Nat
  maxSeqLen : Nat
  windowSize : Nat
  headDim : Nat
  indexHeadDim : Nat
  headDim_pos : 0 < headDim

theorem pos_headDim : 0 < 512 := by decide

variable {S X : Type}

abbrev BufferRow (S : Type) := Nat → List S

structure Buffer (S : Type) where
  rows : Nat
  size : Nat
  dim : Nat
  cell : Nat → BufferRow S
  length : ∀ r p, (cell r p).length = dim

namespace Buffer

def shape (t : Buffer S) : Nat × Nat × Nat := (t.rows,t.size,t.dim)

def row (slot : Nat) (t : Buffer S) : BufferRow S := fun p => if p < t.size then t.cell slot p else []

/-- `torch.full`. -/
def full (rows size dim : Nat) (v : S) : Buffer S where
  rows := rows
  size := size
  dim := dim
  cell _ _ := List.replicate dim v
  length _ _ := List.length_replicate

/-- The view `t[:, lo:]`: `zero_()` on its row `r`. -/
def zeroRow (c : Scalars S) (lo r : Nat) (t : Buffer S) : Buffer S where
  rows := t.rows
  size := t.size
  dim := t.dim
  cell i p := if i = r ∧ lo ≤ p then List.replicate t.dim c.zero else t.cell i p
  length i p := by
    split
    · exact List.length_replicate
    · exact t.length i p

/-- `zero_()` on the whole view `t[:, lo:]`. -/
def zeroAll (c : Scalars S) (lo : Nat) (t : Buffer S) : Buffer S where
  rows := t.rows
  size := t.size
  dim := t.dim
  cell i p := if lo ≤ p then List.replicate t.dim c.zero else t.cell i p
  length i p := by
    split
    · exact List.length_replicate
    · exact t.length i p

/-- The body of the loop of `clear_v4_kv_slot` for the view `t[:, lo:]`. -/
def clearFrom (c : Scalars S) (slot lo : Nat) (t : Buffer S) : Buffer S :=
  if t.rows*(t.size-lo)*t.dim = 0 then t
  else if slot < t.rows then t.zeroRow c lo slot
  else if slot = 0 then t.zeroAll c lo
  else t

def clear (c : Scalars S) (slot : Nat) (t : Buffer S) : Buffer S := t.clearFrom c slot 0

end Buffer

/-- The states of a `Compressor`. Its `kv_cache` is a view of the cache of the
module it belongs to; `bound` tells that a forward has assigned it. -/
structure CompressorState (S : Type) where
  kvState : Buffer S
  scoreState : Buffer S
  bound : Bool := false

structure IndexerState (S : Type) where
  kvCache : Buffer S
  compressor : CompressorState S

structure AttentionState (S : Type) where
  kvCache : Buffer S
  compressor : Option (CompressorState S) := none
  indexer : Option (IndexerState S) := none

section Fresh

variable (c : Scalars S) (args : ModelArgs)

/-- With a ratio of 4 the windows overlap. -/
def coff (ratio : Nat) : Nat := if ratio = 4 then 2 else 1

def freshCompressor (ratio headDim : Nat) : CompressorState S where
  kvState := .full args.maxBatchSize (coff ratio*ratio) (coff ratio*headDim) c.zero
  scoreState := .full args.maxBatchSize (coff ratio*ratio) (coff ratio*headDim) c.negInf

def freshIndexer (ratio : Nat) : IndexerState S where
  kvCache := .full args.maxBatchSize (args.maxSeqLen/ratio) args.indexHeadDim c.zero
  compressor := freshCompressor c args ratio args.indexHeadDim

/-- The buffers that `Attention.__init__` makes for a layer. -/
def freshAttention (ratio : Nat) : AttentionState S where
  kvCache := .full args.maxBatchSize
    (args.windowSize+(if ratio = 0 then 0 else args.maxSeqLen/ratio)) args.headDim c.zero
  compressor := if ratio = 0 then none else some (freshCompressor c args ratio args.headDim)
  indexer := if ratio = 4 then some (freshIndexer c args ratio) else none

end Fresh

section Clear

variable (c : Scalars S) (slot : Nat)

def CompressorState.clear (st : CompressorState S) : CompressorState S :=
  { st with kvState := st.kvState.clear c slot, scoreState := st.scoreState.clear c slot }

/-- The modules of a layer in the order of `named_modules`: the attention, its
compressor, the indexer and the compressor of the indexer. -/
def AttentionState.clear (win : Nat) (st : AttentionState S) : AttentionState S :=
  let kv₁ := st.kvCache.clear c slot
  let kv₂ := if (st.compressor.map CompressorState.bound).getD false then kv₁.clearFrom c slot win else kv₁
  { kvCache := kv₂
    compressor := st.compressor.map (CompressorState.clear c slot)
    indexer := st.indexer.map fun ix =>
      let kv := ix.kvCache.clear c slot
      { kvCache := if ix.compressor.bound then kv.clear c slot else kv
        compressor := ix.compressor.clear c slot } }

def clearV4KvSlot (args : ModelArgs) (model : List (AttentionState S)) : List (AttentionState S) :=
  model.map (AttentionState.clear c slot args.windowSize)

end Clear

section Rows

structure CompressorRow (S : Type) where
  kv : BufferRow S
  score : BufferRow S

structure LayerRow (S : Type) where
  cache : BufferRow S
  comp : Option (CompressorRow S) := none
  index : Option (BufferRow S × CompressorRow S) := none

def CompressorState.row (slot : Nat) (st : CompressorState S) : CompressorRow S :=
  ⟨st.kvState.row slot,st.scoreState.row slot⟩

def AttentionState.row (slot : Nat) (st : AttentionState S) : LayerRow S where
  cache := st.kvCache.row slot
  comp := st.compressor.map (CompressorState.row slot)
  index := st.indexer.map fun ix => (ix.kvCache.row slot,ix.compressor.row slot)

end Rows

/-- A `Compressor` by what it computes: the two projections, the position
weights, the pooling of a window by its scores, and the norm, rotation and
quantisation of the result for its position. -/
structure Compressor (X S : Type) where
  wkv : X → List S
  wgate : X → List S
  ape : Nat → List S
  add : List S → List S → List S
  pool : List (List S) → List (List S) → List S
  post : Nat → List S → List S

namespace Compressor

variable (w : Compressor X S) (c : Scalars S) (ratio dim : Nat)

def assign (lo n : Nat) (v : Nat → List S) (row : BufferRow S) : BufferRow S :=
  fun p => if lo ≤ p ∧ p < lo+n then v (p-lo) else row p

/-- `offset` of the current window in the states. -/
def offset : Nat := if ratio = 4 then ratio else 0

def kvAt (xs : List X) (j : Nat) : List S := (xs.map w.wkv).getD j []

def scoreAt (xs : List X) (j : Nat) : List S := (xs.map w.wgate).getD j []

/-- The states after a forward with `start_pos == 0`. -/
def prefillState (xs : List X) (st : CompressorRow S) : CompressorRow S :=
  let remainder := xs.length % ratio
  let cutoff := xs.length-remainder
  let st₁ := if ratio = 4 ∧ ratio ≤ cutoff then
      { kv := assign 0 ratio (fun j => w.kvAt xs (cutoff-ratio+j)) st.kv
        score := assign 0 ratio (fun j => w.add (w.scoreAt xs (cutoff-ratio+j)) (w.ape j)) st.score }
    else st
  if 0 < remainder then
    { kv := assign (offset ratio) remainder (fun j => w.kvAt xs (cutoff+j)) st₁.kv
      score := assign (offset ratio) remainder
        (fun j => w.add (w.scoreAt xs (cutoff+j)) (w.ape j)) st₁.score }
  else st₁

/-- The vectors of window `i` of a prompt that go into the pooling; `fill` stands
before the first window. -/
def window (v : Nat → List S) (fill : S) (i : Nat) : List (List S) :=
  if ratio = 4 then
    ((List.range ratio).map fun j =>
      if i = 0 then List.replicate dim fill else (v ((i-1)*ratio+j)).take dim) ++
    (List.range ratio).map fun j => (v (i*ratio+j)).drop dim
  else (List.range ratio).map fun j => v (i*ratio+j)

def prefillOut (xs : List X) : Option (List (List S)) :=
  if ratio ≤ xs.length then
    some ((List.range (xs.length/ratio)).map fun i => w.post (i*ratio)
      (w.pool (window ratio dim (w.kvAt xs) c.zero i)
        (window ratio dim (fun j => w.add (w.scoreAt xs j) (w.ape (j % ratio))) c.negInf i)))
  else none

def entered (start : Nat) (x : X) (st : CompressorRow S) : CompressorRow S where
  kv := Function.update st.kv (offset ratio+start % ratio) (w.wkv x)
  score := Function.update st.score (offset ratio+start % ratio) (w.add (w.wgate x) (w.ape (start % ratio)))

def pooled (v : BufferRow S) : List (List S) :=
  if ratio = 4 then
    ((List.range ratio).map fun j => (v j).take dim) ++
      (List.range ratio).map fun j => (v (ratio+j)).drop dim
  else (List.range ratio).map v

def moved (st : CompressorRow S) : CompressorRow S :=
  if ratio = 4 then
    ⟨assign 0 ratio (fun j => st.kv (ratio+j)) st.kv,assign 0 ratio (fun j => st.score (ratio+j)) st.score⟩
  else st

/-- The states after a forward with `start_pos > 0`. -/
def decodeState (start : Nat) (x : X) (st : CompressorRow S) : CompressorRow S :=
  if (start+1) % ratio = 0 then moved ratio (w.entered ratio start x st) else w.entered ratio start x st

def decodeOut (start : Nat) (x : X) (st : CompressorRow S) : Option (List (List S)) :=
  let st₁ := w.entered ratio start x st
  if (start+1) % ratio = 0 then
    some [w.post (start+1-ratio) (w.pool (pooled ratio dim st₁.kv) (pooled ratio dim st₁.score))]
  else none

/-- `Compressor.forward` on one row, for the tokens at `start`, ... -/
def forward (start : Nat) (xs : List X) (st : CompressorRow S) :
    CompressorRow S × Option (List (List S)) :=
  match start,xs with
  | 0,_ => (w.prefillState ratio xs st,w.prefillOut c ratio dim xs)
  | start+1,x :: _ => (w.decodeState ratio (start+1) x st,w.decodeOut ratio dim (start+1) x st)
  | _+1,[] => (st,none)

/-- The write of the compressed vectors into the cache, which begins at `lo`. -/
def store (lo start : Nat) (out : Option (List (List S))) (row : BufferRow S) : BufferRow S :=
  match out with
  | none => row
  | some kv => assign (lo+start/ratio) kv.length (fun j => kv.getD j []) row

end Compressor

/-- A layer: its two compressors, the keys and values of the sliding window, and
the rest of the block, which reads the caches and what was just compressed and
gives one vector for every token. -/
structure Layer (X S : Type) where
  ratio : Nat
  comp : Compressor X S
  index : Compressor X S
  wkv : Nat → X → List S
  rest : Nat → List X → BufferRow S → Option (BufferRow S) → Option (List (List S)) → List X
  length_rest : ∀ start xs cache index out, (rest start xs cache index out).length = xs.length

namespace Layer

variable (c : Scalars S) (args : ModelArgs) (l : Layer X S)

/-- The window part of the cache: position `i` of the sequence is kept at
`i % win`. -/
def slide (start : Nat) (xs : List X) (row : BufferRow S) : BufferRow S :=
  (xs.zipIdx start).foldl (fun row x => Function.update row (x.2 % args.windowSize) (l.wkv x.2 x.1)) row

abbrev Out (S : Type) := Option (List (List S)) × Option (List (List S))

/-- `Attention.forward` on one row, with the rest of the block. -/
def forward (start : Nat) (xs : List X) (row : LayerRow S) : LayerRow S × List X × Out S :=
  let ix := row.index.map fun ix => l.index.forward c l.ratio args.indexHeadDim start xs ix.2
  let ixOut := (ix.map Prod.snd).getD none
  let cp := row.comp.map fun st => l.comp.forward c l.ratio args.headDim start xs st
  let cpOut := (cp.map Prod.snd).getD none
  let row' : LayerRow S :=
    { cache := Compressor.store l.ratio args.windowSize start cpOut (l.slide args start xs row.cache)
      comp := cp.map Prod.fst
      index := row.index.bind fun kv => ix.map fun r =>
        (Compressor.store l.ratio 0 start ixOut kv.1,r.1) }
  (row',l.rest start xs row'.cache (row'.index.map Prod.fst) cpOut,cpOut,ixOut)

end Layer

/-- `Transformer.forward` on one row, layer by layer. -/
def forwardRow (c : Scalars S) (args : ModelArgs) :
    List (Layer X S) → Nat → List X → List (LayerRow S) → List (LayerRow S) × List X × List (Layer.Out S)
  | l :: ls, start, xs, row :: rows =>
      let r := l.forward c args start xs row
      let rs := forwardRow c args ls start r.2.1 rows
      (r.1 :: rs.1,rs.2.1,r.2.2 :: rs.2.2)
  | _, _, xs, _ => ([],xs,[])

def decodeRow (c : Scalars S) (args : ModelArgs) (net : List (Layer X S)) :
    Nat → List X → List (LayerRow S) → List (List X × List (Layer.Out S))
  | _, [], _ => []
  | start, x :: ys, rows =>
      let r := forwardRow c args net start [x] rows
      r.2 :: decodeRow c args net (start+1) ys r.1

def serveRow (c : Scalars S) (args : ModelArgs) (net : List (Layer X S)) (prompt ys : List X)
    (rows : List (LayerRow S)) : List (List X × List (Layer.Out S)) :=
  let r := forwardRow c args net 0 prompt rows
  r.2 :: decodeRow c args net prompt.length ys r.1

end SglangLite.Hybrid
