import SglangLite.Kv.Tables
import SglangLite.Paging

set_option autoImplicit false

namespace SglangLite.Kv

inductive ErrorKind where
  | valueError
  | runtimeError
  | indexError
  | assertionError
  deriving DecidableEq, Repr

structure PyError where
  kind : ErrorKind
  text : String
  deriving DecidableEq, Repr

structure StoreConfig extends CacheConfig where
  numLayers : Nat
  numKvHeads : Nat
  headDim : Nat

structure Tensor4 (E : Type) where
  d0 : Nat
  d1 : Nat
  d2 : Nat
  d3 : Nat
  elem : Nat → Nat → Nat → Nat → E

structure Tensor3 (E : Type) where
  d0 : Nat
  d1 : Nat
  d2 : Nat
  elem : Nat → Nat → Nat → E

/-- The two tensors that `normalize_kv` takes, of the same rank. -/
inductive KvPair (E : Type) where
  | rank4 (k v : Tensor4 E)
  | rank3 (k v : Tensor3 E)

/-- Tokens of a packed pool, `[T, D]`. -/
structure Rows (E : Type) where
  width : Nat
  rows : List (List E)
  even : ∀ r ∈ rows, r.length = width

/-- A packed or restore pool: its last dimension and its cells by layer, block
and slot. -/
structure Pool (E : Type) where
  width : Nat
  cells : Nat → BlockId → Nat → List E

/-- The page tensors of a `RadixCache`: `k_cache` and `v_cache` by layer,
block, slot, head and dimension, the optional pools, and `_page_len`. -/
structure Stores (E : Type) where
  k : Nat → BlockId → Nat → Nat → Nat → E
  v : Nat → BlockId → Nat → Nat → Nat → E
  swa : Option (Pool E) := none
  comp : Option (Pool E) := none
  restore : Option (Pool E) := none
  pageLen : BlockId → Option Nat := fun _ => none

inductive PackedName where
  | swa
  | comp
  deriving DecidableEq, Repr

namespace Stores

variable {E : Type}

/-- `t[0].transpose(0, 1)` and `t[0]`. -/
def swapped (t : Tensor4 E) : Tensor3 E := ⟨t.d2,t.d1,t.d3,fun i j l => t.elem 0 j i l⟩

def first (t : Tensor4 E) : Tensor3 E := ⟨t.d1,t.d2,t.d3,t.elem 0⟩

def transpose (t : Tensor3 E) : Tensor3 E := ⟨t.d1,t.d0,t.d2,fun i j l => t.elem j i l⟩

/-- `normalize_kv`: tokens by heads by dimensions. -/
def normalizeKv (cfg : StoreConfig) : KvPair E → Tensor3 E × Tensor3 E
  | .rank4 k v => if k.d1 = cfg.numKvHeads then (swapped k,swapped v) else (first k,first v)
  | .rank3 k v =>
      if k.d0 = cfg.numKvHeads ∧ k.d1 ≠ cfg.numKvHeads then (transpose k,transpose v) else (k,v)

/-- `cells[layer, b, slot:slot+span].copy_(src[t:t+span])`. -/
def copySpan {A : Type} (cells : Nat → BlockId → Nat → A) (layer : Nat) (src : Nat → A)
    (b slot span t : Nat) : Nat → BlockId → Nat → A := fun l x i =>
  if l = layer ∧ x = b ∧ slot ≤ i ∧ i < slot+span then src (t+(i-slot)) else cells l x i

/-- `self._page_len[bid] = max(self._page_len.get(bid, 0), slot + span)`. -/
def occupy (s : Stores E) (b slot span : Nat) : Stores E :=
  { s with pageLen := Function.update s.pageLen b (some (max ((s.pageLen b).getD 0) (slot+span))) }

def layerError (layer : Nat) (range : String) : PyError :=
  ⟨.valueError,"layer_idx " ++ toString layer ++ " out of range" ++ range⟩

def layerRange (cfg : StoreConfig) : String := " (" ++ toString cfg.numLayers ++ ")"

/-- `block_table[page_i]` beyond the table. -/
def tableError : PyError := ⟨.indexError,"list index out of range"⟩

/-- The explicit check of a block id in the write loops. -/
def blockRange (cfg : StoreConfig) (b : BlockId) : Option PyError :=
  if cfg.numBlocks ≤ b then
    some ⟨.runtimeError,"block id " ++ toString b ++ " out of range (" ++ toString cfg.numBlocks ++ ")"⟩
  else none

/-- The tensor's own check, where the code has none. -/
def blockIndex (cfg : StoreConfig) (b : BlockId) : Option PyError :=
  if cfg.numBlocks ≤ b then
    some ⟨.indexError,"index " ++ toString b ++ " is out of bounds for dimension 1 with size "
      ++ toString cfg.numBlocks⟩
  else none

def putKv (layer : Nat) (k v : Tensor3 E) (s : Stores E) (b slot span t : Nat) : Stores E :=
  { s.occupy b slot span with
    k := copySpan s.k layer k.elem b slot span t
    v := copySpan s.v layer v.elem b slot span t }

def writeKvLayer (cfg : StoreConfig) (s : Stores E) (table : List BlockId) (start layer : Nat)
    (kv : KvPair E) : Stores E × Except PyError Unit :=
  if table = [] then (s,.error ⟨.valueError,"write_kv_layer requires block_table"⟩)
  else if cfg.numLayers ≤ layer then (s,.error (layerError layer (layerRange cfg)))
  else
    let k := (normalizeKv cfg kv).1
    let v := (normalizeKv cfg kv).2
    if table.length < cfg.pages (start+k.d0) then
      (s,.error ⟨.runtimeError,"block_table too short for pos=" ++ toString ((start+k.d0 : Int)-1)
        ++ ": pages=" ++ toString table.length⟩)
    else
      Paging.writeSpans cfg.blockSize table tableError (blockRange cfg) (putKv layer k v) start k.d0
        k.d0 0 s

/-- `(pages, block_size, H, D)` cut to `length` tokens and turned into
`(1, H, length, D)`. -/
def readLayer (cfg : StoreConfig) (table : List BlockId) (length : Nat)
    (cells : BlockId → Nat → Nat → Nat → E) : Tensor4 E where
  d0 := 1
  d1 := cfg.numKvHeads
  d2 := (Paging.gather cfg.blockSize table cells (cfg.pages length) length).length
  d3 := cfg.headDim
  elem := fun _ h j d =>
    ((Paging.gather cfg.blockSize table cells (cfg.pages length) length).getD j (cells 0 0)) h d

def readKv (cfg : StoreConfig) (s : Stores E) (table : List BlockId) (length : Nat) :
    Except PyError (List (Tensor4 E × Tensor4 E)) :=
  if length = 0 then .ok []
  else if table.length < cfg.pages length then
    .error ⟨.runtimeError,"read_kv: need " ++ toString (cfg.pages length) ++ " pages, have "
      ++ toString table.length ++ " for length=" ++ toString length⟩
  else if (table.take (cfg.pages length)).any fun b => cfg.numBlocks ≤ b then
    .error ⟨.indexError,"index out of range in self"⟩
  else
    .ok ((List.range cfg.numLayers).map fun l =>
      (readLayer cfg table length (s.k l),readLayer cfg table length (s.v l)))

/-- `str.lower`, with the one character outside ASCII whose lower case is a
letter of the pool names. -/
def lower (c : Char) : Char := if c = Char.ofNat 0x212A then 'k' else c.toLower

def packedName (pool : String) : Except PyError PackedName :=
  let name := (if pool = "" then "swa" else pool).toList.map lower
  if name ∈ ["swa".toList,"window".toList,"packed".toList] then .ok .swa
  else if name ∈ ["comp".toList,"compressed".toList,"c".toList] then .ok .comp
  else .error ⟨.valueError,"unknown packed pool '" ++ pool ++ "'; use 'swa' or 'comp'"⟩

def packed (s : Stores E) : PackedName → Option (Pool E)
  | .swa => s.swa
  | .comp => s.comp

def setPacked (s : Stores E) (p : PackedName) (c : Option (Pool E)) : Stores E :=
  match p with
  | .swa => { s with swa := c }
  | .comp => { s with comp := c }

def Pool.put (c : Pool E) (layer : Nat) (src : Rows E) (b slot span t : Nat) : Pool E :=
  { c with cells := copySpan c.cells layer (fun i => src.rows.getD i []) b slot span t }

def putPacked (p : PackedName) (layer : Nat) (src : Rows E) (s : Stores E) (b slot span t : Nat) :
    Stores E :=
  (s.occupy b slot span).setPacked p ((s.packed p).map fun c => Pool.put c layer src b slot span t)

def poolMissing (pool : String) : PyError :=
  ⟨.runtimeError,"packed pool '" ++ pool ++ "' is not allocated on this RadixCache"⟩

def writePackedKv (cfg : StoreConfig) (s : Stores E) (table : List BlockId) (start : Nat)
    (toks : Rows E) (pool : String) (layer : Nat) : Stores E × Except PyError Unit :=
  match packedName pool with
  | .error e => (s,.error e)
  | .ok p =>
      match s.packed p with
      | none => (s,.error (poolMissing pool))
      | some cache =>
          if table = [] then (s,.error ⟨.valueError,"write_packed_kv requires block_table"⟩)
          else if cfg.numLayers ≤ layer then (s,.error (layerError layer (layerRange cfg)))
          else if toks.rows.length = 0 then (s,.ok ())
          else if toks.width ≠ cache.width then
            (s,.error ⟨.valueError,"packed last dim " ++ toString toks.width ++ " != pool dim "
              ++ toString cache.width⟩)
          else if table.length < cfg.pages (start+toks.rows.length) then
            (s,.error ⟨.runtimeError,"block_table too short for packed pos="
              ++ toString (start+toks.rows.length-1) ++ ": pages=" ++ toString table.length⟩)
          else
            Paging.writeSpans cfg.blockSize table tableError (blockRange cfg) (putPacked p layer toks)
              start toks.rows.length toks.rows.length 0 s

def readPackedKv (cfg : StoreConfig) (s : Stores E) (table : List BlockId) (length : Nat)
    (pool : String) (layer : Nat) : Except PyError (List (List E)) :=
  match packedName pool with
  | .error e => .error e
  | .ok p =>
      match s.packed p with
      | none => .error (poolMissing pool)
      | some cache =>
          if length = 0 then .ok []
          else if cfg.numLayers ≤ layer then .error (layerError layer (layerRange cfg))
          else if table.length < cfg.pages length then
            .error ⟨.runtimeError,"read_packed_kv: need " ++ toString (cfg.pages length)
              ++ " pages, have " ++ toString table.length⟩
          else
            Paging.readSpans cfg.blockSize table tableError (blockIndex cfg) (cache.cells layer) length
              length 0 []

def putRestore (layer : Nat) (src : Rows E) (s : Stores E) (b slot span t : Nat) : Stores E :=
  { s.occupy b slot span with
    restore := s.restore.map fun c => Pool.put c layer src b slot span t }

def writeRestoreBf16 (cfg : StoreConfig) (s : Stores E) (table : List BlockId) (start : Nat)
    (toks : Rows E) (layer : Nat) : Stores E × Except PyError Unit :=
  match s.restore with
  | none => (s,.error ⟨.runtimeError,"restore_bf16_cache is not allocated"⟩)
  | some _ =>
      if table = [] then (s,.error ⟨.valueError,"write_restore_bf16 requires block_table"⟩)
      else if toks.width ≠ 512 then
        (s,.error ⟨.valueError,"expected [T, 512], got (" ++ toString toks.rows.length ++ ", "
          ++ toString toks.width ++ ")"⟩)
      else if cfg.numLayers ≤ layer then (s,.error (layerError layer ""))
      else if toks.rows.length = 0 then (s,.ok ())
      else if table.length < cfg.pages (start+toks.rows.length) then
        (s,.error ⟨.runtimeError,"block_table too short for restore bf16 pos="
          ++ toString (start+toks.rows.length-1)⟩)
      else
        Paging.writeSpans cfg.blockSize table tableError (blockIndex cfg) (putRestore layer toks) start
          toks.rows.length toks.rows.length 0 s

def readRestoreBf16 (cfg : StoreConfig) (s : Stores E) (table : List BlockId) (length layer : Nat) :
    Except PyError (List (List E)) :=
  match s.restore with
  | none => .error ⟨.runtimeError,"restore_bf16_cache is not allocated"⟩
  | some cache =>
      if length = 0 then .ok []
      else if cfg.numLayers ≤ layer then .error (layerError layer "")
      else if table.length < cfg.pages length then
        .error ⟨.runtimeError,"read_restore_bf16: need " ++ toString (cfg.pages length)
          ++ " pages, have " ++ toString table.length⟩
      else
        Paging.readSpans cfg.blockSize table tableError (blockIndex cfg) (cache.cells layer) length
          length 0 []

end Stores

end SglangLite.Kv
