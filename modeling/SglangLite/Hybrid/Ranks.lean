import SglangLite.Hybrid.Sharded

set_option autoImplicit false

namespace SglangLite.Hybrid.Sharded

open Strides Sharding Softmax SparseAttn Moe

section Layer

variable {X K V W Y : Type} [Field K] [LinearOrder K] [AddCommMonoid Y]

/-- A block by its weights that are sharded and by functions for what every rank
computes in full: `qr` and `indexIn` make the inputs of the projections, `head`,
`unrotate` and `indexHead` norm and rotate one head at a position, `attnPost` and
`ffnPost` mix a result into the stream. -/
structure LayerWeights (X K V W Y : Type) where
  ratio : Nat
  indexTopk : Nat
  comp : Compressor X K
  index : Compressor X K
  wkv : Nat → X → List K
  args : AttnArgs
  scale : K
  qr : X → List K
  head : Nat → List K → List K
  unrotate : Nat → List K → List K
  attn : AttnWeights K
  indexHeads : Nat
  indexHeadDim : Nat
  indexIn : X → List K
  indexHead : Nat → List K → List K
  indexWqB : List (List K)
  weightsProj : List (List K)
  indexScale : K
  attnPost : X → List K → X
  ffnIn : X → V
  gate : X → List Nat × (Nat → W)
  experts : List (V → W → Y)
  ffnPost : X → Y → X

structure LayerWeights.Fits (ws : Nat) (p : LayerWeights X K V W Y) : Prop where
  attn : p.attn.Fits p.args ws
  unrotate : ∀ pos x, (p.unrotate pos x).length = x.length
  indexHeads : ws ∣ p.indexHeads
  indexWqB : p.indexWqB.length = p.indexHeadDim*p.indexHeads
  weightsProj : p.weightsProj.length = p.indexHeads
  experts : ws ∣ p.experts.length

variable (e : K → K) (ws : Nat) (p : LayerWeights X K V W Y)

def LayerWeights.ffn (x : X) : Y :=
  ((moeRanks ws p.experts (fun _ => p.ffnIn x) ⟨[(p.gate x).1],fun _ => (p.gate x).2⟩).bind List.head?).getD 0

/-- The attention half of the block on `ws` ranks that hold the converted
weights, with what each rank computes from the heads it has. -/
def attnBlock : Block X K (List (List (List K))) (List (List (List K))) K where
  ratio := p.ratio
  indexTopk := p.indexTopk
  comp := p.comp
  index := p.index
  wkv := p.wkv
  query pos x := (List.range ws).map fun r => localQuery p.args ws (p.attn.convert ws r) (p.head pos) (p.qr x)
  score pos x k := ((List.range ws).map fun r => localScore p.indexHeadDim (p.indexHeads/ws) (p.indexHead pos)
    (shard ws p.indexWqB r) (shard ws p.weightsProj r) p.indexScale (p.qr x) (p.indexIn x) k).sum
  sparseAttn qs rows := qs.zipIdx.map fun q =>
    softmaxAttn e p.args.headDim p.scale (p.attn.convert ws q.2).attnSink q.1 rows
  masked _ rows := List.map_congr_left fun q _ => softmaxAttn_masked e _ _ _ q.1 rows
  rest pos x o := p.attnPost x
    (allReduce (o.zipIdx.map fun o => localOut p.args ws (p.attn.convert ws o.2) (p.unrotate pos) o.1))

def LayerWeights.ffnHalf (x : X) : X := p.ffnPost x (p.ffn ws x)

def rankBlock : Block X K (List (List (List K))) (List (List (List K))) K :=
  { attnBlock e ws p with rest := fun pos x o => p.ffnHalf ws ((attnBlock e ws p).rest pos x o) }

end Layer

section Agree

variable {X K V W Y : Type} [Field K] [LinearOrder K] [AddCommMonoid Y] {e : K → K} {ws : Nat}
  {p : LayerWeights X K V W Y}

omit [Field K] [LinearOrder K] in
theorem AttnWeights.Fits.one {a : AttnArgs} {w : AttnWeights K} (h : w.Fits a ws) : w.Fits a 1 :=
  { h with pos := Nat.one_pos, heads := one_dvd _, groups := one_dvd _ }

omit [Field K] [LinearOrder K] [AddCommMonoid Y] in
theorem LayerWeights.Fits.one (h : p.Fits ws) : p.Fits 1 :=
  { h with attn := h.attn.one, indexHeads := one_dvd _, experts := one_dvd _ }

omit [Field K] [LinearOrder K] [AddCommMonoid Y] in
theorem zipIdx_map_range {A C : Type} (f : Nat → A) (g : A × Nat → C) (n : Nat) :
    ((List.range n).map f).zipIdx.map g = (List.range n).map fun r => g (f r,r) := by
  refine List.ext_getElem (by simp) fun i h1 h2 => ?_
  simp

theorem score_sharded (h : p.Fits ws) : (rankBlock e ws p).score = fun pos x k =>
    localScore p.indexHeadDim p.indexHeads (p.indexHead pos) p.indexWqB p.weightsProj p.indexScale (p.qr x)
      (p.indexIn x) k := by
  funext pos x k
  exact localScore_sum h.indexHeads h.attn.pos h.indexWqB h.weightsProj _ _ _ _ k

theorem attention_sharded (h : p.Fits ws) (pos : Nat) (x : X) (rows : List (Option (List K))) :
    allReduce (((rankBlock e ws p).sparseAttn ((rankBlock e ws p).query pos x) rows).zipIdx.map fun o =>
        localOut p.args ws (p.attn.convert ws o.2) (p.unrotate pos) o.1) =
      localOut p.args 1 p.attn (p.unrotate pos) (softmaxAttn e p.args.headDim p.scale p.attn.attnSink
        (localQuery p.args 1 p.attn (p.head pos) (p.qr x)) rows) := by
  obtain ⟨q,hq⟩ : ∃ q, localQuery p.args 1 p.attn (p.head pos) (p.qr x) = q := ⟨_,rfl⟩
  have hqlen : q.length = p.attn.attnSink.length := by
    rw [← hq,localQuery,List.length_map,length_blocks,Nat.div_one,h.attn.attnSink]
  have hquery : (rankBlock e ws p).query pos x = (List.range ws).map (shard ws q) := by
    refine List.map_congr_left fun r hr => ?_
    rw [localQuery_convert h.attn (List.mem_range.mp hr),hq]
  obtain ⟨o,ho⟩ : ∃ o, softmaxAttn e p.args.headDim p.scale p.attn.attnSink q rows = o := ⟨_,rfl⟩
  have hsparse : (rankBlock e ws p).sparseAttn ((List.range ws).map (shard ws q)) rows =
      (List.range ws).map (shard ws o) := by
    refine (zipIdx_map_range _ _ ws).trans (List.map_congr_left fun r _ => ?_)
    rw [AttnWeights.convert,softmaxAttn_shard hqlen,ho]
  have holen : o.length = p.args.nHeads := by
    rw [← ho,softmaxAttn,List.length_zipWith,hqlen,Nat.min_self,h.attn.attnSink]
  have hdim : ∀ y ∈ o, (p.unrotate pos y).length = p.args.headDim := by
    intro y hy
    rw [← ho,softmaxAttn] at hy
    obtain ⟨i,hi,rfl⟩ := List.getElem_of_mem hy
    rw [h.unrotate,List.getElem_zipWith,attend,List.length_map,List.length_range]
  rw [hq,hquery,hsparse,zipIdx_map_range,ho]
  exact localOut_allReduce h.attn holen hdim

omit [Field K] [LinearOrder K] in
/-- The feed-forward of one token does not depend on the number of ranks. -/
theorem ffn_sharded (h : p.Fits ws) (x : X) :
    p.ffn ws x = (p.experts.mapIdx fun i f => gain f (p.ffnIn x) (p.gate x).2 (p.gate x).1 i).sum := by
  rw [LayerWeights.ffn,moeRanks_eq h.attn.pos h.experts]
  rfl

omit [Field K] [LinearOrder K] in
theorem moeRanks_tokens (h : p.Fits ws) (xs : List X) (d : X) :
    moeRanks ws p.experts (fun t => p.ffnIn (xs.getD t d))
        ⟨xs.map fun x => (p.gate x).1,fun t => (p.gate (xs.getD t d)).2⟩ =
      some (xs.map (p.ffn ws)) := by
  rw [moeRanks_eq h.attn.pos h.experts]
  refine congrArg some (List.ext_getElem? fun t => ?_)
  rw [List.getElem?_mapIdx,List.getElem?_map,List.getElem?_map]
  cases ht : xs[t]? with
  | none => rfl
  | some x =>
    have hget : xs.getD t d = x := by rw [List.getD_eq_getElem?_getD,ht,Option.getD_some]
    rw [Option.map_some,Option.map_some,Option.map_some,ffn_sharded h,hget]
    simp only [hget]

/-- A token gets the same from `ws` ranks as from one. -/
theorem token_sharded (h : p.Fits ws) (args : ModelArgs) (len start offset i : Nat) (x : X) (kv : Nat → List K)
    (index : Option (BufferRow K)) :
    (rankBlock e ws p).token args len start offset i x kv index =
      (rankBlock e 1 p).token args len start offset i x kv index := by
  have hscore : (rankBlock e ws p).score = (rankBlock e 1 p).score := by
    rw [score_sharded h,score_sharded h.one]
  have hidxs : (rankBlock e ws p).compressIdxs len start offset i x index =
      (rankBlock e 1 p).compressIdxs len start offset i x index := by
    unfold Block.compressIdxs Block.indexerIdxs
    rw [hscore]
    rfl
  have hrest : ∀ pos rows, (rankBlock e ws p).rest pos x
      ((rankBlock e ws p).sparseAttn ((rankBlock e ws p).query pos x) rows) =
        (rankBlock e 1 p).rest pos x ((rankBlock e 1 p).sparseAttn ((rankBlock e 1 p).query pos x) rows) := by
    intro pos rows
    have hws := attention_sharded (e := e) h pos x rows
    have hone := attention_sharded (e := e) h.one pos x rows
    simp only [rankBlock,attnBlock,LayerWeights.ffnHalf] at hws hone ⊢
    rw [hws,hone,ffn_sharded h,ffn_sharded h.one]
  unfold Block.token
  rw [hidxs,hrest]

theorem layer_sharded (h : p.Fits ws) (args : ModelArgs) :
    (rankBlock e ws p).layer args = (rankBlock e 1 p).layer args := by
  have hread : (rankBlock e ws p).read args = (rankBlock e 1 p).read args := by
    funext start xs cache index out
    unfold Block.read
    simp only [token_sharded h]
    rfl
  unfold Block.layer
  simp only [hread]
  rfl

end Agree

end SglangLite.Hybrid.Sharded
