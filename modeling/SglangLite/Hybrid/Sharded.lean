import SglangLite.Hybrid.SparseAttn
import SglangLite.Hybrid.Moe

set_option autoImplicit false

namespace SglangLite.Hybrid.Sharded

open Strides Sharding Softmax SparseAttn

section Attention

variable {K : Type} [Field K]

structure AttnArgs where
  nHeads : Nat
  headDim : Nat
  nGroups : Nat
  oLoraRank : Nat
  groupWidth : Nat
  width_eq : headDim*nHeads = groupWidth*nGroups

structure AttnWeights (K : Type) where
  wqB : List (List K)
  attnSink : List K
  woA : List (List K)
  woB : List (List K)

/-- What `convert.py` keeps of the weights for rank `i` of `mp`. -/
def AttnWeights.convert (mp i : Nat) (w : AttnWeights K) : AttnWeights K where
  wqB := shard mp w.wqB i
  attnSink := shard mp w.attnSink i
  woA := shard mp w.woA i
  woB := w.woB.map fun row => shard mp row i

structure AttnWeights.Fits (a : AttnArgs) (ws : Nat) (w : AttnWeights K) : Prop where
  pos : 0 < ws
  heads : ws ∣ a.nHeads
  groups : ws ∣ a.nGroups
  groups_pos : 0 < a.nGroups
  wqB : w.wqB.length = a.headDim*a.nHeads
  attnSink : w.attnSink.length = a.nHeads
  woA : w.woA.length = a.oLoraRank*a.nGroups
  woB : ∀ row ∈ w.woB, row.length = a.oLoraRank*a.nGroups

def localQuery (a : AttnArgs) (ws : Nat) (w : AttnWeights K) (head : List K → List K) (qr : List K) :
    List (List K) := (blocks a.headDim (a.nHeads/ws) (linear qr w.wqB)).map head

def localOut (a : AttnArgs) (ws : Nat) (w : AttnWeights K) (unrotate : List K → List K) (o : List (List K)) :
    List K :=
  let groups := a.nGroups/ws
  let flat := (o.map unrotate).flatten
  let o := blocks (flat.length/groups) groups flat
  let woA := blocks a.oLoraRank groups w.woA
  linear (List.zipWith linear o woA).flatten w.woB

variable {a : AttnArgs} {ws r : Nat} {w : AttnWeights K}

theorem localQuery_convert (h : w.Fits a ws) (hr : r < ws) (head : List K → List K) (qr : List K) :
    localQuery a ws (w.convert ws r) head qr = shard ws (localQuery a 1 w head qr) r := by
  have hlen : (linear qr w.wqB).length = a.headDim*(a.nHeads/ws*ws) := by
    rw [linear,List.length_map,h.wqB,Nat.div_mul_cancel h.heads]
  rw [localQuery,AttnWeights.convert,linear_shard,blocks_shard h.pos hlen hr,localQuery,shard_map,
    Nat.div_mul_cancel h.heads,Nat.div_one]

variable {e : K → K}

theorem softmaxAttn_shard {dim : Nat} {scale : K} {sinks : List K} {qs : List (List K)}
    (h : qs.length = sinks.length) (rows : List (Option (List K))) :
    softmaxAttn e dim scale (shard ws sinks r) (shard ws qs r) rows =
      shard ws (softmaxAttn e dim scale sinks qs rows) r := (shard_zipWith _ ws h r).symm

theorem localOut_allReduce (h : w.Fits a ws) {unrotate : List K → List K} {o : List (List K)}
    (ho : o.length = a.nHeads) (hdim : ∀ x ∈ o, (unrotate x).length = a.headDim) :
    allReduce ((List.range ws).map fun r => localOut a ws (w.convert ws r) unrotate (shard ws o r)) =
      localOut a 1 w unrotate o := by
  have heven : Even a.headDim (o.map unrotate) := fun x hx => by
    obtain ⟨y,hy,rfl⟩ := List.mem_map.mp hx
    exact hdim y hy
  have hgroups : 0 < a.nGroups/ws := Nat.div_pos (Nat.le_of_dvd h.groups_pos h.groups) h.pos
  have hflat : (o.map unrotate).flatten.length = a.groupWidth*(a.nGroups/ws*ws) := by
    rw [heven.length_flatten,List.length_map,ho,a.width_eq,Nat.div_mul_cancel h.groups]
  have hwoA : w.woA.length = a.oLoraRank*(a.nGroups/ws*ws) := by rw [h.woA,Nat.div_mul_cancel h.groups]
  have hwidth : (o.map unrotate).flatten.length/a.nGroups = a.groupWidth := by
    rw [hflat,Nat.div_mul_cancel h.groups,Nat.mul_div_cancel _ h.groups_pos]
  obtain ⟨og,hog⟩ : ∃ og, blocks a.groupWidth a.nGroups (o.map unrotate).flatten = og := ⟨_,rfl⟩
  obtain ⟨wa,hwa⟩ : ∃ wa, blocks a.oLoraRank a.nGroups w.woA = wa := ⟨_,rfl⟩
  have hlen : og.length = wa.length := by rw [← hog,← hwa,length_blocks,length_blocks]
  have hrows : Even a.oLoraRank wa := hwa ▸ blocks_even h.woA
  have hlatent : Even a.oLoraRank (List.zipWith linear og wa) := by
    intro x hx
    obtain ⟨i,hi,rfl⟩ := List.getElem_of_mem hx
    rw [List.getElem_zipWith,linear,List.length_map]
    exact hrows _ (List.getElem_mem _)
  have hzip : (List.zipWith linear og wa).length = a.nGroups := by
    rw [List.length_zipWith,← hlen,Nat.min_self,← hog,length_blocks]
  have hlocal : ∀ r < ws, localOut a ws (w.convert ws r) unrotate (shard ws o r) =
      linear (shard ws (List.zipWith linear og wa).flatten r) (w.woB.map fun row => shard ws row r) := by
    intro r hr
    have hpart : ((shard ws o r).map unrotate).flatten = shard ws (o.map unrotate).flatten r := by
      rw [← shard_map,flatten_shard heven (by rw [List.length_map,ho]; exact h.heads) hr]
    have hpartlen : (shard ws (o.map unrotate).flatten r).length/(a.nGroups/ws) = a.groupWidth := by
      rw [length_shard ⟨a.groupWidth*(a.nGroups/ws),by rw [hflat]; ring⟩ hr,hflat,← Nat.mul_assoc,
        Nat.mul_div_cancel _ h.pos,Nat.mul_div_cancel _ hgroups]
    rw [localOut]
    simp only [AttnWeights.convert,hpart,hpartlen]
    rw [blocks_shard h.pos hflat hr,blocks_shard h.pos hwoA hr,Nat.div_mul_cancel h.groups,hog,hwa,
      ← shard_zipWith linear ws hlen,flatten_shard hlatent (by rw [hzip]; exact h.groups) hr]
  have hwhole : localOut a 1 w unrotate o = linear (List.zipWith linear og wa).flatten w.woB := by
    rw [localOut]
    simp only [Nat.div_one,hwidth,hog,hwa]
  have hlenlatent : (List.zipWith linear og wa).flatten.length = a.oLoraRank*a.nGroups := by
    rw [hlatent.length_flatten,hzip]
  rw [hwhole,← linear_allReduce (fun row hrow => by rw [h.woB row hrow,hlenlatent])
    (by rw [hlenlatent]; exact Dvd.dvd.mul_left h.groups _) h.pos]
  exact congrArg allReduce (List.map_congr_left fun r hr => hlocal r (List.mem_range.mp hr))

end Attention

section Vocabulary

variable {K : Type} [Semiring K]

/-- `ParallelEmbedding.forward` on a rank, before the sum over the ranks; a token
outside the rank's rows is masked when there are several ranks. -/
def localEmbed (ws vocabSize dim rank : Nat) (weight : List (List K)) (x : Nat) : List K :=
  let part := vocabSize/ws
  let start := rank*part
  if 1 < ws ∧ (x < start ∨ start+part ≤ x) then List.replicate dim 0 else weight.getD (x-start) []

/-- `ParallelHead.get_logits`, gathered from the ranks. -/
def logits (ws : Nat) (weight : Nat → List (List K)) (x : List K) : List K :=
  (List.range ws).flatMap fun r => linear x (weight r)

variable {ws vocabSize dim : Nat} {weight : List (List K)}

theorem getD_shard {A : Type} {n r x : Nat} {l : List A} (d : A) (hle : l.length/n*r ≤ x)
    (hlt : x < l.length/n*r+l.length/n) : (shard n l r).getD (x-l.length/n*r) d = l.getD x d := by
  rw [List.getD_eq_getElem?_getD,List.getD_eq_getElem?_getD,shard,getElem?_slice,if_pos (by omega),
    Nat.add_sub_cancel' hle]

theorem sum_only (n k : Nat) (h : k < n) (v : K) : ((List.range n).map fun r => if r = k then v else 0).sum = v := by
  have hzero : ∀ n ≤ k, ((List.range n).map fun r => if r = k then v else 0).sum = 0 := by
    intro n hn
    refine List.sum_eq_zero fun y hy => ?_
    obtain ⟨r,hr,rfl⟩ := List.mem_map.mp hy
    rw [if_neg (by have := List.mem_range.mp hr; omega)]
  induction n with
  | zero => omega
  | succ n ih =>
    rw [List.range_succ,List.map_append,List.sum_append,List.map_singleton,List.sum_singleton]
    rcases Nat.lt_succ_iff_lt_or_eq.mp h with hlt | rfl
    · rw [ih hlt,if_neg (by omega),add_zero]
    · rw [hzero k (Nat.le_refl k),if_pos rfl,zero_add]

theorem embed_allReduce (h : ws ∣ vocabSize) (hlen : weight.length = vocabSize)
    (hdim : ∀ row ∈ weight, row.length = dim) {x : Nat} (hx : x < vocabSize) :
    allReduce ((List.range ws).map fun r => localEmbed ws vocabSize dim r (shard ws weight r) x) =
      weight.getD x [] := by
  obtain ⟨v,hv⟩ : ∃ v, weight[x]? = some v := ⟨_,List.getElem?_eq_getElem (hlen ▸ hx)⟩
  have hvdim : v.length = dim := hdim v (List.mem_of_getElem? hv)
  have hget : weight.getD x [] = v := by rw [List.getD_eq_getElem?_getD,hv,Option.getD_some]
  have hpos : 0 < vocabSize/ws := by
    obtain ⟨m,rfl⟩ := h
    have hw : 0 < ws := Nat.pos_of_ne_zero fun h0 => by subst h0; omega
    rw [Nat.mul_div_cancel_left _ hw]
    exact Nat.pos_of_ne_zero fun h0 => by subst h0; omega
  have howner : x/(vocabSize/ws) < ws := Nat.div_lt_of_lt_mul (by rwa [Nat.div_mul_cancel h])
  have hdiv := Nat.div_add_mod x (vocabSize/ws)
  obtain ⟨k,hk⟩ : ∃ k, x/(vocabSize/ws) = k := ⟨_,rfl⟩
  rw [hk] at howner hdiv
  have hws : 0 < ws := Nat.zero_lt_of_lt howner
  have hlocal : ∀ r < ws, localEmbed ws vocabSize dim r (shard ws weight r) x =
      (List.range dim).map fun j => if r = k then v.getD j 0 else 0 := by
    intro r hr
    rw [localEmbed]
    have hmod := Nat.mod_lt x hpos
    by_cases hown : r = k
    · have hle : weight.length/ws*r ≤ x := by rw [hlen,hown]; omega
      have hlt : x < weight.length/ws*r+weight.length/ws := by rw [hlen,hown]; omega
      have hcomm : r*(vocabSize/ws) = weight.length/ws*r := by rw [hlen,Nat.mul_comm]
      rw [if_neg (by rw [hcomm,← hlen]; omega),hcomm,getD_shard [] hle hlt,hget]
      refine List.ext_getElem (by rw [List.length_map,List.length_range,hvdim]) fun j h1 h2 => ?_
      rw [List.getElem_map,List.getElem_range,if_pos hown,List.getD_eq_getElem _ _ h1]
    · have hout : x < r*(vocabSize/ws) ∨ r*(vocabSize/ws)+vocabSize/ws ≤ x := by
        rcases Nat.lt_or_gt_of_ne hown with hlt | hgt
        · right
          have := Nat.mul_le_mul_left (vocabSize/ws) hlt
          rw [Nat.mul_succ,Nat.mul_comm _ r] at this
          omega
        · left
          have := Nat.mul_le_mul_left (vocabSize/ws) hgt
          rw [Nat.mul_succ,Nat.mul_comm _ r] at this
          omega
      rw [if_pos ⟨by omega,hout⟩]
      refine List.ext_getElem (by rw [List.length_map,List.length_range,List.length_replicate]) fun j h1 h2 => ?_
      rw [List.getElem_map,List.getElem_replicate,if_neg hown]
  have hmap : ((List.range ws).map fun r => localEmbed ws vocabSize dim r (shard ws weight r) x) =
      ((List.range ws).map fun r j => if r = k then v.getD j 0 else 0).map (List.range dim).map := by
    rw [List.map_map]
    exact List.map_congr_left fun r hr => hlocal r (List.mem_range.mp hr)
  have hne : ((List.range ws).map fun r j => if r = k then v.getD j (0 : K) else 0) ≠ [] := fun hnil => by
    have := congrArg List.length hnil
    rw [List.length_map,List.length_range,List.length_nil] at this
    omega
  rw [hmap,allReduce_map _ hne,hget]
  refine List.ext_getElem (by rw [List.length_map,List.length_range,hvdim]) fun j h1 h2 => ?_
  rw [List.getElem_map,List.getElem_range,List.map_map]
  exact (sum_only ws _ howner (v.getD j 0)).trans (List.getD_eq_getElem _ _ h2)

theorem logits_shard (h : ws ∣ weight.length) (x : List K) :
    logits ws (shard ws weight) x = linear x weight := by
  have hparts : ∀ r, linear x (shard ws weight r) = shard ws (linear x weight) r := fun r => linear_shard x weight r
  rw [logits,funext hparts,flatMap_shard (by rwa [linear,List.length_map])]

end Vocabulary

section Index

variable {K : Type} [Field K] [LinearOrder K]

/-- `index_score` of one row of the indexer's cache on one rank: `head` rotates
one head of `wq_b`, and `scaled` are the rank's head weights. -/
def localScore (headDim nLocalHeads : Nat) (head : List K → List K) (wqB weightsProj : List (List K)) (c : K)
    (qr x k : List K) : K :=
  let q := (blocks headDim nLocalHeads (linear qr wqB)).map head
  let weights := (linear x weightsProj).map (· * c)
  (List.zipWith (fun q w => max (dot q k) 0*w) q weights).sum

theorem localScore_sum {ws headDim nHeads : Nat} {wqB weightsProj : List (List K)} (hd : ws ∣ nHeads) (hpos : 0 < ws)
    (hq : wqB.length = headDim*nHeads) (hw : weightsProj.length = nHeads) (head : List K → List K) (c : K)
    (qr x k : List K) :
    ((List.range ws).map fun r =>
      localScore headDim (nHeads/ws) head (shard ws wqB r) (shard ws weightsProj r) c qr x k).sum =
        localScore headDim nHeads head wqB weightsProj c qr x k := by
  have hlen : (linear qr wqB).length = headDim*(nHeads/ws*ws) := by
    rw [linear,List.length_map,hq,Nat.div_mul_cancel hd]
  obtain ⟨q,hqs⟩ : ∃ q, (blocks headDim nHeads (linear qr wqB)).map head = q := ⟨_,rfl⟩
  obtain ⟨v,hv⟩ : ∃ v, (linear x weightsProj).map (· * c) = v := ⟨_,rfl⟩
  have hsame : q.length = v.length := by
    rw [← hqs,← hv,List.length_map,length_blocks,List.length_map,linear,List.length_map,hw]
  have hpart : ∀ r < ws, localScore headDim (nHeads/ws) head (shard ws wqB r) (shard ws weightsProj r) c qr x k =
      ((shard ws (List.zipWith (fun q w => max (dot q k) 0*w) q v) r).map id).sum := by
    intro r hr
    rw [localScore,linear_shard,linear_shard,blocks_shard hpos hlen hr,Nat.div_mul_cancel hd,← shard_map,← shard_map,
      hqs,hv,List.map_id,shard_zipWith _ _ hsame]
  have hdvd : ws ∣ (List.zipWith (fun q w => max (dot q k) 0*w) q v).length := by
    rw [List.length_zipWith,← hsame,Nat.min_self,← hqs,List.length_map,length_blocks]
    exact hd
  rw [List.map_congr_left fun r hr => hpart r (List.mem_range.mp hr),sum_shards id hdvd,List.map_id,localScore]
  simp only [hqs,hv]

end Index

section Experts

open Moe

variable {X W Y : Type} [AddCommMonoid Y]

def gain (f : X → W → Y) (x : X) (w : Nat → W) (row : List Nat) (i : Nat) : Y :=
  ((row.zipIdx.filter fun e => e.1 = i).getLast?.map fun e => f x (w e.2)).getD 0

theorem foldl_set (y : List Y) (ps : List (Nat × Y)) :
    ps.foldl (fun out p => out.set p.1 ((y[p.1]?).getD 0+p.2)) y =
      y.mapIdx fun t a => a+((ps.filter fun p => p.1 = t).getLast?.map Prod.snd).getD 0 := by
  induction ps using List.reverseRecOn with
  | nil =>
    refine List.ext_getElem? fun t => ?_
    rw [List.foldl_nil,List.getElem?_mapIdx]
    simp
  | append_singleton ps p ih =>
    rw [List.foldl_append,ih,List.foldl_cons,List.foldl_nil]
    refine List.ext_getElem? fun t => ?_
    rw [List.getElem?_set,List.length_mapIdx,List.getElem?_mapIdx,List.getElem?_mapIdx]
    by_cases ht : p.1 = t
    · rw [if_pos ht]
      rcases Nat.lt_or_ge t y.length with hlt | hge
      · have hlast : (ps ++ [p]).filter (fun p => p.1 = t) = ps.filter (fun p => p.1 = t) ++ [p] := by
          rw [List.filter_append,List.filter_cons_of_pos (by simpa using ht),List.filter_nil]
        rw [if_pos (by omega),ht,List.getElem?_eq_getElem hlt,Option.getD_some,Option.map_some,hlast,
          List.getLast?_concat,Option.map_some,Option.getD_some]
      · rw [if_neg (by omega),List.getElem?_eq_none hge]
        rfl
    · have hsame : (ps ++ [p]).filter (fun p => p.1 = t) = ps.filter fun p => p.1 = t := by
        rw [List.filter_append,List.filter_cons_of_neg (by simpa using ht),List.filter_nil,List.append_nil]
      rw [if_neg ht,hsame]

theorem flatMap_at {A B : Type} (g : A → List B) {d : A} (hd : g d = []) (t : Nat) (rows : List A) (n : Nat) :
    (rows.zipIdx n).flatMap (fun row => if row.2 = t then g row.1 else []) =
      if n ≤ t then g (rows.getD (t-n) d) else [] := by
  induction rows generalizing n with
  | nil => simp [hd]
  | cons row rows ih =>
    rw [List.zipIdx_cons,List.flatMap_cons,ih]
    simp only
    rcases Nat.lt_trichotomy n t with hlt | rfl | hgt
    · have hsub : t-n = t-(n+1)+1 := by omega
      have hle : n+1 ≤ t := hlt
      rw [if_neg (by omega),if_pos hle,if_pos hlt.le,hsub,List.getD_cons_succ,List.nil_append]
    · rw [if_pos rfl,if_neg (by omega),if_pos (Nat.le_refl _),Nat.sub_self,List.getD_cons_zero,List.append_nil]
    · rw [if_neg (by omega),if_neg (by omega),if_neg (by omega)]
      rfl

theorem whereEq_token (indices : List (List Nat)) (i t : Nat) :
    (whereEq indices i).filter (fun h => h.1 = t) =
      ((indices.getD t []).zipIdx.filter fun e => e.1 = i).map fun e => (t,e.2) := by
  have hrow : ∀ row : List Nat × Nat, ((row.1.zipIdx.filter fun e => e.1 = i).map fun e => (row.2,e.2)).filter
      (fun h => h.1 = t) = if row.2 = t then (row.1.zipIdx.filter fun e => e.1 = i).map fun e => (t,e.2) else [] := by
    intro row
    rw [List.filter_map]
    by_cases ht : row.2 = t
    · rw [if_pos ht,List.filter_eq_self.mpr fun e _ => by simpa using ht,ht]
    · rw [if_neg ht,List.filter_eq_nil_iff.mpr fun e _ => by simpa using ht]
      rfl
  rw [whereEq,List.filter_flatMap]
  simp only [hrow]
  rw [flatMap_at (fun row => (row.zipIdx.filter fun e => e.1 = i).map fun e => (t,e.2)) (d := []) rfl,
    if_pos (Nat.zero_le t),Nat.sub_zero]

theorem dispatch_eq (f : X → W → Y) (x : Nat → X) (r : Routing W) (i : Nat) (y : List Y) :
    dispatch f x r i y = y.mapIdx fun t a => a+gain f (x t) (r.weights t) (r.indices.getD t []) i := by
  have hgain : ∀ t, ((((whereEq r.indices i).map fun h => (h.1,f (x h.1) (r.weights h.1 h.2))).filter fun p =>
      p.1 = t).getLast?.map Prod.snd).getD 0 = gain f (x t) (r.weights t) (r.indices.getD t []) i := by
    intro t
    rw [List.filter_map,List.getLast?_map,Option.map_map]
    have hfilter : (whereEq r.indices i).filter ((fun p : Nat × Y => decide (p.1 = t)) ∘ fun h =>
        (h.1,f (x h.1) (r.weights h.1 h.2))) = (whereEq r.indices i).filter fun h => h.1 = t := rfl
    rw [hfilter,whereEq_token,List.getLast?_map,Option.map_map]
    rfl
  rw [dispatch,indexAdd,List.zip_map',foldl_set]
  simp only [hgain]

def gains (m : MoE X W Y) (x : X) (w : Nat → W) (row : List Nat) (i : Nat) : Y :=
  match m.experts[i]? with
  | some (some f) => gain f x w row i
  | _ => 0

theorem gain_not_mem (f : X → W → Y) (x : X) (w : Nat → W) {row : List Nat} {i : Nat} (h : i ∉ row) :
    gain f x w row i = 0 := by
  have hnil : (row.zipIdx.filter fun e => e.1 = i) = [] := by
    refine List.filter_eq_nil_iff.mpr fun e he => ?_
    rw [decide_eq_true_eq]
    rintro rfl
    exact h (List.fst_mem_of_mem_zipIdx he)
  rw [gain,hnil]
  rfl

theorem fullStep_eq (m : MoE X W Y) (x : Nat → X) (r : Routing W) (y : List Y) {i : Nat}
    (hi : m.expertsStartIdx ≤ i ∧ i < m.expertsEndIdx) :
    fullStep m x r y i = some (y.mapIdx fun t a => a+gains m (x t) (r.weights t) (r.indices.getD t []) i) := by
  obtain ⟨f,hf⟩ := (m.sharded i).mpr hi
  have hgains : ∀ t, gains m (x t) (r.weights t) (r.indices.getD t []) i =
      gain f (x t) (r.weights t) (r.indices.getD t []) i := fun t => by rw [gains,hf]
  simp only [hgains]
  rw [fullStep,getD_bincount]
  split_ifs with hcount
  · have hzero : ∀ t, gain f (x t) (r.weights t) (r.indices.getD t []) i = 0 := fun t => by
      refine gain_not_mem f _ _ fun hmem => List.count_eq_zero.mp hcount ?_
      rw [List.getD_eq_getElem?_getD] at hmem
      cases ht : r.indices[t]? with
      | none => rw [ht] at hmem; exact absurd hmem List.not_mem_nil
      | some row =>
        rw [ht,Option.getD_some] at hmem
        exact List.mem_flatten.mpr ⟨row,List.mem_of_getElem? ht,hmem⟩
    refine congrArg some (List.ext_getElem? fun t => ?_)
    rw [List.getElem?_mapIdx,hzero]
    cases y[t]? with
    | none => rfl
    | some a => rw [Option.map_some,add_zero]
  · rw [hf,← dispatch_eq]

/-- `MoE.forward` gives every token of a batch what its own row of experts
adds. -/
theorem moeForward_eq (m : MoE X W Y) (x : Nat → X) (r : Routing W) :
    moeForward m x r = some (r.indices.mapIdx fun t row =>
      ((List.range' m.expertsStartIdx (m.expertsEndIdx-m.expertsStartIdx)).map
        fun i => gains m (x t) (r.weights t) row i).sum) := by
  have hfold : ∀ (es : List Nat) (y : List Y), (∀ i ∈ es, m.expertsStartIdx ≤ i ∧ i < m.expertsEndIdx) →
      es.foldlM (fullStep m x r) y = some (y.mapIdx fun t a =>
        a+(es.map fun i => gains m (x t) (r.weights t) (r.indices.getD t []) i).sum) := by
    intro es
    induction es with
    | nil =>
      intro y _
      have hid : (y.mapIdx fun _ a => a) = y := List.ext_getElem? fun t => by
        rw [List.getElem?_mapIdx]
        exact Option.map_id'
      simp only [List.foldlM_nil,List.map_nil,List.sum_nil,add_zero]
      rw [hid]
      rfl
    | cons i es ih =>
      intro y hes
      rw [List.foldlM_cons,fullStep_eq m x r y (hes i List.mem_cons_self)]
      refine (ih _ fun j hj => hes j (List.mem_cons_of_mem i hj)).trans ?_
      rw [List.mapIdx_mapIdx]
      simp only [Function.comp_def,List.map_cons,List.sum_cons,add_assoc]
  rw [moeForward,hfold _ _ fun i hi => by rw [List.mem_range'_1] at hi; omega]
  refine congrArg some (List.ext_getElem? fun t => ?_)
  rw [List.getElem?_mapIdx,List.getElem?_mapIdx,zeros,List.getElem?_replicate]
  rcases Nat.lt_or_ge t r.indices.length with ht | ht
  · rw [if_pos ht,List.getElem?_eq_getElem ht,Option.map_some,Option.map_some,zero_add,List.getD_eq_getElem _ _ ht]
  · rw [if_neg (by omega),List.getElem?_eq_none ht]
    rfl

theorem end_le {n ws rank : Nat} (h : rank < ws) : rank*(n/ws)+n/ws ≤ n := by
  have hle := Nat.mul_le_mul_right (n/ws) h
  rw [Nat.succ_mul] at hle
  exact hle.trans (Nat.mul_div_le n ws)

def localExperts (ws rank : Nat) (experts : List (X → W → Y)) : List (Option (X → W → Y)) :=
  experts.mapIdx fun i f =>
    if rank*(experts.length/ws) ≤ i ∧ i < rank*(experts.length/ws)+experts.length/ws then some f else none

omit [AddCommMonoid Y] in
theorem length_localExperts (ws rank : Nat) (experts : List (X → W → Y)) :
    (localExperts ws rank experts).length = experts.length := List.length_mapIdx

omit [AddCommMonoid Y] in
theorem getElem?_localExperts {ws rank i : Nat} {experts : List (X → W → Y)} {f : X → W → Y} :
    (localExperts ws rank experts)[i]? = some (some f) ↔ experts[i]? = some f ∧
      rank*(experts.length/ws) ≤ i ∧ i < rank*(experts.length/ws)+experts.length/ws := by
  rw [localExperts,List.getElem?_mapIdx]
  cases experts[i]? with
  | none => simp
  | some g =>
    rw [Option.map_some]
    split_ifs with h
    · simp [h]
    · simp [h]

omit [AddCommMonoid Y] in
theorem sharded_localExperts {ws rank : Nat} (h : rank < ws) (experts : List (X → W → Y)) (i : Nat) :
    (∃ f, (localExperts ws rank experts)[i]? = some (some f)) ↔
      rank*(experts.length/ws) ≤ i ∧ i < rank*(experts.length/ws)+experts.length/ws := by
  simp only [getElem?_localExperts,exists_and_right]
  constructor
  · exact fun hi => hi.2
  · intro hi
    have hle := end_le (n := experts.length) h
    exact ⟨⟨_,List.getElem?_eq_getElem (by omega)⟩,hi⟩

variable {experts : List (X → W → Y)}

/-- `MoE.__init__` on a rank. -/
def rankMoE {ws rank : Nat} (h : rank < ws) (experts : List (X → W → Y)) : MoE X W Y where
  nRoutedExperts := experts.length
  expertsStartIdx := rank*(experts.length/ws)
  expertsEndIdx := rank*(experts.length/ws)+experts.length/ws
  experts := localExperts ws rank experts
  length_experts := length_localExperts ws rank experts
  end_le := end_le h
  sharded := sharded_localExperts h experts

/-- `y` of `MoE.forward` after the sum over the ranks. -/
def moeRanks (ws : Nat) (experts : List (X → W → Y)) (x : Nat → X) (r : Routing W) : Option (List Y) := do
  let parts ← (List.finRange ws).mapM fun rank => moeForward (rankMoE rank.isLt experts) x r
  return allReduce parts

theorem map_gains {ws rank : Nat} (h : rank < ws) (x : X) (w : Nat → W)
    (row : List Nat) :
    (List.range' (rankMoE h experts).expertsStartIdx
      ((rankMoE h experts).expertsEndIdx-(rankMoE h experts).expertsStartIdx)).map
        (gains (rankMoE h experts) x w row) =
      shard ws (experts.mapIdx fun i f => gain f x w row i) rank := by
  have hle := end_le (n := experts.length) h
  have hlen : (rankMoE h experts).expertsEndIdx-(rankMoE h experts).expertsStartIdx = experts.length/ws :=
    Nat.add_sub_cancel_left _ _
  rw [hlen]
  refine List.ext_getElem? fun j => ?_
  rw [shard,getElem?_slice,List.length_mapIdx,List.getElem?_map]
  rcases Nat.lt_or_ge j (experts.length/ws) with hj | hj
  · have hidx : rank*(experts.length/ws)+j < experts.length := by omega
    have hlocal : (rankMoE h experts).experts[rank*(experts.length/ws)+j]? =
        some (some experts[rank*(experts.length/ws)+j]) :=
      getElem?_localExperts.mpr ⟨List.getElem?_eq_getElem hidx,by omega,by omega⟩
    have hstart : (rankMoE h experts).expertsStartIdx+1*j = rank*(experts.length/ws)+j := by rw [Nat.one_mul]; rfl
    rw [if_pos hj,Nat.mul_comm,List.getElem?_range' hj,List.getElem?_mapIdx,List.getElem?_eq_getElem hidx,
      Option.map_some,Option.map_some,hstart,gains,hlocal]
  · rw [if_neg (Nat.not_lt.mpr hj),List.getElem?_eq_none (by rwa [List.length_range'])]
    rfl

/-- The ranks together give every token what all of its experts add. -/
theorem moeRanks_eq {ws : Nat} (hpos : 0 < ws) (hd : ws ∣ experts.length) (x : Nat → X) (r : Routing W) :
    moeRanks ws experts x r = some (r.indices.mapIdx fun t row =>
      (experts.mapIdx fun i f => gain f (x t) (r.weights t) row i).sum) := by
  have hparts : (List.finRange ws).mapM (fun rank => moeForward (rankMoE rank.isLt experts) x r) =
      some (((List.range ws).map fun rank (p : List Nat × Nat) =>
        (shard ws (experts.mapIdx fun i f => gain f (x p.2) (r.weights p.2) p.1 i) rank).sum).map
          r.indices.zipIdx.map) := by
    have hstep : ∀ rank : Fin ws, moeForward (rankMoE rank.isLt experts) x r = pure (r.indices.zipIdx.map fun p =>
        (shard ws (experts.mapIdx fun i f => gain f (x p.2) (r.weights p.2) p.1 i) rank).sum) := fun rank => by
      rw [moeForward_eq,List.mapIdx_eq_zipIdx_map]
      simp only [map_gains rank.isLt]
      rfl
    rw [funext hstep,List.mapM_pure,← List.map_coe_finRange_eq_range,List.map_map,List.map_map]
    rfl
  have hne : ((List.range ws).map fun rank (p : List Nat × Nat) =>
      (shard ws (experts.mapIdx fun i f => gain f (x p.2) (r.weights p.2) p.1 i) rank).sum) ≠ [] := fun hnil => by
    have := congrArg List.length hnil
    rw [List.length_map,List.length_range,List.length_nil] at this
    omega
  rw [moeRanks,hparts]
  refine congrArg some ?_
  rw [allReduce_map _ hne,List.mapIdx_eq_zipIdx_map]
  refine List.map_congr_left fun p _ => ?_
  have hsum := sum_shards (n := ws) id (l := experts.mapIdx fun i f => gain f (x p.2) (r.weights p.2) p.1 i)
    (by rwa [List.length_mapIdx])
  simp only [List.map_id] at hsum
  rw [List.map_map]
  exact hsum

end Experts

end SglangLite.Hybrid.Sharded
