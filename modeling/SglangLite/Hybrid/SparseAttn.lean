import Mathlib.Analysis.SpecialFunctions.Exp
import SglangLite.Softmax
import SglangLite.Sharding
import SglangLite.Hybrid.Network

set_option autoImplicit false

namespace SglangLite.Hybrid.SparseAttn

open Softmax Sharding

section Kernel

variable {K : Type} [Field K] [LinearOrder K] (e : K → K)

def block : Nat := 64

/-- `idxs` of tile `t`. -/
def tileIdxs (topkIdxs : List Int) (t : Nat) : List Int :=
  (List.range block).map fun i => if t*block+i < topkIdxs.length then topkIdxs.getD (t*block+i) (-1) else -1

/-- `acc_s` and `kv_shared` of a tile, for one head. -/
def tile (dim : Nat) (scale : K) (q : List K) (kv : Nat → List K) (idxs : List Int) : List (Special K × List K) :=
  idxs.map fun i =>
    let k := if i ≠ -1 then kv i.toNat else List.replicate dim 0
    let s : Special K := if i ≠ -1 then .num 0 else .negInf
    ((s.add (.num (dot q k))).mul (.num scale),k)

/-- `sparse_attn_kernel_`, for one head of one token. -/
def sparseAttnKernel (dim : Nat) (scale sink : K) (q : List K) (kv : Nat → List K) (topkIdxs : List Int) :
    List (Special K) :=
  let numBlocks := (topkIdxs.length+(block-1))/block
  finish e sink (((List.range numBlocks).map fun t => tile dim scale q kv (tileIdxs topkIdxs t)).foldl
    (step e) (start dim))

/-- `_sparse_attn_decode`, for one head of one token. -/
def sparseAttnDecode (dim : Nat) (scale sink : K) (q : List K) (kv : Nat → List K) (topkIdxs : List Int) :
    List (Special K) :=
  let gathered := topkIdxs.map fun i => (decide (0 ≤ i),kv (max i 0).toNat)
  let scores : List (Special K) := gathered.map fun g => if g.1 then .num (dot q g.2*scale) else .negInf
  let top : Special K := (scores.foldl Special.max .negInf).max (.num sink)
  let scoresMax : Special K := match top with
    | .num m => .num m
    | _ => .num 0
  let expS : List (Special K × List K) := List.zipWith (fun g s =>
    (if g.1 then (s.sub scoresMax).exp e else .num 0,g.2)) gathered scores
  let denom := (Special.sum (expS.map Prod.fst)).add (((Special.num sink).sub scoresMax).exp e)
  let clamped := denom.max (.num (1/10^9))
  (List.range dim).map fun j => Special.sum (expS.map fun s => (s.1.div clamped).mul (.num (s.2.getD j 0)))

end Kernel

section Tensors

/-- A tensor `[b, s, h, d]` by its rows. -/
structure Query (K : Type) where
  b : Nat
  s : Nat
  h : Nat
  d : Nat
  row : Nat → Nat → Nat → List K

/-- A tensor `[b, t, d]` by its rows. -/
structure Keys (K : Type) where
  b : Nat
  t : Nat
  d : Nat
  row : Nat → Nat → List K

/-- A tensor `[b, s, k]` of indices by its rows. -/
structure Idxs where
  b : Nat
  s : Nat
  k : Nat
  row : Nat → Nat → List Int
  length_row : ∀ i j, (row i j).length = k

variable {K : Type} [Field K] [LinearOrder K] (e : K → K)

abbrev Out (K : Type) := List (List (List (List (Special K))))

def each (q : Query K) (f : Nat → Nat → Nat → List (Special K)) : Out K :=
  (List.range q.b).map fun i => (List.range q.s).map fun j => (List.range q.h).map fun n => f i j n

/-- `sparse_attn`: fewer than 16 heads are padded. -/
def sparseAttn (q : Query K) (kv : Keys K) (attnSink : Nat → K) (topkIdxs : Idxs) (scale : K) : Out K :=
  let run (q : Query K) (attnSink : Nat → K) := each q fun i j n =>
    sparseAttnKernel e q.d scale (attnSink n) (q.row i j n) (kv.row i) (topkIdxs.row i j)
  if q.h < 16 then
    let padded : Query K :=
      { q with h := 16, row := fun i j n => if n < q.h then q.row i j n else List.replicate q.d 0 }
    (run padded fun n => if n < q.h then attnSink n else 0).map (List.map (List.take q.h))
  else run q attnSink

/-- `sparse_attn_torch`, or nothing when it raises. -/
def sparseAttnTorch (q : Query K) (kv : Keys K) (attnSink : Nat → K) (topkIdxs : Idxs) (scale : K) :
    Option (Out K) :=
  if kv.b ≠ q.b ∨ kv.d ≠ q.d ∨ topkIdxs.b ≠ q.b ∨ topkIdxs.s ≠ q.s then none
  -- `amax` of no scores and `gather` past the end
  else if topkIdxs.k = 0 ∨ ∃ i < q.b, ∃ j < q.s, ∃ x ∈ topkIdxs.row i j, (kv.t : Int) ≤ x then none
  else some (each q fun i j n =>
    sparseAttnDecode e q.d scale (attnSink n) (q.row i j n) (kv.row i) (topkIdxs.row i j))

/-- `routed` of `attach_torch_sparse_attn`, with the official function to fall
back on. -/
def routed (orig : Query K → Keys K → (Nat → K) → Idxs → K → Out K) (q : Query K) (kv : Keys K)
    (attnSink : Nat → K) (topkIdxs : Idxs) (scale : K) : Out K :=
  if q.s = 1 then (sparseAttnTorch e q kv attnSink topkIdxs scale).getD (orig q kv attnSink topkIdxs scale)
  else orig q kv attnSink topkIdxs scale

end Tensors

section Rows

variable {K : Type} [Field K] [LinearOrder K] {e : K → K} {dim : Nat} {scale sink : K} {q : List K}
  {kv : Nat → List K} {idxs : List Int}

def selected (scale : K) (q : List K) (kv : Nat → List K) (idxs : List Int) : List (Scored K) :=
  idxs.filterMap fun i => if i = -1 then none else some (dot q (kv i.toNat)*scale,kv i.toNat)

theorem getElem_tileIdxs (t i : Nat) (h : i < (tileIdxs idxs t).length) :
    (tileIdxs idxs t)[i] = idxs.getD (t*block+i) (-1) := by
  simp only [tileIdxs,List.getElem_map,List.getElem_range]
  split_ifs with hlt
  · rfl
  · rw [List.getD_eq_default _ _ (Nat.le_of_not_lt hlt)]

theorem tileIdxs_eq (idxs : List Int) (t : Nat) :
    tileIdxs idxs t = (List.range block).map fun i => idxs.getD (t*block+i) (-1) := by
  refine List.ext_getElem (by rw [tileIdxs,List.length_map,List.length_map]) fun i h1 h2 => ?_
  rw [getElem_tileIdxs,List.getElem_map,List.getElem_range]

theorem flatMap_tileIdxs {n : Nat} (h : idxs.length ≤ n*block) :
    (List.range n).flatMap (tileIdxs idxs) = idxs ++ List.replicate (n*block-idxs.length) (-1) := by
  have hall : ∀ n, (List.range n).flatMap (tileIdxs idxs) =
      (List.range (n*block)).map fun i => idxs.getD i (-1) := by
    intro n
    induction n with
    | zero => rw [Nat.zero_mul]; rfl
    | succ n ih =>
      rw [List.range_succ,List.flatMap_append,ih,List.flatMap_singleton,tileIdxs_eq,Nat.succ_mul,List.range_add,
        List.map_append,List.map_map]
      rfl
  rw [hall]
  refine List.ext_getElem ?_ fun i h1 h2 => ?_
  · rw [List.length_map,List.length_range,List.length_append,List.length_replicate]
    omega
  · rw [List.getElem_map,List.getElem_range]
    rcases Nat.lt_or_ge i idxs.length with hi | hi
    · rw [List.getElem_append_left hi,List.getD_eq_getElem _ _ hi]
    · rw [List.getElem_append_right hi,List.getElem_replicate,List.getD_eq_default _ _ hi]

theorem score_valid (i : Int) (hi : i ≠ -1) (k : List K) :
    (((if i ≠ -1 then .num 0 else .negInf : Special K).add (.num (dot q k))).mul (.num scale)) =
      .num (dot q k*scale) := by
  rw [if_pos hi,Special.num_add,zero_add,Special.num_mul]

theorem score_masked (hscale : 0 < scale) (k : List K) :
    (((.negInf : Special K).add (.num (dot q k))).mul (.num scale)) = .negInf := Special.negInf_mul hscale

theorem proper_tile (hscale : 0 < scale) (idxs : List Int) : Proper (tile dim scale q kv idxs) := by
  intro r hr
  obtain ⟨i,_,rfl⟩ := List.mem_map.mp hr
  by_cases hi : i = -1
  · simp only [hi,ne_eq,not_true_eq_false,if_false]
    exact .inl (score_masked hscale _)
  · exact .inr ⟨_,score_valid i hi _⟩

theorem shown_tile (hscale : 0 < scale) (idxs : List Int) :
    shown (tile dim scale q kv idxs) = selected scale q kv idxs := by
  rw [shown,tile,selected,List.filterMap_map]
  refine List.filterMap_congr fun i _ => ?_
  by_cases hi : i = -1
  · simp only [Function.comp_apply,hi,ne_eq,not_true_eq_false,if_false,if_true,score_masked hscale]
  · have hs : (((if i ≠ -1 then .num 0 else .negInf : Special K).add (.num (dot q (kv i.toNat)))).mul (.num scale)) =
        .num (dot q (kv i.toNat)*scale) := score_valid i hi (kv i.toNat)
    simp only [Function.comp_apply,if_pos hi,if_neg hi] at hs ⊢
    rw [hs]

omit [LinearOrder K] in
theorem selected_masked (idxs : List Int) (n : Nat) :
    selected scale q kv (idxs ++ List.replicate n (-1)) = selected scale q kv idxs := by
  rw [selected,List.filterMap_append,← selected]
  have hnil : (List.replicate n (-1 : Int)).filterMap (fun i =>
      if i = -1 then none else some (dot q (kv i.toNat)*scale,kv i.toNat)) = [] := by
    rw [List.filterMap_eq_nil_iff]
    intro i hi
    rw [List.eq_of_mem_replicate hi,if_pos rfl]
  rw [hnil,List.append_nil]

omit [LinearOrder K] in
theorem selected_eq_nil : selected scale q kv idxs = [] ↔ ∀ i ∈ idxs, i = -1 := by
  rw [selected,List.filterMap_eq_nil_iff]
  refine forall₂_congr fun i _ => ?_
  by_cases h : i = -1
  · rw [if_pos h]
    exact ⟨fun _ => h,fun _ => rfl⟩
  · rw [if_neg h]
    exact ⟨fun h' => (by cases h'),fun h' => absurd h' h⟩

theorem numBlocks_spec (n : Nat) : n ≤ (n+(block-1))/block*block := by
  have hblock : block = 64 := rfl
  rw [hblock]
  omega

theorem exists_numBlocks (hne : idxs ≠ []) : ∃ n, (idxs.length+(block-1))/block = n+1 := by
  have hpos := List.length_pos_of_ne_nil hne
  exact Nat.exists_eq_add_one.mpr (Nat.div_pos (by rw [block]; omega) (by decide))

theorem tiles_cons {A : Type} (f : Nat → A) (n : Nat) :
    (List.range (n+1)).map f = f 0 :: (List.range n).map fun t => f (t+1) := by
  rw [List.range_succ_eq_map,List.map_cons,List.map_map]
  rfl

theorem first_tile (hscale : 0 < scale) :
    shown (tile dim scale q kv (tileIdxs idxs 0)) = [] ↔ ∀ i ∈ idxs.take block, i = -1 := by
  rw [shown_tile hscale,selected_eq_nil]
  constructor
  · intro h i hi
    obtain ⟨k,hk,rfl⟩ := List.getElem_of_mem hi
    rw [List.length_take] at hk
    have hlen : k < (tileIdxs idxs 0).length := by
      rw [tileIdxs,List.length_map,List.length_range]
      omega
    have hget := h _ (List.getElem_mem hlen)
    rwa [getElem_tileIdxs,Nat.zero_mul,Nat.zero_add,List.getD_eq_getElem _ _ (by omega),
      ← List.getElem_take (h := by rw [List.length_take]; exact hk)] at hget
  · intro h i hi
    obtain ⟨k,hk,rfl⟩ := List.getElem_of_mem hi
    rw [getElem_tileIdxs,Nat.zero_mul,Nat.zero_add]
    rw [tileIdxs,List.length_map,List.length_range] at hk
    rcases Nat.lt_or_ge k idxs.length with hlt | hge
    · rw [List.getD_eq_getElem _ _ hlt]
      exact h _ (List.mem_take_iff_getElem.mpr ⟨k,by omega,rfl⟩)
    · exact List.getD_eq_default _ _ hge

/-- The kernel gives the softmax of the selected rows if its first tile has a
valid index. -/
theorem kernel_eq [IsStrictOrderedRing K] (he : Laws e) (hscale : 0 < scale) (h : ∃ i ∈ idxs.take block, i ≠ -1) :
    sparseAttnKernel e dim scale sink q kv idxs = (attend e sink dim (selected scale q kv idxs)).map .num := by
  obtain ⟨i,hi,hvalid⟩ := h
  obtain ⟨n,hn⟩ := exists_numBlocks (List.ne_nil_of_mem (List.mem_of_mem_take hi))
  have hfirst : shown (tile dim scale q kv (tileIdxs idxs 0)) ≠ [] := fun hnil =>
    hvalid ((first_tile hscale).mp hnil i hi)
  have hproper : ∀ t ∈ (List.range (n+1)).map (fun t => tile dim scale q kv (tileIdxs idxs t)), Proper t := by
    intro t ht
    obtain ⟨j,_,rfl⟩ := List.mem_map.mp ht
    exact proper_tile hscale _
  have hshown : ((List.range (n+1)).map fun t => tile dim scale q kv (tileIdxs idxs t)).flatMap shown =
      selected scale q kv idxs := by
    have hlen := numBlocks_spec idxs.length
    rw [hn] at hlen
    rw [List.flatMap_map,← selected_masked idxs ((n+1)*block-idxs.length),← flatMap_tileIdxs hlen,selected,
      List.filterMap_flatMap]
    exact List.flatMap_congr fun t _ => shown_tile hscale _
  rw [sparseAttnKernel]
  simp only [hn]
  rw [← hshown]
  rw [tiles_cons] at hproper ⊢
  exact online he sink hproper hfirst

theorem kernel_nan (hscale : 0 < scale) (hne : idxs ≠ []) (h : ∀ i ∈ idxs.take block, i = -1) :
    sparseAttnKernel e dim scale sink q kv idxs = (List.range dim).map fun _ => .nan := by
  obtain ⟨n,hn⟩ := exists_numBlocks hne
  rw [sparseAttnKernel]
  simp only [hn]
  rw [tiles_cons]
  exact online_lost sink (proper_tile hscale _) ((first_tile hscale).mpr h)

def entries (scale : K) (q : List K) (kv : Nat → List K) (idxs : List Int) : List (Special K × List K) :=
  idxs.map fun i => (if 0 ≤ i then .num (dot q (kv (max i 0).toNat)*scale) else .negInf,kv (max i 0).toNat)

omit [LinearOrder K] in
theorem proper_entries (idxs : List Int) : Proper (entries scale q kv idxs) := by
  intro r hr
  obtain ⟨i,_,rfl⟩ := List.mem_map.mp hr
  by_cases hi : 0 ≤ i
  · exact .inr ⟨_,if_pos hi⟩
  · exact .inl (if_neg hi)

omit [LinearOrder K] in
theorem shown_entries (h : ∀ i ∈ idxs, -1 ≤ i) : shown (entries scale q kv idxs) = selected scale q kv idxs := by
  rw [shown,entries,selected,List.filterMap_map]
  refine List.filterMap_congr fun i hi => ?_
  have hge := h i hi
  by_cases hm : i = -1
  · subst hm
    rfl
  · have hpos : 0 ≤ i := by omega
    simp only [Function.comp_apply,if_pos hpos,if_neg hm,max_eq_left hpos]

theorem decode_eq [IsStrictOrderedRing K] (he : Laws e) (h : ∀ i ∈ idxs, -1 ≤ i) :
    sparseAttnDecode e dim scale sink q kv idxs = (attend e sink dim (selected scale q kv idxs)).map .num := by
  obtain ⟨t,ht⟩ : ∃ t, entries scale q kv idxs = t := ⟨_,rfl⟩
  have hproper : Proper t := ht ▸ proper_entries idxs
  have hshown : shown t = selected scale q kv idxs := ht ▸ shown_entries h
  have hscores : (idxs.map fun i => (decide (0 ≤ i),kv (max i 0).toNat)).map
      (fun g => if g.1 then (.num (dot q g.2*scale) : Special K) else .negInf) = t.map Prod.fst := by
    rw [← ht,entries,List.map_map,List.map_map]
    refine List.map_congr_left fun i _ => ?_
    simp only [Function.comp_apply,decide_eq_true_eq]
  -- the largest score or the sink, whichever is larger
  obtain ⟨m,hm,hmem⟩ : ∃ m, ((t.map Prod.fst).foldl Special.max .negInf).max (.num sink) = .num m ∧
      (m = sink ∨ ∃ r ∈ shown t, r.1 = m) := by
    have htop := top_negInf hproper
    split_ifs at htop with hnil
    · exact ⟨sink,by rw [htop]; rfl,.inl rfl⟩
    · obtain ⟨m,hm,hr⟩ := htop
      refine ⟨max m sink,by rw [hm]; rfl,?_⟩
      rcases max_choice m sink with hc | hc
      · exact .inr (hc.symm ▸ hr)
      · exact .inl hc
  have hexp : List.zipWith (fun (g : Bool × List K) (s : Special K) =>
      (if g.1 then (s.sub (.num m)).exp e else .num 0,g.2)) (idxs.map fun i => (decide (0 ≤ i),kv (max i 0).toNat))
        (t.map Prod.fst) = t.map fun r => ((r.1.sub (.num m)).exp e,r.2) := by
    rw [← ht,entries,List.map_map,List.map_map,List.zipWith_map,List.zipWith_self]
    refine List.map_congr_left fun i _ => ?_
    by_cases hi : 0 ≤ i
    · simp only [Function.comp_apply,hi,decide_true,if_true]
    · simp only [Function.comp_apply,hi,decide_false,Bool.false_eq_true,if_false,Special.negInf_sub_num,
        Special.exp_negInf]
  have hone := one_le_total he sink hmem
  have hclamp : max (mass e m (shown t)+e (sink-m)) (1/10^9) = mass e m (shown t)+e (sink-m) := by
    refine max_eq_left (le_trans ?_ hone)
    rw [div_le_one (by positivity)]
    exact one_le_pow₀ (by norm_num)
  rw [attend_eq he m,← hshown,sparseAttnDecode]
  simp only [hscores,hm,hexp,List.map_map,Function.comp_def,sum_mass hproper,Special.num_sub,Special.exp_num,
    Special.num_add,Special.num_max,hclamp,sum_divided hproper m (lt_of_lt_of_le one_pos hone).ne']

/-- Kernel and torch path give the same exactly when one of the first 64 indices
is valid. -/
theorem kernel_agrees_iff [IsStrictOrderedRing K] (he : Laws e) (hscale : 0 < scale) (hdim : 0 < dim)
    (hne : idxs ≠ []) (h : ∀ i ∈ idxs, -1 ≤ i) :
    sparseAttnKernel e dim scale sink q kv idxs = sparseAttnDecode e dim scale sink q kv idxs ↔
      ∃ i ∈ idxs.take block, i ≠ -1 := by
  rw [decode_eq he h]
  constructor
  · intro heq
    by_contra hno
    have hall : ∀ i ∈ idxs.take block, i = -1 := fun i hi => by
      by_contra hi'
      exact hno ⟨i,hi,hi'⟩
    rw [kernel_nan hscale hne hall,attend,List.map_map] at heq
    have h0 := List.map_inj_left.mp heq 0 (List.mem_range.mpr hdim)
    cases h0
  · exact kernel_eq he hscale

end Rows

section Routed

variable {K : Type} [Field K] [LinearOrder K] {e : K → K} {scale : K} {q : Query K} {kv : Keys K}
  {attnSink : Nat → K} {topkIdxs : Idxs}

theorem sparseAttn_eq : sparseAttn e q kv attnSink topkIdxs scale = each q fun i j n =>
    sparseAttnKernel e q.d scale (attnSink n) (q.row i j n) (kv.row i) (topkIdxs.row i j) := by
  unfold sparseAttn
  split_ifs with h
  · simp only [each,List.map_map]
    refine List.map_congr_left fun i _ => ?_
    rw [Function.comp_apply,List.map_map]
    refine List.map_congr_left fun j _ => ?_
    rw [Function.comp_apply,← List.map_take,List.take_range,Nat.min_eq_left (Nat.le_of_lt h)]
    refine List.map_congr_left fun n hn => ?_
    rw [if_pos (List.mem_range.mp hn),if_pos (List.mem_range.mp hn)]
  · rfl

omit [Field K] [LinearOrder K] in
theorem each_inj {f g : Nat → Nat → Nat → List (Special K)} :
    each q f = each q g ↔ ∀ i < q.b, ∀ j < q.s, ∀ n < q.h, f i j n = g i j n := by
  simp only [each,List.map_inj_left,List.mem_range]

/-- What the torch path is routed to agrees with the official function exactly
when no token that it takes has 64 indices of -1 in front. -/
theorem routed_agrees_iff [IsStrictOrderedRing K] (he : Laws e) (hscale : 0 < scale) (hdim : 0 < q.d)
    (hheads : 0 < q.h) (hidx : ∀ i j, ∀ x ∈ topkIdxs.row i j, -1 ≤ x) :
    routed e (sparseAttn e) q kv attnSink topkIdxs scale = sparseAttn e q kv attnSink topkIdxs scale ↔
      (q.s = 1 → sparseAttnTorch e q kv attnSink topkIdxs scale ≠ none →
        ∀ i < q.b, ∃ x ∈ (topkIdxs.row i 0).take block, x ≠ -1) := by
  rw [routed]
  split_ifs with hs
  · rw [forall_prop_of_true hs]
    unfold sparseAttnTorch
    split_ifs with hshape hraise
    · exact ⟨fun _ hno => absurd rfl hno,fun _ => rfl⟩
    · exact ⟨fun _ hno => absurd rfl hno,fun _ => rfl⟩
    · have hk : topkIdxs.k ≠ 0 := fun hk => hraise (.inl hk)
      have hne : ∀ i j, topkIdxs.row i j ≠ [] := fun i j hnil => hk (by rw [← topkIdxs.length_row i j,hnil]; rfl)
      rw [Option.getD_some,sparseAttn_eq,each_inj,forall_prop_of_true (Option.some_ne_none _)]
      constructor
      · intro h i hi
        exact (kernel_agrees_iff he hscale hdim (hne i 0) (hidx i 0)).mp (h i hi 0 (by omega) 0 hheads).symm
      · intro h i hi j hj n _
        obtain rfl : j = 0 := by omega
        exact ((kernel_agrees_iff he hscale hdim (hne i 0) (hidx i 0)).mpr (h i hi)).symm
  · exact ⟨fun _ hs' => absurd hs' hs,fun _ => rfl⟩

theorem laws_exp : Laws Real.exp := ⟨Real.exp_pos,Real.exp_add⟩

def oneToken : Query ℝ := ⟨1,1,2,2,fun _ _ n => [n,1]⟩

def oneRow : Keys ℝ := ⟨1,1,2,fun _ _ => [1,1]⟩

def firstOnly : Idxs := ⟨1,1,2,fun _ _ => [0,-1],fun _ _ => rfl⟩

theorem routed_agrees_iff_oneToken :
    routed Real.exp (sparseAttn Real.exp) oneToken oneRow (fun _ => 0) firstOnly 1 =
        sparseAttn Real.exp oneToken oneRow (fun _ => 0) firstOnly 1 ↔
      (oneToken.s = 1 → sparseAttnTorch Real.exp oneToken oneRow (fun _ => 0) firstOnly 1 ≠ none →
        ∀ i < oneToken.b, ∃ x ∈ (firstOnly.row i 0).take block, x ≠ -1) :=
  routed_agrees_iff laws_exp one_pos Nat.two_pos Nat.two_pos (by simp [firstOnly])

end Routed

section Calls

open SparseMla

theorem window_row_valid {windowSize seqlen startPos : Nat} (hwin : 0 < windowSize) {row : List Int}
    (h : row ∈ getWindowTopkIdxs windowSize seqlen startPos) :
    (∃ x rest, row = x :: rest ∧ 0 ≤ x) ∧ ∀ x ∈ row, -1 ≤ x := by
  have hnat : ∀ l : List Nat, ∀ x ∈ l.map Int.ofNat, 0 ≤ x := by
    intro l x hx
    obtain ⟨n,_,rfl⟩ := List.mem_map.mp hx
    exact Int.natCast_nonneg n
  have hfirst : ∀ {l : List Int}, l ≠ [] → (∀ x ∈ l, 0 ≤ x) → ∃ x rest, l = x :: rest ∧ 0 ≤ x := by
    intro l hl hall
    obtain ⟨x,rest,rfl⟩ := List.exists_cons_of_ne_nil hl
    exact ⟨x,rest,rfl,hall x List.mem_cons_self⟩
  unfold getWindowTopkIdxs at h
  split_ifs at h with hfull hpos
  · obtain rfl := List.mem_singleton.mp h
    refine ⟨hfirst (fun hnil => ?_) (hnat _),fun x hx => le_trans (by decide) (hnat _ x hx)⟩
    have hlen := congrArg List.length (List.map_eq_nil_iff.mp hnil)
    rw [List.length_append,List.length_range,List.length_nil] at hlen
    omega
  · obtain rfl := List.mem_singleton.mp h
    refine ⟨⟨0,_,by rw [List.range_succ_eq_map,List.map_cons,List.cons_append]; rfl,le_refl 0⟩,fun x hx => ?_⟩
    rcases List.mem_append.mp hx with hx | hx
    · exact le_trans (by decide) (hnat _ x hx)
    · rw [List.eq_of_mem_replicate hx]
  · obtain ⟨i,hi,rfl⟩ := List.mem_map.mp h
    have hi' := List.mem_range.mp hi
    obtain ⟨n,hn⟩ : ∃ n, min seqlen windowSize = n+1 := Nat.exists_eq_add_one.mpr (by omega)
    refine ⟨⟨_,_,by rw [hn,List.range_succ_eq_map,List.map_cons],?_⟩,fun x hx => ?_⟩
    · simp only [Int.natCast_zero,add_zero]
      rw [if_neg (by omega)]
      exact le_max_right _ _
    · obtain ⟨j,_,rfl⟩ := List.mem_map.mp hx
      simp only
      split_ifs
      · exact le_refl _
      · exact le_trans (by decide) (add_nonneg (le_max_right _ _) (Int.natCast_nonneg j))

variable {X S Q O L : Type} [LinearOrder L] (b : Block X S Q O L)

theorem compressIdxs_ge {len start offset i : Nat} {x : X} {index : Option (BufferRow S)} :
    ∀ t ∈ b.compressIdxs len start offset i x index, -1 ≤ t := by
  have hnat : ∀ n : Nat, (-1 : Int) ≤ Int.ofNat n := fun n => le_trans (by decide) (Int.natCast_nonneg n)
  have hmask : ∀ (p : Prop) [Decidable p] (n : Nat), (-1 : Int) ≤ if p then -1 else Int.ofNat n := by
    intro p _ n
    split_ifs
    · exact le_refl _
    · exact hnat n
  intro t ht
  unfold Block.compressIdxs at ht
  split_ifs at ht with hr
  · exact absurd ht List.not_mem_nil
  · cases index with
    | some cache =>
      simp only [Block.indexerIdxs] at ht
      split_ifs at ht
      · obtain ⟨n,_,rfl⟩ := List.mem_map.mp ht
        exact hmask _ _
      · obtain ⟨n,_,rfl⟩ := List.mem_map.mp ht
        exact hnat _
    | none =>
      simp only [List.getD_eq_getElem?_getD] at ht
      cases hrow : (compressTopkIdxs b.ratio len start offset)[i]? with
      | none =>
        rw [hrow] at ht
        exact absurd ht List.not_mem_nil
      | some row =>
        rw [hrow,Option.getD_some] at ht
        have hmem := List.mem_of_getElem? hrow
        unfold compressTopkIdxs at hmem
        split_ifs at hmem
        · obtain rfl := List.mem_singleton.mp hmem
          obtain ⟨n,_,rfl⟩ := List.mem_map.mp ht
          exact hnat _
        · obtain ⟨k,_,rfl⟩ := List.mem_map.mp hmem
          obtain ⟨n,_,rfl⟩ := List.mem_map.mp ht
          exact hmask _ _

variable {K : Type} [Field K] [LinearOrder K] (e : K → K)

def scoredRows (scale : K) (q : List K) (rows : List (Option (List K))) : List (Scored K) :=
  rows.filterMap (Option.map fun k => (dot q k*scale,k))

def softmaxAttn (dim : Nat) (scale : K) (sinks : List K) (qs : List (List K)) (rows : List (Option (List K))) :
    List (List K) :=
  List.zipWith (fun q sink => attend e sink dim (scoredRows scale q rows)) qs sinks

omit [LinearOrder K] in
theorem softmaxAttn_masked (dim : Nat) (scale : K) (sinks : List K) (qs : List (List K))
    (rows : List (Option (List K))) :
    softmaxAttn e dim scale sinks qs rows = softmaxAttn e dim scale sinks qs (rows.filter Option.isSome) := by
  have hrows : ∀ q, scoredRows scale q rows = scoredRows scale q (rows.filter Option.isSome) := fun q => by
    rw [scoredRows,scoredRows,List.filterMap_filter]
    refine List.filterMap_congr fun r _ => ?_
    cases r <;> rfl
  unfold softmaxAttn
  simp only [← hrows]

omit [LinearOrder K] in
theorem selected_gather {scale : K} {q : List K} {kv : Nat → List K} {idxs : List Int} (h : ∀ i ∈ idxs, -1 ≤ i) :
    selected scale q kv idxs = scoredRows scale q (gather kv idxs) := by
  rw [selected,scoredRows,gather,List.filterMap_map]
  refine List.filterMap_congr fun i hi => ?_
  have hge := h i hi
  by_cases hm : i = -1
  · subst hm
    rfl
  · rw [if_neg hm,Function.comp_apply,if_neg (by omega)]
    rfl

def softmaxBlock (dim : Nat) (scale : K) (sinks : List K) (b : Block X K (List (List K)) (List (List K)) L) :
    Block X K (List (List K)) (List (List K)) L :=
  { b with
    sparseAttn := softmaxAttn e dim scale sinks
    masked := softmaxAttn_masked e dim scale sinks }

variable {e}

/-- On the indices of every token that a block attends from, the tiled kernel and
the torch path give the softmax of the rows that are not masked. -/
theorem token_attention [IsStrictOrderedRing K] (he : Laws e) {windowSize : Nat} (hwin : 0 < windowSize)
    {dim : Nat} {scale : K} (hscale : 0 < scale) {sinks : List K}
    (b : Block X K (List (List K)) (List (List K)) L) {len start i : Nat} {row : List Int}
    (hrow : (getWindowTopkIdxs windowSize len start)[i]? = some row) (offset : Nat) (x : X)
    (kv : Nat → List K) (index : Option (BufferRow K)) :
    let qs := b.query (start+i) x
    let idxs := row ++ b.compressIdxs len start offset i x index
    let out := (softmaxBlock e dim scale sinks b).sparseAttn qs (gather kv idxs)
    List.zipWith (fun q sink => sparseAttnKernel e dim scale sink q kv idxs) qs sinks = out.map (List.map .num) ∧
      List.zipWith (fun q sink => sparseAttnDecode e dim scale sink q kv idxs) qs sinks =
        out.map (List.map .num) := by
  obtain ⟨⟨y,rest,hy,hpos⟩,hge⟩ := window_row_valid hwin (List.mem_of_getElem? hrow)
  have hidxs : ∀ t ∈ row ++ b.compressIdxs len start offset i x index, -1 ≤ t := fun t ht =>
    (List.mem_append.mp ht).elim (hge t) (compressIdxs_ge b t)
  have hvalid : ∃ t ∈ (row ++ b.compressIdxs len start offset i x index).take block, t ≠ -1 :=
    ⟨y,by rw [hy]; exact List.mem_cons_self,by omega⟩
  simp only [kernel_eq he hscale hvalid,decode_eq he hidxs,selected_gather hidxs,softmaxBlock,softmaxAttn,
    List.map_zipWith,and_self]

noncomputable def twoHeads : Block Nat ℝ (List (List ℝ)) (List (List ℝ)) Nat where
  ratio := 4
  indexTopk := 2
  comp := ⟨fun x => [x],fun _ => [1],fun _ => [0],fun s _ => s,fun kv _ => kv.headD [],fun _ r => r⟩
  index := ⟨fun x => [x],fun _ => [1],fun _ => [0],fun s _ => s,fun kv _ => kv.headD [],fun _ r => r⟩
  wkv p x := [p,x]
  query p x := [[p,1],[1,x]]
  score _ x r := x+r.length
  sparseAttn := softmaxAttn Real.exp 2 1 [0,1]
  masked := softmaxAttn_masked Real.exp 2 1 [0,1]
  rest _ x _ := x

theorem token_attention_twoHeads :
    let idxs := [0,1,2,-1] ++ twoHeads.compressIdxs 1 2 4 0 5 none
    let kv : Nat → List ℝ := fun n => [n,1]
    let out := (softmaxBlock Real.exp 2 1 [0,1] twoHeads).sparseAttn (twoHeads.query 2 5) (gather kv idxs)
    List.zipWith (fun q sink => sparseAttnKernel Real.exp 2 1 sink q kv idxs) (twoHeads.query 2 5) [0,1] =
        out.map (List.map .num) ∧
      List.zipWith (fun q sink => sparseAttnDecode Real.exp 2 1 sink q kv idxs) (twoHeads.query 2 5) [0,1] =
        out.map (List.map .num) :=
  token_attention laws_exp (Nat.succ_pos 3) one_pos twoHeads
    (show (getWindowTopkIdxs 4 1 2)[0]? = some [0,1,2,-1] by decide) 4 5 (fun n => [n,1]) none

end Calls

end SglangLite.Hybrid.SparseAttn
