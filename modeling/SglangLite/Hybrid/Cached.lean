import SglangLite.Causal
import SglangLite.Hybrid.Attention
import SglangLite.Hybrid.Pooling

set_option autoImplicit false

namespace SglangLite.Hybrid

open SparseMla Causal

section Lists

variable {α : Type}

theorem map_range_cut {k m : Nat} (h : k ≤ m) (g : Nat → α) (d : α) :
    (List.range m).map (fun j => if k ≤ j then d else g j) =
      (List.range k).map g ++ List.replicate (m-k) d := by
  obtain ⟨r,rfl⟩ := Nat.exists_eq_add_of_le h
  rw [List.range_add,List.map_append,Nat.add_sub_cancel_left]
  refine congrArg₂ _ (List.map_congr_left fun j hj => ?_) ?_
  · rw [if_neg (Nat.not_le.mpr (List.mem_range.mp hj))]
  · rw [List.map_map]
    refine List.eq_replicate_iff.mpr ⟨by rw [List.length_map,List.length_range],fun a ha => ?_⟩
    obtain ⟨j,_,rfl⟩ := List.mem_map.mp ha
    exact if_pos (Nat.le_add_right k j)

theorem filter_isSome_map (l : List α) : (l.map Option.some).filter Option.isSome = l.map Option.some :=
  List.filter_eq_self.mpr fun o ho => by
    obtain ⟨a,_,rfl⟩ := List.mem_map.mp ho
    rfl

theorem filter_isSome_none (k : Nat) : (List.replicate k (none : Option α)).filter Option.isSome = [] :=
  List.filter_eq_nil_iff.mpr fun o ho => by rw [List.eq_of_mem_replicate ho]; simp

end Lists

section Gather

variable {S : Type} {kv : Nat → List S}

theorem gather_append (xs ys : List Int) : gather kv (xs ++ ys) = gather kv xs ++ gather kv ys :=
  List.map_append

theorem gather_nat (l : List Nat) : gather kv (l.map Int.ofNat) = (l.map kv).map some := by
  rw [gather,List.map_map,List.map_map]
  refine List.map_congr_left fun i _ => ?_
  rw [Function.comp_apply,if_neg (show ¬ Int.ofNat i < 0 from Int.not_lt.mpr (Int.natCast_nonneg i))]
  rfl

theorem gather_cut {k m : Nat} (h : k ≤ m) (g : Nat → Nat) :
    (gather kv ((List.range m).map fun j => if k ≤ j then -1 else Int.ofNat (g j))).filter
      Option.isSome = ((List.range k).map fun j => kv (g j)).map some := by
  have hnat : (List.range k).map (fun j => Int.ofNat (g j)) = ((List.range k).map g).map Int.ofNat := by
    rw [List.map_map]
    rfl
  rw [map_range_cut h,gather_append,hnat,gather_nat,List.filter_append,filter_isSome_map,gather,
    List.map_replicate,if_pos (by decide),filter_isSome_none,List.append_nil,List.map_map (l := List.range k)]
  rfl

theorem gather_masked {k : Nat} (l : List Nat) (g : Nat → Nat) :
    (gather kv (l.map fun t => if k ≤ t then -1 else Int.ofNat (g t))).filter Option.isSome =
      ((l.filter (· < k)).map fun t => kv (g t)).map some := by
  induction l with
  | nil => rfl
  | cons t l ih =>
    rw [List.map_cons,gather,List.map_cons]
    by_cases ht : k ≤ t
    · rw [if_pos ht,List.filter_cons_of_neg (by simp),List.filter_cons_of_neg (by simpa using ht)]
      exact ih
    · rw [if_neg ht,if_neg (by simp),List.filter_cons_of_pos rfl,
        List.filter_cons_of_pos (by simpa using ht)]
      exact congrArg _ ih

end Gather

namespace Block

variable {X S Q O K : Type} (args : ModelArgs) (c : Scalars S) (b : Block X S Q O K)

def rowAt (xs : List X) (p : Nat) : List S := (xs.mapIdx b.wkv).getD p []

def windowRows (xs : List X) : List (List S) :=
  (List.range' (xs.length-args.windowSize) (min xs.length args.windowSize)).map (b.rowAt xs)

/-- The compressed rows that the last token of a text attends to: all of them,
or with an indexer those of the best scores. -/
def compressedRows [LinearOrder K] (xs : List X) (i : Nat) (x : X) : List (List S) :=
  if b.ratio = 0 then []
  else if b.ratio = 4 then
    (topk b.indexTopk ((List.range (xs.length/b.ratio)).map fun t =>
      b.score i x (b.index.compressed c b.ratio args.indexHeadDim xs t))).map
        (b.comp.compressed c b.ratio args.headDim xs)
  else (List.range (xs.length/b.ratio)).map (b.comp.compressed c b.ratio args.headDim xs)

def value [LinearOrder K] (pre : List X) (x : X) : X :=
  let rows := b.windowRows args (pre ++ [x]) ++ b.compressedRows args c (pre ++ [x]) pre.length x
  b.rest pre.length x (b.sparseAttn (b.query pre.length x) (rows.map some))

/-- The row of a layer before the first token, as far as it is ever read. -/
structure Fresh (row : LayerRow S) : Prop where
  plain : b.ratio = 0 → row.comp = none
  comp : b.ratio ≠ 0 → ∃ st, row.comp = some st ∧ Compressor.Unpooled c b.ratio args.headDim st
  unindexed : b.ratio ≠ 4 → row.index = none
  index : b.ratio = 4 → ∃ kv st, row.index = some (kv,st) ∧
    Compressor.Unpooled c b.ratio args.indexHeadDim st

def Ring (xs : List X) (cache : BufferRow S) : Prop :=
  ∀ p < xs.length, xs.length ≤ p+args.windowSize → cache (p%args.windowSize) = b.rowAt xs p

structure Kept (w : Compressor X S) (ratio dim lo : Nat) (xs : List X) (st : CompressorRow S)
    (cache : BufferRow S) : Prop where
  pools : Compressor.Pools w c ratio dim xs st
  rows : ∀ j < xs.length/ratio, cache (lo+j) = w.compressed c ratio dim xs j

structure Holds (xs : List X) (row : LayerRow S) : Prop where
  ring : b.Ring args xs row.cache
  plain : b.ratio = 0 → row.comp = none
  comp : b.ratio ≠ 0 → ∃ st, row.comp = some st ∧
    Kept c b.comp b.ratio args.headDim args.windowSize xs st row.cache
  unindexed : b.ratio ≠ 4 → row.index = none
  index : b.ratio = 4 → ∃ kv st, row.index = some (kv,st) ∧
    Kept c b.index b.ratio args.indexHeadDim 0 xs st kv

variable {args c b}

section Ring

theorem rowAt_append {xs : List X} {p : Nat} (hp : p < xs.length) (ys : List X) :
    b.rowAt (xs ++ ys) p = b.rowAt xs p := by
  rw [rowAt,rowAt,List.mapIdx_append,List.getD_append]
  rwa [List.length_mapIdx]

theorem rowAt_length (xs : List X) (x : X) : b.rowAt (xs ++ [x]) xs.length = b.wkv xs.length x := by
  rw [rowAt,List.mapIdx_append,List.getD_append_right _ _ _ _ (Nat.le_of_eq List.length_mapIdx),
    List.length_mapIdx,Nat.sub_self]
  simp

theorem slide_snoc (l : Layer X S) (start : Nat) (xs : List X) (x : X) (cache : BufferRow S) :
    l.slide args start (xs ++ [x]) cache =
      Function.update (l.slide args start xs cache) ((start+xs.length)%args.windowSize)
        (l.wkv (start+xs.length) x) := by
  rw [Layer.slide,List.zipIdx_append,List.foldl_append]
  rfl

theorem ring_snoc {xs : List X} {cache : BufferRow S} (h : b.Ring args xs cache) (x : X) :
    b.Ring args (xs ++ [x])
      (Function.update cache (xs.length%args.windowSize) (b.wkv xs.length x)) := by
  intro p hp hwin
  rw [List.length_append,List.length_singleton] at hp hwin
  rcases Nat.lt_or_eq_of_le (Nat.le_of_lt_succ hp) with hlt | rfl
  · have hne : p%args.windowSize ≠ xs.length%args.windowSize := by
      intro he
      have h1 := (Nat.modEq_iff_dvd' (Nat.le_of_lt hlt)).mp he
      have := Nat.le_of_dvd (by omega) h1
      omega
    rw [Function.update_of_ne hne,rowAt_append hlt [_]]
    exact h p hlt (by omega)
  · rw [Function.update_self,rowAt_length]

theorem ring_slide [LinearOrder K] (xs : List X) (cache : BufferRow S) :
    b.Ring args xs ((b.layer args).slide args 0 xs cache) := by
  induction xs using List.reverseRecOn with
  | nil => intro p hp; cases hp
  | append_singleton xs x ih =>
    have := ring_snoc ih x
    rw [slide_snoc,Nat.zero_add]
    exact this

theorem Ring.congr {xs : List X} {cache cache' : BufferRow S} (h : b.Ring args xs cache)
    (hwin : 0 < args.windowSize) (he : ∀ p < args.windowSize, cache' p = cache p) :
    b.Ring args xs cache' := fun p hp hle => by
  rw [he _ (Nat.mod_lt _ hwin)]
  exact h p hp hle

theorem range_mod {win n : Nat} (hwin : 0 < win) (h : win-1 ≤ n) :
    (List.range' (n+1-win) win).map (·%win) =
      List.range' (n%win+1) (win-(n%win+1)) ++ List.range (n%win+1) := by
  have hlt := Nat.mod_lt n hwin
  have hdiv := Nat.div_add_mod n win
  have hcut : win = (win-(n%win+1))+(n%win+1) := by omega
  have hmod : ∀ q r : Nat, r < win → (win*q+r)%win = r := fun q r hr => by
    rw [Nat.mul_add_mod,Nat.mod_eq_of_lt hr]
  conv_lhs => rw [show List.range' (n+1-win) win = List.range' (n+1-win) ((win-(n%win+1))+(n%win+1)) by
    rw [← hcut],← List.range'_append_1]
  rw [List.map_append]
  refine congrArg₂ _ ?_ ?_
  · refine List.ext_getElem (by simp) fun t ht _ => ?_
    have htl : t < win-(n%win+1) := by simpa using ht
    rw [List.getElem_map,List.getElem_range',List.getElem_range',Nat.one_mul]
    have hge : win ≤ n := by
      by_contra hc
      rw [Nat.mod_eq_of_lt (Nat.lt_of_not_le hc)] at htl
      omega
    have hq : 0 < n/win := Nat.div_pos hge hwin
    have : n+1-win+t = win*(n/win-1)+(n%win+1+t) := by
      rw [Nat.mul_sub_one]
      have : win ≤ win*(n/win) := Nat.le_mul_of_pos_right win hq
      omega
    rw [this,hmod _ _ (by omega)]
  · refine List.ext_getElem (by simp) fun t ht _ => ?_
    have htl : t < n%win+1 := by simpa using ht
    rw [List.getElem_map,List.getElem_range',List.getElem_range,Nat.one_mul]
    have : n+1-win+(win-(n%win+1))+t = win*(n/win)+t := by omega
    rw [this,hmod _ _ (by omega)]

/-- A decode step gathers the rows of the last tokens from the ring. -/
theorem gather_window_decode {xs : List X} {cache : BufferRow S} (hwin : 0 < args.windowSize)
    {n : Nat} (hn : 0 < n) (hxs : xs.length = n+1) (h : b.Ring args xs cache) :
    (gather cache ((getWindowTopkIdxs args.windowSize 1 n).getD 0 [])).filter Option.isSome =
      (b.windowRows args xs).map some := by
  by_cases hfull : args.windowSize-1 ≤ n
  · rw [getWindowTopkIdxs,if_pos hfull]
    simp only [List.getD_cons_zero]
    rw [gather_nat,filter_isSome_map,← range_mod hwin hfull,windowRows,hxs,
      Nat.min_eq_right (by omega),List.map_map (l := List.range' _ _)]
    refine congrArg _ (List.map_congr_left fun p hp => ?_)
    rw [List.mem_range'_1] at hp
    exact h p (by omega) (by omega)
  · rw [getWindowTopkIdxs,if_neg hfull,if_pos hn]
    simp only [List.getD_cons_zero]
    rw [gather_append,gather_nat,List.filter_append,filter_isSome_map,gather,List.map_replicate,
      if_pos (by decide),filter_isSome_none,List.append_nil,windowRows,hxs,
      Nat.min_eq_left (by omega),Nat.sub_eq_zero_of_le (by omega),List.range_eq_range']
    refine congrArg _ (List.map_congr_left fun p hp => ?_)
    rw [List.mem_range'_1] at hp
    have := h p (by omega) (by omega)
    rwa [Nat.mod_eq_of_lt (by omega)] at this

theorem gather_window_prefill {xs : List X} {kv : Nat → List S} (hwin : 1 < args.windowSize)
    {i : Nat} (hi : i < xs.length) (hkv : ∀ p ≤ i, kv p = b.rowAt xs p) :
    (gather kv ((getWindowTopkIdxs args.windowSize xs.length 0).getD i [])).filter Option.isSome =
      (b.windowRows args (xs.take (i+1))).map some := by
  have hrow : (getWindowTopkIdxs args.windowSize xs.length 0).getD i [] =
      (List.range (min xs.length args.windowSize)).map fun j =>
        if min (i+1) args.windowSize ≤ j then -1 else Int.ofNat (i+1-args.windowSize+j) := by
    rw [getWindowTopkIdxs,if_neg (by omega),if_neg (by omega),List.getD_eq_getElem _ _ (by simpa using hi),
      List.getElem_map,List.getElem_range]
    refine List.map_congr_left fun j hj => ?_
    have hj' := List.mem_range.mp hj
    simp only
    by_cases hc : min (i+1) args.windowSize ≤ j
    · rw [if_pos hc,if_pos (by omega)]
    · rw [if_neg hc,if_neg (by omega)]
      simp only [Int.ofNat_eq_natCast]
      omega
  have hlen : (xs.take (i+1)).length = i+1 := List.length_take_of_le hi
  rw [hrow,gather_cut (by omega),windowRows,hlen,List.range'_eq_map_range,
    List.map_map (f := fun j => i+1-args.windowSize+j)]
  refine congrArg _ (List.map_congr_left fun j hj => ?_)
  have hj' := List.mem_range.mp hj
  have hp : i+1-args.windowSize+j < (xs.take (i+1)).length := by omega
  have happ := b.rowAt_append hp (xs.drop (i+1))
  rw [List.take_append_drop] at happ
  rw [hkv _ (by omega),happ]
  rfl

end Ring

section Kept

variable {w : Compressor X S} {ratio dim lo : Nat} {xs : List X} {st : CompressorRow S}
  {cache : BufferRow S}

theorem store_below {start p : Nat} {out : Option (List (List S))} (hp : p < lo) :
    Compressor.store ratio lo start out cache p = cache p := by
  cases out with
  | none => rfl
  | some kv => exact if_neg fun h => absurd (Nat.le_trans (Nat.le_add_right lo _) h.1) (Nat.not_le.mpr hp)

theorem kept_prefill (hr : 0 < ratio) (h : Compressor.Unpooled c ratio dim st) :
    Kept c w ratio dim lo xs (w.forward c ratio dim 0 xs st).1
      (Compressor.store ratio lo 0 (w.forward c ratio dim 0 xs st).2 cache) := by
  refine ⟨Compressor.pools_prefill hr h,fun j hj => ?_⟩
  have hle : ratio ≤ xs.length := by
    by_contra hc
    rw [Nat.div_eq_of_lt (Nat.lt_of_not_le hc)] at hj
    cases hj
  simp only [Compressor.forward,Compressor.prefillOut_eq,if_pos hle,Compressor.store,
    Compressor.assign,Nat.zero_div,Nat.add_zero,List.length_map,List.length_range]
  rw [if_pos (by omega),Nat.add_sub_cancel_left,List.getD_eq_getElem _ _ (by simpa using hj),
    List.getElem_map,List.getElem_range]

theorem kept_decode (hr : 0 < ratio) (hxs : xs ≠ []) (h : Kept c w ratio dim lo xs st cache) (x : X) :
    Kept c w ratio dim lo (xs ++ [x]) (w.forward c ratio dim xs.length [x] st).1
      (Compressor.store ratio lo xs.length (w.forward c ratio dim xs.length [x] st).2 cache) := by
  obtain ⟨n,hn⟩ : ∃ n, xs.length = n+1 := Nat.exists_eq_succ_of_ne_zero fun h0 =>
    hxs (List.eq_nil_of_length_eq_zero h0)
  have hfw : w.forward c ratio dim xs.length [x] st =
      (w.decodeState ratio xs.length x st,w.decodeOut ratio dim xs.length x st) := by
    rw [hn]
    rfl
  obtain ⟨hpools,hout⟩ := Compressor.pools_decode hr h.pools x
  have hlen : (xs ++ [x]).length = xs.length+1 := by rw [List.length_append,List.length_singleton]
  have hold : ∀ j < xs.length/ratio,
      cache (lo+j) = w.compressed c ratio dim (xs ++ [x]) j := fun j hj => by
    rw [h.rows j hj,Compressor.compressed_append]
    exact (Nat.le_div_iff_mul_le hr).mp hj
  rw [hfw]
  refine ⟨hpools,fun j hj => ?_⟩
  rw [hlen] at hj
  simp only [hout]
  by_cases hfull : (xs.length+1)%ratio = 0
  · rw [Compressor.div_of_full hr hfull] at hj
    simp only [if_pos hfull,Compressor.store,Compressor.assign,List.length_singleton]
    rcases Nat.lt_or_eq_of_le (Nat.le_of_lt_succ hj) with hlt | rfl
    · rw [if_neg (by omega),hold j hlt]
    · rw [if_pos (by omega),Nat.sub_self]
      rfl
  · rw [(Compressor.next_of_open hr hfull).2] at hj
    simp only [if_neg hfull,Compressor.store]
    exact hold j hj

theorem Kept.congr {cache' : BufferRow S} (h : Kept c w ratio dim lo xs st cache)
    (he : ∀ p, lo ≤ p → cache' p = cache p) : Kept c w ratio dim lo xs st cache' :=
  ⟨h.pools,fun j hj => by rw [he _ (Nat.le_add_right lo j),h.rows j hj]⟩

end Kept

theorem slide_beyond (l : Layer X S) (hwin : 0 < args.windowSize) (start : Nat) (xs : List X)
    (cache : BufferRow S) {p : Nat} (hp : args.windowSize ≤ p) :
    l.slide args start xs cache p = cache p := by
  induction xs using List.reverseRecOn with
  | nil => rfl
  | append_singleton xs x ih =>
    have := Nat.mod_lt (start+xs.length) hwin
    rw [slide_snoc,Function.update_of_ne (by omega),ih]

section Read

variable [LinearOrder K] {xs : List X} {kv : Nat → List S} {index : Option (BufferRow S)}

theorem gather_compressed_prefill (hr : b.ratio ≠ 0) {i : Nat} {x : X} (hi : i < xs.length)
    (hkv : ∀ j < xs.length/b.ratio, kv (xs.length+j) = b.comp.compressed c b.ratio args.headDim xs j)
    (hplain : b.ratio ≠ 4 → index = none)
    (hindex : b.ratio = 4 → ∃ cache, index = some cache ∧ ∀ j < xs.length/b.ratio,
      cache j = b.index.compressed c b.ratio args.indexHeadDim xs j) :
    (gather kv (b.compressIdxs xs.length 0 xs.length i x index)).filter Option.isSome =
      (b.compressedRows args c (xs.take (i+1)) i x).map some := by
  have hlen : (xs.take (i+1)).length = i+1 := List.length_take_of_le hi
  have hle : (i+1)/b.ratio ≤ xs.length/b.ratio := Nat.div_le_div_right hi
  have hcut : ∀ (w : Compressor X S) (dim : Nat), ∀ j < (i+1)/b.ratio,
      w.compressed c b.ratio dim xs j = w.compressed c b.ratio dim (xs.take (i+1)) j := by
    intro w dim j hj
    have hfull := (Nat.le_div_iff_mul_le (Nat.pos_of_ne_zero hr)).mp hj
    have : w.compressed c b.ratio dim (xs.take (i+1) ++ xs.drop (i+1)) j = _ :=
      Compressor.compressed_append (by rwa [hlen])
    rwa [List.take_append_drop] at this
  have hrow : ∀ j < (i+1)/b.ratio, kv (j+xs.length) =
      b.comp.compressed c b.ratio args.headDim (xs.take (i+1)) j := fun j hj => by
    rw [Nat.add_comm,hkv j (Nat.lt_of_lt_of_le hj hle),hcut _ _ j hj]
  unfold compressIdxs
  rw [if_neg hr,compressedRows,if_neg hr,hlen]
  by_cases h4 : b.ratio = 4
  · obtain ⟨cache,rfl,hcache⟩ := hindex h4
    have hscores : (List.range (xs.length/b.ratio)).map (fun t =>
        if (i+1)/b.ratio ≤ t then ⊥ else WithBot.some (b.score i x (cache t))) =
        ((List.range ((i+1)/b.ratio)).map fun t =>
          b.score i x (b.index.compressed c b.ratio args.indexHeadDim (xs.take (i+1)) t)).map
            WithBot.some ++ List.replicate (xs.length/b.ratio-(i+1)/b.ratio) ⊥ := by
      rw [map_range_cut hle,List.map_map]
      refine congrArg (· ++ _) (List.map_congr_left fun t ht => ?_)
      have ht' := List.mem_range.mp ht
      rw [hcache t (Nat.lt_of_lt_of_le ht' hle),hcut _ _ t ht']
      rfl
    have hmask := topk_masked ((List.range ((i+1)/b.ratio)).map fun t =>
      b.score i x (b.index.compressed c b.ratio args.indexHeadDim (xs.take (i+1)) t))
      (min b.indexTopk (xs.length/b.ratio)) (xs.length/b.ratio-(i+1)/b.ratio)
    have hmin := topk_min b.indexTopk ((List.range ((i+1)/b.ratio)).map fun t =>
      b.score i x (b.index.compressed c b.ratio args.indexHeadDim (xs.take (i+1)) t))
    have hmin' := topk_min (min b.indexTopk (xs.length/b.ratio))
      ((List.range ((i+1)/b.ratio)).map fun t =>
        b.score i x (b.index.compressed c b.ratio args.indexHeadDim (xs.take (i+1)) t))
    rw [List.length_map,List.length_range] at hmask hmin hmin'
    rw [Nat.min_assoc,Nat.min_eq_right hle,hmin] at hmin'
    rw [if_pos h4]
    simp only [indexerIdxs,if_true,Nat.zero_add]
    rw [hscores,gather_masked,hmask,← hmin']
    refine congrArg _ (List.map_congr_left fun t ht => hrow t ?_)
    simpa using topk_lt ht
  · rw [hplain h4,if_neg h4]
    have hidx : (compressTopkIdxs b.ratio xs.length 0 xs.length).getD i [] =
        (List.range (xs.length/b.ratio)).map fun j =>
          if (i+1)/b.ratio ≤ j then -1 else Int.ofNat (j+xs.length) := by
      rw [compressTopkIdxs,if_neg (Nat.lt_irrefl 0),List.getD_eq_getElem _ _ (by simpa using hi),
        List.getElem_map,List.getElem_range]
    simp only [hidx]
    rw [gather_cut hle]
    exact congrArg _ (List.map_congr_left fun j hj => hrow j (List.mem_range.mp hj))

theorem gather_compressed_decode (hr : b.ratio ≠ 0) {n : Nat} {x : X} (hn : 0 < n)
    (hxs : xs.length = n+1)
    (hkv : ∀ j < xs.length/b.ratio,
      kv (args.windowSize+j) = b.comp.compressed c b.ratio args.headDim xs j)
    (hplain : b.ratio ≠ 4 → index = none)
    (hindex : b.ratio = 4 → ∃ cache, index = some cache ∧ ∀ j < xs.length/b.ratio,
      cache j = b.index.compressed c b.ratio args.indexHeadDim xs j) :
    (gather kv (b.compressIdxs 1 n args.windowSize 0 x index)).filter Option.isSome =
      (b.compressedRows args c xs n x).map some := by
  have hrow : ∀ j < (n+1)/b.ratio, kv (j+args.windowSize) =
      b.comp.compressed c b.ratio args.headDim xs j := fun j hj => by
    rw [Nat.add_comm,hkv j (hxs ▸ hj)]
  have hnat : ∀ l : List Nat, l.map (fun t => Int.ofNat (t+args.windowSize)) =
      (l.map (·+args.windowSize)).map Int.ofNat := fun l => by
    rw [List.map_map]
    rfl
  unfold compressIdxs
  rw [if_neg hr,compressedRows,if_neg hr,hxs]
  by_cases h4 : b.ratio = 4
  · obtain ⟨cache,rfl,hcache⟩ := hindex h4
    have hscores : (List.range ((n+1)/b.ratio)).map (fun t => b.score n x (cache t)) =
        (List.range ((n+1)/b.ratio)).map fun t =>
          b.score n x (b.index.compressed c b.ratio args.indexHeadDim xs t) :=
      List.map_congr_left fun t ht => by rw [hcache t (hxs ▸ List.mem_range.mp ht)]
    have hmin := topk_min b.indexTopk ((List.range ((n+1)/b.ratio)).map fun t =>
      b.score n x (b.index.compressed c b.ratio args.indexHeadDim xs t))
    rw [List.length_map,List.length_range] at hmin
    rw [if_pos h4]
    simp only [indexerIdxs,if_neg (Nat.ne_of_gt hn)]
    rw [hscores,hmin,hnat,gather_nat,filter_isSome_map,List.map_map (l := topk _ _)]
    refine congrArg _ (List.map_congr_left fun t ht => hrow t ?_)
    simpa using topk_lt ht
  · rw [hplain h4,if_neg h4]
    simp only [compressTopkIdxs,if_pos hn,List.getD_cons_zero]
    rw [hnat,gather_nat,filter_isSome_map,List.map_map (l := List.range _)]
    exact congrArg _ (List.map_congr_left fun j hj => hrow j (List.mem_range.mp hj))

theorem token_eq {len start offset i : Nat} {pre : List X} {x : X} (hpos : start+i = pre.length)
    (hwin : (gather kv ((getWindowTopkIdxs args.windowSize len start).getD i [])).filter
      Option.isSome = (b.windowRows args (pre ++ [x])).map some)
    (hcomp : (gather kv (b.compressIdxs len start offset i x index)).filter Option.isSome =
      (b.compressedRows args c (pre ++ [x]) pre.length x).map some) :
    b.token args len start offset i x kv index = b.value args c pre x := by
  simp only [token,value]
  rw [b.masked,gather_append,List.filter_append,hwin,hcomp,← List.map_append,hpos]

end Read

section Pass

def compOut (args : ModelArgs) (c : Scalars S) (b : Block X S Q O K) (start : Nat) (xs : List X)
    (row : LayerRow S) : Option (List (List S)) :=
  row.comp.bind fun st => (b.comp.forward c b.ratio args.headDim start xs st).2

/-- The rows that the first pass reads: the ones it has just made, and behind
them the compressed ones. -/
theorem prefill_rows (xs : List X) {row : LayerRow S} (h : b.Fresh args c row) :
    let kv := xs.mapIdx b.wkv ++ (b.compOut args c 0 xs row).getD []
    (∀ p < xs.length, kv.getD p [] = b.rowAt xs p) ∧ (b.ratio ≠ 0 → ∀ j < xs.length/b.ratio,
      kv.getD (xs.length+j) [] = b.comp.compressed c b.ratio args.headDim xs j) := by
  refine ⟨fun p hp => ?_,fun h0 j hj => ?_⟩
  · rw [List.getD_append _ _ _ _ (by rwa [List.length_mapIdx]),rowAt]
  · obtain ⟨st,hst,_⟩ := h.comp h0
    have hle : b.ratio ≤ xs.length := by
      by_contra hc
      rw [Nat.div_eq_of_lt (Nat.lt_of_not_le hc)] at hj
      cases hj
    have hlen : (xs.mapIdx b.wkv).length = xs.length := List.length_mapIdx
    simp only [compOut,hst,Option.bind_some,Compressor.forward,Compressor.prefillOut_eq,if_pos hle,
      Option.getD_some]
    rw [List.getD_append_right _ _ _ _ (by omega),hlen,Nat.add_sub_cancel_left,
      List.getD_eq_getElem _ _ (by simpa using hj),List.getElem_map,List.getElem_range]

theorem Holds.index_rows {xs : List X} {row : LayerRow S} (h : b.Holds args c xs row) :
    (b.ratio ≠ 4 → row.index.map Prod.fst = none) ∧
      (b.ratio = 4 → ∃ cache, row.index.map Prod.fst = some cache ∧ ∀ j < xs.length/b.ratio,
        cache j = b.index.compressed c b.ratio args.indexHeadDim xs j) := by
  refine ⟨fun h4 => by rw [h.unindexed h4]; rfl,fun h4 => ?_⟩
  obtain ⟨kv,st,hix,hkept⟩ := h.index h4
  exact ⟨kv,by rw [hix]; rfl,fun j hj => by rw [← hkept.rows j hj,Nat.zero_add]⟩

variable [LinearOrder K]

def pass (args : ModelArgs) (c : Scalars S) (b : Block X S Q O K) : Pass X X (LayerRow S) :=
  fun start xs row =>
    let r := (b.layer args).forward c args start xs row
    (r.1,r.2.1)

theorem pass_eq (start : Nat) (xs : List X) (row : LayerRow S) :
    let row' : LayerRow S :=
      { cache := Compressor.store b.ratio args.windowSize start (b.compOut args c start xs row)
          ((b.layer args).slide args start xs row.cache)
        comp := row.comp.map fun st => (b.comp.forward c b.ratio args.headDim start xs st).1
        index := row.index.map fun ix =>
          (Compressor.store b.ratio 0 start (b.index.forward c b.ratio args.indexHeadDim start xs ix.2).2
            ix.1,(b.index.forward c b.ratio args.indexHeadDim start xs ix.2).1) }
    b.pass args c start xs row =
      (row',b.read args start xs row'.cache (row'.index.map Prod.fst) (b.compOut args c start xs row)) := by
  obtain ⟨cache,comp,index⟩ := row
  cases comp <;> cases index <;> rfl

/-- The first pass over a layer leaves caches that hold its tokens. -/
theorem holds_first (hwin : 0 < args.windowSize) (xs : List X) {row : LayerRow S}
    (h : b.Fresh args c row) : b.Holds args c xs (b.pass args c 0 xs row).1 := by
  rw [pass_eq]
  refine ⟨?_,fun h0 => by simp [h.plain h0],fun h0 => ?_,fun h4 => by simp [h.unindexed h4],
    fun h4 => ?_⟩
  · exact (ring_slide xs row.cache).congr hwin fun p hp => store_below hp
  · obtain ⟨st,hst,hun⟩ := h.comp h0
    simp only [compOut,hst,Option.bind_some,Option.map_some]
    exact ⟨_,rfl,kept_prefill (Nat.pos_of_ne_zero h0) hun⟩
  · obtain ⟨kv,st,hix,hun⟩ := h.index h4
    simp only [hix,Option.map_some]
    exact ⟨_,_,rfl,kept_prefill (by omega) hun⟩

/-- A decode step keeps the caches up to date. -/
theorem holds_next (hwin : 0 < args.windowSize) {xs : List X} {row : LayerRow S} (hxs : xs ≠ [])
    (h : b.Holds args c xs row) (x : X) :
    b.Holds args c (xs ++ [x]) (b.pass args c xs.length [x] row).1 := by
  rw [pass_eq]
  refine ⟨?_,fun h0 => by simp [h.plain h0],fun h0 => ?_,fun h4 => by simp [h.unindexed h4],
    fun h4 => ?_⟩
  · exact (ring_snoc h.ring x).congr hwin fun p hp => store_below hp
  · obtain ⟨st,hst,hkept⟩ := h.comp h0
    simp only [compOut,hst,Option.bind_some,Option.map_some]
    exact ⟨_,rfl,kept_decode (Nat.pos_of_ne_zero h0) hxs
      (hkept.congr fun p hp => slide_beyond _ hwin _ _ _ hp) x⟩
  · obtain ⟨kv,st,hix,hkept⟩ := h.index h4
    simp only [hix,Option.map_some]
    exact ⟨_,_,rfl,kept_decode (by omega) hxs hkept x⟩

theorem compressedRows_plain {xs : List X} {i : Nat} {x : X} (h0 : b.ratio = 0) :
    b.compressedRows args c xs i x = [] := if_pos h0

/-- A block with its caches computes the value of every token from the tokens
before it. -/
theorem computes (hwin : 1 < args.windowSize) :
    Computes (b.pass args c) (b.value args c) (b.Fresh args c) (b.Holds args c) where
  first := by
    intro xs row hxs hfresh
    have hold := holds_first (by omega) xs hfresh
    refine ⟨hold,?_⟩
    rw [pass_eq] at hold ⊢
    obtain ⟨hplain,hindex⟩ := hold.index_rows
    obtain ⟨hrow,hcomp⟩ := prefill_rows xs hfresh
    simp only [read,if_true]
    refine List.ext_getElem? fun i => ?_
    rw [getElem?_outputs,List.getElem?_mapIdx]
    by_cases hi : i < xs.length
    · have htake : xs.take i ++ [xs[i]] = xs.take (i+1) := (List.take_succ_eq_append_getElem hi).symm
      have hlen : (xs.take i).length = i := List.length_take_of_le (Nat.le_of_lt hi)
      rw [List.getElem?_eq_getElem hi]
      refine congrArg some (token_eq (by rw [hlen,Nat.zero_add]) ?_ ?_)
      · rw [htake]
        exact gather_window_prefill hwin hi fun p hp => hrow p (by omega)
      · rw [htake,hlen]
        by_cases h0 : b.ratio = 0
        · unfold compressIdxs
          rw [if_pos h0,compressedRows_plain h0]
          rfl
        · exact gather_compressed_prefill h0 hi (hcomp h0) hplain hindex
    · rw [List.getElem?_eq_none (by omega)]
      rfl
  next := by
    intro xs row x hxs hold
    have hold' := holds_next (by omega) hxs hold x
    refine ⟨hold',?_⟩
    rw [pass_eq] at hold' ⊢
    obtain ⟨hplain,hindex⟩ := hold'.index_rows
    have hpos : 0 < xs.length := List.length_pos_of_ne_nil hxs
    have hlen : (xs ++ [x]).length = xs.length+1 := by rw [List.length_append,List.length_singleton]
    simp only [read,if_neg (Nat.ne_of_gt hpos),List.map_cons,List.map_nil]
    refine congrArg (· :: []) (token_eq (Nat.add_zero _) ?_ ?_)
    · exact gather_window_decode (by omega) hpos hlen hold'.ring
    · by_cases h0 : b.ratio = 0
      · unfold compressIdxs
        rw [if_pos h0,compressedRows_plain h0]
        rfl
      · obtain ⟨st,_,hkept⟩ := hold'.comp h0
        exact gather_compressed_decode h0 hpos hlen hkept.rows hplain hindex

end Pass

end Block

end SglangLite.Hybrid
