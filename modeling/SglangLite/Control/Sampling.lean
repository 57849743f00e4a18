import SglangLite.Control.Params
import SglangLite.Mass

set_option autoImplicit false

namespace SglangLite.Control.Sampling

open Mass

/-- The weight of a token: `exp` of its logit over the temperature, and 0 where
the logit is `-inf`. -/
def weight (w : List ℚ) (i : Nat) : ℚ := w.getD i 0

/-- The operations of the tensor library that leave the order of equal values
open. -/
structure Torch where
  topk : List ℚ → Nat → List Nat
  sort : List ℚ → List Nat
  argmax : List ℚ → Nat

/-- `idx` are `k` tokens of largest weight. -/
structure Largest (w : List ℚ) (k : Nat) (idx : List Nat) : Prop where
  nodup : idx.Nodup
  length : idx.length = k
  within : ∀ i ∈ idx, i < w.length
  largest : ∀ i ∈ idx, ∀ j < w.length, j ∉ idx → weight w j ≤ weight w i

/-- `idx` are all tokens in descending order. -/
structure Descends (w : List ℚ) (idx : List Nat) : Prop where
  perm : idx.Perm (List.range w.length)
  descending : idx.Pairwise fun i j => weight w j ≤ weight w i

structure Torch.Documented (t : Torch) : Prop where
  topk : ∀ w k, k ≤ w.length → Largest w k (t.topk w k)
  sort : ∀ w, Descends w (t.sort w)

/-- `x.scatter(0, idx, vals)`. -/
def scatter (x : List ℚ) (idx : List Nat) (vals : List ℚ) : List ℚ :=
  (idx.zip vals).foldl (fun out p => out.set p.1 p.2) x

/-- `torch.full_like(logits, -inf)`. -/
def masked (n : Nat) : List ℚ := List.replicate n 0

/-- Normalisation; where all weights are 0 the quotients stand for NaN, which no
comparison finds above anything. -/
def softmax (w : List ℚ) : List ℚ := w.map fun x => x/w.sum

def topKFilter (t : Torch) (topK : Option Int) (w : List ℚ) : List ℚ :=
  match topK with
  | none => w
  | some k =>
      if 0 < k then
        let idx := t.topk w (min k.toNat w.length)
        scatter (masked w.length) idx (idx.map (weight w))
      else w

/-- `remove[1:] = remove[:-1]` and `remove[0] = False`. -/
def shiftRight (remove : List Bool) : List Bool := false :: remove.dropLast

/-- `sorted_logits.masked_fill(remove, -inf)`. -/
def maskedFill (remove : List Bool) (w : List ℚ) : List ℚ :=
  List.zipWith (fun (r : Bool) x => if r then 0 else x) remove w

def topPFilter (t : Torch) (topP : Option ℚ) (w : List ℚ) : List ℚ :=
  match topP with
  | none => w
  | some p =>
      if 0 < p ∧ p < 1 then
        let idx := t.sort w
        let sorted := idx.map (weight w)
        let remove := shiftRight ((cumsum 0 (softmax sorted)).map fun c => decide (p < c))
        scatter (masked w.length) idx (maskedFill remove sorted)
      else w

/-- The tokens that `torch.multinomial` draws: those of positive probability. -/
def drawn (probs : List ℚ) : List Nat := (List.range probs.length).filter fun i => 0 < weight probs i

/-- The tokens that `sample_logits_tensor` can return, from the weights at its
temperature. -/
def sampleLogitsTensor (t : Torch) (w : List ℚ) (temperature : Option Num) (topP : Option ℚ)
    (topK : Option Int) : List Nat :=
  match temperature with
  | none => [t.argmax w]
  | some temp =>
      if temp.le greedyBound then [t.argmax w]
      else drawn (softmax (topPFilter t topP (topKFilter t topK w)))

theorem length_scatter (x : List ℚ) (idx : List Nat) (vals : List ℚ) :
    (scatter x idx vals).length = x.length := by
  rw [scatter]
  induction idx.zip vals generalizing x with
  | nil => rfl
  | cons p ps ih => rw [List.foldl_cons,ih,List.length_set]

theorem weight_scatter_other {idx : List Nat} {i : Nat} (hi : i ∉ idx) (x vals : List ℚ) :
    weight (scatter x idx vals) i = weight x i := by
  induction idx generalizing x vals with
  | nil => rfl
  | cons j idx ih =>
    cases vals with
    | nil => rfl
    | cons v vals =>
      have hne : j ≠ i := fun h => hi (h ▸ List.mem_cons_self)
      have := ih (fun h => hi (List.mem_cons_of_mem j h)) (x.set j v) vals
      rw [scatter] at this ⊢
      rw [List.zip_cons_cons,List.foldl_cons,this]
      simp [weight,List.getD_eq_getElem?_getD,List.getElem?_set_ne hne]

theorem weight_scatter {idx : List Nat} (hnd : idx.Nodup) {i : Nat} {v : ℚ} {vals : List ℚ}
    (hv : (idx.zip vals).lookup i = some v) (x : List ℚ) (hi : i < x.length) :
    weight (scatter x idx vals) i = v := by
  induction idx generalizing x vals with
  | nil => cases hv
  | cons j idx ih =>
    obtain ⟨hj,hnd⟩ := List.nodup_cons.mp hnd
    cases vals with
    | nil => cases hv
    | cons u vals =>
      have hstep : scatter x (j :: idx) (u :: vals) = scatter (x.set j u) idx vals := rfl
      rw [hstep]
      rw [List.zip_cons_cons,List.lookup_cons] at hv
      by_cases hij : i = j
      · subst hij
        simp only [beq_self_eq_true,Option.some.injEq] at hv
        rw [weight_scatter_other hj,weight,List.getD_eq_getElem?_getD,List.getElem?_set_self hi,hv]
        rfl
      · simp only [beq_eq_false_iff_ne.mpr hij] at hv
        exact ih hnd hv _ (by rw [List.length_set]; exact hi)

theorem weight_masked (n i : Nat) : weight (masked n) i = 0 := by
  rw [weight,masked,List.getD_eq_getElem?_getD,List.getElem?_replicate]
  split_ifs <;> rfl

theorem lookup_gather {idx : List Nat} {f : Nat → ℚ} {i : Nat} (hi : i ∈ idx) :
    (idx.zip (idx.map f)).lookup i = some (f i) := by
  induction idx with
  | nil => cases hi
  | cons j idx ih =>
    rw [List.map_cons,List.zip_cons_cons,List.lookup_cons]
    by_cases hij : i = j
    · subst hij
      simp
    · simp only [beq_eq_false_iff_ne.mpr hij]
      exact ih ((List.mem_cons.mp hi).resolve_left hij)

theorem weight_nonneg {w : List ℚ} (h : ∀ x ∈ w, 0 ≤ x) (i : Nat) : 0 ≤ weight w i := by
  rw [weight,List.getD_eq_getElem?_getD]
  cases hi : w[i]? with
  | none => exact le_refl 0
  | some x => exact h x (List.mem_of_getElem? hi)

theorem nonneg_of_weight {w : List ℚ} (h : ∀ i < w.length, 0 ≤ weight w i) : ∀ x ∈ w, 0 ≤ x := by
  intro x hx
  obtain ⟨i,hi,rfl⟩ := List.mem_iff_getElem.mp hx
  have := h i hi
  rwa [weight,List.getD_eq_getElem?_getD,List.getElem?_eq_getElem hi] at this

theorem map_weight (w : List ℚ) : (List.range w.length).map (weight w) = w := by
  apply List.ext_getElem?
  intro i
  rw [List.getElem?_map]
  by_cases hi : i < w.length
  · rw [List.getElem?_range hi,List.getElem?_eq_getElem hi]
    simp [weight,hi]
  · rw [List.getElem?_eq_none (by simpa using hi),List.getElem?_eq_none (by omega)]
    rfl

theorem total_range (w : List ℚ) : total (weight w) (List.range w.length) = w.sum := by
  rw [total,map_weight]

theorem weight_softmax (w : List ℚ) (i : Nat) : weight (softmax w) i = weight w i/w.sum := by
  rw [weight,weight,softmax,List.getD_eq_getElem?_getD,List.getD_eq_getElem?_getD,List.getElem?_map]
  cases w[i]? with
  | none => simp
  | some x => rfl

theorem mem_drawn {w : List ℚ} (h : ∀ x ∈ w, 0 ≤ x) {i : Nat} :
    i ∈ drawn (softmax w) ↔ i < w.length ∧ 0 < weight w i := by
  rw [drawn,List.mem_filter,List.mem_range,softmax,List.length_map,← softmax,weight_softmax]
  simp only [decide_eq_true_eq]
  refine and_congr_right fun hi => ⟨fun hq => ?_,fun hw => ?_⟩
  · rcases (weight_nonneg h i).lt_or_eq with hlt | heq
    · exact hlt
    · rw [← heq,zero_div] at hq
      exact absurd hq (lt_irrefl 0)
  · have hle : weight w i ≤ w.sum := by
      have hmem : weight w i ∈ w := by
        rw [weight,List.getD_eq_getElem?_getD,List.getElem?_eq_getElem hi]
        exact List.getElem_mem hi
      exact List.single_le_sum h _ hmem
    exact div_pos hw (hw.trans_le hle)

/-- How many tokens `top_k` keeps. -/
def limit (topK : Option Int) (n : Nat) : Nat :=
  match topK with
  | none => n
  | some k => min k.toNat n

section Filters

variable {t : Torch} {w : List ℚ} {topK : Option Int} {p : ℚ}

/-- `v` has the weights of the tokens `ks`, and 0 in the other places. -/
structure Kept (w v : List ℚ) (ks : List Nat) : Prop where
  length : v.length = w.length
  value : ∀ i < w.length, weight v i = if i ∈ ks then weight w i else 0

theorem topKFilter_kept (ht : t.Documented) (hk : ∀ k, topK = some k → 0 < k) :
    ∃ ks, Largest w (limit topK w.length) ks ∧ Kept w (topKFilter t topK w) ks := by
  cases topK with
  | none =>
    refine ⟨List.range w.length,⟨List.nodup_range,List.length_range,fun i => List.mem_range.mp,
      fun i _ j hj hout => absurd (List.mem_range.mpr hj) hout⟩,rfl,fun i hi => ?_⟩
    rw [if_pos (List.mem_range.mpr hi)]
    rfl
  | some k =>
    have hlargest := ht.topk w (min k.toNat w.length) (Nat.min_le_right _ _)
    have hlen : (masked w.length).length = w.length := List.length_replicate
    simp only [topKFilter,if_pos (hk k rfl)]
    refine ⟨_,hlargest,(length_scatter _ _ _).trans hlen,fun i hi => ?_⟩
    split_ifs with hmem
    · exact weight_scatter hlargest.nodup (lookup_gather hmem) _ (by rw [hlen]; exact hi)
    · rw [weight_scatter_other hmem,weight_masked]

def share (w : List ℚ) (l : List Nat) (i : Nat) : ℚ := weight w i/total (weight w) l

theorem softmax_sorted (w : List ℚ) (idx : List Nat) :
    softmax (idx.map (weight w)) = idx.map (share w idx) := by
  rw [softmax,List.map_map]
  rfl

theorem total_div (f : Nat → ℚ) (c : ℚ) (l : List Nat) : total (fun i => f i/c) l = total f l/c := by
  induction l with
  | nil => simp
  | cons i l ih => rw [total_cons,total_cons,ih,add_div]

theorem share_nonneg (hw : ∀ x ∈ w, 0 ≤ x) (l : List Nat) (i : Nat) : 0 ≤ share w l i := by
  refine div_nonneg (weight_nonneg hw i) (List.sum_nonneg fun x hx => ?_)
  obtain ⟨j,_,rfl⟩ := List.mem_map.mp hx
  exact weight_nonneg hw j

theorem total_share_take (hw : ∀ x ∈ w, 0 ≤ x) {l : List Nat} (hpos : 0 < total (weight w) l) (k : Nat) :
    total (share w l) (l.take k) ≤ 1 := by
  have hall : total (share w l) l = 1 := by
    rw [show share w l = fun i => weight w i/total (weight w) l from rfl,total_div]
    exact div_self hpos.ne'
  have hsplit : total (share w l) (l.take k)+total (share w l) (l.drop k) = 1 := by
    rw [← hall,total,total,total,← List.sum_append,← List.map_append,List.take_append_drop]
  have hrest : 0 ≤ total (share w l) (l.drop k) := by
    refine List.sum_nonneg fun x hx => ?_
    obtain ⟨j,_,rfl⟩ := List.mem_map.mp hx
    exact share_nonneg hw l j
  linarith

/-- `top_p` keeps the weights of the tokens before which at most `p` is
gathered in the sorted order. -/
theorem topPFilter_weight (ht : t.Documented) (hw : ∀ x ∈ w, 0 ≤ x) (hpos : 0 < w.sum) (hp : 0 < p)
    (hp1 : p ≤ 1) : (topPFilter t (some p) w).length = w.length ∧ ∀ i < w.length,
      weight (topPFilter t (some p) w) i =
        if i ∈ within (share w (t.sort w)) p 0 (t.sort w) then weight w i else 0 := by
  have hdesc := ht.sort w
  have hmem : ∀ {i}, i < w.length → i ∈ t.sort w := fun hi =>
    hdesc.perm.mem_iff.mpr (List.mem_range.mpr hi)
  have htotal : total (weight w) (t.sort w) = w.sum := by
    rw [total_perm hdesc.perm,total_range]
  rcases hp1.lt_or_eq with hlt | rfl
  · have hlen : (masked w.length).length = w.length := List.length_replicate
    simp only [topPFilter,hp,hlt,and_self,if_true]
    refine ⟨(length_scatter _ _ _).trans hlen,fun i hi => ?_⟩
    have hremove : shiftRight ((cumsum 0 (softmax ((t.sort w).map (weight w)))).map
        fun c => decide (p < c)) =
        (before (share w (t.sort w)) 0 (t.sort w)).map fun c => decide (p < c) := by
      cases hidx : t.sort w with
      | nil =>
        have := hmem hi
        rw [hidx] at this
        cases this
      | cons a idx =>
        have hfirst : decide (p < 0) = false := by simpa using hp.le
        rw [softmax_sorted,← cumsum_shift,shiftRight,← List.map_dropLast,← hfirst]
        rfl
    rw [hremove,maskedFill]
    exact weight_scatter (hdesc.perm.nodup_iff.mpr List.nodup_range)
      (lookup_masked (weight w) 0 (fun j _ => share_nonneg hw _ j)
        (hdesc.perm.nodup_iff.mpr List.nodup_range) (hmem hi)) _ (by rw [hlen]; exact hi)
  · have hall : Shortest (share w (t.sort w)) 1 0 (t.sort w) (t.sort w).length :=
      ⟨Nat.le_refl _,fun k _ => by
        rw [zero_add]
        exact total_share_take hw (by rw [htotal]; exact hpos) k,.inl rfl⟩
    have hskip : topPFilter t (some 1) w = w := by
      simp only [topPFilter,lt_irrefl,and_false,if_false]
    rw [hskip]
    refine ⟨rfl,fun i hi => ?_⟩
    rw [within_eq_take hall,List.take_length,if_pos (hmem hi)]

end Filters

/-- The tokens that can be sampled: `chosen` are the kept largest tokens in
descending order, `m` of them are the shortest beginning with more than
`topP`. -/
structure Support (w : List ℚ) (topK : Option Int) (topP : ℚ) (tokens chosen : List Nat) (m : Nat) :
    Prop where
  largest : Largest w (limit topK w.length) chosen
  descending : chosen.Pairwise fun i j => weight w j ≤ weight w i
  shortest : Shortest (share w chosen) topP 0 chosen m
  support : ∀ i, i ∈ tokens ↔ i ∈ chosen.take m ∧ 0 < weight w i
  maximum : ∃ i ∈ tokens, ∀ j < w.length, weight w j ≤ weight w i

section Kept

variable {t : Torch} {w v : List ℚ} {ks idx : List Nat} {topK : Option Int} {p : ℚ}

theorem Kept.nonneg (h : Kept w v ks) (hw : ∀ x ∈ w, 0 ≤ x) : ∀ x ∈ v, 0 ≤ x :=
  nonneg_of_weight fun i hi => by
    rw [h.value i (h.length ▸ hi)]
    split_ifs
    · exact weight_nonneg hw i
    · exact le_refl 0

theorem weight_getElem {i : Nat} (hi : i < w.length) : weight w i = w[i] := by
  rw [weight,List.getD_eq_getElem?_getD,List.getElem?_eq_getElem hi]
  rfl

theorem limit_pos (hk : ∀ k, topK = some k → 0 < k) {n : Nat} (hn : 0 < n) : 0 < limit topK n := by
  cases topK with
  | none => exact hn
  | some k =>
    have := hk k rfl
    simp only [limit]
    omega

theorem Largest.positive {n : Nat} (h : Largest w n ks) (hn : 0 < n) (hpos : ∃ x ∈ w, 0 < x) :
    ∃ i ∈ ks, 0 < weight w i := by
  obtain ⟨x,hx,hx0⟩ := hpos
  obtain ⟨j,hj,rfl⟩ := List.mem_iff_getElem.mp hx
  rw [← weight_getElem hj] at hx0
  by_cases hmem : j ∈ ks
  · exact ⟨j,hmem,hx0⟩
  · obtain ⟨i,hi⟩ := List.exists_mem_of_length_pos (h.length ▸ hn)
    exact ⟨i,hi,hx0.trans_le (h.largest i hi j hj hmem)⟩

theorem Kept.sum_pos {n : Nat} (h : Kept w v ks) (hks : Largest w n ks) (hw : ∀ x ∈ w, 0 ≤ x)
    (hpos : ∃ i ∈ ks, 0 < weight w i) : 0 < v.sum := by
  obtain ⟨i,hi,hwi⟩ := hpos
  have hlt : i < v.length := h.length ▸ hks.within i hi
  have hvi := h.value i (hks.within i hi)
  rw [if_pos hi,weight_getElem hlt] at hvi
  exact (hvi ▸ hwi).trans_le (List.single_le_sum (h.nonneg hw) _ (List.getElem_mem hlt))

def chosen (ks idx : List Nat) : List Nat := idx.filter fun i => decide (i ∈ ks)

theorem Descends.mem (h : Descends v idx) (hv : v.length = w.length) {i : Nat} :
    i ∈ idx ↔ i < w.length := by
  rw [h.perm.mem_iff,List.mem_range,hv]

theorem mem_chosen {n : Nat} (hks : Largest w n ks) (h : Descends v idx) (hv : v.length = w.length)
    {i : Nat} : i ∈ chosen ks idx ↔ i ∈ ks := by
  rw [chosen,List.mem_filter,decide_eq_true_eq]
  exact ⟨And.right,fun hi => ⟨(h.mem hv).mpr (hks.within i hi),hi⟩⟩

theorem chosen_largest {n : Nat} (hks : Largest w n ks) (h : Descends v idx)
    (hv : v.length = w.length) : Largest w n (chosen ks idx) := by
  have hmem := fun i => mem_chosen (i := i) hks h hv
  have hnodup : (chosen ks idx).Nodup := (h.perm.nodup_iff.mpr List.nodup_range).filter _
  have hperm : (chosen ks idx).Perm ks := (List.perm_ext_iff_of_nodup hnodup hks.nodup).mpr hmem
  refine ⟨hnodup,hperm.length_eq.trans hks.length,fun i hi => hks.within i ((hmem i).mp hi),
    fun i hi j hj hout => hks.largest i ((hmem i).mp hi) j hj fun hin => hout ((hmem j).mpr hin)⟩

theorem Kept.chosen_weight {n : Nat} (h : Kept w v ks) (hks : Largest w n ks) (hd : Descends v idx)
    {i : Nat} (hi : i ∈ chosen ks idx) : weight v i = weight w i := by
  have hmem := (mem_chosen hks hd h.length).mp hi
  rw [h.value i (hks.within i hmem),if_pos hmem]

theorem Kept.outside (h : Kept w v ks) (hd : Descends v idx) {i : Nat} (hi : i ∈ idx)
    (hout : decide (i ∈ ks) = false) : weight v i = 0 := by
  rw [h.value i ((hd.mem h.length).mp hi),if_neg (of_decide_eq_false hout)]

/-- Sorting all tokens or the kept ones gives a token the same share. -/
theorem Kept.share_chosen {n : Nat} (h : Kept w v ks) (hks : Largest w n ks) (hd : Descends v idx)
    {i : Nat} (hi : i ∈ chosen ks idx) : share v idx i = share w (chosen ks idx) i := by
  have hsum : total (weight w) (chosen ks idx) = total (weight v) idx := by
    rw [← total_congr fun j hj => h.chosen_weight hks hd hj]
    exact total_filter fun j hj hout => h.outside hd hj hout
  rw [share,share,h.chosen_weight hks hd hi,hsum]

theorem Kept.within_chosen (h : Kept w v ks) (hd : Descends v idx) {m : Nat}
    (hm : Shortest (share v idx) p 0 (chosen ks idx) m) :
    (within (share v idx) p 0 idx).filter (fun i => decide (i ∈ ks)) = (chosen ks idx).take m := by
  rw [← within_eq_take hm,chosen,within_filter]
  intro i hi hout
  rw [share,h.outside hd hi hout,zero_div]

theorem chosen_head {n : Nat} {i : Nat} {is : List Nat} (h : Kept w v ks) (hks : Largest w n ks)
    (hd : Descends v idx) (hc : chosen ks idx = i :: is) : ∀ j < w.length, weight w j ≤ weight w i := by
  intro j hj
  have hi : i ∈ chosen ks idx := hc ▸ List.mem_cons_self
  by_cases hmem : j ∈ ks
  · have hj' := (mem_chosen hks hd h.length).mpr hmem
    rw [← h.chosen_weight hks hd hi,← h.chosen_weight hks hd hj']
    rw [hc] at hj'
    rcases List.mem_cons.mp hj' with rfl | hj'
    · exact le_refl _
    · have hsorted : (chosen ks idx).Pairwise fun a b => weight v b ≤ weight v a :=
        hd.descending.filter _
      rw [hc] at hsorted
      exact (List.pairwise_cons.mp hsorted).1 j hj'
  · exact hks.largest i ((mem_chosen hks hd h.length).mp hi) j hj hmem

theorem Kept.mem_drawn {n : Nat} (h : Kept w v ks) (hks : Largest w n ks) (ht : t.Documented)
    (hw : ∀ x ∈ w, 0 ≤ x) (hsum : 0 < v.sum) (hp : 0 < p) (hp1 : p ≤ 1) {i : Nat} :
    i ∈ drawn (softmax (topPFilter t (some p) v)) ↔
      (i ∈ within (share v (t.sort v)) p 0 (t.sort v) ∧ i ∈ ks) ∧ 0 < weight w i := by
  obtain ⟨hlen,hfilter⟩ := topPFilter_weight ht (h.nonneg hw) hsum hp hp1
  have hnn : ∀ x ∈ topPFilter t (some p) v, 0 ≤ x := nonneg_of_weight fun j hj => by
    rw [hfilter j (hlen ▸ hj)]
    split_ifs
    · exact weight_nonneg (h.nonneg hw) j
    · exact le_refl 0
  rw [Sampling.mem_drawn hnn,hlen]
  constructor
  · rintro ⟨hi,hpos⟩
    rw [hfilter i hi,h.value i (h.length ▸ hi)] at hpos
    split_ifs at hpos with hsel hmem
    · exact ⟨⟨hsel,hmem⟩,hpos⟩
    · exact absurd hpos (lt_irrefl 0)
    · exact absurd hpos (lt_irrefl 0)
  · rintro ⟨⟨hsel,hmem⟩,hpos⟩
    have hi := hks.within i hmem
    have hi' : i < v.length := h.length.symm ▸ hi
    refine ⟨hi',?_⟩
    rwa [hfilter i hi',if_pos hsel,h.value i hi,if_pos hmem]

end Kept

theorem sample_support_shortest (t : Torch) (ht : t.Documented) (w : List ℚ) (hw : ∀ x ∈ w, 0 ≤ x)
    (hpos : ∃ x ∈ w, 0 < x) (temp : Num) (htemp : temp.le greedyBound = false) (topK : Option Int)
    (hk : ∀ k, topK = some k → 0 < k) (topP : ℚ) (hp : 0 < topP) (hp1 : topP ≤ 1) :
    ∃ chosen m, Support w topK topP (sampleLogitsTensor t w (some temp) (some topP) topK) chosen m ∧
      ((∀ x ∈ w, 0 < x) → ∀ i, i ∈ sampleLogitsTensor t w (some temp) (some topP) topK ↔
        i ∈ chosen.take m) := by
  obtain ⟨ks,hks,hkept⟩ := topKFilter_kept (w := w) ht hk
  generalize hv : topKFilter t topK w = v at hkept
  have hn : 0 < w.length := by
    obtain ⟨x,hx,_⟩ := hpos
    exact List.length_pos_of_mem hx
  have hlimit := limit_pos hk hn
  have hbest := hks.positive hlimit hpos
  have hdrawn := fun i => hkept.mem_drawn (i := i) hks ht hw (hkept.sum_pos hks hw hbest) hp hp1
  have hd := ht.sort v
  generalize t.sort v = idx at hd hdrawn
  obtain ⟨m,hm⟩ := exists_shortest (share v idx) topP 0 (chosen ks idx)
  have hlargest := chosen_largest hks hd hkept.length
  have hsupport : ∀ i, i ∈ sampleLogitsTensor t w (some temp) (some topP) topK ↔
      i ∈ (chosen ks idx).take m ∧ 0 < weight w i := by
    intro i
    simp only [sampleLogitsTensor,htemp,hv,Bool.false_eq_true,if_false]
    rw [hdrawn,← hkept.within_chosen hd hm,List.mem_filter,decide_eq_true_eq]
  refine ⟨chosen ks idx,m,⟨hlargest,?_,hm.congr fun i hi => hkept.share_chosen hks hd hi,hsupport,?_⟩,
    fun hall i => (hsupport i).trans ⟨And.left,fun hi => ⟨hi,?_⟩⟩⟩
  · refine (hd.descending.filter _).imp_of_mem fun {i j} hi hj hle => ?_
    rwa [hkept.chosen_weight hks hd hi,hkept.chosen_weight hks hd hj] at hle
  · obtain ⟨i,is,hc⟩ := List.exists_cons_of_length_pos (hlargest.length ▸ hlimit)
    have hmax := chosen_head hkept hks hd hc
    obtain ⟨b,hb,hb0⟩ := hbest
    obtain ⟨m,rfl⟩ := Nat.exists_eq_succ_of_ne_zero (Shortest.pos (hc ▸ hm) hp.le).ne'
    refine ⟨i,(hsupport i).mpr ⟨?_,hb0.trans_le (hmax b (hks.within b hb))⟩,hmax⟩
    rw [hc,List.take_succ_cons]
    exact List.mem_cons_self
  · have hlt := hlargest.within i (List.mem_of_mem_take hi)
    rw [weight_getElem hlt]
    exact hall _ (List.getElem_mem hlt)

def stable : Torch where
  sort := fun w => (List.range w.length).mergeSort fun i j => decide (weight w j ≤ weight w i)
  topk := fun w k =>
    ((List.range w.length).mergeSort fun i j => decide (weight w j ≤ weight w i)).take k
  argmax := fun w =>
    ((List.range w.length).mergeSort fun i j => decide (weight w j ≤ weight w i)).headD 0

theorem stable_descends (w : List ℚ) : Descends w (stable.sort w) := by
  refine ⟨List.mergeSort_perm _ _,?_⟩
  have := @List.pairwise_mergeSort _ (fun i j => decide (weight w j ≤ weight w i))
    (fun i j k h1 h2 => by
      rw [decide_eq_true_eq] at *
      exact h2.trans h1)
    (fun i j => by
      rw [Bool.or_eq_true,decide_eq_true_eq,decide_eq_true_eq]
      exact le_total _ _) (List.range w.length)
  simpa [stable] using this

theorem stable_documented : stable.Documented := by
  refine ⟨fun w k hk => ?_,stable_descends⟩
  have hd := stable_descends w
  have hnodup := hd.perm.nodup_iff.mpr List.nodup_range
  have hmem : ∀ {i}, i ∈ stable.sort w ↔ i < w.length := fun {i} => by
    rw [hd.perm.mem_iff,List.mem_range]
  have hsplit := hd.descending
  rw [← List.take_append_drop k (stable.sort w),List.pairwise_append] at hsplit
  refine ⟨hnodup.sublist (List.take_sublist k _),?_,fun i hi => hmem.mp (List.mem_of_mem_take hi),
    fun i hi j hj hout => hsplit.2.2 i hi j ?_⟩
  · have : (stable.sort w).length = w.length := hd.perm.length_eq.trans List.length_range
    change ((stable.sort w).take k).length = k
    rw [List.length_take,this]
    exact Nat.min_eq_left hk
  · have hj' := hmem.mpr hj
    rw [← List.take_append_drop k (stable.sort w)] at hj'
    exact (List.mem_append.mp hj').resolve_left hout

theorem sample_support_three_tokens :
    ∃ chosen m, Support [1,3,2] (some 2) (1/2) (sampleLogitsTensor stable [1,3,2] (some (.fin 1))
      (some (1/2)) (some 2)) chosen m := by
  obtain ⟨chosen,m,h,_⟩ := sample_support_shortest stable stable_documented [1,3,2] (by decide)
    ⟨1,by decide,by decide⟩ (.fin 1) (by decide +kernel) (some 2)
    (fun k hk => by cases hk; decide) (1/2) (by norm_num) (by norm_num)
  exact ⟨chosen,m,h⟩

/-- Without a positive weight nothing can be returned, and a token of weight 0
cannot even where no beginning of the order has more than `top_p`. -/
theorem sample_support_zero_weights :
    sampleLogitsTensor stable [0] (some (.fin 1)) (some 1) none = [] ∧
      ¬ ∃ chosen m, Largest [1,0] 2 chosen ∧ Shortest (share [1,0] chosen) 1 0 chosen m ∧
        ∀ i, i ∈ sampleLogitsTensor stable [1,0] (some (.fin 1)) (some 1) none ↔
          i ∈ chosen.take m := by
  refine ⟨by decide +kernel,?_⟩
  rintro ⟨chosen,m,hlargest,hshort,hall⟩
  have htokens : sampleLogitsTensor stable [1,0] (some (.fin 1)) (some 1) none = [0] := by
    decide +kernel
  rw [htokens] at hall
  have hnn : ∀ x ∈ ([1,0] : List ℚ), 0 ≤ x := by decide
  have h0 : 0 ∈ chosen.take m := (hall 0).mp List.mem_cons_self
  have hpos : 0 < total (weight [1,0]) chosen := by
    have hw : weight [1,0] 0 ≤ total (weight [1,0]) chosen := by
      refine List.single_le_sum (fun x hx => ?_) _ (List.mem_map_of_mem (List.mem_of_mem_take h0))
      obtain ⟨j,_,rfl⟩ := List.mem_map.mp hx
      exact weight_nonneg hnn j
    exact lt_of_lt_of_le (by decide) hw
  -- all of the order is the shortest beginning
  have hm : m = chosen.length := hshort.reached.resolve_right fun h => by
    have := total_share_take hnn hpos m
    rw [zero_add] at h
    exact absurd h (not_lt.mpr this)
  have h1 : 1 ∈ chosen := by
    by_contra hout
    have hsub : chosen ⊆ [0] := fun i hi => by
      have := hlargest.within i hi
      simp only [List.length_cons,List.length_nil] at this
      rw [List.mem_singleton]
      by_contra hne
      exact hout ((show i = 1 by omega) ▸ hi)
    have := hlargest.nodup.length_le_of_subset hsub
    rw [hlargest.length] at this
    exact absurd this (by decide)
  have := (hall 1).mpr (by rwa [hm,List.take_length])
  exact absurd this (by decide)

end SglangLite.Control.Sampling
