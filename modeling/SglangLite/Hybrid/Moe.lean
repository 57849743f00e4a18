import Mathlib.Tactic

set_option autoImplicit false

namespace SglangLite.Hybrid.Moe

universe u v w

/-- The experts of one rank: those of its shard, and `None` in the other
places. An expert acts on a row of the input and its weight. -/
structure MoE (X : Type u) (W : Type v) (Y : Type w) where
  nRoutedExperts : Nat
  expertsStartIdx : Nat
  expertsEndIdx : Nat
  experts : List (Option (X → W → Y))
  length_experts : experts.length = nRoutedExperts
  end_le : expertsEndIdx ≤ nRoutedExperts
  sharded : ∀ i, (∃ f, experts[i]? = some (some f)) ↔ expertsStartIdx ≤ i ∧ i < expertsEndIdx

/-- What the gate returns: the expert indices of every token and the weights
by token and position. -/
structure Routing (W : Type v) where
  indices : List (List Nat)
  weights : Nat → Nat → W

variable {X : Type u} {W : Type v} {Y : Type w}

/-- `torch.where(indices == i)`: the tokens and positions, row by row. -/
def whereEq (indices : List (List Nat)) (i : Nat) : List (Nat × Nat) :=
  indices.zipIdx.flatMap fun row =>
    (row.1.zipIdx.filter fun e => e.1 = i).map fun e => (row.2,e.2)

/-- `torch.bincount(indices.flatten(), minlength)`. -/
def bincount (xs : List Nat) (minlength : Nat) : List Nat :=
  (List.range (max minlength (xs.foldr (fun x m => max (x+1) m) 0))).map fun i => xs.count i

/-- `torch.unique`: the values, sorted. -/
def unique (xs : List Nat) : List Nat := xs.dedup.mergeSort fun a b => decide (a ≤ b)

section Loops

variable [Add Y] [Zero Y]

/-- `y[idx] += vals`: the sums are taken from `y` before any is written, and
for a repeated row the last one stays. -/
def indexAdd (y : List Y) (idx : List Nat) (vals : List Y) : List Y :=
  (idx.zip vals).foldl (fun out p => out.set p.1 ((y[p.1]?).getD 0+p.2)) y

/-- `y[idx] += expert(x[idx], weights[idx, top, None])`. -/
def dispatch (f : X → W → Y) (x : Nat → X) (r : Routing W) (i : Nat) (y : List Y) : List Y :=
  indexAdd y ((whereEq r.indices i).map (·.1))
    ((whereEq r.indices i).map fun h => f (x h.1) (r.weights h.1 h.2))

def zeros (r : Routing W) : List Y := List.replicate r.indices.length 0

/-- One round of the loop in `MoE.forward`; calling `None` raises. -/
def fullStep (m : MoE X W Y) (x : Nat → X) (r : Routing W) (y : List Y) (i : Nat) :
    Option (List Y) :=
  if (bincount r.indices.flatten m.nRoutedExperts).getD i 0 = 0 then some y
  else
    match m.experts[i]? with
    | some (some f) => some (dispatch f x r i y)
    | _ => none

/-- `MoE.forward` of the vendored model, up to the sum over the ranks. -/
def moeForward (m : MoE X W Y) (x : Nat → X) (r : Routing W) : Option (List Y) :=
  (List.range' m.expertsStartIdx (m.expertsEndIdx-m.expertsStartIdx)).foldlM (fullStep m x r) (zeros r)

def activatedStep (m : MoE X W Y) (x : Nat → X) (r : Routing W) (y : List Y) (ei : Nat) : List Y :=
  if ei < m.expertsStartIdx ∨ m.expertsEndIdx ≤ ei then y
  else
    match m.experts[ei]? with
    | some (some f) => if (whereEq r.indices ei).isEmpty then y else dispatch f x r ei y
    | _ => y

/-- `_moe_forward_activated_only`, up to the sum over the ranks. -/
def moeForwardActivatedOnly (m : MoE X W Y) (x : Nat → X) (r : Routing W) : List Y :=
  (unique r.indices.flatten).foldl (activatedStep m x r) (zeros r)

end Loops

theorem getD_bincount (xs : List Nat) (n i : Nat) : (bincount xs n).getD i 0 = xs.count i := by
  have hbound : ∀ x ∈ xs, x < xs.foldr (fun x m => max (x+1) m) 0 := by
    intro x hx
    induction xs with
    | nil => cases hx
    | cons a xs ih =>
      rw [List.foldr_cons]
      rcases List.mem_cons.mp hx with rfl | hx
      · omega
      · have := ih hx
        omega
  rw [bincount,List.getD_eq_getElem?_getD,List.getElem?_map]
  by_cases hi : i < max n (xs.foldr (fun x m => max (x+1) m) 0)
  · rw [List.getElem?_range hi]
    rfl
  · rw [List.getElem?_eq_none (by rw [List.length_range]; omega)]
    refine (List.count_eq_zero.mpr fun hmem => ?_).symm
    have := hbound i hmem
    omega

theorem mem_unique {xs : List Nat} {i : Nat} : i ∈ unique xs ↔ i ∈ xs := by
  rw [unique,List.mem_mergeSort,List.mem_dedup]

theorem unique_sorted (xs : List Nat) : (unique xs).Pairwise (· < ·) := by
  have hle : (unique xs).Pairwise (· ≤ ·) := by
    have := @List.pairwise_mergeSort _ (fun a b : Nat => decide (a ≤ b))
      (fun a b c h1 h2 => by simp only [decide_eq_true_eq] at *; omega)
      (fun a b => by simp only [Bool.or_eq_true,decide_eq_true_eq]; omega) xs.dedup
    simpa [unique] using this
  have hnodup : (unique xs).Nodup := ((List.mergeSort_perm _ _).nodup_iff).mpr (List.nodup_dedup xs)
  exact (hle.and hnodup).imp fun h => Nat.lt_of_le_of_ne h.1 h.2

theorem mem_whereEq {indices : List (List Nat)} {i t k : Nat} :
    (t,k) ∈ whereEq indices i ↔ ∃ row, indices[t]? = some row ∧ row[k]? = some i := by
  simp only [whereEq,List.mem_flatMap,List.mem_map,List.mem_filter,decide_eq_true_eq,Prod.exists,
    List.mem_zipIdx_iff_getElem?,Prod.mk.injEq]
  constructor
  · rintro ⟨row,t',hrow,j,k',⟨hk,rfl⟩,rfl,rfl⟩
    exact ⟨row,hrow,hk⟩
  · rintro ⟨row,hrow,hk⟩
    exact ⟨row,t,hrow,i,k,⟨hk,rfl⟩,rfl,rfl⟩

theorem whereEq_isEmpty {indices : List (List Nat)} {i : Nat} :
    (whereEq indices i).isEmpty = true ↔ i ∉ indices.flatten := by
  rw [List.isEmpty_iff,List.eq_nil_iff_forall_not_mem]
  constructor
  · intro h hmem
    obtain ⟨row,hrow,hi⟩ := List.mem_flatten.mp hmem
    obtain ⟨t,ht⟩ := List.mem_iff_getElem?.mp hrow
    obtain ⟨k,hk⟩ := List.mem_iff_getElem?.mp hi
    exact h (t,k) (mem_whereEq.mpr ⟨row,ht,hk⟩)
  · rintro h ⟨t,k⟩ hmem
    obtain ⟨row,hrow,hk⟩ := mem_whereEq.mp hmem
    exact h (List.mem_flatten.mpr ⟨row,List.mem_of_getElem? hrow,List.mem_of_getElem? hk⟩)

def activated (m : MoE X W Y) (r : Routing W) : List Nat :=
  (List.range' m.expertsStartIdx (m.expertsEndIdx-m.expertsStartIdx)).filter
    fun i => i ∈ r.indices.flatten

theorem activated_eq (m : MoE X W Y) (r : Routing W) :
    ((unique r.indices.flatten).filter fun i =>
      decide (m.expertsStartIdx ≤ i ∧ i < m.expertsEndIdx)) = activated m r := by
  refine List.Pairwise.eq_of_mem_iff (r := (· < ·)) ((unique_sorted _).filter _)
    (List.Pairwise.filter _ (List.pairwise_lt_range' ..)) fun i => ?_
  rw [activated,List.mem_filter,List.mem_filter,mem_unique,List.mem_range'_1]
  simp only [decide_eq_true_eq]
  constructor
  · rintro ⟨hmem,h1,h2⟩
    exact ⟨by omega,hmem⟩
  · rintro ⟨h,hmem⟩
    exact ⟨hmem,by omega⟩

section Loops

variable [Add Y] [Zero Y]

def visit (m : MoE X W Y) (x : Nat → X) (r : Routing W) (y : List Y) (i : Nat) : List Y :=
  match m.experts[i]? with
  | some (some f) => dispatch f x r i y
  | _ => y

theorem foldl_activatedStep (m : MoE X W Y) (x : Nat → X) (r : Routing W) {es : List Nat}
    (hes : ∀ i ∈ es, i ∈ r.indices.flatten) (y : List Y) :
    es.foldl (activatedStep m x r) y = (es.filter fun i =>
      decide (m.expertsStartIdx ≤ i ∧ i < m.expertsEndIdx)).foldl (visit m x r) y := by
  induction es generalizing y with
  | nil => rfl
  | cons i es ih =>
    have hrest := fun y => ih (fun j hj => hes j (List.mem_cons_of_mem i hj)) y
    rw [List.foldl_cons,hrest]
    by_cases hin : m.expertsStartIdx ≤ i ∧ i < m.expertsEndIdx
    · obtain ⟨f,hf⟩ := (m.sharded i).mpr hin
      have hhit : ¬ (whereEq r.indices i).isEmpty = true := fun h =>
        whereEq_isEmpty.mp h (hes i List.mem_cons_self)
      have hstep : activatedStep m x r y i = visit m x r y i := by
        rw [activatedStep,if_neg (by omega),visit,hf]
        simp only
        rw [if_neg hhit]
      rw [List.filter_cons_of_pos (by simpa using hin),List.foldl_cons,hstep]
    · have hstep : activatedStep m x r y i = y := by rw [activatedStep,if_pos (by omega)]
      rw [List.filter_cons_of_neg (by simpa using hin),hstep]

theorem foldlM_fullStep (m : MoE X W Y) (x : Nat → X) (r : Routing W) {es : List Nat}
    (hes : ∀ i ∈ es, m.expertsStartIdx ≤ i ∧ i < m.expertsEndIdx) (y : List Y) :
    es.foldlM (fullStep m x r) y =
      some ((es.filter fun i => i ∈ r.indices.flatten).foldl (visit m x r) y) := by
  induction es generalizing y with
  | nil => rfl
  | cons i es ih =>
    have hrest := fun y => ih (fun j hj => hes j (List.mem_cons_of_mem i hj)) y
    rw [List.foldlM_cons]
    by_cases hmem : i ∈ r.indices.flatten
    · obtain ⟨f,hf⟩ := (m.sharded i).mpr (hes i List.mem_cons_self)
      have hstep : fullStep m x r y i = some (visit m x r y i) := by
        rw [fullStep,getD_bincount,if_neg fun h => List.count_eq_zero.mp h hmem,visit,hf]
      rw [hstep,List.filter_cons_of_pos (by simpa using hmem),List.foldl_cons]
      exact hrest _
    · have hstep : fullStep m x r y i = some y := by
        rw [fullStep,getD_bincount,if_pos (List.count_eq_zero.mpr hmem)]
      rw [hstep,List.filter_cons_of_neg (by simpa using hmem)]
      exact hrest _

theorem activated_only_eq_full_loop (m : MoE X W Y) (x : Nat → X) (r : Routing W) :
    moeForward m x r = some (moeForwardActivatedOnly m x r) := by
  rw [moeForward,moeForwardActivatedOnly,foldl_activatedStep m x r fun i hi => mem_unique.mp hi,
    activated_eq,foldlM_fullStep m x r fun i hi => by rw [List.mem_range'_1] at hi; omega]
  rfl

end Loops

end SglangLite.Hybrid.Moe
