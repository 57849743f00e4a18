import Mathlib.Algebra.BigOperators.Ring.List
import SglangLite.Strides

set_option autoImplicit false

namespace Sharding

open Strides

section Parts

universe u v w

variable {α : Type u} {β : Type v} {γ : Type w} {l : List α} {n r : Nat}

def shard (n : Nat) (l : List α) (r : Nat) : List α := slice l (l.length/n*r) (l.length/n)

theorem flatten_blocks (k n : Nat) (l : List α) : (blocks k n l).flatten = l.take (k*n) := by
  induction n with
  | zero => rw [Nat.mul_zero,List.take_zero]; rfl
  | succ n ih =>
    rw [blocks,List.range_succ,List.map_append,List.flatten_append,← blocks,ih,Nat.mul_succ,List.take_add,
      List.map_singleton,List.flatten_singleton]
    rfl

theorem flatMap_shard (h : n ∣ l.length) : (List.range n).flatMap (shard n l) = l := by
  have hblocks := flatten_blocks (l.length/n) n l
  rw [Nat.div_mul_cancel h,List.take_length] at hblocks
  rw [List.flatMap]
  exact hblocks

theorem length_shard (h : n ∣ l.length) (hr : r < n) : (shard n l r).length = l.length/n := by
  have hle : l.length/n*(r+1) ≤ l.length/n*n := Nat.mul_le_mul_left _ hr
  rw [Nat.mul_succ,Nat.div_mul_cancel h] at hle
  rw [shard,slice,List.length_take,List.length_drop]
  omega

theorem shard_map (f : α → β) (n : Nat) (l : List α) (r : Nat) : shard n (l.map f) r = (shard n l r).map f := by
  rw [shard,shard,slice,slice,List.length_map,List.map_take,List.map_drop]

theorem shard_zipWith (f : α → β → γ) (n : Nat) {xs : List α} {ys : List β} (h : xs.length = ys.length) (r : Nat) :
    shard n (List.zipWith f xs ys) r = List.zipWith f (shard n xs r) (shard n ys r) := by
  have hlen : (List.zipWith f xs ys).length = xs.length := by rw [List.length_zipWith,h,Nat.min_self]
  rw [shard,shard,shard,slice,slice,slice,hlen,← h,List.drop_zipWith,List.take_zipWith]

theorem slice_slice (l : List α) {s len s' len' : Nat} (h : s'+len' ≤ len) :
    slice (slice l s len) s' len' = slice l (s+s') len' := by
  refine List.ext_getElem? fun j => ?_
  rw [getElem?_slice,getElem?_slice,getElem?_slice]
  split_ifs
  · rw [Nat.add_assoc]
  · omega
  · rfl

theorem blocks_shard {k m : Nat} (hn : 0 < n) (h : l.length = k*(m*n)) (hr : r < n) :
    blocks k m (shard n l r) = shard n (blocks k (m*n) l) r := by
  have hlen : l.length/n = k*m := by rw [h,← Nat.mul_assoc,Nat.mul_div_cancel _ hn]
  have hblocks : (blocks k (m*n) l).length/n = m := by rw [length_blocks,Nat.mul_div_cancel _ hn]
  refine List.ext_getElem? fun p => ?_
  rw [shard,shard,hlen,hblocks,getElem?_slice]
  split_ifs with hp
  · have hlt : m*r+p < m*n := by
      have := Nat.mul_le_mul_left m hr
      rw [Nat.mul_succ] at this
      omega
    have hle : k*p+k ≤ k*m := by
      have := Nat.mul_le_mul_left k hp
      rwa [Nat.mul_succ] at this
    rw [getElem?_blocks _ hp,getElem?_blocks _ hlt,slice_slice l hle,Nat.mul_assoc,← Nat.mul_add]
  · exact List.getElem?_eq_none (by rw [length_blocks]; omega)

theorem blocks_flatten {k : Nat} {rows : List (List α)} (h : Even k rows) :
    blocks k rows.length rows.flatten = rows := by
  refine List.ext_getElem? fun p => ?_
  rcases Nat.lt_or_ge p rows.length with hp | hp
  · rw [getElem?_blocks _ hp,h.slice_flatten (List.getElem?_eq_getElem hp),List.getElem?_eq_getElem hp]
  · rw [List.getElem?_eq_none (by rwa [length_blocks]),List.getElem?_eq_none hp]

theorem flatten_shard {k : Nat} {rows : List (List α)} (h : Even k rows) (hd : n ∣ rows.length) (hr : r < n) :
    (shard n rows r).flatten = shard n rows.flatten r := by
  obtain ⟨m,hm⟩ := hd
  have hn : 0 < n := Nat.lt_of_le_of_lt (Nat.zero_le r) hr
  have hlen : rows.flatten.length = k*(m*n) := by rw [h.length_flatten,hm,Nat.mul_comm n]
  have hrows : blocks k (m*n) rows.flatten = rows := by
    rw [Nat.mul_comm,← hm]
    exact blocks_flatten h
  have hshard : (shard n rows.flatten r).length = k*m := by
    rw [length_shard ⟨k*m,by rw [hlen]; ring⟩ hr,hlen,← Nat.mul_assoc,Nat.mul_div_cancel _ hn]
  conv_lhs => rw [← hrows]
  rw [← blocks_shard hn hlen hr,flatten_blocks,← hshard,List.take_length]

end Parts

section Sums

universe u v

variable {α : Type u} {K : Type v} {n : Nat}

theorem sum_shards [AddMonoid K] (f : α → K) {l : List α} (h : n ∣ l.length) :
    ((List.range n).map fun r => ((shard n l r).map f).sum).sum = (l.map f).sum := by
  conv_rhs => rw [← flatMap_shard h,List.flatMap,List.map_flatten,List.sum_flatten,List.map_map,List.map_map]
  rfl

/-- The sum of the parts of equal length that the ranks hold. -/
def allReduce [Add K] : List (List K) → List K
  | [] => []
  | p :: ps => ps.foldl (List.zipWith (· + ·)) p

theorem allReduce_map [AddMonoid K] (l : List α) {fs : List (α → K)} (hne : fs ≠ []) :
    allReduce (fs.map l.map) = l.map fun x => (fs.map fun f => f x).sum := by
  have hfold : ∀ (fs : List (α → K)) (g : α → K),
      (fs.map l.map).foldl (List.zipWith (· + ·)) (l.map g) = l.map fun x => g x+(fs.map fun f => f x).sum := by
    intro fs
    induction fs with
    | nil =>
      intro g
      simp only [List.map_nil,List.foldl_nil,List.sum_nil,add_zero]
    | cons f fs ih =>
      intro g
      rw [List.map_cons,List.foldl_cons,List.zipWith_map,List.zipWith_self,ih]
      simp only [List.map_cons,List.sum_cons,add_assoc]
  cases fs with
  | nil => exact absurd rfl hne
  | cons f fs =>
    rw [List.map_cons,allReduce,hfold]
    simp only [List.map_cons,List.sum_cons]

end Sums

section Linear

universe u

variable {K : Type u} [Semiring K] {n : Nat}

def dot (q k : List K) : K := (List.zipWith (· * ·) q k).sum

def linear (x : List K) (w : List (List K)) : List K := w.map (dot x)

/-- A weight whose rows are sharded gives the parts of the product. -/
theorem linear_shard (x : List K) (w : List (List K)) (r : Nat) :
    linear x (shard n w r) = shard n (linear x w) r := (shard_map (dot x) n w r).symm

theorem dot_shards {x w : List K} (hw : w.length = x.length) (h : n ∣ x.length) :
    ((List.range n).map fun r => dot (shard n x r) (shard n w r)).sum = dot x w := by
  have hzip : ∀ r, dot (shard n x r) (shard n w r) = ((shard n (List.zipWith (· * ·) x w) r).map id).sum := fun r => by
    rw [dot,List.map_id,shard_zipWith _ _ hw.symm]
  have hd : n ∣ (List.zipWith (· * ·) x w).length := by rwa [List.length_zipWith,hw,Nat.min_self]
  simp only [hzip]
  rw [sum_shards id hd,List.map_id,dot]

/-- A weight whose columns are sharded gives products that add up. -/
theorem linear_allReduce {x : List K} {w : List (List K)} (hw : ∀ row ∈ w, row.length = x.length)
    (h : n ∣ x.length) (hn : 0 < n) :
    allReduce ((List.range n).map fun r => linear (shard n x r) (w.map fun row => shard n row r)) = linear x w := by
  have hmap : ((List.range n).map fun r => linear (shard n x r) (w.map fun row => shard n row r)) =
      ((List.range n).map fun r row => dot (shard n x r) (shard n row r)).map w.map := by
    rw [List.map_map]
    refine List.map_congr_left fun r _ => ?_
    rw [linear,List.map_map]
    rfl
  have hne : ((List.range n).map fun r row => dot (shard n x r) (shard n row r)) ≠ [] := fun hnil => by
    have := congrArg List.length hnil
    rw [List.length_map,List.length_range,List.length_nil] at this
    omega
  rw [hmap,allReduce_map w hne,linear]
  refine List.map_congr_left fun row hrow => ?_
  rw [List.map_map]
  exact dot_shards (hw row hrow) h

end Linear

end Sharding
