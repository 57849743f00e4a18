import Mathlib.Algebra.Order.Field.Basic
import Mathlib.Algebra.Order.BigOperators.Group.List
import Mathlib.Algebra.BigOperators.Ring.List
import Mathlib.Tactic.Ring
import Mathlib.Tactic.FieldSimp

set_option autoImplicit false

/-- Numbers with the special values of floating point. What is finite is exact. -/
inductive Special (K : Type) where
  | nan
  | negInf
  | num (x : K)
  | posInf
  deriving DecidableEq, Repr

namespace Special

section Sums

variable {K : Type} [Field K]

def neg : Special K → Special K
  | nan => nan
  | negInf => posInf
  | num x => num (-x)
  | posInf => negInf

def add : Special K → Special K → Special K
  | nan, _ | _, nan | negInf, posInf | posInf, negInf => nan
  | negInf, _ | _, negInf => negInf
  | posInf, _ | _, posInf => posInf
  | num x, num y => num (x+y)

def sub (a b : Special K) : Special K := add a (neg b)

def exp (e : K → K) : Special K → Special K
  | nan => nan
  | negInf => num 0
  | num x => num (e x)
  | posInf => posInf

def sum (l : List (Special K)) : Special K := l.foldr add (num 0)

@[simp] theorem num_add (x y : K) : add (num x) (num y) = num (x+y) := rfl
@[simp] theorem nan_add (a : Special K) : add nan a = nan := by cases a <;> rfl
@[simp] theorem num_sub (x y : K) : sub (num x) (num y) = num (x-y) := by rw [sub,neg,num_add,sub_eq_add_neg]
@[simp] theorem negInf_sub_num (x : K) : sub negInf (num x) = negInf := rfl
@[simp] theorem negInf_sub_negInf : sub negInf negInf = (nan : Special K) := rfl
@[simp] theorem exp_num (e : K → K) (x : K) : exp e (num x) = num (e x) := rfl
@[simp] theorem exp_negInf (e : K → K) : exp e negInf = num 0 := rfl
@[simp] theorem exp_nan (e : K → K) : exp e nan = nan := rfl

theorem sum_cons (a : Special K) (l : List (Special K)) : sum (a :: l) = add a (sum l) := rfl

end Sums

section Products

variable {K : Type} [Field K] [LinearOrder K]

def signed (x : K) (a : Special K) : Special K := if x = 0 then nan else if 0 < x then a else neg a

def mul : Special K → Special K → Special K
  | nan, _ | _, nan => nan
  | num x, num y => num (x*y)
  | num x, a | a, num x => signed x a
  | negInf, posInf | posInf, negInf => negInf
  | negInf, negInf | posInf, posInf => posInf

def div : Special K → Special K → Special K
  | num x, num y => if y = 0 then if x = 0 then nan else if 0 < x then posInf else negInf else num (x/y)
  | num _, negInf | num _, posInf => num 0
  | negInf, num y => if 0 ≤ y then negInf else posInf
  | posInf, num y => if 0 ≤ y then posInf else negInf
  | _, _ => nan

@[simp] theorem num_mul (x y : K) : mul (num x) (num y) = num (x*y) := rfl
@[simp] theorem nan_mul (a : Special K) : mul nan a = nan := by cases a <;> rfl
@[simp] theorem mul_nan (a : Special K) : mul a nan = nan := by cases a <;> rfl
@[simp] theorem nan_div (a : Special K) : div nan a = nan := by cases a <;> rfl

theorem negInf_mul {x : K} (h : 0 < x) : mul negInf (num x) = negInf := by
  show signed x negInf = negInf
  rw [signed,if_neg h.ne',if_pos h]

theorem num_div {x y : K} (h : y ≠ 0) : div (num x) (num y) = num (x/y) := if_neg h

end Products

section Order

variable {K : Type} [LinearOrder K]

/-- The larger of two values that are not `nan`. -/
def max : Special K → Special K → Special K
  | nan, b => b
  | a, nan => a
  | negInf, b => b
  | a, negInf => a
  | posInf, _ | _, posInf => posInf
  | num x, num y => num (Max.max x y)

@[simp] theorem num_max (x y : K) : max (num x) (num y) = num (Max.max x y) := rfl

end Order

end Special

namespace Softmax

open Special

structure Laws {K : Type} [Field K] [LinearOrder K] (e : K → K) : Prop where
  pos : ∀ x, 0 < e x
  add : ∀ x y, e (x+y) = e x*e y

variable {K : Type} [Field K] [LinearOrder K] (e : K → K)

abbrev Scored (K : Type) := K × List K

/-- The total of the weights, relative to a score. -/
def mass (m : K) (rows : List (Scored K)) : K := (rows.map fun r => e (r.1-m)).sum

def weighed (m : K) (rows : List (Scored K)) (j : Nat) : K := (rows.map fun r => e (r.1-m)*r.2.getD j 0).sum

/-- The softmax of the scores and of a sink, which has no row. -/
def attend (sink : K) (dim : Nat) (rows : List (Scored K)) : List K :=
  (List.range dim).map fun j => weighed e 0 rows j/(mass e 0 rows+e sink)

/-- A running softmax: the largest score, the weights relative to it and the
weighed rows. -/
structure Running (K : Type) where
  top : Special K
  mass : Special K
  out : List (Special K)

def start (dim : Nat) : Running K := ⟨.negInf,.num 0,(List.range dim).map fun _ => .num 0⟩

/-- Some more rows at once. A row whose score is `negInf` is masked. -/
def step (a : Running K) (tile : List (Special K × List K)) : Running K :=
  let top := (tile.map Prod.fst).foldl Special.max a.top
  let scale := (a.top.sub top).exp e
  { top := top
    mass := (a.mass.mul scale).add (Special.sum (tile.map fun r => (r.1.sub top).exp e))
    out := a.out.mapIdx fun j x =>
      (x.mul scale).add (Special.sum (tile.map fun r => ((r.1.sub top).exp e).mul (.num (r.2.getD j 0)))) }

def finish (sink : K) (a : Running K) : List (Special K) :=
  let total := a.mass.add (((num sink).sub a.top).exp e)
  a.out.map fun x => x.div total

def shown (tile : List (Special K × List K)) : List (Scored K) :=
  tile.filterMap fun r => match r.1 with
    | .num s => some (s,r.2)
    | _ => none

def Proper (tile : List (Special K × List K)) : Prop := ∀ r ∈ tile, r.1 = .negInf ∨ ∃ s, r.1 = .num s

section Rows

variable {e} {m : K}

theorem exp_zero (he : Laws e) : e 0 = 1 := by
  have h := he.add 0 0
  rw [add_zero] at h
  exact (mul_eq_left₀ (he.pos 0).ne').mp h.symm

theorem mass_rescale (he : Laws e) (m m' : K) (rows : List (Scored K)) :
    mass e m rows*e (m-m') = mass e m' rows := by
  rw [mass,mass,← List.sum_map_mul_right]
  refine congrArg List.sum (List.map_congr_left fun r _ => ?_)
  rw [← he.add]
  congr 1
  ring

theorem weighed_rescale (he : Laws e) (m m' : K) (rows : List (Scored K)) (j : Nat) :
    weighed e m rows j*e (m-m') = weighed e m' rows j := by
  rw [weighed,weighed,← List.sum_map_mul_right]
  refine congrArg List.sum (List.map_congr_left fun r _ => ?_)
  rw [mul_right_comm,← he.add]
  congr 2
  ring

omit [LinearOrder K] in
theorem weighed_cons (r : Scored K) (rows : List (Scored K)) (j : Nat) :
    weighed e m (r :: rows) j = e (r.1-m)*r.2.getD j 0+weighed e m rows j := by
  rw [weighed,List.map_cons,List.sum_cons]
  rfl

omit [LinearOrder K] in
theorem mass_append (xs ys : List (Scored K)) : mass e m (xs ++ ys) = mass e m xs+mass e m ys := by
  rw [mass,List.map_append,List.sum_append]
  rfl

omit [LinearOrder K] in
theorem weighed_append (xs ys : List (Scored K)) (j : Nat) :
    weighed e m (xs ++ ys) j = weighed e m xs j+weighed e m ys j := by
  rw [weighed,List.map_append,List.sum_append]
  rfl

end Rows

section Tile

variable {e} {tile : List (Special K × List K)}

omit [Field K] [LinearOrder K] in
theorem Proper.tail {r : Special K × List K} (h : Proper (r :: tile)) : Proper tile := fun x hx =>
  h x (List.mem_cons_of_mem r hx)

omit [LinearOrder K] in
theorem sum_mass (h : Proper tile) (m : K) :
    Special.sum (tile.map fun r => (r.1.sub (.num m)).exp e) = .num (mass e m (shown tile)) := by
  induction tile with
  | nil => rfl
  | cons r tile ih =>
    obtain ⟨x,v⟩ := r
    rw [List.map_cons,sum_cons,ih h.tail]
    rcases h _ List.mem_cons_self with hx | ⟨s,hx⟩
    · cases hx
      rw [negInf_sub_num,exp_negInf,num_add,zero_add]
      rfl
    · cases hx
      rw [num_sub,exp_num,num_add]
      rfl

theorem sum_weighed (h : Proper tile) (m : K) (j : Nat) :
    Special.sum (tile.map fun r => ((r.1.sub (.num m)).exp e).mul (.num (r.2.getD j 0))) =
      .num (weighed e m (shown tile) j) := by
  induction tile with
  | nil => rfl
  | cons r tile ih =>
    obtain ⟨x,v⟩ := r
    rw [List.map_cons,sum_cons,ih h.tail]
    rcases h _ List.mem_cons_self with hx | ⟨s,hx⟩
    · cases hx
      rw [negInf_sub_num,exp_negInf,num_mul,num_add,zero_mul,zero_add]
      rfl
    · cases hx
      rw [num_sub,exp_num,num_mul,num_add]
      rfl

theorem sum_divided (h : Proper tile) (m : K) {total : K} (ht : total ≠ 0) (j : Nat) :
    Special.sum (tile.map fun r => (((r.1.sub (.num m)).exp e).div (.num total)).mul (.num (r.2.getD j 0))) =
      .num (weighed e m (shown tile) j/total) := by
  induction tile with
  | nil =>
    have hnil : weighed e m (shown []) j = 0 := rfl
    rw [hnil,zero_div]
    rfl
  | cons r tile ih =>
    obtain ⟨x,v⟩ := r
    rw [List.map_cons,sum_cons,ih h.tail]
    rcases h _ List.mem_cons_self with hx | ⟨s,hx⟩
    · cases hx
      rw [negInf_sub_num,exp_negInf,num_div ht,num_mul,num_add,zero_div,zero_mul,zero_add]
      rfl
    · cases hx
      have hcons : shown ((Special.num s,v) :: tile) = (s,v) :: shown tile := rfl
      rw [num_sub,exp_num,num_div ht,num_mul,num_add,hcons,weighed_cons,add_div,div_mul_eq_mul_div]

omit [Field K] in
theorem top_num (h : Proper tile) (m : K) : ∃ m', (tile.map Prod.fst).foldl Special.max (.num m) = .num m' ∧
    (m' = m ∨ ∃ r ∈ shown tile, r.1 = m') := by
  induction tile generalizing m with
  | nil => exact ⟨m,rfl,.inl rfl⟩
  | cons r tile ih =>
    obtain ⟨x,v⟩ := r
    rw [List.map_cons,List.foldl_cons]
    rcases h _ List.mem_cons_self with hx | ⟨s,hx⟩
    · cases hx
      exact ih h.tail m
    · cases hx
      obtain ⟨m',hm',hr⟩ := ih h.tail (Max.max m s)
      refine ⟨m',hm',?_⟩
      rcases hr with rfl | ⟨r,hr,rfl⟩
      · rcases max_choice m s with hc | hc
        · exact .inl hc
        · exact .inr ⟨(s,v),List.mem_cons_self,hc.symm⟩
      · exact .inr ⟨r,List.mem_cons_of_mem _ hr,rfl⟩

omit [Field K] in
theorem top_negInf (h : Proper tile) :
    if shown tile = [] then (tile.map Prod.fst).foldl Special.max .negInf = .negInf
    else ∃ m, (tile.map Prod.fst).foldl Special.max .negInf = .num m ∧ ∃ r ∈ shown tile, r.1 = m := by
  induction tile with
  | nil => exact rfl
  | cons r tile ih =>
    obtain ⟨x,v⟩ := r
    rw [List.map_cons,List.foldl_cons]
    rcases h _ List.mem_cons_self with hx | ⟨s,hx⟩
    · cases hx
      exact ih h.tail
    · cases hx
      have hcons : shown ((Special.num s,v) :: tile) = (s,v) :: shown tile := rfl
      rw [hcons,if_neg (List.cons_ne_nil _ _)]
      obtain ⟨m,hm,hr⟩ := top_num h.tail s
      refine ⟨m,hm,?_⟩
      rcases hr with rfl | ⟨r,hr,rfl⟩
      · exact ⟨(m,v),List.mem_cons_self,rfl⟩
      · exact ⟨r,List.mem_cons_of_mem _ hr,rfl⟩

end Tile

section Run

variable {e} {dim : Nat} {rows : List (Scored K)} {a : Running K} {tile : List (Special K × List K)}

theorem mapIdx_columns {A B : Type} (f : Nat → A) (g : Nat → A → B) (dim : Nat) :
    ((List.range dim).map f).mapIdx g = (List.range dim).map fun j => g j (f j) := by
  refine List.ext_getElem (by rw [List.length_mapIdx,List.length_map,List.length_map]) fun j h1 h2 => ?_
  rw [List.getElem_mapIdx,List.getElem_map,List.getElem_map,List.getElem_range]

def Seen (e : K → K) (dim : Nat) (rows : List (Scored K)) (a : Running K) : Prop :=
  ∃ m, a.top = .num m ∧ a.mass = .num (mass e m rows) ∧
    a.out = (List.range dim).map fun j => .num (weighed e m rows j)

def Lost (dim : Nat) (a : Running K) : Prop := a.mass = .nan ∧ a.out = (List.range dim).map fun _ => .nan

theorem step_start (h : Proper tile) (hshown : shown tile ≠ []) :
    Seen e dim (shown tile) (step e (start dim) tile) := by
  have htop := top_negInf h
  rw [if_neg hshown] at htop
  obtain ⟨m,hm,_⟩ := htop
  refine ⟨m,hm,?_,?_⟩
  · simp only [step,start,hm,negInf_sub_num,exp_negInf,num_mul,sum_mass h,num_add,mul_zero,zero_add]
  · simp only [step,start,hm,negInf_sub_num,exp_negInf,sum_weighed h,mapIdx_columns,num_mul,num_add,mul_zero,
      zero_add]

theorem step_lost (h : Proper tile) (hshown : shown tile = []) :
    Lost dim (step e (start dim) tile) := by
  have htop := top_negInf h
  rw [if_pos hshown] at htop
  have hsub : ∀ x : Special K, x.mul ((negInf.sub negInf).exp e) = .nan := fun x => by
    rw [negInf_sub_negInf,exp_nan,mul_nan]
  refine ⟨?_,?_⟩
  · simp only [step,start,htop,hsub,nan_add]
  · simp only [step,start,htop,hsub,nan_add,mapIdx_columns]

theorem Lost.step (hl : Lost dim a) (tile : List (Special K × List K)) : Lost dim (step e a tile) := by
  obtain ⟨hmass,hout⟩ := hl
  refine ⟨?_,?_⟩
  · simp only [Softmax.step,hmass,nan_mul,nan_add]
  · simp only [Softmax.step,hout,mapIdx_columns,nan_mul,nan_add]

theorem Lost.fold (hl : Lost dim a) (tiles : List (List (Special K × List K))) :
    Lost dim (tiles.foldl (Softmax.step e) a) := by
  induction tiles generalizing a with
  | nil => exact hl
  | cons t tiles ih => exact ih (hl.step t)

theorem Lost.finish (hl : Lost dim a) (sink : K) : finish e sink a = (List.range dim).map fun _ => .nan := by
  rw [Softmax.finish,hl.2,List.map_map]
  refine List.map_congr_left fun j _ => ?_
  rw [Function.comp_apply,nan_div]

/-- What is weighed relative to the old top is rescaled to the new. -/
theorem Seen.step (he : Laws e) (hs : Seen e dim rows a) (h : Proper tile) :
    Seen e dim (rows ++ shown tile) (step e a tile) := by
  obtain ⟨m,hm,hmass,hout⟩ := hs
  obtain ⟨m',hm',_⟩ := top_num h m
  refine ⟨m',?_,?_,?_⟩
  · rw [Softmax.step,hm,hm']
  · simp only [Softmax.step,hm,hm',hmass,num_sub,exp_num,num_mul,sum_mass h,num_add,mass_append,
      mass_rescale he]
  · simp only [Softmax.step,hm,hm',hout,num_sub,exp_num,sum_weighed h,mapIdx_columns,num_mul,num_add,
      weighed_append,weighed_rescale he]

theorem Seen.fold (he : Laws e) (hs : Seen e dim rows a) {tiles : List (List (Special K × List K))}
    (h : ∀ t ∈ tiles, Proper t) : Seen e dim (rows ++ tiles.flatMap shown) (tiles.foldl (Softmax.step e) a) := by
  induction tiles generalizing rows a with
  | nil =>
    rw [List.flatMap_nil,List.append_nil]
    exact hs
  | cons t tiles ih =>
    rw [List.flatMap_cons,← List.append_assoc,List.foldl_cons]
    exact ih (hs.step he (h t List.mem_cons_self)) fun x hx => h x (List.mem_cons_of_mem t hx)

theorem mass_nonneg [IsStrictOrderedRing K] (he : Laws e) (m : K) (rows : List (Scored K)) : 0 ≤ mass e m rows := by
  refine List.sum_nonneg fun x hx => ?_
  obtain ⟨r,_,rfl⟩ := List.mem_map.mp hx
  exact (he.pos _).le

theorem attend_eq [IsStrictOrderedRing K] (he : Laws e) (m sink : K) (dim : Nat) (rows : List (Scored K)) :
    attend e sink dim rows = (List.range dim).map fun j => weighed e m rows j/(mass e m rows+e (sink-m)) := by
  have hsink : e sink*e (0-m) = e (sink-m) := by rw [← he.add,zero_sub,sub_eq_add_neg]
  refine List.map_congr_left fun j _ => ?_
  rw [← weighed_rescale he 0 m,← mass_rescale he 0 m,← hsink,← add_mul,mul_div_mul_right _ _ (he.pos _).ne']

theorem total_pos [IsStrictOrderedRing K] (he : Laws e) (m sink : K) (rows : List (Scored K)) :
    0 < mass e m rows+e (sink-m) := add_pos_of_nonneg_of_pos (mass_nonneg he m rows) (he.pos _)

/-- Relative to the largest score, or a sink that is larger, the weights are
together at least 1. -/
theorem one_le_total [IsStrictOrderedRing K] (he : Laws e) {m : K} (sink : K) {rows : List (Scored K)}
    (h : m = sink ∨ ∃ r ∈ rows, r.1 = m) : 1 ≤ mass e m rows+e (sink-m) := by
  have hone : e (m-m) = 1 := by rw [sub_self,exp_zero he]
  rcases h with rfl | ⟨r,hr,rfl⟩
  · rw [hone]
    exact le_add_of_nonneg_left (mass_nonneg he m rows)
  · have hle : e (r.1-r.1) ≤ mass e r.1 rows := by
      refine List.single_le_sum (fun x hx => ?_) _ (List.mem_map_of_mem (f := fun x => e (x.1-r.1)) hr)
      obtain ⟨y,_,rfl⟩ := List.mem_map.mp hx
      exact (he.pos _).le
    rw [hone] at hle
    exact hle.trans (le_add_of_nonneg_right (he.pos _).le)

theorem Seen.finish [IsStrictOrderedRing K] (he : Laws e) (hs : Seen e dim rows a) (sink : K) :
    finish e sink a = (attend e sink dim rows).map .num := by
  obtain ⟨m,hm,hmass,hout⟩ := hs
  rw [attend_eq he m,Softmax.finish,hm,hmass,hout,List.map_map,List.map_map]
  refine List.map_congr_left fun j _ => ?_
  rw [Function.comp_apply,Function.comp_apply,num_sub,exp_num,num_add,num_div (total_pos he m sink rows).ne']

/-- Tile after tile gives the softmax of all rows that are shown, when the first
tile shows one. -/
theorem online [IsStrictOrderedRing K] (he : Laws e) (sink : K) {tiles : List (List (Special K × List K))}
    (h : ∀ t ∈ tile :: tiles, Proper t) (hshown : shown tile ≠ []) :
    finish e sink ((tile :: tiles).foldl (Softmax.step e) (start dim)) =
      (attend e sink dim ((tile :: tiles).flatMap shown)).map .num := by
  have hs : Seen e dim (shown tile) (Softmax.step e (start dim) tile) := step_start (h tile List.mem_cons_self) hshown
  exact (hs.fold he fun t ht => h t (List.mem_cons_of_mem tile ht)).finish he sink

theorem online_lost (sink : K) {tiles : List (List (Special K × List K))} (h : Proper tile) (hshown : shown tile = []) :
    finish e sink ((tile :: tiles).foldl (Softmax.step e) (start dim)) = (List.range dim).map fun _ => .nan :=
  ((step_lost h hshown).fold tiles).finish sink

end Run

end Softmax
