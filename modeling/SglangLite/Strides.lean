import Mathlib.Tactic
set_option autoImplicit false

namespace Strides

universe u

variable {α : Type u} {w : Nat} {rows : List (List α)}

/-- Rows of one width, as a matrix keeps them in memory. -/
def Even (w : Nat) (rows : List (List α)) : Prop := ∀ r ∈ rows, r.length = w

theorem Even.append {rest : List (List α)} (h : Even w rows) (h' : Even w rest) :
    Even w (rows ++ rest) := by
  intro r hr
  rcases List.mem_append.mp hr with hr | hr
  · exact h r hr
  · exact h' r hr

theorem Even.replicate {r : List α} (hr : r.length = w) (n : Nat) : Even w (List.replicate n r) := by
  intro x hx
  rw [List.eq_of_mem_replicate hx,hr]

theorem Even.take {k : Nat} (h : Even w rows) (hk : k ≤ w) : Even k (rows.map (List.take k)) := by
  intro r hr
  obtain ⟨x,hx,rfl⟩ := List.mem_map.mp hr
  rw [List.length_take,h x hx]
  omega

theorem Even.drop {k : Nat} (h : Even w rows) : Even (w-k) (rows.map (List.drop k)) := by
  intro r hr
  obtain ⟨x,hx,rfl⟩ := List.mem_map.mp hr
  rw [List.length_drop,h x hx]

theorem Even.length_flatten (h : Even w rows) : rows.flatten.length = w*rows.length := by
  induction rows with
  | nil => simp
  | cons r rows ih =>
    rw [List.flatten_cons,List.length_append,h r List.mem_cons_self,
      ih fun x hx => h x (List.mem_cons_of_mem r hx),List.length_cons,Nat.mul_succ]
    omega

theorem Even.getElem?_flatten (h : Even w rows) {i j : Nat} {r : List α} (hr : rows[i]? = some r)
    (hj : j < w) : rows.flatten[w*i+j]? = r[j]? := by
  induction rows generalizing i with
  | nil => simp at hr
  | cons x rows ih =>
    have hx := h x List.mem_cons_self
    rw [List.flatten_cons]
    cases i with
    | zero =>
      rw [List.getElem?_cons_zero] at hr
      cases hr
      rw [List.getElem?_append_left (by omega)]
      simp
    | succ i =>
      rw [List.getElem?_cons_succ] at hr
      have hpos : w*(i+1)+j-x.length = w*i+j := by rw [Nat.mul_succ]; omega
      rw [List.getElem?_append_right (by rw [Nat.mul_succ]; omega),hpos]
      exact ih (fun y hy => h y (List.mem_cons_of_mem x hy)) hr

/-- `xs[start:start+len]`. -/
def slice (xs : List α) (start len : Nat) : List α := (xs.drop start).take len

theorem getElem?_slice (xs : List α) (start len j : Nat) :
    (slice xs start len)[j]? = if j < len then xs[start+j]? else none := by
  rw [slice,List.getElem?_take,List.getElem?_drop]

theorem slice_append_left {xs ys : List α} {start len : Nat} (h : start+len ≤ xs.length) :
    slice (xs++ys) start len = slice xs start len := by
  apply List.ext_getElem?
  intro j
  rw [getElem?_slice,getElem?_slice]
  split_ifs with hj
  · exact List.getElem?_append_left (by omega)
  · rfl

theorem slice_append_right {xs ys : List α} {at' start len : Nat} (h : at' = xs.length+start) :
    slice (xs++ys) at' len = slice ys start len := by
  apply List.ext_getElem?
  intro j
  rw [getElem?_slice,getElem?_slice]
  split_ifs with hj
  · rw [List.getElem?_append_right (by omega)]
    congr 1
    omega
  · rfl

theorem Even.slice_flatten (h : Even w rows) {i : Nat} {r : List α} (hr : rows[i]? = some r) :
    slice rows.flatten (w*i) w = r := by
  apply List.ext_getElem?
  intro j
  rw [getElem?_slice]
  split_ifs with hj
  · exact h.getElem?_flatten hr hj
  · exact (List.getElem?_eq_none (by rw [h r (List.mem_of_getElem? hr)]; omega)).symm

def blocks (k n : Nat) (xs : List α) : List (List α) :=
  (List.range n).map fun p => slice xs (k*p) k

@[simp] theorem length_blocks (k n : Nat) (xs : List α) : (blocks k n xs).length = n := by
  simp [blocks]

theorem getElem?_blocks {k n p : Nat} (xs : List α) (hp : p < n) :
    (blocks k n xs)[p]? = some (slice xs (k*p) k) := by
  rw [blocks,List.getElem?_map,List.getElem?_range hp]
  rfl

theorem blocks_even {k n : Nat} {xs : List α} (h : xs.length = k*n) : Even k (blocks k n xs) := by
  intro b hb
  obtain ⟨p,hp,rfl⟩ := List.mem_map.mp hb
  have hle : k*(p+1) ≤ k*n := Nat.mul_le_mul_left k (List.mem_range.mp hp)
  rw [Nat.mul_succ] at hle
  rw [slice,List.length_take,List.length_drop]
  omega

theorem mem_of_mem_blocks {k n : Nat} {xs b : List α} {x : α} (hb : b ∈ blocks k n xs)
    (hx : x ∈ b) : x ∈ xs := by
  obtain ⟨p,_,rfl⟩ := List.mem_map.mp hb
  exact List.mem_of_mem_drop (List.mem_of_mem_take hx)

end Strides
