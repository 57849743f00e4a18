import Mathlib.Tactic
set_option autoImplicit false

namespace Mass

universe u v

variable {ι : Type u} {K : Type v} [AddCommMonoid K] {f g : ι → K} {acc : K} {l : List ι}

def total (f : ι → K) (l : List ι) : K := (l.map f).sum

def before (f : ι → K) : K → List ι → List K
  | _, [] => []
  | acc, i :: is => acc :: before f (acc+f i) is

def cumsum : K → List K → List K
  | _, [] => []
  | acc, x :: xs => (acc+x) :: cumsum (acc+x) xs

@[simp] theorem total_nil : total f [] = 0 := rfl

@[simp] theorem total_cons (i : ι) : total f (i :: l) = f i+total f l := by simp [total]

theorem total_perm {l' : List ι} (h : l.Perm l') : total f l = total f l' := (h.map f).sum_eq

theorem total_congr (h : ∀ i ∈ l, f i = g i) : total f l = total g l := by
  rw [total,total,List.map_congr_left h]

theorem total_filter {q : ι → Bool} (h : ∀ i ∈ l, q i = false → f i = 0) :
    total f (l.filter q) = total f l := by
  induction l with
  | nil => rfl
  | cons i l ih =>
    have ih := ih fun j hj => h j (List.mem_cons_of_mem i hj)
    cases hq : q i with
    | true => rw [List.filter_cons_of_pos hq,total_cons,total_cons,ih]
    | false =>
      rw [List.filter_cons_of_neg (by simp [hq]),total_cons,h i List.mem_cons_self hq,ih,zero_add]

theorem cumsum_shift (i : ι) :
    acc :: (cumsum acc ((i :: l).map f)).dropLast = before f acc (i :: l) := by
  induction l generalizing acc i with
  | nil => rfl
  | cons j l ih =>
    have := @ih (acc+f i) j
    rw [before,← this]
    rfl

variable [LinearOrder K] {p : K} {m : Nat}

/-- The entries of a list before which at most `p` was gathered, counting from
`acc`. -/
def within (f : ι → K) (p : K) : K → List ι → List ι
  | _, [] => []
  | acc, i :: is => if acc ≤ p then i :: within f p (acc+f i) is else []

/-- `m` entries are the shortest beginning of a list with more than `p`, or all
of it. -/
structure Shortest (f : ι → K) (p acc : K) (l : List ι) (m : Nat) : Prop where
  le : m ≤ l.length
  below : ∀ k < m, acc+total f (l.take k) ≤ p
  reached : m = l.length ∨ p < acc+total f (l.take m)

theorem within_exceeded (h : ¬ acc ≤ p) : within f p acc l = [] := by
  cases l with
  | nil => rfl
  | cons i l => rw [within,if_neg h]

theorem within_eq_take (h : Shortest f p acc l m) : within f p acc l = l.take m := by
  induction l generalizing acc m with
  | nil => simp [within]
  | cons i l ih =>
    cases m with
    | zero =>
      have hlt := h.reached.resolve_left (by simp)
      rw [List.take_zero,total_nil,add_zero] at hlt
      rw [List.take_zero,within_exceeded (not_le.mpr hlt)]
    | succ m =>
      have h0 := h.below 0 (Nat.succ_pos m)
      rw [List.take_zero,total_nil,add_zero] at h0
      rw [within,if_pos h0,List.take_succ_cons,ih (m := m)]
      refine ⟨Nat.le_of_succ_le_succ h.le,fun k hk => ?_,?_⟩
      · have := h.below (k+1) (Nat.succ_lt_succ hk)
        rwa [List.take_succ_cons,total_cons,← add_assoc] at this
      · have := h.reached
        rwa [List.take_succ_cons,total_cons,← add_assoc,List.length_cons,Nat.succ_inj] at this

theorem exists_shortest (f : ι → K) (p acc : K) (l : List ι) : ∃ m, Shortest f p acc l m := by
  induction l generalizing acc with
  | nil => exact ⟨0,Nat.le_refl 0,fun k hk => by omega,.inl rfl⟩
  | cons i l ih =>
    by_cases h : acc ≤ p
    · obtain ⟨m,hm⟩ := ih (acc+f i)
      refine ⟨m+1,Nat.succ_le_succ hm.le,fun k hk => ?_,?_⟩
      · cases k with
        | zero => rwa [List.take_zero,total_nil,add_zero]
        | succ k =>
          rw [List.take_succ_cons,total_cons,← add_assoc]
          exact hm.below k (Nat.lt_of_succ_lt_succ hk)
      · rw [List.take_succ_cons,total_cons,← add_assoc,List.length_cons,Nat.succ_inj]
        exact hm.reached
    · refine ⟨0,Nat.zero_le _,fun k hk => by omega,.inr ?_⟩
      rw [List.take_zero,total_nil,add_zero]
      exact not_le.mp h

theorem Shortest.pos {i : ι} (h : Shortest f p acc (i :: l) m) (hacc : acc ≤ p) : 0 < m := by
  refine Nat.pos_of_ne_zero fun h0 => ?_
  subst h0
  have hlt := h.reached.resolve_left (by simp)
  rw [List.take_zero,total_nil,add_zero] at hlt
  exact not_lt.mpr hacc hlt

theorem Shortest.congr (h : Shortest f p acc l m) (hfg : ∀ i ∈ l, f i = g i) :
    Shortest g p acc l m := by
  have htake : ∀ k, total g (l.take k) = total f (l.take k) := fun k =>
    total_congr fun i hi => (hfg i (List.mem_of_mem_take hi)).symm
  refine ⟨h.le,fun k hk => ?_,?_⟩
  · rw [htake]
    exact h.below k hk
  · rw [htake]
    exact h.reached

theorem within_filter {q : ι → Bool} (h : ∀ i ∈ l, q i = false → f i = 0) :
    within f p acc (l.filter q) = (within f p acc l).filter q := by
  induction l generalizing acc with
  | nil => rfl
  | cons i l ih =>
    have ih := fun acc => @ih acc fun j hj => h j (List.mem_cons_of_mem i hj)
    by_cases hacc : acc ≤ p
    · rw [within.eq_2 f p acc i l,if_pos hacc]
      cases hq : q i with
      | true => rw [List.filter_cons_of_pos hq,List.filter_cons_of_pos hq,within,if_pos hacc,ih]
      | false =>
        rw [List.filter_cons_of_neg (by simp [hq]),List.filter_cons_of_neg (by simp [hq]),ih,
          h i List.mem_cons_self hq,add_zero]
    · rw [within_exceeded hacc,within_exceeded hacc]
      rfl

section Masked

variable [IsOrderedAddMonoid K] {V : Type v} [DecidableEq ι]

/-- Clearing the value of every entry before which more than `p` was gathered
leaves the selection. -/
theorem lookup_masked (w : ι → V) (z : V) (hf : ∀ i ∈ l, 0 ≤ f i) (hl : l.Nodup) {i : ι}
    (hi : i ∈ l) :
    (l.zip (List.zipWith (fun (r : Bool) x => if r then z else x)
      ((before f acc l).map fun b => decide (p < b)) (l.map w))).lookup i =
      some (if i ∈ within f p acc l then w i else z) := by
  induction l generalizing acc with
  | nil => cases hi
  | cons j l ih =>
    obtain ⟨hj,hnd⟩ := List.nodup_cons.mp hl
    rw [before,List.map_cons,List.map_cons,List.zipWith_cons_cons,List.zip_cons_cons,
      List.lookup_cons]
    by_cases hij : i = j
    · subst hij
      simp only [beq_self_eq_true]
      by_cases hacc : acc ≤ p
      · rw [within,if_pos hacc,if_pos List.mem_cons_self,if_neg (by simpa using hacc)]
      · rw [within_exceeded hacc,if_neg List.not_mem_nil,if_pos (by simpa using hacc)]
    · have hmem := (List.mem_cons.mp hi).resolve_left hij
      have ih := @ih (acc+f j) (fun k hk => hf k (List.mem_cons_of_mem j hk)) hnd hmem
      simp only [beq_eq_false_iff_ne.mpr hij]
      rw [ih]
      by_cases hacc : acc ≤ p
      · rw [within.eq_2 f p acc j l,if_pos hacc]
        simp only [List.mem_cons,hij,false_or]
      · have hstill : ¬ acc+f j ≤ p := fun h =>
          hacc ((le_add_of_nonneg_right (hf j List.mem_cons_self)).trans h)
        rw [within_exceeded hacc,within_exceeded hstill]

end Masked

end Mass
