import Mathlib.Tactic
set_option autoImplicit false

namespace Causal

universe u v w x y

variable {A : Type u} {B : Type v} {C : Type w} {σ : Type x} {τ : Type y}

/-- The values of the tokens `xs` after `pre`: `f` gives that of a token from
what stands before it. -/
def outputsFrom (f : List A → A → B) : List A → List A → List B
  | _, [] => []
  | pre, a :: as => f pre a :: outputsFrom f (pre ++ [a]) as

def outputs (f : List A → A → B) (xs : List A) : List B := outputsFrom f [] xs

/-- The value of a token under `g`, applied to the values under `f`. -/
def after (g : List B → B → C) (f : List A → A → B) : List A → A → C :=
  fun pre a => g (outputs f pre) (f pre a)

section Outputs

variable {f : List A → A → B}

@[simp] theorem outputsFrom_nil (pre : List A) : outputsFrom f pre [] = [] := rfl

@[simp] theorem length_outputsFrom (pre xs : List A) : (outputsFrom f pre xs).length = xs.length := by
  induction xs generalizing pre with
  | nil => rfl
  | cons a as ih => rw [outputsFrom,List.length_cons,ih,List.length_cons]

@[simp] theorem length_outputs (xs : List A) : (outputs f xs).length = xs.length :=
  length_outputsFrom [] xs

theorem outputsFrom_append (pre xs ys : List A) :
    outputsFrom f pre (xs ++ ys) = outputsFrom f pre xs ++ outputsFrom f (pre ++ xs) ys := by
  induction xs generalizing pre with
  | nil => rw [List.nil_append,outputsFrom_nil,List.nil_append,List.append_nil]
  | cons a as ih =>
    rw [List.cons_append,outputsFrom,ih,outputsFrom,List.cons_append,List.append_assoc,
      List.singleton_append]

theorem outputs_append (xs ys : List A) :
    outputs f (xs ++ ys) = outputs f xs ++ outputsFrom f xs ys := outputsFrom_append [] xs ys

theorem outputs_snoc (xs : List A) (a : A) : outputs f (xs ++ [a]) = outputs f xs ++ [f xs a] :=
  outputs_append xs [a]

theorem getElem?_outputs (xs : List A) (i : Nat) :
    (outputs f xs)[i]? = xs[i]?.map (f (xs.take i)) := by
  by_cases hi : i < xs.length
  · obtain ⟨l,a,r,rfl,rfl⟩ : ∃ l a r, xs = l ++ a :: r ∧ l.length = i :=
      ⟨xs.take i,xs[i],xs.drop (i+1),by rw [List.getElem_cons_drop,List.take_append_drop],
        List.length_take_of_le (Nat.le_of_lt hi)⟩
    have hl : (outputs f l).length = l.length := length_outputs l
    rw [outputs_append,List.getElem?_append_right (by rw [hl]),hl,Nat.sub_self,outputsFrom,
      List.getElem?_append_right (Nat.le_refl _),Nat.sub_self,List.take_left]
    rfl
  · rw [List.getElem?_eq_none (by rw [length_outputs]; omega),List.getElem?_eq_none (by omega)]
    rfl

theorem outputsFrom_after {g : List B → B → C} (pre xs : List A) :
    outputsFrom (after g f) pre xs = outputsFrom g (outputs f pre) (outputsFrom f pre xs) := by
  induction xs generalizing pre with
  | nil => rfl
  | cons a as ih => rw [outputsFrom,ih,outputsFrom,outputsFrom,outputs_snoc,after]

theorem outputs_after {g : List B → B → C} (xs : List A) :
    outputs (after g f) xs = outputs g (outputs f xs) := outputsFrom_after [] xs

theorem outputs_value (xs : List A) : outputs (fun _ a => a) xs = xs := by
  refine List.ext_getElem? fun i => ?_
  rw [getElem?_outputs]
  exact Option.map_id'

end Outputs

/-- Tokens that are picked one after the other, each from what stands before it. -/
def continuation (next : List A → A) : Nat → List A → List A
  | 0, _ => []
  | n+1, xs => next xs :: continuation next n (xs ++ [next xs])

section Continuation

variable {next : List A → A}

@[simp] theorem length_continuation (n : Nat) (xs : List A) : (continuation next n xs).length = n := by
  induction n generalizing xs with
  | zero => rfl
  | succ n ih => rw [continuation,List.length_cons,ih]

theorem take_continuation {k n : Nat} (h : k ≤ n) (xs : List A) :
    (continuation next n xs).take k = continuation next k xs := by
  induction k generalizing n xs with
  | zero => rfl
  | succ k ih =>
    obtain ⟨n,rfl⟩ := Nat.exists_eq_add_of_lt (Nat.lt_of_lt_of_le k.succ_pos h)
    rw [Nat.zero_add,continuation,continuation,List.take_succ_cons,ih (by omega)]

theorem getElem?_continuation {k n : Nat} (h : k < n) (xs : List A) :
    (continuation next n xs)[k]? = some (next (xs ++ continuation next k xs)) := by
  induction k generalizing n xs with
  | zero =>
    obtain ⟨n,rfl⟩ := Nat.exists_eq_add_of_lt h
    rw [continuation,continuation,List.getElem?_cons_zero,List.append_nil]
  | succ k ih =>
    obtain ⟨n,rfl⟩ := Nat.exists_eq_add_of_lt (Nat.lt_of_le_of_lt k.zero_le (Nat.lt_of_succ_lt h))
    rw [Nat.zero_add,continuation,List.getElem?_cons_succ,ih (by omega),continuation,List.append_assoc,
      List.singleton_append]

theorem mem_continuation {n : Nat} {xs : List A} {a : A} (h : a ∈ continuation next n xs) : ∃ ys, a = next ys := by
  obtain ⟨k,hk⟩ := List.mem_iff_getElem?.mp h
  obtain ⟨hlt,_⟩ := List.getElem?_eq_some_iff.mp hk
  rw [length_continuation] at hlt
  rw [getElem?_continuation hlt] at hk
  exact ⟨_,(Option.some.inj hk).symm⟩

theorem continuation_congr {next' : List A → A} {P : List A → Prop}
    (hP : ∀ xs, P xs → next xs = next' xs ∧ P (xs ++ [next xs])) (n : Nat) {xs : List A} (h : P xs) :
    continuation next n xs = continuation next' n xs := by
  induction n generalizing xs with
  | zero => rfl
  | succ n ih =>
    obtain ⟨hnext,h'⟩ := hP xs h
    rw [continuation,continuation,ih h',hnext]

end Continuation

/-- A pass over some tokens, by the position of the first of them: the caches
and the values. -/
abbrev Pass (A : Type u) (B : Type v) (σ : Type x) := Nat → List A → σ → σ × List B

/-- With fresh caches a pass over any beginning gives the values of its tokens,
and a pass over one more token gives its value, as long as the caches hold the
tokens before it. -/
structure Computes (pass : Pass A B σ) (f : List A → A → B) (Fresh : σ → Prop)
    (Holds : List A → σ → Prop) : Prop where
  first : ∀ {xs : List A} {s : σ}, xs ≠ [] → Fresh s →
    Holds xs (pass 0 xs s).1 ∧ (pass 0 xs s).2 = outputs f xs
  next : ∀ {xs : List A} {s : σ} (a : A), xs ≠ [] → Holds xs s →
    Holds (xs ++ [a]) (pass xs.length [a] s).1 ∧ (pass xs.length [a] s).2 = [f xs a]

def steps (pass : Pass A B σ) : Nat → List A → σ → List (List B)
  | _, [], _ => []
  | n, a :: as, s => (pass n [a] s).2 :: steps pass (n+1) as (pass n [a] s).1

def both (p : Pass A B σ) (q : Pass B C τ) : Pass A C (σ × τ) := fun n xs s =>
  let r := p n xs s.1
  let t := q n r.2 s.2
  ((r.1,t.1),t.2)

namespace Computes

variable {pass : Pass A B σ} {f : List A → A → B} {Fresh : σ → Prop} {Holds : List A → σ → Prop}

theorem steps_eq (h : Computes pass f Fresh Holds) {pre : List A} (hpre : pre ≠ []) {s : σ}
    (hs : Holds pre s) (ys : List A) :
    steps pass pre.length ys s = (outputsFrom f pre ys).map fun b => [b] := by
  induction ys generalizing pre s with
  | nil => rfl
  | cons a as ih =>
    obtain ⟨hs',hout⟩ := h.next a hpre hs
    have hrest := ih (List.concat_ne_nil a pre) hs'
    rw [List.length_append,List.length_singleton] at hrest
    rw [steps,hout,hrest,outputsFrom,List.map_cons]

/-- It does not matter how many of the tokens the first pass takes. -/
theorem served (h : Computes pass f Fresh Holds) {xs : List A} (hxs : xs ≠ []) {s : σ}
    (hs : Fresh s) (ys : List A) :
    (pass 0 xs s).2 = (pass 0 (xs ++ ys) s).2.take xs.length ∧
      steps pass xs.length ys (pass 0 xs s).1 =
        ((pass 0 (xs ++ ys) s).2.drop xs.length).map fun b => [b] := by
  obtain ⟨hold,hout⟩ := h.first hxs hs
  have hlen : (outputs f xs).length = xs.length := length_outputs xs
  rw [hout,h.steps_eq hxs hold,(h.first (by simp [hxs]) hs).2,outputs_append]
  exact ⟨(List.take_left' hlen).symm,by rw [List.drop_left' hlen]⟩

/-- The caches before the tokens of a text from `n` on. -/
def Ready (Fresh : σ → Prop) (Holds : List A → σ → Prop) (text : List A) (n : Nat) (s : σ) : Prop :=
  if n = 0 then Fresh s else Holds (text.take n) s

/-- A first pass over the beginning of a text and a pass over its next token both
end with the value of their last token. -/
theorem advance (h : Computes pass f Fresh Holds) {text : List A} {n k : Nat} {s : σ} (hlt : n < k)
    (hk : k ≤ text.length) (hone : n = 0 ∨ k = n+1) (hs : Ready Fresh Holds text n s) :
    Ready Fresh Holds text k (pass n ((text.drop n).take (k-n)) s).1 ∧
      (pass n ((text.drop n).take (k-n)) s).2.getLast? = (outputs f (text.take k)).getLast? := by
  rw [Ready] at hs ⊢
  rw [if_neg (Nat.ne_of_gt (Nat.zero_lt_of_lt hlt))]
  by_cases h0 : n = 0
  · subst h0
    rw [if_pos rfl] at hs
    have hne : text.take k ≠ [] := fun hnil => by
      have := congrArg List.length hnil
      rw [List.length_take_of_le hk,List.length_nil] at this
      omega
    obtain ⟨hold,hout⟩ := h.first hne hs
    rw [List.drop_zero,Nat.sub_zero,hout]
    exact ⟨hold,rfl⟩
  · obtain rfl := hone.resolve_left h0
    rw [if_neg h0] at hs
    have hlen : (text.take n).length = n := List.length_take_of_le (Nat.le_of_succ_le hk)
    have hne : text.take n ≠ [] := fun hnil => h0 (by rw [← hlen,hnil]; rfl)
    have hcut : (text.drop n).take (n+1-n) = [text[n]] := by
      rw [Nat.add_sub_cancel_left,List.drop_eq_getElem_cons hk,List.take_succ_cons,List.take_zero]
    obtain ⟨hold,hout⟩ := h.next text[n] hne hs
    rw [hlen] at hold hout
    rw [hcut,hout,List.take_succ_eq_append_getElem hk,outputs_snoc,List.getLast?_concat]
    exact ⟨hold,rfl⟩

theorem comap {D : Type y} (h : Computes pass f Fresh Holds) (g : D → A) :
    Computes (fun n ds s => pass n (ds.map g) s) (fun pre d => f (pre.map g) (g d)) Fresh
      (fun ds => Holds (ds.map g)) where
  first := by
    intro ds s hds hs
    obtain ⟨hold,hout⟩ := h.first (fun hnil => hds (List.map_eq_nil_iff.mp hnil)) hs
    refine ⟨hold,hout.trans (List.ext_getElem? fun i => ?_)⟩
    rw [getElem?_outputs,getElem?_outputs,List.getElem?_map,Option.map_map,List.map_take]
    rfl
  next := by
    intro ds s d hds hs
    obtain ⟨hold,hout⟩ := h.next (g d) (fun hnil => hds (List.map_eq_nil_iff.mp hnil)) hs
    rw [List.length_map] at hold hout
    refine ⟨?_,hout⟩
    rw [List.map_append]
    exact hold

theorem both {q : Pass B C τ} {g : List B → B → C} {Fresh' : τ → Prop} {Holds' : List B → τ → Prop}
    (h : Computes pass f Fresh Holds) (h' : Computes q g Fresh' Holds') :
    Computes (Causal.both pass q) (after g f) (fun s => Fresh s.1 ∧ Fresh' s.2)
      (fun xs s => Holds xs s.1 ∧ Holds' (outputs f xs) s.2) where
  first := by
    rintro xs ⟨s,t⟩ hxs ⟨hs,ht⟩
    obtain ⟨hold,hout⟩ := h.first hxs hs
    have hne : outputs f xs ≠ [] := fun h0 => hxs (by simpa using congrArg List.length h0)
    obtain ⟨hold',hout'⟩ := h'.first hne ht
    simp only [Causal.both,hout]
    exact ⟨⟨hold,hold'⟩,by rw [hout',outputs_after]⟩
  next := by
    rintro xs ⟨s,t⟩ a hxs ⟨hs,ht⟩
    obtain ⟨hold,hout⟩ := h.next a hxs hs
    have hne : outputs f xs ≠ [] := fun h0 => hxs (by simpa using congrArg List.length h0)
    obtain ⟨hold',hout'⟩ := h'.next (f xs a) hne ht
    rw [length_outputs] at hold' hout'
    simp only [Causal.both,hout]
    exact ⟨⟨hold,by rwa [outputs_snoc]⟩,hout'⟩

theorem encode {q : Pass A B τ} (h : Computes pass f Fresh Holds) (e : σ → τ)
    (hq : ∀ n xs s, q n xs (e s) = (e (pass n xs s).1,(pass n xs s).2)) :
    Computes q f (fun t => ∃ s, e s = t ∧ Fresh s) (fun xs t => ∃ s, e s = t ∧ Holds xs s) where
  first := by
    rintro xs _ hxs ⟨s,rfl,hs⟩
    obtain ⟨hold,hout⟩ := h.first hxs hs
    rw [hq]
    exact ⟨⟨_,rfl,hold⟩,hout⟩
  next := by
    rintro xs _ a hxs ⟨s,rfl,hs⟩
    obtain ⟨hold,hout⟩ := h.next a hxs hs
    rw [hq]
    exact ⟨⟨_,rfl,hold⟩,hout⟩

theorem fresh {Fresh' : σ → Prop} (h : Computes pass f Fresh Holds) (hf : ∀ s, Fresh' s → Fresh s) :
    Computes pass f Fresh' Holds where
  first hxs hs := h.first hxs (hf _ hs)
  next a hxs hs := h.next a hxs hs

theorem stay {s₀ : σ} {q : Pass A A σ} (hq : ∀ n xs s, q n xs s = (s₀,xs)) :
    Computes q (fun _ a => a) (fun _ => True) (fun _ _ => True) where
  first := by
    intro xs s _ _
    rw [hq,outputs_value]
    exact ⟨trivial,rfl⟩
  next := by
    intro xs s a _ _
    rw [hq]
    exact ⟨trivial,rfl⟩

end Computes

end Causal
