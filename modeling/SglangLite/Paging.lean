import Mathlib.Tactic
set_option autoImplicit false

namespace Paging

universe u v w

variable {σ : Type u} {ι ε : Type v} {α : Type w}

/-- Visit the positions `start+t` to `start+n` of a page table span by span, a
span being what is left of a page or of the data, whichever is shorter. `fuel`
bounds the number of spans. -/
def writeSpans (size : Nat) (table : List ι) (missing : ε) (check : ι → Option ε)
    (put : σ → ι → Nat → Nat → Nat → σ) (start n : Nat) : Nat → Nat → σ → σ × Except ε Unit
  | 0, _, s => (s,.ok ())
  | fuel+1, t, s =>
      if t < n then
        let slot := (start+t)%size
        let span := min (size-slot) (n-t)
        match table[(start+t)/size]? with
        | none => (s,.error missing)
        | some b =>
            match check b with
            | some e => (s,.error e)
            | none =>
                writeSpans size table missing check put start n fuel (t+span) (put s b slot span t)
      else (s,.ok ())

def readSpans (size : Nat) (table : List ι) (missing : ε) (check : ι → Option ε)
    (get : ι → Nat → α) (length : Nat) : Nat → Nat → List α → Except ε (List α)
  | 0, _, out => .ok out
  | fuel+1, t, out =>
      if t < length then
        let slot := t%size
        let span := min (size-slot) (length-t)
        match table[t/size]? with
        | none => .error missing
        | some b =>
            match check b with
            | some e => .error e
            | none =>
                readSpans size table missing check get length fuel (t+span)
                  (out ++ (List.range span).map fun i => get b (slot+i))
      else .ok out

/-- Read by gathering whole pages and cutting the result. -/
def gather (size : Nat) (table : List ι) (get : ι → Nat → α) (pages length : Nat) : List α :=
  ((table.take pages).flatMap fun b => (List.range size).map (get b)).take length

def view (size : Nat) (table : List ι) (get : ι → Nat → α) (q : Nat) : Option α :=
  table[q/size]?.map fun b => get b (q%size)

/-- In the states of `keep`, `put` writes the span of `src` from `t` on into the
slots of one page, as `get` sees them. -/
structure Puts [DecidableEq ι] (keep : σ → Prop) (get : σ → ι → Nat → α)
    (put : σ → ι → Nat → Nat → Nat → σ) (src : Nat → α) : Prop where
  kept : ∀ s b slot span t, keep s → keep (put s b slot span t)
  got : ∀ s b slot span t b' i, keep s → get (put s b slot span t) b' i =
    if b' = b ∧ slot ≤ i ∧ i < slot+span then src (t+(i-slot)) else get s b' i

variable {size : Nat} {table : List ι} {missing : ε} {check : ι → Option ε}
  {put : σ → ι → Nat → Nat → Nat → σ} {start n : Nat}

/-- What no write of a span changes, no write changes, whether it ends well or
not. -/
theorem writeSpans_keeps {β : Type w} (f : σ → β) (hf : ∀ s b slot span t,
    (b ∈ table) → f (put s b slot span t) = f s) (fuel t : Nat) (s : σ) :
    f (writeSpans size table missing check put start n fuel t s).1 = f s := by
  induction fuel generalizing t s with
  | zero => rfl
  | succ fuel ih =>
    simp only [writeSpans]
    split_ifs
    · cases hb : table[(start+t)/size]? with
      | none => rfl
      | some b =>
        simp only
        cases check b with
        | some e => rfl
        | none => exact (ih _ _).trans (hf s b _ _ t (List.mem_of_getElem? hb))
    · rfl

theorem mem_span {q p m : Nat} (hp : 0 < size) (hdiv : q/size = p/size) :
    (p%size ≤ q%size ∧ q%size < p%size+m) ↔ p ≤ q ∧ q < p+m := by
  have hq := Nat.div_add_mod q size
  have hpp := Nat.div_add_mod p size
  have := Nat.mod_lt p hp
  rw [hdiv] at hq
  omega

theorem div_span {q p m : Nat} (hp : 0 < size) (hm : m ≤ size-p%size) (hle : p ≤ q)
    (hlt : q < p+m) : q/size = p/size := by
  have hpp := Nat.div_add_mod p size
  have := Nat.mod_lt p hp
  have hcomm := Nat.mul_comm size (p/size)
  exact Nat.div_eq_of_lt_le (by rw [hcomm] at hpp; omega)
    (by rw [Nat.succ_mul]; rw [hcomm] at hpp; omega)

/-- A write that fits the table puts every item at its position and changes no
other position. -/
theorem writeSpans_view [DecidableEq ι] {keep : σ → Prop} {get : σ → ι → Nat → α} {src : Nat → α}
    (hput : Puts keep get put src) (hp : 0 < size) (hn : table.Nodup) (hc : ∀ b ∈ table, check b = none)
    (hfit : start+n ≤ table.length*size) {fuel t : Nat} (hfuel : n-t ≤ fuel) {s : σ}
    (hs : keep s) :
    (writeSpans size table missing check put start n fuel t s).2 = .ok () ∧
      keep (writeSpans size table missing check put start n fuel t s).1 ∧
      ∀ q, view size table (get (writeSpans size table missing check put start n fuel t s).1) q =
        if start+t ≤ q ∧ q < start+n then some (src (q-start)) else view size table (get s) q := by
  induction fuel generalizing t s with
  | zero =>
    refine ⟨rfl,hs,fun q => ?_⟩
    rw [if_neg (by omega)]
    rfl
  | succ fuel ih =>
    simp only [writeSpans]
    by_cases ht : t < n
    · rw [if_pos ht]
      have hpage : (start+t)/size < table.length := (Nat.div_lt_iff_lt_mul hp).mpr (by omega)
      have hb := List.getElem?_eq_getElem hpage
      rw [hb]
      simp only
      rw [hc _ (List.getElem_mem hpage)]
      simp only
      have hmod := Nat.mod_lt (start+t) hp
      obtain ⟨hok,hkeep,hview⟩ := ih (t := t+min (size-(start+t)%size) (n-t)) (by omega)
        (hput.kept s table[(start+t)/size] ((start+t)%size) (min (size-(start+t)%size) (n-t)) t hs)
      refine ⟨hok,hkeep,fun q => ?_⟩
      rw [hview q]
      generalize hspan : min (size-(start+t)%size) (n-t) = span
      have hle : span ≤ size-(start+t)%size := by omega
      have hmem := fun hdiv : q/size = (start+t)/size => mem_span (m := span) hp hdiv
      by_cases hrest : start+(t+span) ≤ q ∧ q < start+n
      · rw [if_pos hrest,if_pos (by omega)]
      · rw [if_neg hrest]
        simp only [view]
        by_cases hhere : start+t ≤ q ∧ q < start+t+span
        · -- the position lies in this span
          have hdiv := div_span hp hle hhere.1 hhere.2
          obtain ⟨h1,h2⟩ := (hmem hdiv).mpr hhere
          rw [if_pos (by omega),hdiv,hb]
          have hpos : t+(q%size-(start+t)%size) = q-start := by
            have hq := Nat.div_add_mod q size
            have hp' := Nat.div_add_mod (start+t) size
            rw [hdiv] at hq
            omega
          rw [Option.map_some,hput.got _ _ _ _ _ _ _ hs,if_pos ⟨rfl,h1,h2⟩,hpos]
        · rw [if_neg (by omega)]
          cases hq : table[q/size]? with
          | none => rfl
          | some b' =>
            have hother : ¬ (b' = table[(start+t)/size] ∧ (start+t)%size ≤ q%size ∧
                q%size < (start+t)%size+span) := by
              rintro ⟨rfl,h⟩
              obtain ⟨hlt,hq'⟩ := List.getElem?_eq_some_iff.mp hq
              have hdiv := hn.getElem_inj_iff.mp hq'
              exact hhere ((hmem hdiv).mp h)
            rw [Option.map_some,Option.map_some,hput.got _ _ _ _ _ _ _ hs,if_neg hother]
    · rw [if_neg ht]
      refine ⟨rfl,hs,fun q => ?_⟩
      rw [if_neg (by omega)]

/-- A read within the table returns what the table has at each position. -/
theorem readSpans_view {get : ι → Nat → α} {length : Nat} (hp : 0 < size)
    (hc : ∀ b ∈ table, check b = none) (hfit : length ≤ table.length*size) {fuel t : Nat}
    (hfuel : length-t ≤ fuel) {out : List α} (hlen : out.length = min t length)
    (hout : ∀ q < out.length, out[q]? = view size table get q) :
    ∃ r, readSpans size table missing check get length fuel t out = .ok r ∧ r.length = length ∧
      ∀ q < length, r[q]? = view size table get q := by
  induction fuel generalizing t out with
  | zero =>
    refine ⟨out,rfl,by omega,fun q hq => hout q (by omega)⟩
  | succ fuel ih =>
    simp only [readSpans]
    by_cases ht : t < length
    · rw [if_pos ht]
      have hpage : t/size < table.length := (Nat.div_lt_iff_lt_mul hp).mpr (by omega)
      have hb := List.getElem?_eq_getElem hpage
      rw [hb]
      simp only
      rw [hc _ (List.getElem_mem hpage)]
      simp only
      have hmod := Nat.mod_lt t hp
      generalize hspan : min (size-t%size) (length-t) = span
      refine ih (by omega) ?_ fun q hq => ?_
      · simp only [List.length_append,List.length_map,List.length_range]
        omega
      · simp only [List.length_append,List.length_map,List.length_range] at hq
        by_cases hold : q < out.length
        · rw [List.getElem?_append_left hold]
          exact hout q hold
        · rw [List.getElem?_append_right (by omega)]
          have hdiv : q/size = t/size := div_span (m := span) hp (by omega) (by omega) (by omega)
          have hsum : t%size+(q-out.length) = q%size := by
            have hq' := Nat.div_add_mod q size
            have ht' := Nat.div_add_mod t size
            rw [hdiv] at hq'
            omega
          simp only [view,hdiv,hb,Option.map_some]
          rw [List.getElem?_map,List.getElem?_range (by omega)]
          simp only [Option.map_some,hsum]
    · rw [if_neg ht]
      exact ⟨out,rfl,by omega,fun q hq => hout q (by omega)⟩

theorem gather_view {get : ι → Nat → α} {pages length : Nat} (hp : 0 < size)
    (hpages : pages ≤ table.length) (hfit : length ≤ pages*size) :
    (gather size table get pages length).length = length ∧
      ∀ q < length, (gather size table get pages length)[q]? = view size table get q := by
  have flat : ∀ (ts : List ι), (ts.flatMap fun b => (List.range size).map (get b)).length =
      ts.length*size ∧ ∀ q < ts.length*size,
        (ts.flatMap fun b => (List.range size).map (get b))[q]? = view size ts get q := by
    intro ts
    induction ts with
    | nil => simp
    | cons b ts ih =>
      obtain ⟨hl,hv⟩ := ih
      refine ⟨?_,fun q hq => ?_⟩
      · rw [List.flatMap_cons,List.length_append,hl]
        simp only [List.length_map,List.length_range,List.length_cons,Nat.succ_mul]
        omega
      · rw [List.flatMap_cons]
        by_cases hlt : q < size
        · rw [List.getElem?_append_left (by simpa using hlt),List.getElem?_map,
            List.getElem?_range hlt]
          simp [view,Nat.div_eq_of_lt hlt,Nat.mod_eq_of_lt hlt]
        · rw [List.getElem?_append_right (by simpa using hlt)]
          simp only [List.length_map,List.length_range]
          rw [List.length_cons,Nat.succ_mul] at hq
          rw [hv (q-size) (by omega)]
          have hdiv : q/size = (q-size)/size+1 := by
            rw [Nat.div_eq_sub_div hp (by omega)]
          have hmod : q%size = (q-size)%size := Nat.mod_eq_sub_mod (by omega)
          simp only [view,hdiv,hmod,List.getElem?_cons_succ]
  obtain ⟨hl,hv⟩ := flat (table.take pages)
  rw [List.length_take,Nat.min_eq_left hpages] at hl hv
  refine ⟨?_,fun q hq => ?_⟩
  · rw [gather,List.length_take,hl]
    omega
  · rw [gather,List.getElem?_take_of_lt hq,hv q (by omega)]
    have hpage : q/size < pages := (Nat.div_lt_iff_lt_mul hp).mpr (by omega)
    simp only [view,List.getElem?_take_of_lt hpage]

end Paging
