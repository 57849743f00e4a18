import SglangLite.Paged.Refs

set_option autoImplicit false

namespace SglangLite.Paged
open Kv Sched Text

variable {V : Type}

/-- The first `len` positions of a page list hold the KV of their own prefix of
`tokens`. -/
def Holds (cfg : Config V) (pages : BlockId → Nat → V) (table : List BlockId)
    (tokens : List Token) (len : Nat) : Prop :=
  ∀ j < len, ∃ b, table[j/cfg.cache.blockSize]? = some b ∧
    pages b (j%cfg.cache.blockSize) = cfg.kv (tokens.take (j+1))

section Holds

variable {cfg : Config V} {pages pages' : BlockId → Nat → V} {table : List BlockId}
  {tokens : List Token} {len : Nat}

theorem Holds.zero : Holds cfg pages table tokens 0 := fun j hj => absurd hj (Nat.not_lt_zero j)

theorem Holds.congr (h : Holds cfg pages table tokens len)
    (hp : ∀ b ∈ table, pages' b = pages b) : Holds cfg pages' table tokens len := by
  intro j hj
  obtain ⟨b,hb,hv⟩ := h j hj
  exact ⟨b,hb,by rw [hp b (List.mem_of_getElem? hb)]; exact hv⟩

theorem Holds.append (h : Holds cfg pages table tokens len) (new : List BlockId) :
    Holds cfg pages (table ++ new) tokens len := by
  intro j hj
  obtain ⟨b,hb,hv⟩ := h j hj
  refine ⟨b,?_,hv⟩
  rw [List.getElem?_append_left (List.getElem?_eq_some_iff.mp hb).1]
  exact hb

theorem Holds.retoken {tokens' : List Token} (h : Holds cfg pages table tokens len)
    (ht : tokens'.take len = tokens.take len) : Holds cfg pages table tokens' len := by
  intro j hj
  obtain ⟨b,hb,hv⟩ := h j hj
  refine ⟨b,hb,hv.trans ?_⟩
  have := congrArg (List.take (j+1)) ht
  rw [List.take_take,List.take_take,Nat.min_eq_left (by omega)] at this
  rw [this]

theorem lt_pages (cc : CacheConfig) {j n : Nat} (h : j < n) : j/cc.blockSize < cc.pages n := by
  have hpos := cc.blockSize_pos
  unfold CacheConfig.pages
  rw [Nat.div_lt_iff_lt_mul hpos]
  have h1 := Nat.div_add_mod (n+cc.blockSize-1) cc.blockSize
  have h2 := Nat.mod_lt (n+cc.blockSize-1) hpos
  rw [Nat.mul_comm]
  omega

theorem Holds.of_hit {q : List Token} {n : Nat}
    (h : Holds cfg pages table (q.take n) n) :
    Holds cfg pages (table.take (cfg.cache.pages n)) q n := by
  intro j hj
  have hq : Holds cfg pages table q n := h.retoken (by rw [List.take_take,Nat.min_self])
  obtain ⟨b,hb,hv⟩ := hq j hj
  refine ⟨b,?_,hv⟩
  rw [List.getElem?_take,if_pos (lt_pages cfg.cache hj)]
  exact hb

end Holds

section Write

variable {cc : CacheConfig} {table : List BlockId}

theorem writeKv_other {b : BlockId} {s : Nat} (c : RadixCache V) (pos : Nat) (vals : List V)
    (h : ∀ j < vals.length, table[(pos+j)/cc.blockSize]? = some b → (pos+j)%cc.blockSize ≠ s) :
    (RadixCache.writeKv cc table c pos vals).pages b s = c.pages b s := by
  induction vals generalizing c pos with
  | nil => rfl
  | cons v vs ih =>
    have h' : ∀ j < vs.length, table[(pos+1+j)/cc.blockSize]? = some b →
        (pos+1+j)%cc.blockSize ≠ s := by
      intro j hj
      have := h (j+1) (by simpa using hj)
      rwa [show pos+(j+1) = pos+1+j by omega] at this
    simp only [RadixCache.writeKv]
    cases ht : table[pos/cc.blockSize]? with
    | none => rfl
    | some x =>
      rw [ih _ _ h']
      by_cases hx : b = x
      · subst hx
        have hs : s ≠ pos%cc.blockSize := by
          have := h 0 (by simp) (by simpa using ht)
          exact fun he => this (by simpa using he.symm)
        simp [Function.update_of_ne hs]
      · simp [Function.update_of_ne hx]

/-- Two positions of a table without repetitions share a slot only if they are
the same. -/
theorem slot_inj {b : BlockId} {j k : Nat} (hn : table.Nodup)
    (hj : table[j/cc.blockSize]? = some b) (hk : table[k/cc.blockSize]? = some b)
    (hs : j%cc.blockSize = k%cc.blockSize) : j = k := by
  obtain ⟨hjl,hj⟩ := List.getElem?_eq_some_iff.mp hj
  obtain ⟨hkl,hk⟩ := List.getElem?_eq_some_iff.mp hk
  have hdiv := (hn.getElem_inj_iff).mp (hj.trans hk.symm)
  rw [← Nat.div_add_mod j cc.blockSize,← Nat.div_add_mod k cc.blockSize,hdiv,hs]

theorem writeKv_at {j : Nat} {v : V} (c : RadixCache V) (pos : Nat) (vals : List V)
    (hn : table.Nodup) (hj : vals[j]? = some v) (hl : (pos+j)/cc.blockSize < table.length) :
    ∃ b, table[(pos+j)/cc.blockSize]? = some b ∧
      (RadixCache.writeKv cc table c pos vals).pages b ((pos+j)%cc.blockSize) = v := by
  induction vals generalizing c pos j with
  | nil => simp at hj
  | cons w vs ih =>
    have hle : pos/cc.blockSize ≤ (pos+j)/cc.blockSize := Nat.div_le_div_right (by omega)
    have ht : table[pos/cc.blockSize]? = some table[pos/cc.blockSize] :=
      List.getElem?_eq_getElem (by omega)
    simp only [RadixCache.writeKv,ht]
    cases j with
    | zero =>
      refine ⟨_,ht,?_⟩
      simp only [List.getElem?_cons_zero,Option.some.injEq] at hj
      rw [Nat.add_zero,writeKv_other]
      · simp [hj]
      · intro k _ hk hs
        have := slot_inj hn hk ht hs
        omega
    | succ j =>
      rw [show pos+(j+1) = pos+1+j by omega] at hl ⊢
      exact ih _ (pos+1) (by simpa using hj) hl

end Write

end SglangLite.Paged
