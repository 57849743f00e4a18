import SglangLite.Kv.Ownership

set_option autoImplicit false

namespace SglangLite.Kv

theorem CacheConfig.pages_le_iff (cfg : CacheConfig) {n k : Nat} :
    cfg.pages n ≤ k ↔ n ≤ k*cfg.blockSize := by
  have hpos := cfg.blockSize_pos
  rw [← Nat.lt_succ_iff,CacheConfig.pages,Nat.div_lt_iff_lt_mul hpos,Nat.succ_mul]
  omega

theorem CacheConfig.pages_succ (cfg : CacheConfig) (n : Nat) : cfg.pages (n+1) = n/cfg.blockSize+1 := by
  have hpos := cfg.blockSize_pos
  rw [CacheConfig.pages,show n+1+cfg.blockSize-1 = n+cfg.blockSize by omega,Nat.add_div_right _ hpos]

theorem CacheConfig.pages_succ_le (cfg : CacheConfig) (n : Nat) : cfg.pages (n+1) ≤ cfg.pages n+1 := by
  have hpos := cfg.blockSize_pos
  rw [cfg.pages_succ]
  exact Nat.add_le_add_right (Nat.div_le_div_right (by omega)) 1

/-- One page can be had while there is one on the free list or one was never
handed out. -/
theorem RadixCache.allocate_one_of_spare {V : Type} [Zero V] {cfg : CacheConfig} {c : RadixCache V}
    (h : c.free ≠ [] ∨ c.next < cfg.numBlocks) : ∃ c' b, c.allocateBlocks cfg 1 = (c',some [b]) := by
  cases hf : c.free with
  | cons b free =>
    refine ⟨{ c with free := free }.take b,b,?_⟩
    simp [allocateBlocks,allocateLoop,hf]
  | nil =>
    have hlt : ¬ cfg.numBlocks ≤ c.next := by
      rcases h with h | h
      · exact absurd hf h
      · omega
    refine ⟨{ c with next := c.next+1 }.take c.next,c.next,?_⟩
    simp [allocateBlocks,allocateLoop,hf,hlt]

def listed (tables : List (List BlockId)) (b : BlockId) : Nat := (tables.map (List.count b)).sum

@[simp] theorem listed_cons (t : List BlockId) (ts : List (List BlockId)) (b : BlockId) :
    listed (t :: ts) b = t.count b+listed ts b := by
  simp [listed]

theorem listed_perm {ts us : List (List BlockId)} (h : ts.Perm us) (b : BlockId) :
    listed ts b = listed us b :=
  (h.map _).sum_eq

theorem listed_pos {t : List BlockId} {ts : List (List BlockId)} {b : BlockId} (ht : t ∈ ts)
    (hb : b ∈ t) : 0 < listed ts b := by
  rw [listed_perm (List.perm_cons_erase ht),listed_cons]
  have := List.count_pos_iff.mpr hb
  omega

def Aligned (t u : List BlockId) : Prop :=
  ∀ (k l : Nat) (b : BlockId), t[k]? = some b → u[l]? = some b → k = l

theorem aligned_self {t : List BlockId} (h : t.Nodup) : Aligned t t := by
  intro k l b hk hl
  obtain ⟨hkl,hk⟩ := List.getElem?_eq_some_iff.mp hk
  obtain ⟨hll,hl⟩ := List.getElem?_eq_some_iff.mp hl
  exact h.getElem_inj_iff.mp (hk.trans hl.symm)

namespace RadixCache

variable {V A : Type} (cfg : CacheConfig)

def readAt (table : List BlockId) (c : RadixCache V) (pos : Nat) : Option V :=
  table[pos/cfg.blockSize]?.map fun b => c.pages b (pos%cfg.blockSize)

/-- Writes to consecutive positions of a table, each of which changes its slot
by `put`. -/
def writeAt (put : A → V → V) (table : List BlockId) :
    RadixCache V → Nat → List A → RadixCache V
  | c, _, [] => c
  | c, pos, v :: vs =>
      match table[pos/cfg.blockSize]? with
      | some b =>
          writeAt put table
            { c with
              pages := Function.update c.pages b
                (Function.update (c.pages b) (pos%cfg.blockSize) (put v (c.pages b (pos%cfg.blockSize)))) }
            (pos+1) vs
      | none => c

variable {cfg} {put : A → V → V} {table u : List BlockId}

theorem writeAt_eq (c : RadixCache V) (pos : Nat) (vs : List A) :
    writeAt cfg put table c pos vs = { c with pages := (writeAt cfg put table c pos vs).pages } := by
  induction vs generalizing c pos with
  | nil => rfl
  | cons v vs ih =>
    rw [writeAt]
    cases h : table[pos/cfg.blockSize]? with
    | none => rfl
    | some b =>
      simp only
      rw [ih]

/-- Through an aligned table a write is seen at its own positions only, and
only where the two tables have the same page. -/
theorem readAt_writeAt (hal : Aligned u table) (c : RadixCache V) {pos : Nat} {vs : List A}
    (hlen : pos+vs.length ≤ table.length*cfg.blockSize) (q : Nat) :
    readAt cfg u (writeAt cfg put table c pos vs) q =
      if table[q/cfg.blockSize]? = u[q/cfg.blockSize]? ∧ pos ≤ q then
        match vs[q-pos]? with
        | some v => (readAt cfg u c q).map (put v)
        | none => readAt cfg u c q
      else readAt cfg u c q := by
  induction vs generalizing c pos with
  | nil => simp [writeAt]
  | cons v vs ih =>
    rw [List.length_cons] at hlen
    have hpos : pos/cfg.blockSize < table.length :=
      (Nat.div_lt_iff_lt_mul cfg.blockSize_pos).mpr (by omega)
    obtain ⟨b,hb⟩ : ∃ b, table[pos/cfg.blockSize]? = some b := ⟨_,List.getElem?_eq_getElem hpos⟩
    rw [writeAt,hb]
    simp only
    rw [ih _ (by omega)]
    have hstep : readAt cfg u { c with
        pages := Function.update c.pages b
          (Function.update (c.pages b) (pos%cfg.blockSize) (put v (c.pages b (pos%cfg.blockSize)))) } q =
        if table[q/cfg.blockSize]? = u[q/cfg.blockSize]? ∧ q = pos then (readAt cfg u c q).map (put v)
        else readAt cfg u c q := by
      simp only [readAt]
      cases hu : u[q/cfg.blockSize]? with
      | none => simp
      | some b' =>
        simp only [Option.map_some]
        by_cases hq : q = pos
        · subst hq
          rw [hb]
          by_cases hbb : b = b'
          · simp [hbb]
          · have hbb' : b' ≠ b := fun he => hbb he.symm
            simp [hbb,hbb']
        · rw [if_neg (by simp [hq])]
          by_cases hbb : b' = b
          · subst hbb
            -- same page, so the same index of the tables and another slot
            have hdiv := hal _ _ _ hu hb
            have hmod : q%cfg.blockSize ≠ pos%cfg.blockSize := by
              intro hm
              apply hq
              rw [← Nat.div_add_mod q cfg.blockSize,← Nat.div_add_mod pos cfg.blockSize,hdiv,hm]
            simp [hmod]
          · simp [hbb]
    rw [hstep]
    by_cases htab : table[q/cfg.blockSize]? = u[q/cfg.blockSize]?
    · rcases Nat.lt_trichotomy q pos with hlt | heq | hgt
      · simp [htab,Nat.not_le.mpr hlt,Nat.ne_of_lt hlt,show ¬ pos+1 ≤ q by omega]
      · subst heq
        simp [htab]
      · have hsub : q-pos = (q-(pos+1))+1 := by omega
        simp [htab,show pos ≤ q by omega,show pos+1 ≤ q by omega,show q ≠ pos by omega,hsub]
    · simp [htab]

theorem readAt_congr {c c' : RadixCache V} (h : ∀ b ∈ u, c'.pages b = c.pages b) (q : Nat) :
    readAt cfg u c' q = readAt cfg u c q := by
  simp only [readAt]
  cases hu : u[q/cfg.blockSize]? with
  | none => rfl
  | some b => simp [h b (List.mem_of_getElem? hu)]

end RadixCache

/-- Block tables outside the tree with exact reference counts. A block that is
in several tables, or would be twice in one, has one index only. -/
structure Tabled {V : Type} (cfg : CacheConfig) (c : RadixCache V) (ts : List (List BlockId)) :
    Prop where
  owned : RadixCache.Owned cfg c (listed ts)
  aligned : ∀ t ∈ ts, ∀ u ∈ ts, Aligned t u

namespace Tabled

variable {V : Type} {cfg : CacheConfig} {c c' : RadixCache V} {t : List BlockId}
  {ts us : List (List BlockId)}

theorem nodup (h : Tabled cfg c ts) (ht : t ∈ ts) : t.Nodup := by
  rw [List.nodup_iff_getElem?_ne_getElem?]
  intro k l hkl hlt he
  have hl : t[l]? = some t[l] := List.getElem?_eq_getElem hlt
  exact absurd (h.aligned t ht t ht k l _ (he.trans hl) hl) (Nat.ne_of_lt hkl)

theorem perm (h : Tabled cfg c ts) (hp : ts.Perm us) : Tabled cfg c us :=
  ⟨h.owned.congr (listed_perm hp),fun t ht u hu =>
    h.aligned t (hp.mem_iff.mpr ht) u (hp.mem_iff.mpr hu)⟩

theorem withPages (h : Tabled cfg c ts) (pages : BlockId → Nat → V) :
    Tabled cfg { c with pages := pages } ts :=
  ⟨⟨h.owned.refs_eq,h.owned.refs_none,h.owned.wf,h.owned.nodup,h.owned.free_nodup,
    h.owned.free_refs,h.owned.refs_lt,h.owned.cover,h.owned.next_le⟩,h.aligned⟩

theorem nil_cons : Tabled cfg c ([] :: ts) ↔ Tabled cfg c ts := by
  constructor
  · intro h
    exact ⟨h.owned.congr (by simp),fun t ht u hu =>
      h.aligned t (List.mem_cons_of_mem _ ht) u (List.mem_cons_of_mem _ hu)⟩
  · intro h
    refine ⟨h.owned.congr (by simp),fun t ht u hu k l b hk hl => ?_⟩
    rcases List.mem_cons.mp ht with rfl | ht
    · simp at hk
    · rcases List.mem_cons.mp hu with rfl | hu
      · simp at hl
      · exact h.aligned t ht u hu k l b hk hl

theorem tail (h : Tabled cfg c (t :: ts)) (ho : RadixCache.Owned cfg c' (listed ts)) :
    Tabled cfg c' ts :=
  ⟨ho,fun t ht u hu => h.aligned t (List.mem_cons_of_mem _ ht) u (List.mem_cons_of_mem _ hu)⟩

theorem fork (h : Tabled cfg c ts) (ht : t ∈ ts) : Tabled cfg (c.forkBlocks t) (t :: ts) := by
  have hrefs : ∀ b ∈ t, c.refs b ≠ none := by
    intro b hb hr
    have := (h.owned.refs_none b hr).1
    have := listed_pos ht hb
    omega
  refine ⟨(h.owned.forkBlocks t hrefs).congr fun b => by rw [listed_cons,Nat.add_comm],?_⟩
  intro t' ht' u hu
  have hmem : ∀ x ∈ t :: ts, x ∈ ts := by
    intro x hx
    rcases List.mem_cons.mp hx with rfl | hx
    · exact ht
    · exact hx
  exact h.aligned t' (hmem t' ht') u (hmem u hu)

variable [Zero V]

theorem release (h : Tabled cfg c (t :: ts)) : Tabled cfg (c.releaseBlocks t) ts := by
  have ho : RadixCache.Owned cfg c (fun b => listed ts b+t.count b) :=
    h.owned.congr fun b => by rw [listed_cons,Nat.add_comm]
  exact h.tail (ho.releaseBlocks (h.nodup (by simp))).1

theorem grow {n : Nat} (h : Tabled cfg c (t :: ts)) :
    match c.allocateBlocks cfg n with
    | (c',some ids) => Tabled cfg c' ((t ++ ids) :: ts) ∧ ids.length = n ∧
        (∀ b ∈ ids, b ∉ t ∧ ∀ u ∈ ts, b ∉ u) ∧ ∀ u ∈ t :: ts, ∀ b ∈ u, c'.pages b = c.pages b
    | (c',none) => Tabled cfg c' (t :: ts) ∧ ∀ u ∈ t :: ts, ∀ b ∈ u, c'.pages b = c.pages b := by
  have hal := h.owned.allocateBlocks n
  cases hc : c.allocateBlocks cfg n with
  | mk c' o =>
    rw [hc] at hal
    cases o with
    | none =>
      refine ⟨⟨hal.1,h.aligned⟩,fun u hu b hb => hal.2.pages b ?_⟩
      have := listed_pos hu hb
      omega
    | some ids =>
      obtain ⟨hal,hlen⟩ := hal
      have hnew : ∀ b ∈ ids, ∀ u ∈ t :: ts, b ∉ u := by
        intro b hb u hu hbu
        have := (hal.fresh b hb).1
        have := listed_pos hu hbu
        omega
      refine ⟨⟨hal.owned.congr fun b => by simp; omega,?_⟩,hlen,fun b hb =>
        ⟨hnew b hb t (by simp),fun u hu => hnew b hb u (List.mem_cons_of_mem _ hu)⟩,fun u hu b hb =>
        hal.evolves.pages b ?_⟩
      · -- an index of the longer table is one of the old table or of the new blocks
        have hsplit : ∀ (k : Nat) (b : BlockId), (t ++ ids)[k]? = some b → t[k]? = some b ∨
            t.length ≤ k ∧ ids[k-t.length]? = some b := by
          intro k b hk
          by_cases hlt : k < t.length
          · rw [List.getElem?_append_left hlt] at hk
            exact .inl hk
          · rw [List.getElem?_append_right (by omega)] at hk
            exact .inr ⟨by omega,hk⟩
        have hboth : Aligned ids ids := aligned_self hal.nodup
        have hold : ∀ u ∈ ts, ∀ (k l : Nat) (b : BlockId), (t ++ ids)[k]? = some b → u[l]? = some b → k = l := by
          intro u hu k l b hk hl
          rcases hsplit k b hk with hk | ⟨_,hk⟩
          · exact h.aligned t (by simp) u (List.mem_cons_of_mem _ hu) k l b hk hl
          · exact absurd (List.mem_of_getElem? hl) (hnew b (List.mem_of_getElem? hk) u (List.mem_cons_of_mem _ hu))
        intro u hu v hv k l b hk hl
        rcases List.mem_cons.mp hu with rfl | hu
        · rcases List.mem_cons.mp hv with rfl | hv
          · rcases hsplit k b hk with hk | ⟨hle,hk⟩
            · rcases hsplit l b hl with hl | ⟨_,hl⟩
              · exact h.aligned t (by simp) t (by simp) k l b hk hl
              · exact absurd (List.mem_of_getElem? hk) (hnew b (List.mem_of_getElem? hl) t (by simp))
            · rcases hsplit l b hl with hl | ⟨hle',hl⟩
              · exact absurd (List.mem_of_getElem? hl) (hnew b (List.mem_of_getElem? hk) t (by simp))
              · have := hboth _ _ b hk hl
                omega
          · exact hold v hv k l b hk hl
        · rcases List.mem_cons.mp hv with rfl | hv
          · exact (hold u hu l k b hl hk).symm
          · exact h.aligned u (List.mem_cons_of_mem _ hu) v (List.mem_cons_of_mem _ hv) k l b hk hl
      · have := listed_pos hu hb
        omega

end Tabled

end SglangLite.Kv
