import SglangLite.Kv.Stores

set_option autoImplicit false

namespace SglangLite.Kv.Stores

variable {E R A : Type} {cfg : StoreConfig} {table : List BlockId} {start n : Nat}

def Wrote (read : Stores E → Nat → Except PyError R) (size : R → Nat)
    (tokenAt : R → Nat → Option A) (capacity start n : Nat) (tok : Nat → A)
    (s s' : Stores E) : Prop :=
  ∀ L ≤ capacity, ∃ r r', read s L = .ok r ∧ read s' L = .ok r' ∧ size r' = L ∧ ∀ j < L,
    tokenAt r' j = if start ≤ j ∧ j < start+n then some (tok (j-start)) else tokenAt r j

/-- A write that fits is read back; one that does not fit raises before it
changes anything. Tokens that are none never change anything. -/
structure RoundTrip (read : Stores E → Nat → Except PyError R) (size : R → Nat)
    (tokenAt : R → Nat → Option A) (table : List BlockId) (capacity start n : Nat) (tok : Nat → A)
    (s : Stores E) (out : Stores E × Except PyError Unit) : Prop where
  fits : start+n ≤ capacity →
    (table ≠ [] → out.2 = .ok ()) ∧ Wrote read size tokenAt capacity start n tok s out.1
  overflows : capacity < start+n → out.1 = s ∧ (n ≠ 0 → ∃ e, out.2 = .error e)

def Reads (cfg : StoreConfig) (table : List BlockId) (keep : Stores E → Prop)
    (get : Stores E → BlockId → Nat → A) (read : Stores E → Nat → Except PyError R) (size : R → Nat)
    (tokenAt : R → Nat → Option A) : Prop :=
  ∀ s, keep s → ∀ L ≤ table.length*cfg.blockSize, ∃ r, read s L = .ok r ∧ size r = L ∧
    ∀ j < L, tokenAt r j = Paging.view cfg.blockSize table (get s) j

variable {keep : Stores E → Prop} {get : Stores E → BlockId → Nat → A}
  {read : Stores E → Nat → Except PyError R} {size : R → Nat} {tokenAt : R → Nat → Option A}
  {put : Stores E → BlockId → Nat → Nat → Nat → Stores E} {tok : Nat → A}
  {check : BlockId → Option PyError} {s : Stores E}

/-- The loops over spans make a round trip for every reader of the same
cells. -/
theorem wrote_spans (hread : Reads cfg table keep get read size tokenAt)
    (hput : Paging.Puts keep get put tok) (hn : table.Nodup) (hc : ∀ b ∈ table, check b = none)
    (hs : keep s) (hfit : start+n ≤ table.length*cfg.blockSize) :
    (Paging.writeSpans cfg.blockSize table tableError check put start n n 0 s).2 = .ok () ∧
      Wrote read size tokenAt (table.length*cfg.blockSize) start n tok s
        (Paging.writeSpans cfg.blockSize table tableError check put start n n 0 s).1 := by
  obtain ⟨hok,hkeep,hview⟩ :=
    @Paging.writeSpans_view _ _ _ _ _ _ tableError _ _ _ _ _ _ _ _ hput cfg.blockSize_pos hn hc hfit
      n 0 (Nat.le_refl _) s hs
  refine ⟨hok,fun L hL => ?_⟩
  obtain ⟨r,hr,_,hat⟩ := hread s hs L hL
  obtain ⟨r',hr',hlen,hat'⟩ := hread _ hkeep L hL
  refine ⟨r,r',hr,hr',hlen,fun j hj => ?_⟩
  rw [hat' j hj,hat j hj]
  exact hview j

theorem wrote_nothing (hread : Reads cfg table keep get read size tokenAt) (hs : keep s) :
    Wrote read size tokenAt (table.length*cfg.blockSize) start 0 tok s s := by
  intro L hL
  obtain ⟨r,hr,hlen,_⟩ := hread s hs L hL
  exact ⟨r,r,hr,hr,hlen,fun j _ => by rw [if_neg (by omega)]⟩

section Kv

variable {layer : Nat} {k v : Tensor3 E}

theorem puts_kv : Paging.Puts (fun _ => True) (fun s b i => (s.k layer b i,s.v layer b i))
    (putKv layer k v) (fun j => (k.elem j,v.elem j)) := by
  refine ⟨fun _ _ _ _ _ _ => trivial,fun s b slot span t b' i _ => ?_⟩
  simp only [putKv,copySpan,true_and]
  split_ifs <;> rfl

def kvAt (layer : Nat) (r : List (Tensor4 E × Tensor4 E)) (j : Nat) :
    Option ((Nat → Nat → E) × (Nat → Nat → E)) :=
  r[layer]?.map fun kv => (fun h d => kv.1.elem 0 h j d,fun h d => kv.2.elem 0 h j d)

def kvSize (layer : Nat) (r : List (Tensor4 E × Tensor4 E)) : Nat :=
  match r[layer]? with
  | some kv => if kv.1.d2 = kv.2.d2 then kv.1.d2 else 0
  | none => 0

theorem readLayer_view {L : Nat} (hL : cfg.pages L ≤ table.length)
    (cells : BlockId → Nat → Nat → Nat → E) : (readLayer cfg table L cells).d2 = L ∧
      ∀ j < L, some (fun h d => (readLayer cfg table L cells).elem 0 h j d) =
        Paging.view cfg.blockSize table cells j := by
  obtain ⟨hlen,hat⟩ := @Paging.gather_view _ _ _ _ cells _ _ cfg.blockSize_pos hL
    (cfg.pages_le_iff.mp (Nat.le_refl (cfg.pages L)))
  refine ⟨hlen,fun j hj => ?_⟩
  rw [← hat j hj]
  simp only [readLayer]
  rw [List.getD_eq_getElem?_getD]
  cases hg : (Paging.gather cfg.blockSize table cells (cfg.pages L) L)[j]? with
  | none =>
    rw [List.getElem?_eq_none_iff,hlen] at hg
    omega
  | some c => rfl

theorem reads_kv (hr : ∀ b ∈ table, b < cfg.numBlocks) (hl : layer < cfg.numLayers) :
    Reads cfg table (fun _ => True) (fun s b i => (s.k layer b i,s.v layer b i))
      (fun s : Stores E => readKv cfg s table) (kvSize layer) (kvAt layer) := by
  intro s _ L hL
  have hpages := cfg.pages_le_iff.mpr hL
  by_cases h0 : L = 0
  · exact ⟨[],by simp [readKv,h0],by simp [kvSize,h0],fun j hj => by omega⟩
  · have hany : ((table.take (cfg.pages L)).any fun b => cfg.numBlocks ≤ b) = false := by
      rw [List.any_eq_false]
      intro b hb
      have := hr b (List.mem_of_mem_take hb)
      simpa using this
    obtain ⟨hk,hkat⟩ := readLayer_view hpages (s.k layer)
    obtain ⟨hv,hvat⟩ := readLayer_view hpages (s.v layer)
    have hget : ((List.range cfg.numLayers).map fun l =>
        (readLayer cfg table L (s.k l),readLayer cfg table L (s.v l)))[layer]? =
        some (readLayer cfg table L (s.k layer),readLayer cfg table L (s.v layer)) := by
      rw [List.getElem?_map,List.getElem?_range hl]
      rfl
    refine ⟨(List.range cfg.numLayers).map fun l =>
      (readLayer cfg table L (s.k l),readLayer cfg table L (s.v l)),?_,?_,fun j hj => ?_⟩
    · simp only [readKv]
      rw [if_neg h0,if_neg (Nat.not_lt.mpr hpages),if_neg (by simp [hany])]
    · simp only [kvSize,hget,hk,hv,if_true]
    · have h1 := hkat j hj
      have h2 := hvat j hj
      simp only [kvAt,hget,Option.map_some]
      simp only [Paging.view] at h1 h2 ⊢
      cases ht : table[j/cfg.blockSize]? with
      | none => simp [ht] at h1
      | some b =>
        simp only [ht,Option.map_some,Option.some.injEq] at h1 h2 ⊢
        rw [h1,h2]

/-- The HF layout `(1, heads, n, dim)`. -/
structure HfLayout (cfg : StoreConfig) (n : Nat) (t : Tensor4 E) : Prop where
  batch : t.d0 = 1
  heads : t.d1 = cfg.numKvHeads
  tokens : t.d2 = n
  dim : t.d3 = cfg.headDim

structure KvElsewhere (table : List BlockId) (layer : Nat) (s s' : Stores E) : Prop where
  cells : ∀ l b, l ≠ layer ∨ b ∉ table → s'.k l b = s.k l b ∧ s'.v l b = s.v l b
  swa : s'.swa = s.swa
  comp : s'.comp = s.comp
  restore : s'.restore = s.restore

theorem copySpan_other {B : Type} (cells : Nat → BlockId → Nat → B) (src : Nat → B)
    {l x b slot span t : Nat} (hb : b ∈ table) (h : l ≠ layer ∨ x ∉ table) :
    copySpan cells layer src b slot span t l x = cells l x := by
  funext i
  rw [copySpan,if_neg]
  rintro ⟨hl,hx,_⟩
  rcases h with h | h
  · exact h hl
  · exact h (hx ▸ hb)

theorem writeKvLayer_elsewhere (cfg : StoreConfig) (s : Stores E) (table : List BlockId)
    (start layer : Nat) (kv : KvPair E) :
    KvElsewhere table layer s (writeKvLayer cfg s table start layer kv).1 := by
  have hrefl : KvElsewhere table layer s s := ⟨fun _ _ _ => ⟨rfl,rfl⟩,rfl,rfl,rfl⟩
  simp only [writeKvLayer]
  split_ifs
  · exact hrefl
  · exact hrefl
  · exact hrefl
  · refine ⟨fun l b h => ⟨?_,?_⟩,?_,?_,?_⟩
    · exact Paging.writeSpans_keeps (fun s : Stores E => s.k l b)
        (fun _ _ _ _ _ hb => copySpan_other _ _ hb h) _ _ s
    · exact Paging.writeSpans_keeps (fun s : Stores E => s.v l b)
        (fun _ _ _ _ _ hb => copySpan_other _ _ hb h) _ _ s
    · refine Paging.writeSpans_keeps (fun s : Stores E => s.swa) (fun _ _ _ _ _ _ => ?_) _ _ s
      rfl
    · refine Paging.writeSpans_keeps (fun s : Stores E => s.comp) (fun _ _ _ _ _ _ => ?_) _ _ s
      rfl
    · refine Paging.writeSpans_keeps (fun s : Stores E => s.restore) (fun _ _ _ _ _ _ => ?_) _ _ s
      rfl

theorem blockRange_none {b : BlockId} (h : b < cfg.numBlocks) : blockRange cfg b = none := by
  rw [blockRange,if_neg (Nat.not_le.mpr h)]

theorem blockIndex_none {b : BlockId} (h : b < cfg.numBlocks) : blockIndex cfg b = none := by
  rw [blockIndex,if_neg (Nat.not_le.mpr h)]

theorem writeKvLayer_roundTrip {k v : Tensor4 E} (s : Stores E) (hn : table.Nodup)
    (hr : ∀ b ∈ table, b < cfg.numBlocks) (hl : layer < cfg.numLayers) (hk : HfLayout cfg n k) :
    RoundTrip (fun s => readKv cfg s table) (kvSize layer) (kvAt layer) table
      (table.length*cfg.blockSize) start n
      (fun j => (fun h d => k.elem 0 h j d,fun h d => v.elem 0 h j d)) s
      (writeKvLayer cfg s table start layer (.rank4 k v)) := by
  have hnorm : normalizeKv cfg (.rank4 k v) = (swapped k,swapped v) := by
    rw [normalizeKv,if_pos hk.heads]
  have hd0 : (swapped k).d0 = n := hk.tokens
  have hread := reads_kv (E := E) hr hl
  refine ⟨fun hfit => ?_,fun hover => ?_⟩
  · by_cases ht : table = []
    · subst ht
      obtain rfl : n = 0 := by simp only [List.length_nil] at hfit; omega
      refine ⟨fun h => absurd rfl h,?_⟩
      simp only [writeKvLayer,if_true]
      exact wrote_nothing hread trivial
    · simp only [writeKvLayer,ht,if_false,hnorm,hd0]
      rw [if_neg (by omega),if_neg (Nat.not_lt.mpr (cfg.pages_le_iff.mpr hfit))]
      obtain ⟨hok,hw⟩ := wrote_spans hread puts_kv hn (fun b hb => blockRange_none (hr b hb))
        trivial hfit
      exact ⟨fun _ => hok,hw⟩
  · have hlong : table.length < cfg.pages (start+n) := by
      have := cfg.pages_le_iff (n := start+n) (k := table.length)
      omega
    simp only [writeKvLayer,hnorm,hd0]
    split_ifs
    · exact ⟨rfl,fun _ => ⟨_,rfl⟩⟩
    · exact ⟨rfl,fun _ => ⟨_,rfl⟩⟩
    · exact ⟨rfl,fun _ => ⟨_,rfl⟩⟩

end Kv

section Pools

variable {layer : Nat} {pool : Stores E → Option (Pool E)} {src : Rows E}

def poolCell (pool : Stores E → Option (Pool E)) (layer : Nat) (s : Stores E) (b : BlockId)
    (i : Nat) : List E :=
  match pool s with
  | some c => c.cells layer b i
  | none => []

theorem puts_pool (hput : ∀ s b slot span t,
    pool (put s b slot span t) = (pool s).map fun c => Pool.put c layer src b slot span t) :
    Paging.Puts (fun s => pool s ≠ none) (poolCell pool layer) put (fun j => src.rows.getD j []) := by
  refine ⟨fun s b slot span t h => ?_,fun s b slot span t b' i h => ?_⟩
  · rw [hput]
    simpa using h
  · obtain ⟨c,hc⟩ := Option.ne_none_iff_exists'.mp h
    simp only [poolCell,hput,hc,Option.map_some,Pool.put,copySpan,true_and]

theorem reads_pool {read : Stores E → Nat → Except PyError (List (List E))}
    (hr : ∀ b ∈ table, b < cfg.numBlocks)
    (hzero : ∀ s c, pool s = some c → read s 0 = .ok [])
    (hread : ∀ s c L, pool s = some c → L ≠ 0 → cfg.pages L ≤ table.length →
      read s L = Paging.readSpans cfg.blockSize table tableError (blockIndex cfg) (c.cells layer) L
        L 0 []) :
    Reads cfg table (fun s => pool s ≠ none) (poolCell pool layer) read List.length
      (fun r j => r[j]?) := by
  intro s h L hL
  obtain ⟨c,hc⟩ := Option.ne_none_iff_exists'.mp h
  by_cases h0 : L = 0
  · subst h0
    exact ⟨[],hzero s c hc,rfl,fun j hj => by omega⟩
  · obtain ⟨r,heq,hlen,hat⟩ : ∃ r, Paging.readSpans cfg.blockSize table tableError (blockIndex cfg)
        (c.cells layer) L L 0 [] = .ok r ∧ r.length = L ∧
        ∀ q < L, r[q]? = Paging.view cfg.blockSize table (c.cells layer) q :=
      Paging.readSpans_view cfg.blockSize_pos (fun b hb => blockIndex_none (hr b hb)) hL
        (Nat.sub_le L 0) (by simp) (by simp)
    refine ⟨r,by rw [hread s c L hc h0 (cfg.pages_le_iff.mpr hL),heq],hlen,fun j hj => ?_⟩
    refine (hat j hj).trans ?_
    simp only [Paging.view,poolCell,hc]

def PoolElsewhere (pool : Stores E → Option (Pool E)) (table : List BlockId) (layer : Nat)
    (s s' : Stores E) : Prop :=
  ∀ l b, l ≠ layer ∨ b ∉ table →
    (pool s').map (fun c => (c.width,c.cells l b)) = (pool s).map fun c => (c.width,c.cells l b)

theorem writeSpans_poolElsewhere (hput : ∀ s b slot span t,
    pool (put s b slot span t) = (pool s).map fun c => Pool.put c layer src b slot span t)
    (check : BlockId → Option PyError) (s : Stores E) :
    PoolElsewhere pool table layer s
      (Paging.writeSpans cfg.blockSize table tableError check put start n n 0 s).1 := by
  intro l b h
  refine Paging.writeSpans_keeps (fun s : Stores E => (pool s).map fun c => (c.width,c.cells l b))
    (fun s' b' slot span t hb => ?_) _ _ s
  rw [hput]
  cases pool s' with
  | none => rfl
  | some c =>
    simp only [Option.map_some,Pool.put]
    rw [copySpan_other _ _ hb h]

theorem setPacked_packed (s : Stores E) (p q : PackedName) (c : Option (Pool E)) :
    (s.setPacked p c).packed q = if q = p then c else s.packed q := by
  cases p <;> cases q <;> rfl

theorem putPacked_packed (p : PackedName) (s : Stores E) (b slot span t : Nat) :
    (putPacked p layer src s b slot span t).packed p =
      (s.packed p).map fun c => Pool.put c layer src b slot span t := by
  rw [putPacked,setPacked_packed,if_pos rfl]

structure PackedElsewhere (p : PackedName) (s s' : Stores E) : Prop where
  k : s'.k = s.k
  v : s'.v = s.v
  restore : s'.restore = s.restore
  other : ∀ q, q ≠ p → s'.packed q = s.packed q

theorem putPacked_elsewhere (p : PackedName) (s : Stores E) (b slot span t : Nat) :
    PackedElsewhere p s (putPacked p layer src s b slot span t) := by
  refine ⟨?_,?_,?_,fun q hq => ?_⟩
  · cases p <;> rfl
  · cases p <;> rfl
  · cases p <;> rfl
  · rw [putPacked,setPacked_packed,if_neg hq]
    cases q <;> rfl

theorem writePackedKv_elsewhere {p : PackedName} {name : String} (hp : packedName name = .ok p)
    (s : Stores E) (toks : Rows E) :
    PackedElsewhere p s (writePackedKv cfg s table start toks name layer).1 ∧
      PoolElsewhere (fun s => s.packed p) table layer s
        (writePackedKv cfg s table start toks name layer).1 := by
  have hrefl : PackedElsewhere p s s ∧ PoolElsewhere (fun s => s.packed p) table layer s s :=
    ⟨⟨rfl,rfl,rfl,fun _ _ => rfl⟩,fun _ _ _ => rfl⟩
  simp only [writePackedKv,hp]
  cases s.packed p with
  | none => exact hrefl
  | some cache =>
    simp only
    split_ifs
    · exact hrefl
    · exact hrefl
    · exact hrefl
    · exact hrefl
    · exact hrefl
    · refine ⟨⟨?_,?_,?_,fun q hq => ?_⟩,writeSpans_poolElsewhere (putPacked_packed p) _ s⟩
      · refine Paging.writeSpans_keeps (fun s : Stores E => s.k) (fun _ _ _ _ _ _ => ?_) _ _ s
        exact (putPacked_elsewhere p _ _ _ _ _).k
      · refine Paging.writeSpans_keeps (fun s : Stores E => s.v) (fun _ _ _ _ _ _ => ?_) _ _ s
        exact (putPacked_elsewhere p _ _ _ _ _).v
      · refine Paging.writeSpans_keeps (fun s : Stores E => s.restore) (fun _ _ _ _ _ _ => ?_) _ _ s
        exact (putPacked_elsewhere p _ _ _ _ _).restore
      · refine Paging.writeSpans_keeps (fun s : Stores E => s.packed q) (fun _ _ _ _ _ _ => ?_) _ _ s
        exact (putPacked_elsewhere p _ _ _ _ _).other q hq

theorem writePackedKv_roundTrip {p : PackedName} {name : String} {c : Pool E} {toks : Rows E}
    (s : Stores E) (hn : table.Nodup) (hr : ∀ b ∈ table, b < cfg.numBlocks)
    (hl : layer < cfg.numLayers) (hp : packedName name = .ok p) (hc : s.packed p = some c)
    (hw : toks.width = c.width) :
    RoundTrip (fun s L => readPackedKv cfg s table L name layer) List.length (fun r j => r[j]?) table
      (table.length*cfg.blockSize) start toks.rows.length (fun j => toks.rows.getD j []) s
      (writePackedKv cfg s table start toks name layer) := by
  have hread : Reads cfg table (fun s => s.packed p ≠ none) (poolCell (fun s => s.packed p) layer)
      (fun (s : Stores E) L => readPackedKv cfg s table L name layer) List.length
      (fun r j => r[j]?) := by
    refine reads_pool hr (fun s c hc => ?_) fun s c L hc h0 hpages => ?_
    · simp only [readPackedKv,hp,hc,if_true]
    · simp only [readPackedKv,hp,hc]
      rw [if_neg h0,if_neg (Nat.not_le.mpr hl),if_neg (Nat.not_lt.mpr hpages)]
  have hs : s.packed p ≠ none := by simp [hc]
  refine ⟨fun hfit => ?_,fun hover => ?_⟩
  · by_cases ht : table = []
    · subst ht
      have h0 : toks.rows.length = 0 := by simp only [List.length_nil] at hfit; omega
      refine ⟨fun h => absurd rfl h,?_⟩
      simp only [writePackedKv,hp,hc,if_true,h0]
      exact wrote_nothing hread hs
    · simp only [writePackedKv,hp,hc,ht,if_false]
      rw [if_neg (Nat.not_le.mpr hl)]
      by_cases h0 : toks.rows.length = 0
      · rw [if_pos h0,h0]
        exact ⟨fun _ => rfl,wrote_nothing hread hs⟩
      · rw [if_neg h0,if_neg (not_not.mpr hw),
          if_neg (Nat.not_lt.mpr (cfg.pages_le_iff.mpr hfit))]
        obtain ⟨hok,hwrote⟩ := wrote_spans hread (puts_pool (putPacked_packed p)) hn
          (fun b hb => blockRange_none (hr b hb)) hs hfit
        exact ⟨fun _ => hok,hwrote⟩
  · have hlong : table.length < cfg.pages (start+toks.rows.length) := by
      have := cfg.pages_le_iff (n := start+toks.rows.length) (k := table.length)
      omega
    simp only [writePackedKv,hp,hc]
    split_ifs with _ _ h0
    · exact ⟨rfl,fun _ => ⟨_,rfl⟩⟩
    · exact ⟨rfl,fun _ => ⟨_,rfl⟩⟩
    · exact ⟨rfl,fun h => absurd h0 h⟩
    · exact ⟨rfl,fun _ => ⟨_,rfl⟩⟩
    · exact ⟨rfl,fun _ => ⟨_,rfl⟩⟩

theorem putRestore_restore (src : Rows E) (s : Stores E) (b slot span t : Nat) :
    (putRestore layer src s b slot span t).restore =
      s.restore.map fun c => Pool.put c layer src b slot span t := rfl

structure RestoreElsewhere (s s' : Stores E) : Prop where
  k : s'.k = s.k
  v : s'.v = s.v
  swa : s'.swa = s.swa
  comp : s'.comp = s.comp

theorem writeRestoreBf16_elsewhere (s : Stores E) (toks : Rows E) :
    RestoreElsewhere s (writeRestoreBf16 cfg s table start toks layer).1 ∧
      PoolElsewhere Stores.restore table layer s
        (writeRestoreBf16 cfg s table start toks layer).1 := by
  have hrefl : RestoreElsewhere s s ∧ PoolElsewhere Stores.restore table layer s s :=
    ⟨⟨rfl,rfl,rfl,rfl⟩,fun _ _ _ => rfl⟩
  simp only [writeRestoreBf16]
  cases s.restore with
  | none => exact hrefl
  | some cache =>
    simp only
    split_ifs
    · exact hrefl
    · exact hrefl
    · exact hrefl
    · exact hrefl
    · exact hrefl
    · refine ⟨⟨?_,?_,?_,?_⟩,writeSpans_poolElsewhere (putRestore_restore toks) _ s⟩
      · refine Paging.writeSpans_keeps (fun s : Stores E => s.k) (fun _ _ _ _ _ _ => ?_) _ _ s
        rfl
      · refine Paging.writeSpans_keeps (fun s : Stores E => s.v) (fun _ _ _ _ _ _ => ?_) _ _ s
        rfl
      · refine Paging.writeSpans_keeps (fun s : Stores E => s.swa) (fun _ _ _ _ _ _ => ?_) _ _ s
        rfl
      · refine Paging.writeSpans_keeps (fun s : Stores E => s.comp) (fun _ _ _ _ _ _ => ?_) _ _ s
        rfl

theorem writeRestoreBf16_roundTrip {c : Pool E} {toks : Rows E} (s : Stores E) (hn : table.Nodup)
    (hr : ∀ b ∈ table, b < cfg.numBlocks) (hl : layer < cfg.numLayers) (hc : s.restore = some c)
    (hw : toks.width = 512) :
    RoundTrip (fun s L => readRestoreBf16 cfg s table L layer) List.length (fun r j => r[j]?) table
      (table.length*cfg.blockSize) start toks.rows.length (fun j => toks.rows.getD j []) s
      (writeRestoreBf16 cfg s table start toks layer) := by
  have hread : Reads cfg table (fun s => s.restore ≠ none) (poolCell Stores.restore layer)
      (fun (s : Stores E) L => readRestoreBf16 cfg s table L layer) List.length
      (fun r j => r[j]?) := by
    refine reads_pool hr (fun s c hc => ?_) fun s c L hc h0 hpages => ?_
    · simp only [readRestoreBf16,hc,if_true]
    · simp only [readRestoreBf16,hc]
      rw [if_neg h0,if_neg (Nat.not_le.mpr hl),if_neg (Nat.not_lt.mpr hpages)]
  have hs : s.restore ≠ none := by simp [hc]
  have hput : Paging.Puts (fun s : Stores E => s.restore ≠ none) (poolCell Stores.restore layer)
      (putRestore layer toks) (fun j => toks.rows.getD j []) := puts_pool (putRestore_restore toks)
  refine ⟨fun hfit => ?_,fun hover => ?_⟩
  · by_cases ht : table = []
    · subst ht
      have h0 : toks.rows.length = 0 := by simp only [List.length_nil] at hfit; omega
      refine ⟨fun h => absurd rfl h,?_⟩
      simp only [writeRestoreBf16,hc,if_true,h0]
      exact wrote_nothing hread hs
    · simp only [writeRestoreBf16,hc,ht,if_false]
      rw [if_neg (not_not.mpr hw),if_neg (Nat.not_le.mpr hl)]
      by_cases h0 : toks.rows.length = 0
      · rw [if_pos h0,h0]
        exact ⟨fun _ => rfl,wrote_nothing hread hs⟩
      · rw [if_neg h0,if_neg (Nat.not_lt.mpr (cfg.pages_le_iff.mpr hfit))]
        obtain ⟨hok,hwrote⟩ := wrote_spans hread hput hn (fun b hb => blockIndex_none (hr b hb))
          hs hfit
        exact ⟨fun _ => hok,hwrote⟩
  · have hlong : table.length < cfg.pages (start+toks.rows.length) := by
      have := cfg.pages_le_iff (n := start+toks.rows.length) (k := table.length)
      omega
    simp only [writeRestoreBf16,hc]
    split_ifs with _ _ _ h0
    · exact ⟨rfl,fun _ => ⟨_,rfl⟩⟩
    · exact ⟨rfl,fun _ => ⟨_,rfl⟩⟩
    · exact ⟨rfl,fun _ => ⟨_,rfl⟩⟩
    · exact ⟨rfl,fun h => absurd h0 h⟩
    · exact ⟨rfl,fun _ => ⟨_,rfl⟩⟩

end Pools

structure RoundTrips (cfg : StoreConfig) (s : Stores E) (table : List BlockId)
    (start layer : Nat) : Prop where
  kv : ∀ n k v, HfLayout cfg n k → HfLayout cfg n v →
    RoundTrip (fun s => readKv cfg s table) (kvSize layer) (kvAt layer) table
      (table.length*cfg.blockSize) start n
      (fun j => (fun h d => k.elem 0 h j d,fun h d => v.elem 0 h j d)) s
      (writeKvLayer cfg s table start layer (.rank4 k v)) ∧
    KvElsewhere table layer s (writeKvLayer cfg s table start layer (.rank4 k v)).1
  packed : ∀ name p c toks, packedName name = .ok p → s.packed p = some c → toks.width = c.width →
    RoundTrip (fun s L => readPackedKv cfg s table L name layer) List.length (fun r j => r[j]?) table
      (table.length*cfg.blockSize) start toks.rows.length (fun j => toks.rows.getD j []) s
      (writePackedKv cfg s table start toks name layer) ∧
    PackedElsewhere p s (writePackedKv cfg s table start toks name layer).1 ∧
    PoolElsewhere (fun s => s.packed p) table layer s
      (writePackedKv cfg s table start toks name layer).1
  restore : ∀ c toks, s.restore = some c → toks.width = 512 →
    RoundTrip (fun s L => readRestoreBf16 cfg s table L layer) List.length (fun r j => r[j]?) table
      (table.length*cfg.blockSize) start toks.rows.length (fun j => toks.rows.getD j []) s
      (writeRestoreBf16 cfg s table start toks layer) ∧
    RestoreElsewhere s (writeRestoreBf16 cfg s table start toks layer).1 ∧
    PoolElsewhere Stores.restore table layer s (writeRestoreBf16 cfg s table start toks layer).1

/-- Every page store gives back what was written through a table of distinct
pages, wherever it starts, and leaves the rest alone. -/
theorem page_stores_round_trip (s : Stores E) (start : Nat) {layer : Nat} (hn : table.Nodup)
    (hr : ∀ b ∈ table, b < cfg.numBlocks) (hl : layer < cfg.numLayers) :
    RoundTrips cfg s table start layer where
  kv _ _ _ hk _ := ⟨writeKvLayer_roundTrip s hn hr hl hk,writeKvLayer_elsewhere cfg s table start layer _⟩
  packed _ _ _ toks hp hc hw :=
    ⟨writePackedKv_roundTrip s hn hr hl hp hc hw,writePackedKv_elsewhere hp s toks⟩
  restore _ toks hc hw :=
    ⟨writeRestoreBf16_roundTrip s hn hr hl hc hw,writeRestoreBf16_elsewhere s toks⟩

def smallStores : StoreConfig := ⟨⟨2,3,Nat.two_pos,by decide⟩,2,1,1⟩

def zeroed : Stores Nat where
  k := fun _ _ _ _ _ => 0
  v := fun _ _ _ _ _ => 0
  swa := some ⟨2,fun _ _ _ => [0,0]⟩
  comp := some ⟨2,fun _ _ _ => [0,0]⟩
  restore := some ⟨512,fun _ _ _ => List.replicate 512 0⟩

def twoRows : Rows Nat := ⟨2,[[1,2],[3,4]],by decide⟩

theorem page_stores_round_trip_zeroed :
    RoundTrips smallStores zeroed [2,0] 1 1 ∧
      RoundTrip (fun s L => readPackedKv smallStores s [2,0] L "comp" 1) List.length
        (fun r j => r[j]?) [2,0] 4 1 2 (fun j => twoRows.rows.getD j []) zeroed
        (writePackedKv smallStores zeroed [2,0] 1 twoRows "comp" 1) := by
  have h : RoundTrips smallStores zeroed [2,0] 1 1 :=
    page_stores_round_trip zeroed 1 (by decide) (by decide) (by decide)
  exact ⟨h,(h.packed "comp" .comp ⟨2,fun _ _ _ => [0,0]⟩ twoRows (by decide) rfl rfl).1⟩

end SglangLite.Kv.Stores
