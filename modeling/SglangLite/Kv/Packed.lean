import SglangLite.Kv.RoundTrip
import SglangLite.Strides

set_option autoImplicit false

namespace SglangLite.Kv.Packed

open Strides

inductive PackError where
  | valueError (text : String)
  | zeroDivisionError
  deriving DecidableEq, Repr

/-- `[num_pages, 1, page_size, 584]` by the bytes of its pages. -/
structure HndPages where
  pageSize : Nat
  physical : List (List UInt8)
  even : Even (584*pageSize) physical

def pad (t pageSize : Nat) : Nat := (pageSize-t%pageSize)%pageSize

def padded (rows : List (List UInt8)) (pageSize : Nat) : List (List UInt8) :=
  rows ++ List.replicate (pad rows.length pageSize) (List.replicate 584 0)

def nPages (t pageSize : Nat) : Nat := (t+pad t pageSize)/pageSize

/-- `physical` of one page: the data of its tokens, then their scales. -/
def footer (page : List (List UInt8)) : List UInt8 :=
  (page.map (List.take 576)).flatten ++ (page.map (List.drop 576)).flatten

def logical (rows : List (List UInt8)) (pageSize : Nat) : List (List (List UInt8)) :=
  blocks pageSize (nPages rows.length pageSize) (padded rows pageSize)

theorem mul_nPages {t n : Nat} (hn : 1 ≤ n) : n*nPages t n = t+pad t n := by
  have hdiv := Nat.div_add_mod t n
  have hlt := Nat.mod_lt t hn
  have hdvd : n ∣ t+pad t n := by
    rcases Nat.eq_zero_or_pos (t%n) with h0 | h0
    · refine ⟨t/n,?_⟩
      rw [pad,h0,Nat.sub_zero,Nat.mod_self]
      omega
    · refine ⟨t/n+1,?_⟩
      rw [pad,Nat.mod_eq_of_lt (by omega),Nat.mul_succ]
      omega
  exact Nat.mul_div_cancel' hdvd

theorem nPages_eq {t n : Nat} (hn : 1 ≤ n) : nPages t n = (t+n-1)/n := by
  have hlt : pad t n < n := Nat.mod_lt _ hn
  have hmul := mul_nPages (t := t) hn
  refine (Nat.div_eq_of_lt_le ?_ ?_).symm
  · rw [Nat.mul_comm,hmul]
    omega
  · rw [Nat.succ_mul,Nat.mul_comm,hmul]
    omega

@[simp] theorem length_padded (rows : List (List UInt8)) (n : Nat) :
    (padded rows n).length = rows.length+pad rows.length n := by
  rw [padded,List.length_append,List.length_replicate]

theorem padded_even {rows : List (List UInt8)} (h : Even 584 rows) (n : Nat) :
    Even 584 (padded rows n) :=
  h.append (Even.replicate List.length_replicate _)

theorem length_footer {page : List (List UInt8)} (h : Even 584 page) :
    (footer page).length = 584*page.length := by
  have h1 := (h.take (k := 576) (by omega)).length_flatten
  have h2 := (h.drop (k := 576)).length_flatten
  rw [List.length_map] at h1 h2
  rw [footer,List.length_append,h1,h2]
  omega

theorem logical_even {rows : List (List UInt8)} {n : Nat} (hn : 1 ≤ n) (h : Even 584 rows) :
    ∀ page ∈ logical rows n, page.length = n ∧ Even 584 page := fun _ hp =>
  ⟨blocks_even ((length_padded rows n).trans (mul_nPages hn).symm) _ hp,
    fun r hr => padded_even h n r (mem_of_mem_blocks hp hr)⟩

theorem footer_even {rows : List (List UInt8)} {n : Nat} (hn : 1 ≤ n) (h : Even 584 rows) :
    Even (584*n) ((logical rows n).map footer) := by
  intro page hp
  obtain ⟨l,hl,rfl⟩ := List.mem_map.mp hp
  obtain ⟨hlen,heven⟩ := logical_even hn h l hl
  rw [length_footer heven,hlen]

def toPagedHnd (packed : Rows UInt8) (pageSize : Nat) : Except PackError HndPages :=
  if hw : packed.width = 584 then
    if hn : 1 ≤ pageSize then
      .ok ⟨pageSize,(logical packed.rows pageSize).map footer,
        footer_even hn fun r hr => (packed.even r hr).trans hw⟩
    else .error .zeroDivisionError
  else
    .error (.valueError ("expected [T, 584], got (" ++ toString packed.rows.length ++ ", "
      ++ toString packed.width ++ ")"))

inductive Part where
  | data
  | scales
  deriving DecidableEq, Repr

/-- Where a page of `n` tokens keeps the parts of its local token `i`. -/
def addresses (n : Nat) : Part × Nat → Finset Nat
  | (.data,i) => Finset.Ico (576*i) (576*i+576)
  | (.scales,i) => Finset.Ico (576*n+8*i) (576*n+8*i+8)

def tokenBytes (n : Nat) (page : List UInt8) (i : Nat) : List UInt8 :=
  slice page (576*i) 576 ++ slice page (576*n+8*i) 8

theorem addresses_disjoint {n : Nat} {x y : Part × Nat} (hx : x.2 < n) (hy : y.2 < n)
    (hne : x ≠ y) : Disjoint (addresses n x) (addresses n y) := by
  obtain ⟨px,i⟩ := x
  obtain ⟨py,j⟩ := y
  rw [Finset.disjoint_left]
  intro k hk hk'
  cases px <;> cases py <;> simp only [addresses,Finset.mem_Ico] at hk hk' hx hy
  · exact hne (by rw [show i = j by omega])
  · omega
  · omega
  · exact hne (by rw [show i = j by omega])

theorem addresses_cover {n k : Nat} : (∃ x : Part × Nat, x.2 < n ∧ k ∈ addresses n x) ↔ k < 584*n := by
  constructor
  · rintro ⟨⟨p,i⟩,hi,hk⟩
    cases p <;> simp only [addresses,Finset.mem_Ico] at hk hi <;> omega
  · intro hk
    by_cases hd : k < 576*n
    · refine ⟨(.data,k/576),by simp only; omega,?_⟩
      simp only [addresses,Finset.mem_Ico]
      omega
    · refine ⟨(.scales,(k-576*n)/8),by simp only; omega,?_⟩
      simp only [addresses,Finset.mem_Ico]
      omega

theorem tokenBytes_footer {page : List (List UInt8)} (h : Even 584 page) {i : Nat}
    {row : List UInt8} (hr : page[i]? = some row) :
    tokenBytes page.length (footer page) i = row := by
  have hi : i < page.length := (List.getElem?_eq_some_iff.mp hr).1
  have hd := h.take (k := 576) (by omega)
  have hs := h.drop (k := 576)
  have hlen := hd.length_flatten
  rw [List.length_map] at hlen
  have hdata : slice (footer page) (576*i) 576 = row.take 576 := by
    rw [footer,slice_append_left (by omega)]
    exact hd.slice_flatten (by rw [List.getElem?_map,hr]; rfl)
  have hscales : slice (footer page) (576*page.length+8*i) 8 = row.drop 576 := by
    rw [footer,slice_append_right (by rw [hlen])]
    exact hs.slice_flatten (by rw [List.getElem?_map,hr]; rfl)
  rw [tokenBytes,hdata,hscales,List.take_append_drop]

theorem getElem?_logical (rows : List (List UInt8)) {n p i : Nat} (hn : 1 ≤ n) (hi : i < n)
    (hp : n*p+i < (padded rows n).length) :
    ∃ page, (logical rows n)[p]? = some page ∧ page[i]? = (padded rows n)[n*p+i]? := by
  rw [length_padded,← mul_nPages hn] at hp
  have hlt : p < nPages rows.length n := by
    by_contra hge
    have := Nat.mul_le_mul_left n (Nat.not_lt.mp hge)
    omega
  exact ⟨_,getElem?_blocks _ hlt,by rw [getElem?_slice,if_pos hi]⟩

theorem toPagedHnd_ok (packed : Rows UInt8) (hw : packed.width = 584) {n : Nat} (hn : 1 ≤ n) :
    ∃ pages, toPagedHnd packed n = .ok pages ∧
      pages.physical = (logical packed.rows n).map footer :=
  ⟨_,by rw [toPagedHnd,dif_pos hw,dif_pos hn],rfl⟩

theorem logical_token {rows : List (List UInt8)} {n p i : Nat} {page : List (List UInt8)}
    {row : List UInt8} (hn : 1 ≤ n) (h : Even 584 rows) (hp : (logical rows n)[p]? = some page)
    (hi : page[i]? = some row) : tokenBytes n (footer page) i = row := by
  obtain ⟨hlen,hrows⟩ := logical_even hn h page (List.mem_of_getElem? hp)
  have := tokenBytes_footer hrows hi
  rwa [hlen] at this

theorem paged_token {rows : List (List UInt8)} {n t : Nat} {row : List UInt8} (hn : 1 ≤ n)
    (h : Even 584 rows) (ht : rows[t]? = some row) :
    ∃ page, ((logical rows n).map footer)[t/n]? = some page ∧ tokenBytes n page (t%n) = row := by
  have hlt := (List.getElem?_eq_some_iff.mp ht).1
  have hdiv := Nat.div_add_mod t n
  obtain ⟨page,hp,hrow⟩ := getElem?_logical rows (p := t/n) hn (Nat.mod_lt t hn)
    (by rw [hdiv,length_padded]; omega)
  rw [hdiv,padded,List.getElem?_append_left hlt,ht] at hrow
  exact ⟨footer page,by rw [List.getElem?_map,hp]; rfl,logical_token hn h hp hrow⟩

theorem paged_rest {rows : List (List UInt8)} {n p i : Nat} {page : List (List UInt8)} (hn : 1 ≤ n)
    (h : Even 584 rows) (hp : (logical rows n)[p]? = some page) (hi : i < n)
    (hT : rows.length ≤ n*p+i) : tokenBytes n (footer page) i = List.replicate 584 0 := by
  have hlt : p < nPages rows.length n := by
    simpa [logical] using (List.getElem?_eq_some_iff.mp hp).1
  have hfit : n*p+i < (padded rows n).length := by
    have := Nat.mul_le_mul_left n hlt
    rw [Nat.mul_succ] at this
    rw [length_padded,← mul_nPages hn]
    omega
  obtain ⟨page',hp',hrow⟩ := getElem?_logical rows hn hi hfit
  rw [hp] at hp'
  cases hp'
  rw [length_padded] at hfit
  rw [padded,List.getElem?_append_right hT,List.getElem?_replicate,if_pos (by omega)] at hrow
  exact logical_token hn h hp hrow

theorem to_paged_hnd_addressable (packed : Rows UInt8) (hw : packed.width = 584) {n : Nat}
    (hn : 1 ≤ n) : ∃ pages, toPagedHnd packed n = .ok pages ∧
      pages.physical.length = (packed.rows.length+n-1)/n ∧
      (∀ t row, packed.rows[t]? = some row →
        ∃ page, pages.physical[t/n]? = some page ∧ tokenBytes n page (t%n) = row) ∧
      (∀ p page, pages.physical[p]? = some page → page.length = 584*n ∧
        ∀ i < n, packed.rows.length ≤ n*p+i → tokenBytes n page i = List.replicate 584 0) ∧
      (∀ x y : Part × Nat, x.2 < n → y.2 < n → x ≠ y →
        Disjoint (addresses n x) (addresses n y)) ∧
      ∀ k, (∃ x : Part × Nat, x.2 < n ∧ k ∈ addresses n x) ↔ k < 584*n := by
  have heven : Even 584 packed.rows := fun r hr => (packed.even r hr).trans hw
  obtain ⟨pages,hok,hphys⟩ := toPagedHnd_ok _ hw hn
  refine ⟨pages,hok,?_,fun t row ht => ?_,fun p page hp => ?_,fun _ _ => addresses_disjoint,
    fun _ => addresses_cover⟩
  · rw [hphys,List.length_map,logical,length_blocks]
    exact nPages_eq hn
  · rw [hphys]
    exact paged_token hn heven ht
  · rw [hphys,List.getElem?_map,Option.map_eq_some_iff] at hp
    obtain ⟨l,hl,rfl⟩ := hp
    obtain ⟨hlen,hrows⟩ := logical_even hn heven l (List.mem_of_getElem? hl)
    exact ⟨by rw [length_footer hrows,hlen],fun i hi hT => paged_rest hn heven hl hi hT⟩

def token (d c : UInt8) : List UInt8 := List.replicate 576 d ++ List.replicate 8 c

theorem length_token (d c : UInt8) : (token d c).length = 584 := by
  rw [token,List.length_append,List.length_replicate,List.length_replicate]

def repeated (d c : UInt8) (t : Nat) : Rows UInt8 :=
  ⟨584,List.replicate t (token d c),Even.replicate (length_token d c) t⟩

theorem to_paged_hnd_three_tokens : (repeated 11 22 3).width = 584 ∧ 1 ≤ 2 ∧
    ∃ pages, toPagedHnd (repeated 11 22 3) 2 = .ok pages ∧ pages.physical.length = 2 := by
  obtain ⟨pages,hok,hlen,_⟩ := to_paged_hnd_addressable (repeated 11 22 3) rfl (n := 2) (by decide)
  refine ⟨rfl,by decide,pages,hok,?_⟩
  rw [hlen,repeated,List.length_replicate]

section Encoders

/-- `packed_swa_cache[layer, b]` or `packed_comp_cache[layer, b]` viewed
flat. -/
def pageBytes (s : Stores UInt8) (p : PackedName) (layer : Nat) (b : BlockId) (size : Nat) :
    Option (List UInt8) :=
  (s.packed p).map fun c => ((List.range size).map (c.cells layer b)).flatten

variable {cfg : StoreConfig} {s : Stores UInt8} {table : List BlockId} {m layer : Nat}
  {b : BlockId} {pool : String} {p : PackedName} {cache : Pool UInt8}

/-- `write_packed_kv` of the tokens of a whole page, and the page that
`to_paged_hnd` makes of them. -/
def Agree (cfg : StoreConfig) (s : Stores UInt8) (table : List BlockId) (m : Nat) (b : BlockId)
    (toks : Rows UInt8) (pool : String) (p : PackedName) (layer : Nat) : Prop :=
  ∃ pages page, toPagedHnd toks cfg.blockSize = .ok pages ∧ pages.physical = [page] ∧
    pageBytes (Stores.writePackedKv cfg s table (m*cfg.blockSize) toks pool layer).1 p layer b
      cfg.blockSize = some page

/-- The bytes of `n` tokens written one after another stay in place when they
are put at the footer addresses. -/
def Unmoved (n : Nat) (bytes : List UInt8) : Prop := ∀ i < n,
  (∀ j < 576, bytes[584*i+j]? = bytes[576*i+j]?) ∧
    ∀ j < 8, bytes[584*i+576+j]? = bytes[576*n+8*i+j]?

theorem footer_data {page : List (List UInt8)} (h : Even 584 page) {i j : Nat}
    (hi : i < page.length) (hj : j < 576) :
    (footer page)[576*i+j]? = page.flatten[584*i+j]? := by
  have hr := List.getElem?_eq_getElem hi
  have hd := h.take (k := 576) (by omega)
  have hlen := hd.length_flatten
  rw [List.length_map] at hlen
  have hrow : (page.map (List.take 576))[i]? = some (page[i].take 576) := by
    rw [List.getElem?_map,hr]
    rfl
  rw [footer,List.getElem?_append_left (by omega),hd.getElem?_flatten hrow hj,
    h.getElem?_flatten hr (by omega),List.getElem?_take_of_lt hj]

theorem footer_scales {page : List (List UInt8)} (h : Even 584 page) {i j : Nat}
    (hi : i < page.length) (hj : j < 8) :
    (footer page)[576*page.length+8*i+j]? = page.flatten[584*i+576+j]? := by
  have hr := List.getElem?_eq_getElem hi
  have hs := h.drop (k := 576)
  have hlen := (h.take (k := 576) (by omega)).length_flatten
  rw [List.length_map] at hlen
  have hrow : (page.map (List.drop 576))[i]? = some (page[i].drop 576) := by
    rw [List.getElem?_map,hr]
    rfl
  have hat : 576*page.length+8*i+j-(page.map (List.take 576)).flatten.length = 8*i+j := by omega
  rw [footer,List.getElem?_append_right (by omega),hat,hs.getElem?_flatten hrow hj,Nat.add_assoc,
    h.getElem?_flatten hr (by omega),List.getElem?_drop]

theorem flatten_eq_footer_iff {page : List (List UInt8)} (h : Even 584 page) :
    page.flatten = footer page ↔ Unmoved page.length page.flatten := by
  constructor
  · intro heq i hi
    refine ⟨fun j hj => ?_,fun j hj => ?_⟩
    · rw [← footer_data h hi hj,← heq]
    · rw [← footer_scales h hi hj,← heq]
  · intro hfix
    apply List.ext_getElem?
    intro k
    by_cases hd : k < 576*page.length
    · have hk : k = 576*(k/576)+k%576 := by omega
      rw [hk,footer_data h (by omega) (by omega)]
      exact ((hfix (k/576) (by omega)).1 _ (by omega)).symm
    · by_cases hs : k < 584*page.length
      · have hk : k = 576*page.length+8*((k-576*page.length)/8)+(k-576*page.length)%8 := by omega
        rw [hk,footer_scales h (by omega) (by omega)]
        exact ((hfix _ (by omega)).2 _ (by omega)).symm
      · rw [List.getElem?_eq_none (by rw [h.length_flatten]; omega),
          List.getElem?_eq_none (by rw [length_footer h]; omega)]

theorem writePackedKv_page (hp : Stores.packedName pool = .ok p) (hc : s.packed p = some cache)
    (hl : layer < cfg.numLayers) (hm : table[m]? = some b) (hb : b < cfg.numBlocks) (toks : Rows UInt8)
    (hw : toks.width = cache.width) (hn : toks.rows.length = cfg.blockSize) :
    Stores.writePackedKv cfg s table (m*cfg.blockSize) toks pool layer =
      (Stores.putPacked p layer toks s b 0 cfg.blockSize 0,.ok ()) := by
  have hpos := cfg.blockSize_pos
  have hlt := (List.getElem?_eq_some_iff.mp hm).1
  have hpages : cfg.pages (m*cfg.blockSize+cfg.blockSize) ≤ table.length := by
    rw [cfg.pages_le_iff,← Nat.succ_mul]
    exact Nat.mul_le_mul_right _ hlt
  have hrange : Stores.blockRange cfg b = none := by
    rw [Stores.blockRange,if_neg (Nat.not_le.mpr hb)]
  obtain ⟨fuel,hfuel⟩ : ∃ fuel, cfg.blockSize = fuel+1 := ⟨cfg.blockSize-1,by omega⟩
  have hspans : Paging.writeSpans cfg.blockSize table Stores.tableError (Stores.blockRange cfg)
      (Stores.putPacked p layer toks) (m*cfg.blockSize) cfg.blockSize (fuel+1) 0 s =
      (Stores.putPacked p layer toks s b 0 cfg.blockSize 0,.ok ()) := by
    rw [Paging.writeSpans,if_pos hpos]
    simp only [Nat.add_zero,Nat.mul_mod_left,Nat.sub_zero,Nat.min_self,Nat.mul_div_cancel m hpos,hm,
      hrange,Nat.zero_add]
    cases fuel with
    | zero => rfl
    | succ fuel => rw [Paging.writeSpans,if_neg (Nat.lt_irrefl _)]
  rw [← hfuel] at hspans
  rw [Stores.writePackedKv,hp]
  simp only [hc]
  rw [if_neg (List.ne_nil_of_mem (List.mem_of_getElem? hm)),if_neg (by omega),if_neg (by omega),
    if_neg (fun h => h hw),hn,if_neg (by omega),hspans]

theorem pageBytes_put (hc : s.packed p = some cache) (toks : Rows UInt8)
    (hn : toks.rows.length = cfg.blockSize) :
    pageBytes (Stores.putPacked p layer toks s b 0 cfg.blockSize 0) p layer b cfg.blockSize =
      some toks.rows.flatten := by
  rw [pageBytes,Stores.putPacked,Stores.setPacked_packed,if_pos rfl,hc]
  simp only [Option.map_some,Option.some.injEq]
  congr 1
  apply List.ext_getElem?
  intro i
  rw [List.getElem?_map]
  by_cases hi : i < cfg.blockSize
  · rw [List.getElem?_range hi,List.getElem?_eq_getElem (by omega)]
    simp only [Option.map_some,Stores.Pool.put,Stores.copySpan]
    rw [if_pos ⟨trivial,trivial,by omega,by omega⟩]
    simp only [Nat.zero_add,Nat.sub_zero,Option.some.injEq]
    exact (List.getElem_eq_getD _).symm
  · rw [List.getElem?_eq_none (by simpa using hi),List.getElem?_eq_none (by omega)]
    rfl

theorem logical_page {rows : List (List UInt8)} {n : Nat} (hn : 1 ≤ n) (hlen : rows.length = n) :
    logical rows n = [rows] := by
  have hpad : pad rows.length n = 0 := by rw [pad,hlen,Nat.mod_self,Nat.sub_zero,Nat.mod_self]
  have hpages : nPages rows.length n = 1 := by
    rw [nPages,hpad,hlen,Nat.add_zero,Nat.div_self hn]
  rw [logical,hpages,padded,hpad]
  simp [blocks,slice,← hlen]

theorem agree_iff (hp : Stores.packedName pool = .ok p) (hc : s.packed p = some cache)
    (hcw : cache.width = 584) (hl : layer < cfg.numLayers) (hm : table[m]? = some b)
    (hb : b < cfg.numBlocks) (toks : Rows UInt8) (hw : toks.width = 584)
    (hn : toks.rows.length = cfg.blockSize) :
    Agree cfg s table m b toks pool p layer ↔ Unmoved cfg.blockSize toks.rows.flatten := by
  have hpos : 1 ≤ cfg.blockSize := cfg.blockSize_pos
  have heven : Even 584 toks.rows := fun r hr => (toks.even r hr).trans hw
  have hwrite := writePackedKv_page hp hc hl hm hb toks (hw.trans hcw.symm) hn
  have hiff := flatten_eq_footer_iff heven
  rw [hn] at hiff
  rw [← hiff,Agree,hwrite,pageBytes_put hc toks hn]
  constructor
  · rintro ⟨pages,page,hok,hone,hbytes⟩
    rw [toPagedHnd,dif_pos hw,dif_pos hpos] at hok
    cases hok
    simp only [logical_page hpos hn,List.map_cons,List.map_nil,List.cons.injEq,and_true] at hone
    exact (Option.some.inj hbytes).trans hone.symm
  · intro heq
    refine ⟨_,footer toks.rows,by rw [toPagedHnd,dif_pos hw,dif_pos hpos],?_,by rw [heq]⟩
    simp only [logical_page hpos hn,List.map_cons,List.map_nil]

theorem unmoved_one (bytes : List UInt8) : Unmoved 1 bytes := by
  intro i hi
  have : i = 0 := by omega
  subst this
  exact ⟨fun j _ => rfl,fun j _ => rfl⟩

theorem repeated_moved {n : Nat} (hn : 2 ≤ n) {d c : UInt8} (hne : d ≠ c) :
    ¬ Unmoved n (repeated d c n).rows.flatten := by
  intro h
  have heven : Even 584 (repeated d c n).rows := (repeated d c n).even
  have hrow : ∀ i < n, (repeated d c n).rows[i]? = some (token d c) := fun i hi => by
    rw [repeated,List.getElem?_replicate,if_pos hi]
  -- the second token's first byte against the first token's first scale
  have hmove := (h 1 (by omega)).1 0 (by decide)
  have hsecond := heven.getElem?_flatten (j := 0) (hrow 1 (by omega)) (by decide)
  have hfirst := heven.getElem?_flatten (j := 576) (hrow 0 (by omega)) (by decide)
  have hd : (token d c)[0]? = some d := by
    rw [token,List.getElem?_append_left (by rw [List.length_replicate]; omega),
      List.getElem?_replicate,if_pos (by decide)]
  have hs : (token d c)[576]? = some c := by
    rw [token,List.getElem?_append_right (by rw [List.length_replicate]),List.length_replicate,
      List.getElem?_replicate,if_pos (by decide)]
  rw [hd] at hsecond
  rw [hs] at hfirst
  rw [hsecond,show 576*1+0 = 584*0+576 from rfl,hfirst] at hmove
  exact hne (Option.some.inj hmove)

theorem write_packed_kv_agrees_iff (hp : Stores.packedName pool = .ok p)
    (hc : s.packed p = some cache) (hcw : cache.width = 584) (hl : layer < cfg.numLayers)
    (hm : table[m]? = some b) (hb : b < cfg.numBlocks) :
    (∀ toks : Rows UInt8, toks.width = 584 → toks.rows.length = cfg.blockSize →
      (Stores.writePackedKv cfg s table (m*cfg.blockSize) toks pool layer).2 = .ok () ∧
        (Agree cfg s table m b toks pool p layer ↔ Unmoved cfg.blockSize toks.rows.flatten)) ∧
    ((∀ toks : Rows UInt8, toks.width = 584 → toks.rows.length = cfg.blockSize →
      Agree cfg s table m b toks pool p layer) ↔ cfg.blockSize = 1) := by
  have hiff := agree_iff hp hc hcw hl hm hb
  refine ⟨fun toks hw hn => ⟨?_,hiff toks hw hn⟩,fun hall => ?_,fun h1 toks hw hn => ?_⟩
  · rw [writePackedKv_page hp hc hl hm hb toks (hw.trans hcw.symm) hn]
  · have hpos := cfg.blockSize_pos
    by_contra hne
    have hlen : (repeated 11 22 cfg.blockSize).rows.length = cfg.blockSize := List.length_replicate
    exact repeated_moved (n := cfg.blockSize) (d := 11) (c := 22) (by omega) (by decide)
      ((hiff _ rfl hlen).mp (hall _ rfl hlen))
  · rw [hiff toks hw hn,h1]
    exact unmoved_one _

def smallConfig (size : Nat) (h : 0 < size) : StoreConfig where
  blockSize := size
  numBlocks := 2
  blockSize_pos := h
  numBlocks_pos := Nat.two_pos
  numLayers := 1
  numKvHeads := 1
  headDim := 1

def emptyPool : Pool UInt8 := ⟨584,fun _ _ _ => List.replicate 584 0⟩

def smallStores : Stores UInt8 where
  k := fun _ _ _ _ _ => 0
  v := fun _ _ _ _ _ => 0
  swa := some emptyPool
  comp := some emptyPool

theorem write_packed_kv_agrees_one_token :
    Stores.packedName "swa" = .ok .swa ∧ smallStores.packed .swa = some emptyPool ∧
      Agree (smallConfig 1 (by decide)) smallStores [0] 0 0 (repeated 11 22 1) "swa" .swa 0 :=
  ⟨rfl,rfl,((@write_packed_kv_agrees_iff (smallConfig 1 (by decide)) smallStores [0] 0 0 0 "swa" .swa
    emptyPool rfl rfl rfl (by decide) rfl (by decide)).2.mpr rfl) (repeated 11 22 1) rfl rfl⟩

theorem write_packed_kv_differs_two_tokens :
    ¬ Agree (smallConfig 2 (by decide)) smallStores [0] 0 0 (repeated 11 22 2) "swa" .swa 0 := by
  have hpool : smallStores.packed .swa = some emptyPool := rfl
  rw [agree_iff rfl hpool rfl (by decide) rfl (by decide) _ rfl rfl]
  exact repeated_moved (by decide) (by decide)

end Encoders

end SglangLite.Kv.Packed
