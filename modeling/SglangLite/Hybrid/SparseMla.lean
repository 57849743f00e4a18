import SglangLite.Kv.Packed

set_option autoImplicit false

namespace SglangLite.Hybrid.SparseMla

open Strides Kv Kv.Packed

/-- `[b, t, ...]` by its rows of `t` entries. -/
structure Batched (A : Type) (b t : Nat) where
  rows : List (List A)
  batch : rows.length = b
  even : Even t rows

/-- `idx >= 0` of an int32. -/
def valid (x : BitVec 32) : Bool := decide (0 ≤ x.toInt)

def lens (rows : List (List (BitVec 32))) : List (BitVec 32) :=
  rows.map fun xs => BitVec.ofNat 32 (xs.countP valid)

structure Split where
  swa : List (List (BitVec 32))
  swaLens : List (BitVec 32)
  comp : List (List (BitVec 32))
  compLens : List (BitVec 32)

/-- `torch.where(valid, comp - window_size, comp)`. -/
def relative (windowSize : Nat) (x : BitVec 32) : BitVec 32 :=
  if valid x then x-BitVec.ofNat 32 windowSize else x

/-- `split_swa_compress_indices` on the rows of `[B, S, K]`. -/
def splitSwaCompressIndices {n k : Nat} (topk : Batched (BitVec 32) n k) (windowSize : Nat) : Split :=
  let swaK := min windowSize k
  let swa := topk.rows.map (List.take swaK)
  if swaK < k then
    let comp := topk.rows.map (List.drop swaK)
    ⟨swa,lens swa,comp.map (List.map (relative windowSize)),lens comp⟩
  else ⟨swa,lens swa,List.replicate n [],List.replicate n 0⟩

/-- `torch.where(idx >= 0, idx + row * stride, idx)` in int32. -/
def shift (stride row : Nat) (x : BitVec 32) : BitVec 32 :=
  if valid x then x+BitVec.ofNat 32 row*BitVec.ofNat 32 stride else x

def offset (stride : Nat) (rows : List (List (BitVec 32))) : List (List (BitVec 32)) :=
  rows.mapIdx fun row xs => xs.map (shift stride row)

/-- `swa_tokens` and `comp_tokens` in batch-major order. -/
def swaFlat {A : Type} {b t : Nat} (kv : Batched A b t) (win : Nat) : List A :=
  (kv.rows.map (List.take win)).flatten

def compFlat {A : Type} {b t : Nat} (kv : Batched A b t) (win : Nat) : List A :=
  (kv.rows.map (List.drop win)).flatten

section Decode

variable {A : Type} {b t k : Nat}

/-- What `sparse_mla_decode_dsv4` is called with, besides the query and the
scales. -/
structure SparseArgs where
  swaKvCache : HndPages
  sparseIndices : List (List (BitVec 32))
  compressedKvCache : Option HndPages
  swaTopkLens : List (BitVec 32)
  extraSparseIndices : Option (List (List (BitVec 32)))
  extraSparseTopkLens : Option (List (BitVec 32))

/-- `pack_dsv4_kv_bf16` on a pool, by what it makes of a row. -/
def packRows (pack : A → { r : List UInt8 // r.length = 584 }) (pool : List A) : Rows UInt8 where
  width := 584
  rows := pool.map fun a => (pack a).1
  even := by
    intro r hr
    obtain ⟨a,_,rfl⟩ := List.mem_map.mp hr
    exact (pack a).2

/-- `sparse_mla_decode_from_official_tensors`, up to the call of the backend;
`q` is the shape of the query. -/
def sparseMlaDecode (pack : A → { r : List UInt8 // r.length = 584 }) (q : List Nat)
    (kv : Batched A b t) (topk : Batched (BitVec 32) b k) (windowSize : Nat) :
    Except PackError SparseArgs :=
  match q with
  | [b',1,_,d] =>
      if d ≠ 512 then .error (.valueError ("expected head_dim 512, got " ++ toString d))
      else if b ≠ b' then
        .error (.valueError ("kv shape (" ++ toString b ++ ", " ++ toString t
          ++ ", 512) incompatible with q batch " ++ toString b'))
      else do
        let win := min windowSize t
        let split := splitSwaCompressIndices topk win
        let some := !split.comp.flatten.isEmpty
        let swa := if 1 < b then offset win split.swa else split.swa
        let comp := if 1 < b ∧ some then offset (max (t-win) 1) split.comp else split.comp
        let swaPages ← toPagedHnd (packRows pack (swaFlat kv win)) 64
        let compPages ← if !(compFlat kv win).isEmpty && some then
            (toPagedHnd (packRows pack (compFlat kv win)) 64).map Option.some
          else .ok none
        return {
          swaKvCache := swaPages
          sparseIndices := swa
          compressedKvCache := compPages
          swaTopkLens := split.swaLens
          extraSparseIndices := if some then Option.some comp else none
          extraSparseTopkLens := if some then Option.some split.compLens else none }
  | _ => .error (.valueError "SM120 sparse hook supports decode q_len==1 only")

/-- The index tensors of a decode step: the columns of the window and those of
the compressed rows. -/
structure Official (topk : Batched (BitVec 32) b k) (windowSize t : Nat) : Prop where
  window : ∀ xs ∈ topk.rows, ∀ (c : Nat) x, c < windowSize → xs[c]? = some x →
    x.toInt = -1 ∨ 0 ≤ x.toInt ∧ x.toInt < windowSize
  rest : ∀ xs ∈ topk.rows, ∀ (c : Nat) x, windowSize ≤ c → xs[c]? = some x →
    x.toInt = -1 ∨ (windowSize : Int) ≤ x.toInt ∧ x.toInt < t

/-- A remapped index selects in its pool, and in the pages made of it, the row
that the official one selects in its batch row. -/
structure SameRow (pack : A → { r : List UInt8 // r.length = 584 }) (kvRow pool : List A)
    (pages : HndPages) (x y : BitVec 32) : Prop where
  masked : x.toInt = -1 → y.toInt = -1
  within : 0 ≤ x.toInt → 0 ≤ y.toInt ∧ y.toNat < pool.length
  row : 0 ≤ x.toInt → pool[y.toNat]? = kvRow[x.toNat]?
  page : ∀ a, 0 ≤ x.toInt → pool[y.toNat]? = some a →
    ∃ p, pages.physical[y.toNat/64]? = some p ∧ tokenBytes 64 p (y.toNat%64) = (pack a).1

structure Remaps (pack : A → { r : List UInt8 // r.length = 584 }) (kv : Batched A b t)
    (topk : Batched (BitVec 32) b k) (windowSize : Nat) (args : SparseArgs) : Prop where
  swa : ∀ (r c : Nat) kvRow xs x, kv.rows[r]? = some kvRow → topk.rows[r]? = some xs →
    c < windowSize → xs[c]? = some x → ∃ ys y, args.sparseIndices[r]? = some ys ∧
      ys[c]? = some y ∧ SameRow pack kvRow (swaFlat kv windowSize) args.swaKvCache x y
  comp : ∀ (r c : Nat) kvRow xs x, kv.rows[r]? = some kvRow → topk.rows[r]? = some xs →
    windowSize ≤ c → xs[c]? = some x → ∃ rows ys y, args.extraSparseIndices = some rows ∧
      rows[r]? = some ys ∧ ys[c-windowSize]? = some y ∧
      (x.toInt = -1 → y.toInt = -1) ∧
      (0 ≤ x.toInt → ∃ pages, args.compressedKvCache = some pages ∧
        SameRow pack kvRow (compFlat kv windowSize) pages x y)
  swaLens : ∀ (r : Nat) xs, topk.rows[r]? = some xs → ∃ l, args.swaTopkLens[r]? = some l ∧
    l.toInt = ((xs.take windowSize).countP valid : Int)
  compLens : ∀ (r : Nat) xs, topk.rows[r]? = some xs → windowSize < k →
    ∃ ls l, args.extraSparseTopkLens = some ls ∧ ls[r]? = some l ∧
      l.toInt = ((xs.drop windowSize).countP valid : Int)

section Vendor

/-- `get_window_topk_idxs`: the rows of one batch element. -/
def getWindowTopkIdxs (windowSize seqlen startPos : Nat) : List (List Int) :=
  if windowSize-1 ≤ startPos then
    let at' := startPos%windowSize
    [((List.range' (at'+1) (windowSize-(at'+1))) ++ List.range (at'+1)).map Int.ofNat]
  else if 0 < startPos then
    [(List.range (startPos+1)).map Int.ofNat ++ List.replicate (windowSize-startPos-1) (-1)]
  else
    (List.range seqlen).map fun (i : Nat) => (List.range (min seqlen windowSize)).map fun (j : Nat) =>
      let x : Int := max ((i : Int)-(windowSize : Int)+1) 0+(j : Int)
      if (i : Int) < x then -1 else x

/-- `get_compress_topk_idxs`. -/
def compressTopkIdxs (ratio seqlen startPos offset : Nat) : List (List Int) :=
  if 0 < startPos then [(List.range ((startPos+1)/ratio)).map fun j => Int.ofNat (j+offset)]
  else
    (List.range seqlen).map fun i => (List.range (seqlen/ratio)).map fun j =>
      if (i+1)/ratio ≤ j then -1 else Int.ofNat (j+offset)

end Vendor

theorem toNat_of_valid {x : BitVec 32} (h : 0 ≤ x.toInt) : (x.toNat : Int) = x.toInt := by
  have hx := x.isLt
  rw [BitVec.toInt_eq_toNat_cond] at h ⊢
  split_ifs at h ⊢ <;> omega

theorem toInt_of_lt {x : BitVec 32} (h : x.toNat < 2^31) : x.toInt = x.toNat := by
  rw [BitVec.toInt_eq_toNat_cond,if_pos (by omega)]

theorem shift_masked {stride row : Nat} {x : BitVec 32} (h : x.toInt = -1) :
    shift stride row x = x := if_neg (by simp [valid,h])

theorem shift_zero (stride : Nat) (x : BitVec 32) : shift stride 0 x = x := by
  rw [shift]
  split_ifs
  · simp
  · rfl

/-- While the pool has at most `2^31` rows the offset does not wrap. -/
theorem shift_valid {n stride row : Nat} {x : BitVec 32} (h : 0 ≤ x.toInt) (hx : x.toNat < stride)
    (hr : row < n) (hn : n*stride ≤ 2^31) : (shift stride row x).toNat = stride*row+x.toNat := by
  have hrow : row*stride+stride ≤ n*stride := by
    rw [← Nat.succ_mul]
    exact Nat.mul_le_mul_right stride hr
  have hle : row ≤ row*stride := Nat.le_mul_of_pos_right row (by omega)
  rw [shift,if_pos (by simpa [valid] using h),BitVec.toNat_add,BitVec.toNat_mul,BitVec.toNat_ofNat,
    BitVec.toNat_ofNat,Nat.mod_eq_of_lt (a := row) (by omega),
    Nat.mod_eq_of_lt (a := stride) (by omega),Nat.mod_eq_of_lt (a := row*stride) (by omega),
    Nat.mod_eq_of_lt (by omega),Nat.mul_comm,Nat.add_comm]

theorem relative_masked {win : Nat} {x : BitVec 32} (h : x.toInt = -1) : relative win x = x :=
  if_neg (by simp [valid,h])

theorem relative_valid {win : Nat} {x : BitVec 32} (hx : (win : Int) ≤ x.toInt) :
    (relative win x).toNat = x.toNat-win := by
  have hnat := toNat_of_valid (x := x) (by omega)
  have hlt := x.isLt
  have hint : x.toInt < 2^31 := by
    have := BitVec.toInt_lt (x := x)
    simpa using this
  rw [relative,if_pos (by simp [valid]; omega),BitVec.toNat_sub,BitVec.toNat_ofNat,
    Nat.mod_eq_of_lt (a := win) (by omega)]
  omega

variable {pack : A → { r : List UInt8 // r.length = 584 }} {kv : Batched A b t}
  {topk : Batched (BitVec 32) b k} {win : Nat} {kvRow : List A} {xs : List (BitVec 32)} {r : Nat}

theorem length_swaFlat (hw : win ≤ t) : (swaFlat kv win).length = win*b := by
  rw [swaFlat,(kv.even.take hw).length_flatten,List.length_map,kv.batch]

theorem length_compFlat : (compFlat kv win).length = (t-win)*b := by
  rw [compFlat,(kv.even.drop (k := win)).length_flatten,List.length_map,kv.batch]

theorem getElem?_swaFlat (hw : win ≤ t) (hr : kv.rows[r]? = some kvRow) {n : Nat} (hn : n < win) :
    (swaFlat kv win)[win*r+n]? = kvRow[n]? := by
  rw [swaFlat,(kv.even.take hw).getElem?_flatten (by rw [List.getElem?_map,hr]; rfl) hn,
    List.getElem?_take_of_lt hn]

theorem getElem?_compFlat (hr : kv.rows[r]? = some kvRow) {n : Nat} (hn : n < t-win) :
    (compFlat kv win)[(t-win)*r+n]? = kvRow[win+n]? := by
  rw [compFlat,(kv.even.drop (k := win)).getElem?_flatten (by rw [List.getElem?_map,hr]; rfl) hn,
    List.getElem?_drop]

theorem getElem?_offset {rows : List (List (BitVec 32))} (stride : Nat) {c : Prop} [Decidable c]
    (hr : rows[r]? = some xs) (hc : ¬ c → r = 0 ∨ xs = []) :
    (if c then offset stride rows else rows)[r]? = some (xs.map (shift stride r)) := by
  split_ifs with h
  · rw [offset,List.getElem?_mapIdx,hr]
    rfl
  · rcases hc h with rfl | rfl
    · have hid : shift stride 0 = id := funext (shift_zero stride)
      rw [hid,List.map_id,hr]
    · rw [hr]
      rfl

theorem lens_row {rows : List (List (BitVec 32))} (hr : rows[r]? = some xs) (hk : xs.length < 2^31) :
    ∃ l, (lens rows)[r]? = some l ∧ l.toInt = (xs.countP valid : Int) := by
  have hle := List.countP_le_length (p := valid) (l := xs)
  refine ⟨BitVec.ofNat 32 (xs.countP valid),by rw [lens,List.getElem?_map,hr]; rfl,?_⟩
  have hnat : (BitVec.ofNat 32 (xs.countP valid)).toNat = xs.countP valid := by
    rw [BitVec.toNat_ofNat,Nat.mod_eq_of_lt (by omega)]
  rw [toInt_of_lt (by omega),hnat]

variable (win) in
theorem split_swa (hr : topk.rows[r]? = some xs) :
    (splitSwaCompressIndices topk win).swa[r]? = some (xs.take win) ∧
      (splitSwaCompressIndices topk win).swaLens = lens (splitSwaCompressIndices topk win).swa := by
  have hlen := topk.even xs (List.mem_of_getElem? hr)
  have htake : xs.take (min win k) = xs.take win := by
    rw [← hlen,Nat.min_comm,List.take_eq_take_iff]
    omega
  rw [splitSwaCompressIndices]
  split_ifs <;> exact ⟨by rw [List.getElem?_map,hr,Option.map_some,htake],rfl⟩

variable (win) in
theorem split_comp (hr : topk.rows[r]? = some xs) :
    (splitSwaCompressIndices topk win).comp[r]? = some ((xs.drop win).map (relative win)) := by
  have hlen := topk.even xs (List.mem_of_getElem? hr)
  have hlt := (List.getElem?_eq_some_iff.mp hr).1
  rw [topk.batch] at hlt
  rw [splitSwaCompressIndices]
  split_ifs with hk
  · rw [Nat.min_eq_left (by omega),List.getElem?_map,List.getElem?_map,hr]
    rfl
  · rw [List.getElem?_replicate,if_pos hlt,List.drop_eq_nil_of_le (by omega)]
    rfl

theorem split_compLens (hw : win < k) :
    (splitSwaCompressIndices topk win).compLens = lens (topk.rows.map (List.drop win)) := by
  rw [splitSwaCompressIndices,if_pos (by omega),Nat.min_eq_left (by omega)]

theorem decode_ok (pack : A → { r : List UInt8 // r.length = 584 }) (kv : Batched A b t)
    (topk : Batched (BitVec 32) b k) (h : Nat) (hT : win ≤ t) :
    ∃ args, sparseMlaDecode pack [b,1,h,512] kv topk win = .ok args ∧
      args.swaKvCache.physical = (logical (packRows pack (swaFlat kv win)).rows 64).map footer ∧
      args.sparseIndices = (if 1 < b then offset win (splitSwaCompressIndices topk win).swa
        else (splitSwaCompressIndices topk win).swa) ∧
      args.swaTopkLens = (splitSwaCompressIndices topk win).swaLens ∧
      ((splitSwaCompressIndices topk win).comp.flatten ≠ [] →
        args.extraSparseIndices = some (if 1 < b then
          offset (max (t-win) 1) (splitSwaCompressIndices topk win).comp
          else (splitSwaCompressIndices topk win).comp) ∧
        args.extraSparseTopkLens = some (splitSwaCompressIndices topk win).compLens ∧
        (compFlat kv win ≠ [] → ∃ pages, args.compressedKvCache = some pages ∧
          pages.physical = (logical (packRows pack (compFlat kv win)).rows 64).map footer)) := by
  obtain ⟨swaPages,hswa,hphys⟩ := toPagedHnd_ok (packRows pack (swaFlat kv win)) rfl
    (n := 64) (by decide)
  obtain ⟨compPages,hcomp,hphys'⟩ := toPagedHnd_ok (packRows pack (compFlat kv win)) rfl
    (n := 64) (by decide)
  simp only [sparseMlaDecode,ne_eq,not_true_eq_false,if_false,Nat.min_eq_left hT,hswa,hcomp]
  by_cases hnumel : (splitSwaCompressIndices topk win).comp.flatten = []
  · simp only [hnumel,List.isEmpty_nil,Bool.not_true,Bool.and_false,Bool.false_eq_true,if_false]
    exact ⟨_,rfl,hphys,rfl,rfl,fun hne => absurd trivial hne⟩
  · have hsome : (!(splitSwaCompressIndices topk win).comp.flatten.isEmpty) = true := by
      simpa using hnumel
    by_cases hpool : compFlat kv win = []
    · simp only [hsome,hpool,List.isEmpty_nil,Bool.not_true,Bool.false_and,Bool.false_eq_true,if_false,
        if_true,and_true]
      exact ⟨_,rfl,hphys,rfl,rfl,fun _ => ⟨rfl,rfl,fun hne => absurd trivial hne⟩⟩
    · have hfull : (!(compFlat kv win).isEmpty) = true := by simpa using hpool
      simp only [hsome,hfull,Bool.and_true,if_true,and_true]
      exact ⟨_,rfl,hphys,rfl,rfl,fun _ => ⟨rfl,rfl,fun _ => ⟨compPages,rfl,hphys'⟩⟩⟩

theorem same_row {pool : List A} {pages : HndPages} {x y : BitVec 32} {m : Nat}
    (hphys : pages.physical = (logical (packRows pack pool).rows 64).map footer)
    (hy : y.toNat = m) (hlt : m < pool.length) (hsmall : m < 2^31) (h0 : 0 ≤ x.toInt)
    (hrow : pool[m]? = kvRow[x.toNat]?) : SameRow pack kvRow pool pages x y where
  masked := fun h => by omega
  within := fun _ => ⟨by rw [toInt_of_lt (by omega)]; omega,by omega⟩
  row := fun _ => by rw [hy,hrow]
  page := fun a _ ha => by
    rw [hphys]
    refine paged_token (by decide) (packRows pack pool).even ?_
    simp only [packRows,List.getElem?_map,ha,Option.map_some]

theorem masked_row {pool : List A} {pages : HndPages} {x : BitVec 32} (h : x.toInt = -1) :
    SameRow pack kvRow pool pages x x where
  masked := fun _ => h
  within := fun h0 => by omega
  row := fun h0 => by omega
  page := fun _ h0 => by omega

theorem row_lt (hr : topk.rows[r]? = some xs) : r < b := by
  have hlt := (List.getElem?_eq_some_iff.mp hr).1
  rwa [topk.batch] at hlt

theorem comp_ne_nil (hr : topk.rows[r]? = some xs) (hk : win < k) :
    (splitSwaCompressIndices topk win).comp.flatten ≠ [] := by
  intro hnil
  have hlen := topk.even xs (List.mem_of_getElem? hr)
  have hrow := List.flatten_eq_nil_iff.mp hnil _ (List.mem_of_getElem? (split_comp win hr))
  rw [List.map_eq_nil_iff,List.drop_eq_nil_iff] at hrow
  omega

theorem part_le (hb : r < b) (n : Nat) : n*r+n ≤ b*n := by
  rw [← Nat.mul_succ,Nat.mul_comm]
  exact Nat.mul_le_mul_right n hb

section Columns

variable {c : Nat} {x : BitVec 32} {pages : HndPages}

theorem swa_same_row (hT : win ≤ t) (ho : Official topk win t) (hB : b*win ≤ 2^31)
    (hphys : pages.physical = (logical (packRows pack (swaFlat kv win)).rows 64).map footer)
    (hkv : kv.rows[r]? = some kvRow) (hr : topk.rows[r]? = some xs) (hc : c < win)
    (hx : xs[c]? = some x) : SameRow pack kvRow (swaFlat kv win) pages x (shift win r x) := by
  rcases ho.window xs (List.mem_of_getElem? hr) c x hc hx with hm | ⟨h0,hlt⟩
  · rw [shift_masked hm]
    exact masked_row hm
  · have hb := row_lt hr
    have hnat := toNat_of_valid h0
    have hle := part_le hb win
    have hlen : (swaFlat kv win).length = b*win := by rw [length_swaFlat hT,Nat.mul_comm]
    refine same_row hphys (shift_valid h0 (by omega) hb hB) (by omega) (by omega) h0 ?_
    exact getElem?_swaFlat hT hkv (by omega)

variable (kv) in
theorem rest_pool (ho : Official topk win t) (hr : topk.rows[r]? = some xs) (hc : win ≤ c)
    (hx : xs[c]? = some x) (h0 : 0 ≤ x.toInt) :
    (win : Int) ≤ x.toInt ∧ x.toInt < t ∧ compFlat kv win ≠ [] := by
  rcases ho.rest xs (List.mem_of_getElem? hr) c x hc hx with hm | ⟨hwin,htop⟩
  · omega
  · have hle := part_le (row_lt hr) (t-win)
    have hlen : (compFlat kv win).length = b*(t-win) := by rw [length_compFlat,Nat.mul_comm]
    refine ⟨hwin,htop,fun hnil => ?_⟩
    rw [hnil,List.length_nil] at hlen
    omega

theorem comp_same_row (ho : Official topk win t) (hC : b*(t-win) ≤ 2^31)
    (hphys : pages.physical = (logical (packRows pack (compFlat kv win)).rows 64).map footer)
    (hkv : kv.rows[r]? = some kvRow) (hr : topk.rows[r]? = some xs) (hc : win ≤ c)
    (hx : xs[c]? = some x) (h0 : 0 ≤ x.toInt) :
    SameRow pack kvRow (compFlat kv win) pages x (shift (max (t-win) 1) r (relative win x)) := by
  obtain ⟨hwin,htop,_⟩ := rest_pool kv ho hr hc hx h0
  have hb := row_lt hr
  have hnat := toNat_of_valid h0
  have hrel := relative_valid hwin
  have hx31 := BitVec.toInt_lt (x := x)
  have hrel0 : 0 ≤ (relative win x).toInt := by
    rw [toInt_of_lt (by omega)]
    omega
  have hle := part_le hb (t-win)
  have hlen : (compFlat kv win).length = b*(t-win) := by rw [length_compFlat,Nat.mul_comm]
  rw [show max (t-win) 1 = t-win by omega]
  refine same_row hphys (shift_valid hrel0 (by omega) hb hC) (by omega) (by omega) h0 ?_
  rw [getElem?_compFlat hkv (by omega)]
  congr 1
  omega

end Columns

theorem sparse_indices_select_same_rows (pack : A → { r : List UInt8 // r.length = 584 }) (kv : Batched A b t)
    (topk : Batched (BitVec 32) b k) (h : Nat) (hT : win ≤ t) (ho : Official topk win t)
    (hB : b*win ≤ 2^31) (hC : b*(t-win) ≤ 2^31) (hK : k < 2^31) :
    ∃ args, sparseMlaDecode pack [b,1,h,512] kv topk win = .ok args ∧ Remaps pack kv topk win args := by
  obtain ⟨args,hok,hphys,hswa,hlens,hcomp⟩ := decode_ok pack kv topk h hT
  refine ⟨args,hok,fun r c kvRow xs x hkv hr hc hx => ?_,fun r c kvRow xs x hkv hr hc hx => ?_,
    fun r xs hr => ?_,fun r xs hr hk => ?_⟩
  · have hb := row_lt hr
    have htake : (xs.take win)[c]? = some x := by rw [List.getElem?_take_of_lt hc,hx]
    have hrow := getElem?_offset win (c := 1 < b) (split_swa win hr).1
      fun hn => .inl (by omega)
    exact ⟨_,shift win r x,by rw [hswa,hrow],by rw [List.getElem?_map,htake]; rfl,
      swa_same_row hT ho hB hphys hkv hr hc hx⟩
  · have hb := row_lt hr
    have hlen := topk.even xs (List.mem_of_getElem? hr)
    have hlt := (List.getElem?_eq_some_iff.mp hx).1
    obtain ⟨hidx,_,hpages⟩ := hcomp (comp_ne_nil hr (by omega))
    have hdrop : (xs.drop win)[c-win]? = some x := by
      rw [List.getElem?_drop,show win+(c-win) = c by omega,hx]
    have hrow := getElem?_offset (max (t-win) 1) (c := 1 < b) (split_comp win hr)
      fun hn => .inl (by omega)
    refine ⟨_,_,shift (max (t-win) 1) r (relative win x),hidx,hrow,?_,fun hm => ?_,fun h0 => ?_⟩
    · rw [List.getElem?_map,List.getElem?_map,hdrop]
      rfl
    · rw [relative_masked hm,shift_masked hm,hm]
    · obtain ⟨pages,hsome,hphys'⟩ := hpages (rest_pool kv ho hr hc hx h0).2.2
      exact ⟨pages,hsome,comp_same_row ho hC hphys' hkv hr hc hx h0⟩
  · obtain ⟨hsplit,hl⟩ := split_swa win hr
    have hlen := topk.even xs (List.mem_of_getElem? hr)
    rw [hlens,hl]
    exact lens_row hsplit (by rw [List.length_take]; omega)
  · have hlen := topk.even xs (List.mem_of_getElem? hr)
    obtain ⟨_,hls,_⟩ := hcomp (comp_ne_nil hr hk)
    rw [split_compLens hk] at hls
    have hdrop : (topk.rows.map (List.drop win))[r]? = some (xs.drop win) := by
      rw [List.getElem?_map,hr]
      rfl
    obtain ⟨l,hl,hcount⟩ := lens_row hdrop (by rw [List.length_drop]; omega)
    exact ⟨_,l,hls,hl,hcount⟩

def repeated {B : Type} (n : Nat) (xs : List B) : Batched B n xs.length :=
  ⟨List.replicate n xs,List.length_replicate,Even.replicate rfl n⟩

def decodeRow (windowSize ratio startPos : Nat) : List Int :=
  (getWindowTopkIdxs windowSize 1 startPos).flatten
    ++ (compressTopkIdxs ratio 1 startPos windowSize).flatten

theorem window_row {windowSize startPos : Nat} (hw : 1 ≤ windowSize) (hp : 0 < startPos) :
    (getWindowTopkIdxs windowSize 1 startPos).flatten.length = windowSize ∧
      ∀ x ∈ (getWindowTopkIdxs windowSize 1 startPos).flatten, x = -1 ∨ 0 ≤ x ∧ x < windowSize := by
  have hlt := Nat.mod_lt startPos hw
  rw [getWindowTopkIdxs]
  split_ifs with hfull
  · simp only [List.flatten_cons,List.flatten_nil,List.append_nil]
    refine ⟨?_,fun x hx => ?_⟩
    · rw [List.length_map,List.length_append,List.length_range',List.length_range]
      omega
    · obtain ⟨n,hn,rfl⟩ := List.mem_map.mp hx
      rw [List.mem_append,List.mem_range'_1,List.mem_range] at hn
      simp only [Int.ofNat_eq_natCast]
      omega
  · simp only [List.flatten_cons,List.flatten_nil,List.append_nil]
    refine ⟨?_,fun x hx => ?_⟩
    · rw [List.length_append,List.length_map,List.length_range,List.length_replicate]
      omega
    · rcases List.mem_append.mp hx with hx | hx
      · obtain ⟨n,hn,rfl⟩ := List.mem_map.mp hx
        rw [List.mem_range] at hn
        simp only [Int.ofNat_eq_natCast]
        omega
      · exact .inl (List.eq_of_mem_replicate hx)

theorem compress_row (ratio offset : Nat) {startPos : Nat} (hp : 0 < startPos) :
    ∀ x ∈ (compressTopkIdxs ratio 1 startPos offset).flatten,
      (offset : Int) ≤ x ∧ x < offset+((startPos+1)/ratio : Nat) := by
  rw [compressTopkIdxs,if_pos hp]
  intro x hx
  simp only [List.flatten_cons,List.flatten_nil,List.append_nil] at hx
  obtain ⟨j,hj,rfl⟩ := List.mem_map.mp hx
  rw [List.mem_range] at hj
  simp only [Int.ofNat_eq_natCast]
  omega

theorem official_decode {windowSize ratio startPos n : Nat} (hw : 1 ≤ windowSize)
    (hp : 0 < startPos) (ht : windowSize+(startPos+1)/ratio ≤ t) (hsmall : t ≤ 2^31) :
    Official (repeated n ((decodeRow windowSize ratio startPos).map (BitVec.ofInt 32)))
      windowSize t := by
  obtain ⟨hlen,hwin⟩ := window_row hw hp
  have hcomp := compress_row ratio windowSize hp
  have hle : windowSize ≤ 2^31 := (Nat.le_add_right _ _).trans (ht.trans hsmall)
  have hint : ∀ x : Int, -1 ≤ x → x < 2^31 → (BitVec.ofInt 32 x).toInt = x := fun x h1 h2 => by
    rw [BitVec.toInt_ofInt]
    exact Int.bmod_eq_of_le (by omega) (by omega)
  refine ⟨fun xs hxs c x hc hx => ?_,fun xs hxs c x hc hx => ?_⟩
  · rw [List.eq_of_mem_replicate hxs,List.getElem?_map,decodeRow,
      List.getElem?_append_left (by omega),Option.map_eq_some_iff] at hx
    obtain ⟨v,hv,rfl⟩ := hx
    have := hwin v (List.mem_of_getElem? hv)
    rw [hint v (by omega) (by omega)]
    exact this
  · rw [List.eq_of_mem_replicate hxs,List.getElem?_map,decodeRow,
      List.getElem?_append_right (by omega),Option.map_eq_some_iff] at hx
    obtain ⟨v,hv,rfl⟩ := hx
    have := hcomp v (List.mem_of_getElem? hv)
    rw [hint v (by omega) (by omega)]
    exact .inr ⟨this.1,by omega⟩

def packByte (a : UInt8) : { r : List UInt8 // r.length = 584 } :=
  ⟨List.replicate 584 a,List.length_replicate⟩

theorem sparse_indices_two_rows :
    ∃ args, sparseMlaDecode packByte [2,1,1,512] (repeated 2 [5,6,7])
        (repeated 2 ((decodeRow 2 2 1).map (BitVec.ofInt 32))) 2 = .ok args ∧
      Remaps packByte (repeated 2 [5,6,7])
        (repeated 2 ((decodeRow 2 2 1).map (BitVec.ofInt 32))) 2 args :=
  sparse_indices_select_same_rows packByte (repeated 2 [5,6,7])
    (repeated 2 ((decodeRow 2 2 1).map (BitVec.ofInt 32))) 1 (by decide)
    (official_decode (by decide) (by decide) (by decide) (by decide)) (by decide) (by decide)
    (by decide)

/-- With `2^24+1` sequences and the window of 128 the offset of the last one
wraps. -/
theorem sparse_indices_wrap :
    Official (repeated 16777217 (List.replicate 128 (0 : BitVec 32))) 128 128 ∧
      ¬ ∃ args, sparseMlaDecode packByte [16777217,1,1,512]
          (repeated 16777217 (List.replicate 128 5))
          (repeated 16777217 (List.replicate 128 (0 : BitVec 32))) 128 = .ok args ∧
        Remaps packByte (repeated 16777217 (List.replicate 128 5))
          (repeated 16777217 (List.replicate 128 (0 : BitVec 32))) 128 args := by
  have hrow : ∀ {B : Type} (xs : List B), (repeated 16777217 xs).rows[16777216]? = some xs :=
    fun xs => by rw [repeated,List.getElem?_replicate,if_pos (by omega)]
  refine ⟨⟨fun xs hxs c x _ hx => ?_,fun xs hxs c x _ hx => ?_⟩,?_⟩
  · have hmem := List.mem_of_getElem? hx
    rw [List.eq_of_mem_replicate hxs] at hmem
    rw [List.eq_of_mem_replicate hmem]
    decide
  · have hlt := (List.getElem?_eq_some_iff.mp hx).1
    rw [List.eq_of_mem_replicate hxs,List.length_replicate] at hlt
    omega
  · rintro ⟨args,hok,hre⟩
    obtain ⟨args',hok',_,hswa,_⟩ := decode_ok packByte (repeated 16777217 (List.replicate 128 5))
      (repeated 16777217 (List.replicate 128 (0 : BitVec 32))) 1
      (show 128 ≤ _ by rw [List.length_replicate])
    have hargs := hok.symm.trans hok'
    cases hargs
    obtain ⟨ys,y,hys,hy,hsame⟩ := hre.swa 16777216 0 _ _ 0 (hrow _) (hrow _) (by decide) rfl
    have hsplit := (split_swa 128 (hrow (List.replicate 128 (0 : BitVec 32)))).1
    rw [hswa,getElem?_offset _ hsplit fun hn => absurd (by decide) hn] at hys
    cases hys
    have hshift : y = shift 128 16777216 0 := by
      have hat : ((List.replicate 128 (0 : BitVec 32)).take 128)[0]? = some 0 := rfl
      rw [List.getElem?_map,hat] at hy
      exact (Option.some.inj hy).symm
    have h0 := (hsame.within (by decide)).1
    rw [hshift] at h0
    exact absurd h0 (by decide)

end Decode

end SglangLite.Hybrid.SparseMla
