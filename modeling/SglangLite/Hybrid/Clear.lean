import Mathlib.Data.List.Forall2
import Mathlib.Tactic.SplitIfs
import SglangLite.Hybrid.Compressor

set_option autoImplicit false

namespace SglangLite.Hybrid

variable {S X : Type} {c : Scalars S} {args : ModelArgs}

namespace Buffer

variable {t : Buffer S} {slot lo : Nat}

@[simp] theorem shape_clearFrom : (t.clearFrom c slot lo).shape = t.shape := by
  unfold clearFrom
  split_ifs <;> rfl

theorem clearFrom_other {i : Nat} (hs : slot < t.rows) (hi : i ≠ slot) :
    (t.clearFrom c slot lo).row i = t.row i := by
  unfold clearFrom
  rw [if_pos hs]
  split_ifs
  · rfl
  · funext p
    simp [row,zeroRow,hi]

theorem clearFrom_row (hs : slot < t.rows) (p : Nat) :
    (t.clearFrom c slot lo).row slot p =
      if p < t.size ∧ lo ≤ p then List.replicate t.dim c.zero else t.row slot p := by
  unfold clearFrom
  rw [if_pos hs]
  split_ifs with hn hp hp
  · have hdim : t.dim = 0 := by
      rcases Nat.mul_eq_zero.mp hn with h | h
      · rcases Nat.mul_eq_zero.mp h with h | h <;> omega
      · exact h
    have hlen := t.length slot p
    rw [hdim] at hlen ⊢
    simp [row,List.eq_nil_of_length_eq_zero hlen]
  · rfl
  · simp [row,zeroRow,hp]
  · simp only [row,zeroRow,true_and]
    split_ifs <;> simp_all

theorem clear_row (hs : slot < t.rows) :
    (t.clear c slot).row slot = (full t.rows t.size t.dim c.zero).row slot := by
  funext p
  rw [clear,clearFrom_row hs]
  by_cases hp : p < t.size <;> simp [row,full,hp]

theorem rows_clear : (t.clear c slot).rows = t.rows := congrArg Prod.fst (shape_clearFrom (c := c))

theorem clearFrom_clear (hs : slot < t.rows) :
    ((t.clear c slot).clearFrom c slot lo).row slot = (t.clear c slot).row slot := by
  have hshape : (t.clear c slot).shape = t.shape := shape_clearFrom
  simp only [shape,Prod.mk.injEq] at hshape
  funext p
  rw [clearFrom_row (by rw [rows_clear]; exact hs),clear_row hs,hshape.2.1,hshape.2.2]
  by_cases hp : p < t.size <;> simp [row,full,hp]

end Buffer

def CompressorState.shape (st : CompressorState S) : (Nat × Nat × Nat) × (Nat × Nat × Nat) :=
  (st.kvState.shape,st.scoreState.shape)

def IndexerState.shape (st : IndexerState S) := (st.kvCache.shape,st.compressor.shape)

def AttentionState.shape (st : AttentionState S) :=
  (st.kvCache.shape,st.compressor.map CompressorState.shape,st.indexer.map IndexerState.shape)

def freshModel (c : Scalars S) (args : ModelArgs) (ratios : List Nat) : List (AttentionState S) :=
  ratios.map (freshAttention c args)

/-- The buffers have the shapes of a model with these ratios; their contents are
arbitrary. -/
def Built (c : Scalars S) (args : ModelArgs) (ratios : List Nat) (model : List (AttentionState S)) : Prop :=
  model.map AttentionState.shape = (freshModel c args ratios).map AttentionState.shape

def slotRows (slot : Nat) (model : List (AttentionState S)) : List (LayerRow S) :=
  model.map (AttentionState.row slot)

/-- The scores as `clear_v4_kv_slot` leaves them: like the keys and values. -/
def CompressorRow.unscored (r : CompressorRow S) : CompressorRow S := ⟨r.kv,r.kv⟩

def LayerRow.unscored (r : LayerRow S) : LayerRow S where
  cache := r.cache
  comp := r.comp.map CompressorRow.unscored
  index := r.index.map fun ix => (ix.1,ix.2.unscored)

section Rows

variable {slot ratio dim : Nat} {st : AttentionState S}

theorem row_full {t : Buffer S} {rows size dim : Nat} {v : S} (hs : slot < rows)
    (ht : t.shape = (Buffer.full rows size dim v).shape) :
    (t.clear c slot).row slot = (Buffer.full rows size dim c.zero).row slot := by
  simp only [Buffer.shape,Buffer.full,Prod.mk.injEq] at ht
  rw [Buffer.clear_row (by rw [ht.1]; exact hs),ht.1,ht.2.1,ht.2.2]

theorem compressor_cleared {st : CompressorState S} (hs : slot < args.maxBatchSize)
    (h : st.shape = (freshCompressor c args ratio dim).shape) :
    (st.clear c slot).row slot = ((freshCompressor c args ratio dim).row slot).unscored := by
  simp only [CompressorState.shape,Prod.mk.injEq] at h
  have h1 := row_full (c := c) hs h.1
  have h2 := row_full (c := c) hs h.2
  simp only [CompressorState.row,CompressorState.clear,CompressorRow.unscored,CompressorRow.mk.injEq]
  exact ⟨h1,h2⟩

theorem attention_cleared (hs : slot < args.maxBatchSize)
    (h : st.shape = (freshAttention c args ratio).shape) :
    (st.clear c slot args.windowSize).row slot = ((freshAttention c args ratio).row slot).unscored := by
  simp only [AttentionState.shape,Prod.mk.injEq] at h
  obtain ⟨hkv,hcomp,hindex⟩ := h
  have hrows : slot < st.kvCache.rows := by
    rw [show st.kvCache.rows = args.maxBatchSize from congrArg Prod.fst hkv]
    exact hs
  have hcache : (st.clear c slot args.windowSize).kvCache.row slot =
      ((freshAttention c args ratio).row slot).cache := by
    refine Eq.trans ?_ (row_full (c := c) hs hkv)
    unfold AttentionState.clear
    simp only
    split_ifs
    · exact Buffer.clearFrom_clear hrows
    · rfl
  have hc : (st.clear c slot args.windowSize).compressor.map (CompressorState.row slot) =
      ((freshAttention c args ratio).compressor.map (CompressorState.row slot)).map
        CompressorRow.unscored := by
    unfold AttentionState.clear
    simp only [Option.map_map]
    cases hst : st.compressor with
    | none =>
      rw [hst] at hcomp
      rw [Option.map_eq_none_iff.mp hcomp.symm]
      rfl
    | some q =>
      rw [hst] at hcomp
      obtain ⟨q',hq',hsh⟩ := Option.map_eq_some_iff.mp hcomp.symm
      rw [hq']
      have hq'' : q' = freshCompressor c args ratio args.headDim := by
        simp only [freshAttention] at hq'
        split_ifs at hq'
        exact (Option.some.inj hq').symm
      subst hq''
      simp [compressor_cleared hs hsh.symm]
  have hi : (st.clear c slot args.windowSize).indexer.map
        (fun ix => (ix.kvCache.row slot,ix.compressor.row slot)) =
      ((freshAttention c args ratio).indexer.map
        fun ix => (ix.kvCache.row slot,(ix.compressor.row slot).unscored)) := by
    unfold AttentionState.clear
    simp only [Option.map_map]
    cases hst : st.indexer with
    | none =>
      rw [hst] at hindex
      rw [Option.map_eq_none_iff.mp hindex.symm]
      rfl
    | some q =>
      rw [hst] at hindex
      obtain ⟨q',hq',hsh⟩ := Option.map_eq_some_iff.mp hindex.symm
      rw [hq']
      have hq'' : q' = freshIndexer c args ratio := by
        simp only [freshAttention] at hq'
        split_ifs at hq'
        exact (Option.some.inj hq').symm
      subst hq''
      simp only [IndexerState.shape,Prod.mk.injEq] at hsh
      have hqrows : slot < q.kvCache.rows := by
        rw [show q.kvCache.rows = args.maxBatchSize from congrArg Prod.fst hsh.1.symm]
        exact hs
      have hqkv := row_full (c := c) hs hsh.1.symm
      simp only [Option.map_some,Function.comp_apply,Option.some.injEq,Prod.mk.injEq]
      refine ⟨Eq.trans ?_ hqkv,compressor_cleared hs hsh.2.symm⟩
      split_ifs
      · exact Buffer.clearFrom_clear hqrows
      · rfl
  simp only [AttentionState.row,LayerRow.unscored,LayerRow.mk.injEq]
  refine ⟨hcache,hc,?_⟩
  rw [Option.map_map]
  exact hi

theorem attention_other {i : Nat} (hs : slot < args.maxBatchSize)
    (h : st.shape = (freshAttention c args ratio).shape) (hi : i ≠ slot) :
    (st.clear c slot args.windowSize).row i = st.row i := by
  simp only [AttentionState.shape,Prod.mk.injEq] at h
  obtain ⟨hkv,hcomp,hindex⟩ := h
  have hclear : ∀ {t : Buffer S} {rows size dim : Nat} {v : S} (lo : Nat),
      t.shape = (Buffer.full rows size dim v).shape → rows = args.maxBatchSize →
      ((t.clear c slot).clearFrom c slot lo).row i = t.row i ∧ (t.clear c slot).row i = t.row i := by
    intro t rows size dim v lo ht hr
    have hrows : slot < t.rows := by
      rw [show t.rows = rows from congrArg Prod.fst ht,hr]
      exact hs
    have h1 : (t.clear c slot).row i = t.row i := Buffer.clearFrom_other hrows hi
    exact ⟨(Buffer.clearFrom_other (by rw [Buffer.rows_clear]; exact hrows) hi).trans h1,h1⟩
  have hstate : ∀ {q : CompressorState S} {dim : Nat}, q.shape = (freshCompressor c args ratio dim).shape →
      (q.clear c slot).row i = q.row i := by
    intro q dim hq
    simp only [CompressorState.shape,Prod.mk.injEq] at hq
    simp only [CompressorState.row,CompressorState.clear,CompressorRow.mk.injEq]
    exact ⟨(hclear 0 hq.1 rfl).2,(hclear 0 hq.2 rfl).2⟩
  simp only [AttentionState.row,AttentionState.clear,Option.map_map,LayerRow.mk.injEq]
  refine ⟨?_,?_,?_⟩
  · split_ifs
    · exact (hclear _ hkv rfl).1
    · exact (hclear 0 hkv rfl).2
  · refine Option.map_congr fun q hq => ?_
    rw [hq] at hcomp
    obtain ⟨q',hq',hsh⟩ := Option.map_eq_some_iff.mp hcomp.symm
    simp only [freshAttention] at hq'
    split_ifs at hq'
    rw [← Option.some.inj hq'] at hsh
    exact hstate hsh.symm
  · refine Option.map_congr fun q hq => ?_
    rw [hq] at hindex
    obtain ⟨q',hq',hsh⟩ := Option.map_eq_some_iff.mp hindex.symm
    simp only [freshAttention] at hq'
    split_ifs at hq'
    rw [← Option.some.inj hq'] at hsh
    simp only [IndexerState.shape,Prod.mk.injEq] at hsh
    simp only [Function.comp_apply,Prod.mk.injEq]
    refine ⟨?_,hstate hsh.2.symm⟩
    split_ifs
    · exact (hclear 0 hsh.1.symm rfl).1
    · exact (hclear 0 hsh.1.symm rfl).2

variable {ratios : List Nat} {model : List (AttentionState S)}

theorem slotRows_cleared (hs : slot < args.maxBatchSize) (h : Built c args ratios model) :
    slotRows slot (clearV4KvSlot c slot args model) =
      (slotRows slot (freshModel c args ratios)).map LayerRow.unscored := by
  simp only [Built,freshModel,List.map_map] at h
  simp only [slotRows,clearV4KvSlot,freshModel,List.map_map]
  induction model generalizing ratios with
  | nil =>
    cases ratios with
    | nil => rfl
    | cons r ratios => simp at h
  | cons st model ih =>
    cases ratios with
    | nil => simp at h
    | cons r ratios =>
      simp only [List.map_cons,List.cons.injEq] at h ⊢
      exact ⟨attention_cleared hs h.1,ih h.2⟩

theorem slotRows_other {i : Nat} (hs : slot < args.maxBatchSize) (h : Built c args ratios model)
    (hi : i ≠ slot) : slotRows i (clearV4KvSlot c slot args model) = slotRows i model := by
  simp only [slotRows,clearV4KvSlot,List.map_map]
  refine List.map_congr_left fun st hst => ?_
  have hmem : st.shape ∈ (freshModel c args ratios).map AttentionState.shape :=
    h ▸ List.mem_map_of_mem hst
  simp only [freshModel,List.map_map,List.mem_map,Function.comp_apply] at hmem
  obtain ⟨r,_,hr⟩ := hmem
  exact attention_other hs hr.symm hi

/-- Only a layer without a compressor has nothing in its scores to lose. -/
theorem unscored_fresh_iff :
    ((freshAttention c args ratio).row slot).unscored = (freshAttention c args ratio).row slot ↔
      ratio = 0 := by
  constructor
  · intro h
    by_contra hr
    have hcomp := congrArg LayerRow.comp h
    simp only [LayerRow.unscored,AttentionState.row,freshAttention,if_neg hr,Option.map_some,
      Option.some.injEq] at hcomp
    have hscore := congrFun (congrArg CompressorRow.score hcomp) 0
    have hcoff : 0 < coff ratio := by unfold coff; split_ifs <;> omega
    have hsize : 0 < coff ratio*ratio := Nat.mul_pos hcoff (Nat.pos_of_ne_zero hr)
    have hdim : coff ratio*args.headDim ≠ 0 := Nat.ne_of_gt (Nat.mul_pos hcoff args.headDim_pos)
    simp only [CompressorRow.unscored,CompressorState.row,freshCompressor,Buffer.row,Buffer.full,hsize,
      if_true,List.replicate_inj] at hscore
    exact c.ne (hscore.2.resolve_left hdim)
  · rintro rfl
    simp [LayerRow.unscored,AttentionState.row,freshAttention]

theorem slotRows_fresh_iff (hs : slot < args.maxBatchSize) (h : Built c args ratios model) :
    slotRows slot (clearV4KvSlot c slot args model) = slotRows slot (freshModel c args ratios) ↔
      ∀ r ∈ ratios, r = 0 := by
  rw [slotRows_cleared hs h]
  simp only [slotRows,freshModel,List.map_map]
  rw [List.map_inj_left]
  refine forall₂_congr fun r _ => ?_
  exact unscored_fresh_iff

end Rows

section Serving

/-- Two states of a compressor after `n` tokens: the scores of the current window
are the same, and those of the previous window if it was filled by the prompt. -/
structure Close (ratio n : Nat) (filled : Prop) (a f : CompressorRow S) : Prop where
  pos : 0 < ratio
  kv : a.kv = f.kv
  current : ∀ j < n % ratio, a.score (Compressor.offset ratio+j) = f.score (Compressor.offset ratio+j)
  previous : ratio = 4 → filled → ∀ j < ratio, a.score j = f.score j

namespace Compressor

variable {w : Compressor X S} {ratio dim n : Nat} {filled : Prop} {a f : CompressorRow S}

theorem close_unscored (hr : 0 < ratio) (r : CompressorRow S) : Close ratio 0 False r.unscored r :=
  ⟨hr,rfl,by simp,by simp⟩

theorem close_prefill {xs : List X} (hr : 0 < ratio) (h : a.kv = f.kv) :
    Close ratio xs.length (4 ≤ xs.length) (w.prefillState ratio xs a) (w.prefillState ratio xs f) := by
  have hcut : xs.length-xs.length % ratio+xs.length % ratio = xs.length :=
    Nat.sub_add_cancel (Nat.mod_le _ _)
  refine ⟨hr,?_,fun j hj => ?_,fun hr hfill j hj => ?_⟩
  · unfold prefillState
    simp only
    split_ifs <;> simp [h]
  · have hpos : 0 < xs.length % ratio := Nat.lt_of_le_of_lt (Nat.zero_le _) hj
    simp only [prefillState,if_pos hpos,assign]
    rw [if_pos (by omega),if_pos (by omega)]
  · subst hr
    have hfull : 4 ≤ xs.length-xs.length % 4 := by omega
    have hin : 0 ≤ j ∧ j < 0+4 := by omega
    have hout : ¬ (4 ≤ j ∧ j < 4+xs.length % 4) := by omega
    simp only [prefillState,hfull,offset,if_true,and_self]
    split_ifs
    · simp only [assign,if_pos hin,if_neg hout]
    · simp only [assign,if_pos hin]

theorem close_entered {x : X} (h : Close ratio n filled a f) :
    (w.entered ratio n x a).kv = (w.entered ratio n x f).kv ∧
    (∀ j ≤ n % ratio, (w.entered ratio n x a).score (offset ratio+j) =
      (w.entered ratio n x f).score (offset ratio+j)) ∧
    (ratio = 4 → filled → ∀ j < ratio, (w.entered ratio n x a).score j = (w.entered ratio n x f).score j) := by
  refine ⟨by simp [entered,h.kv],fun j hj => ?_,fun hr hfill j hj => ?_⟩
  · by_cases hjn : j = n % ratio
    · simp [entered,hjn]
    · have hne : offset ratio+j ≠ offset ratio+n % ratio := by omega
      simp only [entered,Function.update_of_ne hne]
      exact h.current j (by omega)
  · have hne : j ≠ offset ratio+n % ratio := by
      simp only [offset,if_pos hr]
      omega
    simp only [entered,Function.update_of_ne hne]
    exact h.previous hr hfill j hj

theorem mod_of_full (hr : 0 < ratio) (h : (n+1) % ratio = 0) : n % ratio+1 = ratio := by
  have hlt := Nat.mod_lt n hr
  rw [Nat.add_mod] at h
  rcases Nat.lt_or_ge (n % ratio+1) ratio with hl | hl
  · have h1 : 1 % ratio = 1 := Nat.mod_eq_of_lt (by omega)
    rw [h1,Nat.mod_eq_of_lt hl] at h
    omega
  · omega

theorem close_decode {x : X} (h : Close ratio n filled a f)
    (hfill : ratio = 4 → (n+1) % ratio = 0 → filled) :
    w.decodeOut ratio dim n x a = w.decodeOut ratio dim n x f ∧
      Close ratio (n+1) filled (w.decodeState ratio n x a) (w.decodeState ratio n x f) := by
  obtain ⟨hkv,hcur,hprev⟩ := close_entered (w := w) (x := x) h
  have hr := h.pos
  by_cases hfull : (n+1) % ratio = 0
  · have hlast := mod_of_full hr hfull
    simp only [decodeOut,decodeState,if_pos hfull,hkv]
    have hcur' : ∀ j < ratio, (w.entered ratio n x a).score (offset ratio+j) =
        (w.entered ratio n x f).score (offset ratio+j) := fun j hj => hcur j (by omega)
    have hpool : pooled ratio dim (w.entered ratio n x a).score =
        pooled ratio dim (w.entered ratio n x f).score := by
      unfold pooled
      split_ifs with h4
      · have hp := hprev h4 (hfill h4 hfull)
        refine congrArg₂ _ (List.map_congr_left fun j hj => ?_) (List.map_congr_left fun j hj => ?_)
        · rw [hp j (List.mem_range.mp hj)]
        · have := hcur' j (List.mem_range.mp hj)
          rw [offset,if_pos h4] at this
          rw [this]
      · refine List.map_congr_left fun j hj => ?_
        have := hcur' j (List.mem_range.mp hj)
        rwa [offset,if_neg h4,Nat.zero_add] at this
    refine ⟨by rw [hpool],hr,?_,by simp [hfull],fun h4 hf j hj => ?_⟩
    · unfold moved
      split_ifs <;> simp [hkv]
    · have := hcur' j hj
      rw [offset,if_pos h4] at this
      simp only [moved,if_pos h4,assign]
      rw [if_pos (by omega),if_pos (by omega),Nat.sub_zero]
      exact this
  · simp only [decodeOut,decodeState,if_neg hfull]
    refine ⟨trivial,hr,hkv,fun j hj => hcur j ?_,hprev⟩
    have hlt := Nat.mod_lt n hr
    have hstep : (n+1) % ratio ≤ n % ratio+1 := by
      rw [Nat.add_mod]
      exact Nat.le_trans (Nat.mod_le _ _) (Nat.add_le_add_left (Nat.mod_le _ _) _)
    omega

end Compressor

def Alike (c : Scalars S) (X : Type) (ratio start len n n' : Nat) (filled filled' : Prop) : Prop :=
  ∀ (w : Compressor X S) (dim : Nat) (xs : List X) (a f : CompressorRow S), xs.length = len →
    Close ratio n filled a f →
    (w.forward c ratio dim start xs a).2 = (w.forward c ratio dim start xs f).2 ∧
      Close ratio n' filled' (w.forward c ratio dim start xs a).1 (w.forward c ratio dim start xs f).1

theorem alike_prefill (ratio len : Nat) : Alike c X ratio 0 len 0 len False (4 ≤ len) := by
  rintro w dim xs a f rfl h
  exact ⟨rfl,Compressor.close_prefill h.pos h.kv⟩

theorem alike_decode {ratio n : Nat} {filled : Prop} (hn : 0 < n)
    (hfill : ratio = 4 → (n+1) % ratio = 0 → filled) : Alike c X ratio n 1 n (n+1) filled filled := by
  intro w dim xs a f hlen h
  obtain ⟨x,rfl⟩ := List.length_eq_one_iff.mp hlen
  obtain ⟨m,rfl⟩ := Nat.exists_eq_succ_of_ne_zero (Nat.ne_of_gt hn)
  exact Compressor.close_decode h hfill

structure LayerClose (ratio n : Nat) (filled : Prop) (a f : LayerRow S) : Prop where
  cache : a.cache = f.cache
  comp : Option.Rel (Close ratio n filled) a.comp f.comp
  index : Option.Rel (fun x y => x.1 = y.1 ∧ Close ratio n filled x.2 y.2) a.index f.index

variable (args) in
theorem LayerClose.forward {l : Layer X S} {start n n' : Nat} {filled filled' : Prop} {xs : List X}
    {a f : LayerRow S} (h : LayerClose l.ratio n filled a f)
    (hs : Alike c X l.ratio start xs.length n n' filled filled') :
    (l.forward c args start xs a).2 = (l.forward c args start xs f).2 ∧
      LayerClose l.ratio n' filled' (l.forward c args start xs a).1 (l.forward c args start xs f).1 := by
  obtain ⟨ac,acomp,aindex⟩ := a
  obtain ⟨fc,fcomp,findex⟩ := f
  obtain ⟨rfl,hcomp,hindex⟩ := h
  simp only at hcomp hindex
  cases hcomp with
  | none =>
    cases hindex with
    | none => exact ⟨rfl,rfl,.none,.none⟩
    | some hi =>
      rename_i x y
      obtain ⟨kx,sx⟩ := x
      obtain ⟨ky,sy⟩ := y
      obtain ⟨rfl,hi⟩ := hi
      obtain ⟨ho,hc⟩ := hs l.index args.indexHeadDim xs sx sy rfl hi
      refine ⟨?_,?_,?_,?_⟩
      · simp [Layer.forward,ho]
      · simp [Layer.forward]
      · simp [Layer.forward]
      · simpa [Layer.forward,ho] using hc
  | some hcl =>
    rename_i sx sy
    obtain ⟨ho,hc⟩ := hs l.comp args.headDim xs sx sy rfl hcl
    cases hindex with
    | none =>
      refine ⟨?_,?_,?_,?_⟩
      · simp [Layer.forward,ho]
      · simp [Layer.forward,ho]
      · simpa [Layer.forward] using hc
      · simp [Layer.forward]
    | some hi =>
      rename_i x y
      obtain ⟨kx,tx⟩ := x
      obtain ⟨ky,ty⟩ := y
      obtain ⟨rfl,hi⟩ := hi
      obtain ⟨hoi,hci⟩ := hs l.index args.indexHeadDim xs tx ty rfl hi
      refine ⟨?_,?_,?_,?_⟩
      · simp [Layer.forward,ho,hoi]
      · simp [Layer.forward,ho]
      · simpa [Layer.forward] using hc
      · simpa [Layer.forward,hoi] using hci

inductive RowsClose (n : Nat) (filled : Prop) :
    List (Layer X S) → List (LayerRow S) → List (LayerRow S) → Prop where
  | nil : RowsClose n filled [] [] []
  | cons {l : Layer X S} {net : List (Layer X S)} {a f : LayerRow S} {as fs : List (LayerRow S)} :
      LayerClose l.ratio n filled a f → RowsClose n filled net as fs →
      RowsClose n filled (l :: net) (a :: as) (f :: fs)

variable {net : List (Layer X S)} {as fs : List (LayerRow S)}

variable (args) in
theorem RowsClose.forward {start n n' : Nat} {filled filled' : Prop} (xs : List X)
    (h : RowsClose n filled net as fs)
    (hs : ∀ l ∈ net, Alike c X l.ratio start xs.length n n' filled filled') :
    (forwardRow c args net start xs as).2 = (forwardRow c args net start xs fs).2 ∧
      RowsClose n' filled' net (forwardRow c args net start xs as).1 (forwardRow c args net start xs fs).1 := by
  induction h generalizing xs with
  | nil => exact ⟨rfl,.nil⟩
  | cons hl hrest ih =>
    rename_i l net a f as fs
    obtain ⟨ho,hc⟩ := hl.forward args (hs l (by simp))
    obtain ⟨hos,hcs⟩ := ih (l.forward c args start xs f).2.1 fun l' hl' => by
      rw [show (l.forward c args start xs f).2.1.length = xs.length from l.length_rest ..]
      exact hs l' (by simp [hl'])
    simp only [forwardRow,ho]
    exact ⟨by rw [hos],.cons hc hcs⟩

variable (args) in
theorem RowsClose.decode {n : Nat} {filled : Prop} (ys : List X) (h : RowsClose n filled net as fs)
    (hn : 0 < n) (hfill : (∃ l ∈ net, l.ratio = 4) → filled ∨ n+ys.length < 4) :
    decodeRow c args net n ys as = decodeRow c args net n ys fs := by
  induction ys generalizing n as fs with
  | nil => rfl
  | cons y ys ih =>
    rw [List.length_cons] at hfill
    have hs : ∀ l ∈ net, Alike c X l.ratio n [y].length n (n+1) filled filled := by
      intro l hl
      refine alike_decode hn fun h4 hmod => ?_
      rcases hfill ⟨l,hl,h4⟩ with hf | hf
      · exact hf
      · rw [h4] at hmod
        omega
    obtain ⟨ho,hc⟩ := h.forward args [y] hs
    simp only [decodeRow,ho]
    rw [ih hc (Nat.succ_pos n) fun hex => (hfill hex).imp_right fun hlt => by omega]

variable (args) in
theorem rowsClose_unscored (ratios : List Nat) (slot : Nat) (hnet : net.map Layer.ratio = ratios) :
    RowsClose 0 False net ((slotRows slot (freshModel c args ratios)).map LayerRow.unscored)
      (slotRows slot (freshModel c args ratios)) := by
  subst hnet
  induction net with
  | nil => exact .nil
  | cons l net ih =>
    refine .cons ⟨rfl,?_,?_⟩ ih
    · simp only [LayerRow.unscored,AttentionState.row,freshAttention]
      by_cases hr : l.ratio = 0
      · simp [hr]
      · simp only [if_neg hr,Option.map_some,Option.rel_some_some]
        exact Compressor.close_unscored (Nat.pos_of_ne_zero hr) _
    · simp only [LayerRow.unscored,AttentionState.row,freshAttention]
      by_cases hr : l.ratio = 4
      · simp only [if_pos hr,Option.map_some,Option.rel_some_some]
        exact ⟨trivial,Compressor.close_unscored (by omega) _⟩
      · simp [hr]

/-- The windows that overlap look back to the scores before the prompt: a prompt
that fills a window replaces them, and before the fourth token nothing reads
them. -/
theorem serveRow_same {slot : Nat} {ratios : List Nat} {model : List (AttentionState S)}
    (hs : slot < args.maxBatchSize) (h : Built c args ratios model) (hnet : net.map Layer.ratio = ratios)
    {prompt ys : List X} (hp : 0 < prompt.length)
    (hfill : 4 ∈ ratios → 4 ≤ prompt.length ∨ prompt.length+ys.length < 4) :
    serveRow c args net prompt ys (slotRows slot (clearV4KvSlot c slot args model)) =
      serveRow c args net prompt ys (slotRows slot (freshModel c args ratios)) := by
  rw [slotRows_cleared hs h]
  obtain ⟨ho,hc⟩ := (rowsClose_unscored (c := c) args ratios slot hnet).forward
    args prompt fun l _ => alike_prefill l.ratio prompt.length
  have hdec := hc.decode (c := c) args ys hp <| by
    rintro ⟨l,hl,h4⟩
    exact hfill (hnet ▸ h4 ▸ List.mem_map_of_mem hl)
  simp only [serveRow]
  rw [ho,hdec]

def probe (ratio : Nat) : Layer X S where
  ratio := ratio
  comp := ⟨fun _ => [],fun _ => [],fun _ => [],fun _ _ => [],fun _ scores => scores.headD [],fun _ v => v⟩
  index := ⟨fun _ => [],fun _ => [],fun _ => [],fun _ _ => [],fun _ scores => scores.headD [],fun _ v => v⟩
  wkv _ _ := []
  rest _ xs _ _ _ := xs
  length_rest _ _ _ _ _ := rfl

def Looks (v : List S) (ratios : List Nat) (rows : List (LayerRow S)) : Prop :=
  List.Forall₂ (fun r (row : LayerRow S) => r = 4 → ∃ st, row.comp = some st ∧ st.score 0 = v) ratios rows

variable (args) in
theorem Looks.forward {v : List S} {ratios : List Nat} {rows : List (LayerRow S)} {start : Nat} (xs : List X)
    (h : Looks v ratios rows) (hx : start = 0 ∧ 0 < xs.length ∧ xs.length < 4 ∨
      0 < start ∧ start < 3 ∧ xs.length = 1) :
    Looks v ratios (forwardRow c args (ratios.map probe) start xs rows).1 := by
  induction h with
  | nil => exact .nil
  | cons hr hrest ih =>
    rename_i r row ratios rows
    refine .cons (fun h4 => ?_) ih
    obtain ⟨st,hst,hv⟩ := hr h4
    subst h4
    simp only [Layer.forward,hst,Option.map_some]
    refine ⟨_,rfl,?_⟩
    rw [← hv]
    rcases hx with ⟨rfl,h0,hlt⟩ | ⟨h0,hlt,h1⟩
    · have hmod : xs.length % 4 = xs.length := Nat.mod_eq_of_lt hlt
      simp [Compressor.forward,Compressor.prefillState,probe,hmod,h0,Compressor.offset,Compressor.assign]
    · obtain ⟨x,rfl⟩ := List.length_eq_one_iff.mp h1
      obtain ⟨m,rfl⟩ := Nat.exists_eq_succ_of_ne_zero (Nat.ne_of_gt h0)
      have hmod : (m+1+1) % 4 ≠ 0 := by omega
      have hne : 0 ≠ 4+(m+1) % 4 := by omega
      simp [Compressor.forward,Compressor.decodeState,Compressor.entered,probe,hmod,Compressor.offset,
        Function.update_of_ne hne]

theorem Looks.out {v : List S} {ratios : List Nat} {rows : List (LayerRow S)} {x : X}
    (h : Looks v ratios rows) :
    List.Forall₂ (fun r (out : Layer.Out S) => r = 4 → out.1 = some [v.take args.headDim]) ratios
      (forwardRow c args (ratios.map probe) 3 [x] rows).2.2 := by
  induction h with
  | nil => exact .nil
  | cons hr hrest ih =>
    rename_i r row ratios rows
    refine .cons (fun h4 => ?_) ih
    obtain ⟨st,hst,rfl⟩ := hr h4
    subst h4
    simp [Layer.forward,hst,Compressor.forward,Compressor.decodeOut,Compressor.pooled,Compressor.entered,
      Compressor.offset,probe,List.range_succ]

variable (args) in
theorem Looks.decode {v : List S} {ratios : List Nat} {rows : List (LayerRow S)} {n : Nat} {ys : List X}
    (h : Looks v ratios rows) (hn : 0 < n) (hn4 : n < 4) (hlen : 4 ≤ n+ys.length) :
    ∃ e, (decodeRow c args (ratios.map probe) n ys rows)[3-n]? = some e ∧
      List.Forall₂ (fun r (out : Layer.Out S) => r = 4 → out.1 = some [v.take args.headDim]) ratios e.2 := by
  induction ys generalizing n rows with
  | nil => simp at hlen; omega
  | cons y ys ih =>
    rw [List.length_cons] at hlen
    by_cases h3 : n = 3
    · subst h3
      exact ⟨_,rfl,h.out⟩
    · have hnext := ih (h.forward (c := c) args [y] (.inr ⟨hn,by omega,rfl⟩))
        (Nat.succ_pos n) (by omega) (by omega)
      obtain ⟨e,he,hall⟩ := hnext
      refine ⟨e,?_,hall⟩
      rw [show 3-n = (3-(n+1))+1 by omega]
      simpa [decodeRow] using he

variable (args) in
theorem looks_fresh (ratios : List Nat) (slot : Nat) :
    Looks (List.replicate (2*args.headDim) c.negInf) ratios (slotRows slot (freshModel c args ratios)) := by
  induction ratios with
  | nil => exact .nil
  | cons r ratios ih =>
    refine .cons (fun h4 => ?_) ih
    subst h4
    exact ⟨_,rfl,rfl⟩

variable (args) in
theorem looks_unscored (ratios : List Nat) (slot : Nat) :
    Looks (List.replicate (2*args.headDim) c.zero) ratios
      ((slotRows slot (freshModel c args ratios)).map LayerRow.unscored) := by
  induction ratios with
  | nil => exact .nil
  | cons r ratios ih =>
    refine .cons (fun h4 => ?_) ih
    subst h4
    exact ⟨_,rfl,rfl⟩

theorem forall₂_unique {α β : Type} {l : List α} {ys : List β} {P Q : α → β → Prop} {x : α}
    (hp : List.Forall₂ P l ys) (hq : List.Forall₂ Q l ys) (hx : x ∈ l) : ∃ y, P x y ∧ Q x y := by
  induction hp with
  | nil => simp at hx
  | cons h _ ih =>
    cases hq with
    | cons h' hq =>
      rcases List.mem_cons.mp hx with rfl | hx
      · exact ⟨_,h,h'⟩
      · exact ih hq hx

theorem serveRow_differs {slot : Nat} {ratios : List Nat} {model : List (AttentionState S)}
    (hs : slot < args.maxBatchSize) (h : Built c args ratios model) (h4 : 4 ∈ ratios)
    {prompt ys : List X} (hp : 0 < prompt.length) (hshort : prompt.length < 4)
    (hlong : 4 ≤ prompt.length+ys.length) :
    serveRow c args (ratios.map probe) prompt ys (slotRows slot (clearV4KvSlot c slot args model)) ≠
      serveRow c args (ratios.map probe) prompt ys (slotRows slot (freshModel c args ratios)) := by
  rw [slotRows_cleared hs h]
  intro heq
  obtain ⟨_,hdec⟩ := List.cons.inj heq
  have hz := ((looks_unscored (c := c) args ratios slot).forward (c := c) args
    prompt (.inl ⟨rfl,hp,hshort⟩)).decode (c := c) args hp hshort hlong
  have hn := ((looks_fresh (c := c) args ratios slot).forward (c := c) args
    prompt (.inl ⟨rfl,hp,hshort⟩)).decode (c := c) args hp hshort hlong
  rw [hdec] at hz
  obtain ⟨e,he,hz⟩ := hz
  obtain ⟨e',he',hn⟩ := hn
  rw [he] at he'
  obtain rfl := Option.some.inj he'
  obtain ⟨out,ho,ho'⟩ := forall₂_unique hz hn h4
  have hsame := (ho rfl).symm.trans (ho' rfl)
  simp only [Option.some.injEq,List.cons.injEq,and_true,List.take_replicate,List.replicate_inj] at hsame
  have hpos := args.headDim_pos
  exact c.ne (hsame.2.resolve_left (by omega))

/-- The cleared row is fresh exactly when no layer has a compressor, and no other
row changes. A sequence is served in it as in a new process exactly when no
window looks back to the scores that were there before its prompt. -/
theorem clear_slot (c : Scalars S) (args : ModelArgs) (slot : Nat) (hs : slot < args.maxBatchSize)
    (ratios : List Nat) (model : List (AttentionState S)) (h : Built c args ratios model) :
    (slotRows slot (clearV4KvSlot c slot args model) = slotRows slot (freshModel c args ratios) ↔
      ∀ r ∈ ratios, r = 0) ∧
    (∀ i, i ≠ slot → slotRows i (clearV4KvSlot c slot args model) = slotRows i model) ∧
    ∀ prompt ys : List X, 0 < prompt.length →
      ((∀ net : List (Layer X S), net.map Layer.ratio = ratios →
          serveRow c args net prompt ys (slotRows slot (clearV4KvSlot c slot args model)) =
            serveRow c args net prompt ys (slotRows slot (freshModel c args ratios))) ↔
        (4 ∈ ratios → 4 ≤ prompt.length ∨ prompt.length+ys.length < 4)) := by
  refine ⟨slotRows_fresh_iff hs h,fun i hi => slotRows_other hs h hi,fun prompt ys hp => ⟨fun hall h4 => ?_,
    fun hfill net hnet => serveRow_same hs h hnet hp hfill⟩⟩
  by_contra hc
  have hprobe : ((ratios.map probe : List (Layer X S)).map Layer.ratio) = ratios := by
    simp [probe,Function.comp_def]
  exact serveRow_differs hs h h4 hp (by omega) (by omega) (hall _ hprobe)

def bits : Scalars Bool := ⟨false,true,by decide⟩

def smallArgs : ModelArgs := ⟨2,8,4,1,1,by decide⟩

def written : List (AttentionState Bool) := [{ kvCache := .full 2 4 1 true }]

theorem clear_slot_window :
    slotRows 1 (clearV4KvSlot bits 1 smallArgs written) = slotRows 1 (freshModel bits smallArgs [0]) ∧
      slotRows 0 (clearV4KvSlot bits 1 smallArgs written) = slotRows 0 written ∧
      ∀ net : List (Layer Nat Bool), net.map Layer.ratio = [0] →
        serveRow bits smallArgs net [7] [8] (slotRows 1 (clearV4KvSlot bits 1 smallArgs written)) =
          serveRow bits smallArgs net [7] [8] (slotRows 1 (freshModel bits smallArgs [0])) := by
  have hall := clear_slot (X := Nat) bits smallArgs 1 (by decide) [0] written rfl
  exact ⟨hall.1.mpr (by simp),hall.2.1 0 (by decide),(hall.2.2 [7] [8] (by decide)).mpr (by simp)⟩

/-- The scores of a compressor are 0 after the clear of a model that was just
built, and a short prompt is served from them. -/
theorem cleared_scores_differ :
    slotRows 0 (clearV4KvSlot bits 0 smallArgs (freshModel bits smallArgs [4])) ≠
        slotRows 0 (freshModel bits smallArgs [4]) ∧
      ∃ net : List (Layer Nat Bool), net.map Layer.ratio = [4] ∧
        serveRow bits smallArgs net [1] [2,3,4]
            (slotRows 0 (clearV4KvSlot bits 0 smallArgs (freshModel bits smallArgs [4]))) ≠
          serveRow bits smallArgs net [1] [2,3,4] (slotRows 0 (freshModel bits smallArgs [4])) := by
  have hs : 0 < smallArgs.maxBatchSize := by decide
  have hb : Built bits smallArgs [4] (freshModel bits smallArgs [4]) := rfl
  refine ⟨fun heq => ?_,[4].map probe,rfl,serveRow_differs hs hb (by simp) (by decide) (by decide) (by decide)⟩
  exact absurd ((slotRows_fresh_iff hs hb).mp heq 4 (by simp)) (by decide)

end Serving

end SglangLite.Hybrid
