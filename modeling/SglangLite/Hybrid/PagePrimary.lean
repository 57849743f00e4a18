import SglangLite.Hybrid.Buffers

set_option autoImplicit false

namespace SglangLite.Hybrid
open Kv

variable {P S : Type}

/-- A stored prefix with its snapshot: `saved` is the batch row the snapshot was
taken from and `buffers` are the keys it still has. -/
structure PagedEntry (S : Type) where
  buffers : List BufferView
  saved : SlotRows S
  swaBlockIds : List BlockId := []
  dualPoolTokens : Nat := 0
  dualLayerKeys : List BufferView := []

def slimSnapshotBuffers (buffers paged : List BufferView) : List BufferView :=
  buffers.filter fun v => v ∉ paged

/-- `_v4_maybe_save_prefix` for a prompt of `n` tokens. The pages that the entry
gets are forked, which leaves their content. -/
def maybeSavePrefix [Zero P] [Zero S] (cfg : DualConfig P S) (tree : ModelTree) (c : DualPool P S)
    (m : SlotRows S) (n : Nat) (fails : Bool) : DualPool P S × PagedEntry S :=
  match dualWriteLayers cfg c (extractLayers tree m) n fails with
  | (c₁,none) => (c₁,{ buffers := tree.views, saved := m })
  | (c₁,some h) =>
      (c₁,
        { buffers := slimSnapshotBuffers tree.views (layerKeys cfg tree)
          saved := m
          swaBlockIds := h.swaBlocks
          dualPoolTokens := h.nTokens
          dualLayerKeys := layerKeys cfg tree })

/-- `restore_v4_kv` for the keys `vs`. -/
def restoreV4Kv (saved : SlotRows S) : List BufferView → SlotRows S → SlotRows S
  | [], m => m
  | v :: vs, m => restoreV4Kv saved vs (v.write v.size (v.row saved) m)

/-- The keys that `_apply_restore_bf16_to_model` reports: those that
`_write_module_kv_row` did write. -/
def restoredKeys (cfg : DualConfig P S) (en : PagedEntry S) : List BufferView :=
  if en.swaBlockIds = [] ∨ en.swaBlockIds.length < cfg.cache.pages en.dualPoolTokens then []
  else (en.dualLayerKeys.take cfg.numLayers).filter fun v => v.dim = dsv4HeadDim

/-- `_v4_ensure_restored` after a hit: the pages first, then what is left of the
snapshot. -/
def ensureRestored (cfg : DualConfig P S) (c : DualPool P S) (en : PagedEntry S) (m : SlotRows S) :
    SlotRows S :=
  let m₁ := if en.swaBlockIds = [] then m
    else applyRestore cfg c en.swaBlockIds en.dualPoolTokens 0 en.dualLayerKeys m
  restoreV4Kv en.saved (en.buffers.filter fun v => v ∉ restoredKeys cfg en) m₁

def ModelTree.tensorSize (tree : ModelTree) (sp : LayerSpec) : Tensor → Nat
  | .cache => tree.args.windowSize+tree.compressed sp.ratio
  | .indexCache => tree.compressed sp.ratio
  | .kvState | .scoreState | .indexKvState | .indexScoreState => coff sp.ratio*sp.ratio

/-- A save and a restore lose nothing: in any batch row, what the prefill wrote is
there again, and what was dropped from the snapshot is written from the pages. -/
structure Lossless [Zero P] [Zero S] (cfg : DualConfig P S) (tree : ModelTree) (c : DualPool P S)
    (m : SlotRows S) (n : Nat) (fails : Bool) : Prop where
  rows : ∀ (dest : SlotRows S) (i : Nat) (sp : LayerSpec) (t : Tensor) (p : Nat),
    tree.specs[i]? = some sp → sp.bound = true → Touches tree.args sp 0 n t p → p < tree.tensorSize sp t →
    ensureRestored cfg (maybeSavePrefix cfg tree c m n fails).1 (maybeSavePrefix cfg tree c m n fails).2
      dest i t p = m i t p
  dropped : ∀ v ∈ tree.views, v ∉ (maybeSavePrefix cfg tree c m n fails).2.buffers →
    v ∈ restoredKeys cfg (maybeSavePrefix cfg tree c m n fails).2

/-- The prompt is not written to pages: it has no tokens, there are no pools, a
write raises, or there are not enough pages. -/
def Unpaged [Zero P] [Zero S] (cfg : DualConfig P S) (c : DualPool P S) (n : Nat) (fails : Bool) : Prop :=
  n = 0 ∨ cfg.packed = false ∨ fails = true ∨ (c.allocateBlocks cfg.cache (cfg.cache.pages n)).2 = none

theorem restoreV4Kv_toward {saved m : SlotRows S} {vs : List BufferView} {i p : Nat} {t : Tensor}
    (h : (∃ v ∈ vs, v.Covers v.size i t p) ∨ m i t p = saved i t p) :
    restoreV4Kv saved vs m i t p = saved i t p := by
  induction vs generalizing m with
  | nil =>
    rcases h with ⟨v,hv,_⟩ | h
    · exact absurd hv List.not_mem_nil
    · exact h
  | cons v vs ih =>
    apply ih
    rcases h with ⟨w,hw,hcov⟩ | h
    · rcases List.mem_cons.mp hw with rfl | hw
      · exact .inr (BufferView.write_toward (fun _ _ => rfl) (.inl hcov))
      · exact .inl ⟨w,hw,hcov⟩
    · exact .inr (BufferView.write_toward (fun _ _ => rfl) (.inr h))

namespace ModelTree

variable {tree : ModelTree} {i p n : Nat} {sp : LayerSpec} {t : Tensor}

/-- Every position that a prefill writes is in a buffer of the model, and in a
`kv_cache` it is among the first `n`. -/
theorem exists_view (hsp : tree.specs[i]? = some sp) (hb : sp.bound = true)
    (ht : Touches tree.args sp 0 n t p) (hp : p < tree.tensorSize sp t) :
    ∃ v ∈ tree.views, v.Covers v.size i t p ∧ (v.attr = .kvCache → v.Covers (min n v.size) i t p) := by
  have hview : ∀ v, v ∈ tree.layerViews i sp → v.Covers v.size i t p → 0 < v.dim →
      (v.attr = .kvCache → p-v.offset < n) → ∃ v ∈ tree.views, v.Covers v.size i t p ∧
        (v.attr = .kvCache → v.Covers (min n v.size) i t p) := by
    intro v hv hcov hd hn
    have hne : v.size*v.dim ≠ 0 := by
      have : 0 < v.size := by
        obtain ⟨_,_,hle,hlt⟩ := hcov
        omega
      exact Nat.mul_ne_zero (by omega) (by omega)
    refine ⟨v,mem_views.mpr ⟨⟨i,sp,hsp,hv⟩,hne⟩,hcov,fun ha => ?_⟩
    have := hn ha
    obtain ⟨hi,htt,hle,hlt⟩ := hcov
    exact ⟨hi,htt,hle,by omega⟩
  have hindex : sp.ratio = 4 → 0 < tree.args.indexHeadDim := fun hr =>
    tree.index_pos ⟨sp,List.mem_of_getElem? hsp,hr⟩
  have hcoff : 0 < coff sp.ratio := by
    unfold coff
    split <;> omega
  have hhead := tree.args.headDim_pos
  cases t with
  | cache =>
    simp only [tensorSize] at hp
    rcases ht with ⟨k,hk,hpk⟩ | ⟨hr,hle,hlt⟩
    · -- a row of the window, not beyond the token that wrote it
      have hpn : p < n := by
        have := Nat.mod_le (0+k) tree.args.windowSize
        omega
      refine hview ⟨i,.attn,.kvCache,.cache,0,tree.args.windowSize+tree.compressed sp.ratio,tree.args.headDim⟩
        (by simp [layerViews,attnViews]) ⟨rfl,rfl,Nat.zero_le _,by simpa using hp⟩ hhead fun _ => ?_
      simpa using hpn
    · rw [Nat.zero_div,Nat.add_zero] at hle hlt
      simp only [newRows,if_true] at hlt
      have hdiv := Nat.div_le_self n sp.ratio
      refine hview ⟨i,.compressor,.kvCache,.cache,tree.args.windowSize,tree.compressed sp.ratio,tree.args.headDim⟩
        (by simp [layerViews,compressorViews,lateView,hr,hb]) ⟨rfl,rfl,hle,hp⟩ hhead fun _ => ?_
      simp only
      omega
  | indexCache =>
    obtain ⟨hr,_,hlt⟩ := ht
    rw [Nat.zero_div,Nat.zero_add] at hlt
    simp only [newRows,if_true] at hlt
    have hdiv := Nat.div_le_self n sp.ratio
    refine hview ⟨i,.indexer,.kvCache,.indexCache,0,tree.compressed sp.ratio,tree.args.indexHeadDim⟩
      (by simp [layerViews,indexerViews,hr]) ⟨rfl,rfl,Nat.zero_le _,by simpa [tensorSize] using hp⟩ (hindex hr)
      fun _ => ?_
    simp only
    omega
  | kvState =>
    have hr : sp.ratio ≠ 0 := ht
    exact hview ⟨i,.compressor,.kvState,.kvState,0,coff sp.ratio*sp.ratio,coff sp.ratio*tree.args.headDim⟩
      (by simp [layerViews,compressorViews,stateViews,hr]) ⟨rfl,rfl,Nat.zero_le _,by simpa [tensorSize] using hp⟩
      (Nat.mul_pos hcoff hhead) (by simp)
  | scoreState =>
    have hr : sp.ratio ≠ 0 := ht
    exact hview ⟨i,.compressor,.scoreState,.scoreState,0,coff sp.ratio*sp.ratio,coff sp.ratio*tree.args.headDim⟩
      (by simp [layerViews,compressorViews,stateViews,hr]) ⟨rfl,rfl,Nat.zero_le _,by simpa [tensorSize] using hp⟩
      (Nat.mul_pos hcoff hhead) (by simp)
  | indexKvState =>
    have hr : sp.ratio = 4 := ht
    exact hview ⟨i,.indexerCompressor,.kvState,.indexKvState,0,coff sp.ratio*sp.ratio,
        coff sp.ratio*tree.args.indexHeadDim⟩
      (by simp [layerViews,indexerViews,stateViews,hr]) ⟨rfl,rfl,Nat.zero_le _,by simpa [tensorSize] using hp⟩
      (Nat.mul_pos hcoff (hindex hr)) (by simp)
  | indexScoreState =>
    have hr : sp.ratio = 4 := ht
    exact hview ⟨i,.indexerCompressor,.scoreState,.indexScoreState,0,coff sp.ratio*sp.ratio,
        coff sp.ratio*tree.args.indexHeadDim⟩
      (by simp [layerViews,indexerViews,stateViews,hr]) ⟨rfl,rfl,Nat.zero_le _,by simpa [tensorSize] using hp⟩
      (Nat.mul_pos hcoff (hindex hr)) (by simp)

end ModelTree

section Lossless

variable [Zero P] [Zero S] {cfg : DualConfig P S} {tree : ModelTree} {c : DualPool P S} {m : SlotRows S}
  {n : Nat} {fails : Bool}

theorem lossless_of_none {c' : DualPool P S}
    (h : dualWriteLayers cfg c (extractLayers tree m) n fails = (c',none)) :
    Lossless cfg tree c m n fails := by
  have hs : maybeSavePrefix cfg tree c m n fails = (c',{ buffers := tree.views, saved := m }) := by
    simp [maybeSavePrefix,h]
  constructor
  · intro dest i sp t p hsp hb ht hp
    obtain ⟨v,hv,hcov,_⟩ := tree.exists_view hsp hb ht hp
    rw [hs]
    refine restoreV4Kv_toward (.inl ⟨v,?_,hcov⟩)
    simpa [restoredKeys] using hv
  · intro v hv hno
    rw [hs] at hno
    exact absurd hv hno

variable {ts : List (List BlockId)} {c₁ : DualPool P S} {ids : List BlockId}

theorem Wrote.saved (h : Wrote cfg ts c (extractLayers tree m) n fails c₁ ids) :
    maybeSavePrefix cfg tree c m n fails =
      ((dualWriteLayers cfg c (extractLayers tree m) n fails).1,
        { buffers := slimSnapshotBuffers tree.views (layerKeys cfg tree)
          saved := m
          swaBlockIds := ids
          dualPoolTokens := n
          dualLayerKeys := layerKeys cfg tree }) := by
  unfold maybeSavePrefix
  rw [h.result]

theorem Wrote.restoredKeys_eq (h : Wrote cfg ts c (extractLayers tree m) n fails c₁ ids) :
    restoredKeys cfg (maybeSavePrefix cfg tree c m n fails).2
      = (layerKeys cfg tree).filter fun v => v.dim = dsv4HeadDim := by
  rw [h.saved]
  simp only [restoredKeys,h.ne,h.length,Nat.lt_irrefl,or_self,if_false]
  rw [List.take_of_length_le (layerKeys_length cfg tree)]

/-- With pages, everything is back when each paged buffer has 512 components. -/
theorem Wrote.lossless (h : Wrote cfg ts c (extractLayers tree m) n fails c₁ ids)
    (hdim : ∀ v ∈ layerKeys cfg tree, v.dim = dsv4HeadDim) : Lossless cfg tree c m n fails := by
  have hkeys := h.restoredKeys_eq
  rw [List.filter_eq_self.mpr (by simpa using hdim)] at hkeys
  constructor
  · intro dest i sp t p hsp hb ht hp
    obtain ⟨v,hv,hcov,hfirst⟩ := tree.exists_view hsp hb ht hp
    unfold ensureRestored
    rw [hkeys,h.saved]
    simp only [h.ne,if_false]
    apply restoreV4Kv_toward
    by_cases hpaged : v ∈ layerKeys cfg tree
    · -- from the pages
      have ha : v.attr = .kvCache := by
        have := List.mem_of_mem_take hpaged
        simp only [ModelTree.extracted,List.mem_filter,decide_eq_true_eq] at this
        exact this.2.1
      refine .inr (applyRestore_toward (Nat.le_of_eq h.length.symm) ?_ (fun l w hw hd q hq => ?_)
        (.inl ⟨v,hpaged,hdim v hpaged,hfirst ha⟩))
      · have := layerKeys_length cfg tree
        omega
      · rw [Nat.zero_add]
        exact h.agree l w hw hd q hq
    · refine .inl ⟨v,?_,hcov⟩
      simp [slimSnapshotBuffers,hv,hpaged]
  · intro v hv hno
    rw [hkeys]
    rw [h.saved] at hno
    simpa [slimSnapshotBuffers,hv] using hno

theorem Wrote.dim_of_lossless (h : Wrote cfg ts c (extractLayers tree m) n fails c₁ ids)
    (hl : Lossless cfg tree c m n fails) : ∀ v ∈ layerKeys cfg tree, v.dim = dsv4HeadDim := by
  intro v hv
  have hmem := (ModelTree.mem_extracted (List.mem_of_mem_take hv)).1
  have hback := hl.dropped v hmem (by rw [h.saved]; simp [slimSnapshotBuffers,hv])
  rw [h.restoredKeys_eq,List.mem_filter] at hback
  simpa using hback.2

theorem Unpaged.none (h : Unpaged cfg c n fails) (layers : List (List (List S))) :
    ∃ c', dualWriteLayers cfg c layers n fails = (c',none) := by
  unfold dualWriteLayers
  split
  · exact ⟨c,rfl⟩
  next hn =>
    split
    next c₁ hc => exact ⟨c₁,rfl⟩
    next c₁ ids hc =>
      have hf : fails = true := by
        rcases h with h | h | h | h
        · exact absurd (.inl h) hn
        · exact absurd (.inr h) hn
        · exact h
        · rw [hc] at h
          cases h
      simp [hf]

theorem unpaged_of_none {c' : DualPool P S} {layers : List (List (List S))}
    (h : dualWriteLayers cfg c layers n fails = (c',none)) : Unpaged cfg c n fails ∨ cfg.numLayers = 0 := by
  unfold dualWriteLayers at h
  split at h
  next hn =>
    rcases hn with hn | hn
    · exact .inl (.inl hn)
    · exact .inl (.inr (.inl hn))
  next =>
    split at h
    next c₁ hc => exact .inl (.inr (.inr (.inr (by rw [hc]))))
    next c₁ ids hc =>
      split_ifs at h with hf
      · rcases hf with hf | hf
        · exact .inl (.inr (.inr (.inl hf)))
        · exact .inr hf
      all_goals simp at h

/-- In any pool that is reached: a save followed by a restore loses nothing of a
prompt exactly when the prompt is not written to pages, or every buffer that is
has 512 components. -/
theorem restore_lossless (cfg : DualConfig P S) (tree : ModelTree) (evs : List (DualState.Event S))
    (m : SlotRows S) (n : Nat) (fails : Bool) :
    Lossless cfg tree (DualState.run cfg evs DualState.init : DualState P S).radix m n fails ↔
      Unpaged cfg (DualState.run cfg evs DualState.init : DualState P S).radix n fails ∨
        ∀ v ∈ layerKeys cfg tree, v.dim = dsv4HeadDim := by
  have hk : DualState.Kept cfg (DualState.run cfg evs DualState.init : DualState P S) :=
    DualState.kept_init.run evs
  set pool := (DualState.run cfg evs DualState.init : DualState P S).radix
  rcases dualWrite_cases hk.tabled (extractLayers tree m) n fails with ⟨c',hc,_⟩ | ⟨c₁,ids,hw⟩
  · refine ⟨fun _ => ?_,fun _ => lossless_of_none hc⟩
    rcases unpaged_of_none hc with hun | hzero
    · exact .inl hun
    · right
      simp [layerKeys,hzero]
  · constructor
    · exact fun hl => .inr (hw.dim_of_lossless hl)
    · rintro (hun | hdim)
      · obtain ⟨c',hc⟩ := hun.none (extractLayers tree m)
        exact lossless_of_none hc
      · exact hw.lossless hdim

end Lossless

/-- Four layers whose index cache has 512 positions of 128 components. -/
def indexTree : ModelTree where
  args := ⟨1,2048,128,512,128,pos_headDim⟩
  specs := List.replicate 4 ⟨4,true⟩
  index_pos _ := by decide

def fourLayers : DualConfig Nat Nat where
  cache := ⟨16,4,by decide,pos_four⟩
  numLayers := 4
  packed := true
  pack v := v.headD 0
  maxEntries := 4

def filledWith (x : Nat) : SlotRows Nat := fun _ t _ =>
  match t with
  | .cache => List.replicate 512 x
  | .kvState | .scoreState => List.replicate 1024 x
  | .indexCache => List.replicate 128 x
  | .indexKvState | .indexScoreState => List.replicate 256 x

theorem index_row_lost : ¬ Lossless fourLayers indexTree
    (DualState.run fourLayers [] DualState.init : DualState Nat Nat).radix (filledWith 1) 4 false := by
  intro h
  have hrow := h.rows (filledWith 0) 0 ⟨4,true⟩ .indexCache 0 rfl rfl ⟨rfl,by decide,by decide⟩ (by decide)
  have hlost : List.replicate 128 0 = List.replicate 128 1 := hrow
  exact absurd ((List.replicate_right_inj (by decide)).mp hlost) (by decide)

end SglangLite.Hybrid
