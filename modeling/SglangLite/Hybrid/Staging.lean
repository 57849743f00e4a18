import SglangLite.Hybrid.Buffers

set_option autoImplicit false

namespace SglangLite.Hybrid
open Kv

variable {P S : Type}

structure Decoded (S : Type) where
  window : Nat → List S
  comp : Nat → List S
  index : Nat → List S
  states : SlotRows S

/-- The writes of a decode step at `pos`, in the layers that run: the ring row, and
when a window is full the compressed rows. -/
def decodeWrite (tree : ModelTree) (pos : Nat) (d : Decoded S) (m : SlotRows S) : SlotRows S := fun i t p =>
  match tree.specs[i]? with
  | none => m i t p
  | some sp =>
      if sp.bound = false then m i t p
      else
        match t with
        | .cache =>
            if sp.ratio ≠ 0 ∧ (pos+1)%sp.ratio = 0 ∧ p = tree.args.windowSize+pos/sp.ratio then d.comp i
            else if p = pos%tree.args.windowSize then d.window i
            else m i t p
        | .indexCache =>
            if sp.ratio = 4 ∧ (pos+1)%sp.ratio = 0 ∧ p = pos/sp.ratio then d.index i else m i t p
        | .kvState | .scoreState | .indexKvState | .indexScoreState => d.states i t p

theorem forwardRow_decode {X : Type} {c : Scalars S} {tree : ModelTree} {net : List (Layer X S)}
    {rows : List (LayerRow S)} {start : Nat} (h : Fits tree net rows) (hpos : 0 < start) (x : X) :
    ∃ d, slotOf (forwardRow c tree.args net start [x] rows).1 = decodeWrite tree start d (slotOf rows) := by
  have hstart : start ≠ 0 := by omega
  set after := slotOf (forwardRow c tree.args net start [x] rows).1 with hafter
  refine ⟨⟨fun i => after i .cache (start%tree.args.windowSize),
    fun i => after i .cache (tree.args.windowSize+start/((tree.specs[i]?).map LayerSpec.ratio).getD 0),
    fun i => after i .indexCache (start/((tree.specs[i]?).map LayerSpec.ratio).getD 0),after⟩,?_⟩
  funext i t p
  simp only [decodeWrite]
  cases hsp : tree.specs[i]? with
  | none =>
    have hl : net[i]? = none := by
      rw [h.specs,List.getElem?_map,Option.map_eq_none_iff] at hsp
      exact hsp
    have hr : rows[i]? = none := by
      rw [List.getElem?_eq_none_iff] at hl ⊢
      rw [h.length]
      exact hl
    simp only [hafter,slotOf,hr,forwardRow_get_none start [x] hl]
  | some sp =>
    have hbound : sp.bound = true := by
      rw [h.specs,List.getElem?_map,Option.map_eq_some_iff] at hsp
      obtain ⟨l,_,rfl⟩ := hsp
      rfl
    have hother : ¬ Touches tree.args sp start 1 t p → after i t p = slotOf rows i t p :=
      fun hno => slotOf_forwardRow h hsp hno
    simp only [hbound,Bool.true_eq_false,if_false,Option.map_some,Option.getD_some]
    cases t with
    | cache =>
      simp only
      split_ifs with hfull hring
      · rw [hfull.2.2]
      · rw [hring]
      · apply hother
        rintro (⟨k,hk,hp⟩ | ⟨hr,hle,hlt⟩)
        · obtain rfl : k = 0 := by omega
          exact hring hp
        · simp only [newRows,hstart,if_false] at hlt
          split at hlt
          next hf => exact hfull ⟨hr,hf,by omega⟩
          next => omega
    | indexCache =>
      simp only
      split_ifs with hfull
      · rw [hfull.2.2]
      · apply hother
        rintro ⟨hr,hle,hlt⟩
        simp only [newRows,hstart,if_false] at hlt
        split at hlt
        next hf => exact hfull ⟨hr,hf,by omega⟩
        next => omega
    | kvState | scoreState | indexKvState | indexScoreState => rfl

structure Decoding (P S : Type) where
  rows : SlotRows S
  pool : DualPool P S
  handle : DualPoolHandle
  pos : Nat

namespace Decoding

section Run

variable (cfg : DualConfig P S) (tree : ModelTree) [Zero P] [Zero S]

def step (e : Decoding P S) (d : Decoded S) : Decoding P S :=
  let rows := decodeWrite tree e.pos d e.rows
  let r := dualAppendLayers cfg e.pool e.handle e.pos (extractLayers tree rows)
  { rows := rows, pool := r.1, handle := r.2, pos := e.pos+1 }

def run : List (Decoded S) → Decoding P S → Decoding P S
  | [], e => e
  | d :: ds, e => run ds (e.step cfg tree d)

end Run

/-- `stage_official_kv_from_pages` over `handle.n_tokens` rows. -/
def stage (cfg : DualConfig P S) (tree : ModelTree) (e : Decoding P S) : SlotRows S :=
  applyRestore cfg e.pool e.handle.swaBlocks e.handle.nTokens 0 (layerKeys cfg tree) e.rows

/-- The step at `pos` writes a row of the buffer whose page is an earlier one: the
ring has come round, or a compressed row is done. -/
def Overtakes (args : ModelArgs) (sp : LayerSpec) (pos : Nat) : ModuleName → Prop
  | .attn => args.windowSize ≤ pos
  | .compressor => sp.ratio ≠ 1 ∧ (pos+1)%sp.ratio = 0
  | .indexer | .indexerCompressor => (pos+1)%sp.ratio = 0

def Quiet (cfg : DualConfig P S) (tree : ModelTree) (pos : Nat) : Prop :=
  ∀ v ∈ layerKeys cfg tree, v.dim = dsv4HeadDim → ∀ sp, tree.specs[v.layer]? = some sp →
    sp.bound = true → ¬ Overtakes tree.args sp pos v.module

def Room (cfg : DualConfig P S) (e : Decoding P S) : Prop :=
  cfg.cache.pages (e.pos+1) ≤ e.handle.swaBlocks.length ∨ e.pool.free ≠ [] ∨
    e.pool.next < cfg.cache.numBlocks

def Calm [Zero P] [Zero S] (cfg : DualConfig P S) (tree : ModelTree) : List (Decoded S) → Decoding P S → Prop
  | [], _ => True
  | d :: ds, e => Quiet cfg tree e.pos ∧ Room cfg e ∧ Calm cfg tree ds (e.step cfg tree d)

/-- A step that does not overtake a buffer leaves its rows before `pos`. -/
theorem row_decodeWrite {tree : ModelTree} {pos q i : Nat} {sp : LayerSpec} {v : BufferView}
    {m : SlotRows S} (hk : ModelTree.KvCache tree i sp v) (hsp : tree.specs[i]? = some sp)
    (hno : sp.bound = true → ¬ Overtakes tree.args sp pos v.module) (hq : q < pos) (d : Decoded S) :
    v.row (decodeWrite tree pos d m) q = v.row m q := by
  have hmod : pos%tree.args.windowSize ≠ tree.args.windowSize+q := by
    rcases Nat.eq_zero_or_pos tree.args.windowSize with h0 | hpos
    · rw [h0,Nat.mod_zero]
      omega
    · have := Nat.mod_lt pos hpos
      omega
  simp only [BufferView.row,decodeWrite,hk.layer_eq,hsp]
  cases hb : sp.bound with
  | false => simp
  | true =>
    have hno := hno hb
    simp only [Bool.true_eq_false,if_false]
    cases hk with
    | attn =>
      simp only [Overtakes,Nat.not_le] at hno
      have hcomp : tree.args.windowSize ≤ tree.args.windowSize+pos/sp.ratio := Nat.le_add_right _ _
      dsimp only
      rw [if_neg (by omega),if_neg (by rw [Nat.mod_eq_of_lt hno]; omega)]
    | compressor hr _ =>
      simp only [Overtakes,not_and] at hno
      dsimp only
      rw [if_neg,if_neg (Ne.symm hmod)]
      rintro ⟨_,hfull,hrow⟩
      by_cases h1 : sp.ratio = 1
      · rw [h1,Nat.div_one] at hrow
        omega
      · exact hno h1 hfull
    | indexer hr =>
      simp only [Overtakes] at hno
      dsimp only
      rw [if_neg (by tauto)]
    | indexerCompressor hr _ =>
      simp only [Overtakes] at hno
      dsimp only
      rw [if_neg (by tauto)]

theorem Quiet.row {cfg : DualConfig P S} {tree : ModelTree} {pos q : Nat} {v : BufferView} {m : SlotRows S}
    (h : Quiet cfg tree pos) (hv : v ∈ layerKeys cfg tree) (hd : v.dim = dsv4HeadDim) (hq : q < pos)
    (d : Decoded S) : v.row (decodeWrite tree pos d m) q = v.row m q := by
  obtain ⟨_,sp,hsp,hk⟩ := ModelTree.mem_extracted (List.mem_of_mem_take hv)
  exact row_decodeWrite hk hsp (h v hv hd sp hsp) hq d

section Kept

variable {cfg : DualConfig P S} {tree : ModelTree} {e : Decoding P S} {ts : List (List BlockId)}

/-- The pages of a decoding sequence agree with its batch row. -/
structure Coherent (cfg : DualConfig P S) (tree : ModelTree) (ts : List (List BlockId)) (e : Decoding P S) :
    Prop where
  tabled : Tabled cfg.cache e.pool (e.handle.swaBlocks :: ts)
  same : e.handle.compBlocks = e.handle.swaBlocks
  live : cfg.packed = true ∧ 0 < cfg.numLayers
  room : cfg.cache.pages e.handle.nTokens ≤ e.handle.swaBlocks.length
  pos : tree.extracted ≠ [] → e.handle.nTokens = e.pos
  agree : Agree cfg e.pool e.handle.swaBlocks (layerKeys cfg tree) e.handle.nTokens e.rows

theorem Coherent.stage_eq (h : Coherent cfg tree ts e) : e.stage cfg tree = e.rows :=
  h.agree.applyRestore_self h.room

variable [Zero P] [Zero S]

theorem Room.ensureCapacity (hroom : Room cfg e) (hs : e.handle.compBlocks = e.handle.swaBlocks)
    (hcap : cfg.cache.pages e.pos ≤ e.handle.swaBlocks.length) :
    (Hybrid.ensureCapacity cfg.cache e.pool e.handle (e.pos+1)).2.2 = true := by
  unfold Hybrid.ensureCapacity
  simp only
  split
  · rfl
  next hlt =>
    have hone : cfg.cache.pages (e.pos+1)-e.handle.swaBlocks.length = 1 := by
      have := cfg.cache.pages_succ_le e.pos
      omega
    obtain ⟨c,b,hc⟩ := RadixCache.allocate_one_of_spare (hroom.resolve_left hlt)
    rw [hone,hc]
    simp [hs,distinctTables]

theorem appendRow_t512 {v : BufferView} {m : SlotRows S} {pos : Nat} (hd : v.dim = dsv4HeadDim)
    (hlt : pos < v.size) : appendRow pos (v.t512 m) = [v.row m pos] := by
  have hlen : (v.t512 m).length = v.size := by simp [BufferView.t512,hd]
  rw [appendRow,if_neg (by omega),List.drop_eq_getElem_cons (by omega)]
  simp [BufferView.t512,hd]

theorem Coherent.step (h : Coherent cfg tree ts e) (hquiet : Quiet cfg tree e.pos) (hroom : Room cfg e)
    (d : Decoded S) : Coherent cfg tree ts (e.step cfg tree d) := by
  have hap := dualAppend_spec h.tabled h.same e.pos (extractLayers tree (decodeWrite tree e.pos d e.rows))
  by_cases hnil : tree.extracted = []
  · have hex : extractLayers tree (decodeWrite tree e.pos d e.rows) = [] := by simp [extractLayers,hnil]
    have hst : e.step cfg tree d =
        { e with rows := decodeWrite tree e.pos d e.rows, pos := e.pos+1 } := by
      simp [Decoding.step,hex,dualAppendLayers]
    rw [hst]
    refine ⟨h.tabled,h.same,h.live,h.room,fun hne => absurd hnil hne,fun l v hv => ?_⟩
    simp [layerKeys,hnil] at hv
  · have hpos := h.pos hnil
    have hne : extractLayers tree (decodeWrite tree e.pos d e.rows) ≠ [] := by simpa [extractLayers] using hnil
    have hok := hroom.ensureCapacity h.same (hpos ▸ h.room)
    obtain ⟨hn,hcap,hold,x,hnew⟩ := dualAppend_own h.tabled h.same h.live hne hok
    have hn' : (e.step cfg tree d).handle.nTokens = e.pos+1 := by
      rw [Decoding.step,hn]
      omega
    refine ⟨hap.tabled,hap.same,h.live,?_,fun _ => hn',fun l v hv hd q hq => ?_⟩
    · rw [hn']
      exact cfg.cache.pages_le_iff.mpr hcap
    · rw [hn'] at hq
      obtain ⟨hl,hex⟩ := getElem?_layerKeys hv
      simp only [readRestore]
      rcases Nat.lt_or_ge q e.pos with hlt | hge
      · -- an old row, with its old page
        have hrange : q < e.handle.swaBlocks.length*cfg.cache.blockSize := by
          have := cfg.cache.pages_le_iff.mp h.room
          omega
        have hagree := h.agree l v hv hd q (by omega)
        simp only [Decoding.step]
        rw [hold q hlt hrange,hquiet.row (List.mem_of_getElem? hv) hd hlt d]
        exact hagree
      · obtain rfl : q = e.pos := by omega
        simp only [Decoding.step]
        rw [hnew]
        simp only [Option.map_some,Option.getD_some,overlay,Nat.zero_le,hl,and_self,if_true,Nat.sub_zero,
          extractLayers,List.map_map,List.getElem?_map,hex,Option.bind_some,Function.comp_apply]
        rw [appendRow_t512 hd (by omega)]
        rfl

theorem Coherent.run {ds : List (Decoded S)} (h : Coherent cfg tree ts e) (hcalm : Calm cfg tree ds e) :
    Coherent cfg tree ts (e.run cfg tree ds) := by
  induction ds generalizing e with
  | nil => exact h
  | cons d ds ih => exact ih (h.step hcalm.1 hcalm.2.1 d) hcalm.2.2

/-- After a dual write into any pool, and any number of decode steps that
overtake no staged buffer and find their page, staging leaves every row as it
is. -/
theorem stage_after_decode (cfg : DualConfig P S) (tree : ModelTree) (evs : List (DualState.Event S))
    (m : SlotRows S) (n : Nat) (fails : Bool) {c : DualPool P S} {h : DualPoolHandle}
    (hw : dualWriteLayers cfg (DualState.run cfg evs DualState.init : DualState P S).radix
      (extractLayers tree m) n fails = (c,some h))
    (ds : List (Decoded S)) (hcalm : Calm cfg tree ds ⟨m,c,h,n⟩) :
    (run cfg tree ds ⟨m,c,h,n⟩).stage cfg tree = (run cfg tree ds ⟨m,c,h,n⟩).rows := by
  have hk : DualState.Kept cfg (DualState.run cfg evs DualState.init : DualState P S) :=
    DualState.kept_init.run evs
  rcases dualWrite_cases hk.tabled (extractLayers tree m) n fails with ⟨c',hc,_⟩ | ⟨c₁,ids,hwrote⟩
  · rw [hw] at hc
    cases hc
  · have hh : h = { swaBlocks := ids, compBlocks := ids, nTokens := n } := by
      have := hw.symm.trans hwrote.result
      rw [Prod.mk.injEq,Option.some.injEq] at this
      exact this.2
    have htab := hwrote.tabled_result
    have hagree := hwrote.agree
    rw [hw] at htab hagree
    subst hh
    have hstart : Coherent cfg tree (DualState.run cfg evs DualState.init : DualState P S).tables
        ⟨m,c,{ swaBlocks := ids, compBlocks := ids, nTokens := n },n⟩ :=
      ⟨htab,rfl,hwrote.live,Nat.le_of_eq hwrote.length.symm,fun _ => rfl,hagree⟩
    exact (hstart.run hcalm).stage_eq

end Kept

def ringTree : ModelTree where
  args := ⟨1,8,2,512,1,pos_headDim⟩
  specs := [⟨0,true⟩]
  index_pos h := by simp at h

def ringRows : SlotRows Nat := fun _ _ p => DualState.vec p

def decoded (x : Nat) : Decoded Nat := ⟨fun _ => DualState.vec x,fun _ => [],fun _ => [],fun _ _ _ => []⟩

theorem stage_after_decode_inside : ∃ c h, dualWriteLayers DualState.twoSlots
      (DualState.run DualState.twoSlots [] DualState.init : DualState Nat Nat).radix
      (extractLayers ringTree ringRows) 1 false = (c,some h) ∧
    (run DualState.twoSlots ringTree [decoded 7] ⟨ringRows,c,h,1⟩).stage DualState.twoSlots ringTree
      = (run DualState.twoSlots ringTree [decoded 7] ⟨ringRows,c,h,1⟩).rows := by
  refine ⟨_,_,rfl,stage_after_decode _ _ [] _ _ false rfl _ ⟨?_,?_,trivial⟩⟩
  · intro v hv _ sp _ _
    have hkeys : layerKeys DualState.twoSlots ringTree = [⟨0,.attn,.kvCache,.cache,0,2,512⟩] := by decide
    rw [hkeys,List.mem_singleton] at hv
    subst hv
    exact Nat.not_le.mpr Nat.one_lt_two
  · exact .inl (by decide)

/-- A prompt that fills the window, and one decode step: the row it wrote is lost
in the staging. -/
theorem stage_loses_row : ∃ c h, dualWriteLayers DualState.twoSlots
      (DualState.run DualState.twoSlots [] DualState.init : DualState Nat Nat).radix
      (extractLayers ringTree ringRows) 2 false = (c,some h) ∧
    (run DualState.twoSlots ringTree [decoded 7] ⟨ringRows,c,h,2⟩).stage DualState.twoSlots ringTree
      ≠ (run DualState.twoSlots ringTree [decoded 7] ⟨ringRows,c,h,2⟩).rows := by
  refine ⟨_,_,rfl,fun he => ?_⟩
  have hrow : DualState.vec 0 = DualState.vec 7 := congrFun (congrFun (congrFun he 0) .cache) 0
  have hdim : dsv4HeadDim ≠ 0 := by decide
  exact absurd ((List.replicate_right_inj hdim).mp hrow) (by decide)

end Decoding

end SglangLite.Hybrid
