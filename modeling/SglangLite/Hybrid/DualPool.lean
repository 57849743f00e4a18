import Mathlib.Algebra.Notation.Pi.Basic
import Mathlib.Data.List.Perm.Basic
import SglangLite.Kv.Tables
import SglangLite.Hybrid.PrefixCache

set_option autoImplicit false

namespace SglangLite.Hybrid
open Kv

/-- One position of a page in one layer: the packed vectors of the window pool
and of the compressed pool, and the vector of the restore pool. -/
structure Slot (P S : Type) where
  swa : P
  comp : P
  restore : List S

def dsv4HeadDim : Nat := 512

instance {P S : Type} [Zero P] [Zero S] : Zero (Slot P S) := ⟨⟨0,0,List.replicate dsv4HeadDim 0⟩⟩

abbrev Cells (P S : Type) := Nat → Slot P S

abbrev DualPool (P S : Type) := RadixCache (Cells P S)

/-- The parts of a `RadixCache` with packed pools. They are allocated together,
the compressed and the restore pool with the window pool. -/
structure DualConfig (P S : Type) where
  cache : CacheConfig
  numLayers : Nat
  packed : Bool
  pack : List S → P
  maxEntries : Nat

variable {P S : Type}

def Cells.putSwa (layer : Nat) (p : P) (x : Cells P S) : Cells P S :=
  Function.update x layer { x layer with swa := p }

def Cells.putComp (layer : Nat) (p : P) (x : Cells P S) : Cells P S :=
  Function.update x layer { x layer with comp := p }

def Cells.putRestore (layer : Nat) (v : List S) (x : Cells P S) : Cells P S :=
  Function.update x layer { x layer with restore := v }

section Write

variable (cfg : DualConfig P S)

/-- `write_dual_pool_layer` with packed vectors. -/
def writePacked (h : DualPoolHandle) (layer start : Nat) (rows : List P) (c : DualPool P S) : DualPool P S :=
  let c₁ := c.writeAt cfg.cache (Cells.putSwa layer) h.swaBlocks start rows
  c₁.writeAt cfg.cache (Cells.putComp layer) h.compBlocks start rows

/-- `write_dual_pool_layer` with the same bf16 vectors for both pools. -/
def writeLayer (h : DualPoolHandle) (layer start : Nat) (rows : List (List S)) (c : DualPool P S) :
    DualPool P S :=
  let c₁ := writePacked cfg h layer start (rows.map cfg.pack) c
  c₁.writeAt cfg.cache (Cells.putRestore layer) h.swaBlocks start rows

/-- The loop over the extracted layers, which stops at `num_layers`; `pick`
takes the rows to write. -/
def writeLayers (h : DualPoolHandle) (start : Nat) (pick : List (List S) → List (List S)) :
    Nat → List (List (List S)) → DualPool P S → DualPool P S
  | _, [], c => c
  | layer, kv :: layers, c =>
      if cfg.numLayers ≤ layer then c
      else writeLayers h start pick (layer+1) layers (writeLayer cfg h layer start (pick kv) c)

variable [Zero P] [Zero S]

/-- `dual_write_from_model` for the rows of the extracted layers, which are cut
to `n`. `fails` is an exception of a write, after which the pages go back. -/
def dualWriteLayers (c : DualPool P S) (layers : List (List (List S))) (n : Nat) (fails : Bool) :
    DualPool P S × Option DualPoolHandle :=
  if n = 0 ∨ cfg.packed = false then (c,none)
  else
    match c.allocateBlocks cfg.cache (cfg.cache.pages n) with
    | (c₁,none) => (c₁,none)
    | (c₁,some ids) =>
        let h : DualPoolHandle := { swaBlocks := ids, compBlocks := ids, nTokens := n }
        if fails ∨ cfg.numLayers = 0 then (releaseHandle c₁ h,none)
        else if layers = [] then (writePacked cfg h 0 0 (List.replicate n 0) c₁,some h)
        else (writeLayers cfg h 0 (fun kv => kv.take n) 0 layers c₁,some h)

def appendRow (pos : Nat) (kv : List (List S)) : List (List S) :=
  if kv.length ≤ pos then kv.drop (kv.length-1) else (kv.drop pos).take 1

/-- `dual_append_from_model` at `pos`; a `MemoryError` ends it before the first
write. -/
def dualAppendLayers (c : DualPool P S) (h : DualPoolHandle) (pos : Nat) (layers : List (List (List S))) :
    DualPool P S × DualPoolHandle :=
  if cfg.packed = false ∨ layers = [] then (c,h)
  else
    match ensureCapacity cfg.cache c h (pos+1) with
    | (c₁,h₁,false) => (c₁,h₁)
    | (c₁,h₁,true) =>
        if cfg.numLayers = 0 then (c₁,h₁)
        else (writeLayers cfg h₁ pos (appendRow pos) 0 layers c₁,
          { h₁ with nTokens := max h₁.nTokens (pos+1) })

end Write

section Write

variable {cfg : DualConfig P S} {h : DualPoolHandle}

theorem writePacked_eq (layer start : Nat) (rows : List P) (c : DualPool P S) :
    writePacked cfg h layer start rows c
      = { c with pages := (writePacked cfg h layer start rows c).pages } := by
  unfold writePacked
  simp only
  rw [RadixCache.writeAt_eq,RadixCache.writeAt_eq c]

theorem writeLayer_eq (layer start : Nat) (rows : List (List S)) (c : DualPool P S) :
    writeLayer cfg h layer start rows c
      = { c with pages := (writeLayer cfg h layer start rows c).pages } := by
  unfold writeLayer
  simp only
  rw [RadixCache.writeAt_eq,writePacked_eq]

theorem writeLayers_eq (start : Nat) (pick : List (List S) → List (List S)) (layer : Nat)
    (layers : List (List (List S))) (c : DualPool P S) :
    writeLayers cfg h start pick layer layers c
      = { c with pages := (writeLayers cfg h start pick layer layers c).pages } := by
  induction layers generalizing layer c with
  | nil => rfl
  | cons kv layers ih =>
    unfold writeLayers
    split
    · rfl
    · rw [ih,writeLayer_eq]

def Cells.put (cfg : DualConfig P S) (layer : Nat) (v : List S) (x : Cells P S) : Cells P S :=
  Function.update x layer ⟨cfg.pack v,cfg.pack v,v⟩

def overlay (cfg : DualConfig P S) (layer : Nat) (layers : List (List (List S))) (k : Nat)
    (x : Cells P S) : Cells P S :=
  fun l =>
    if layer ≤ l ∧ l < cfg.numLayers then
      match layers[l-layer]?.bind (·[k]?) with
      | some v => ⟨cfg.pack v,cfg.pack v,v⟩
      | none => x l
    else x l

theorem overlay_cons (cfg : DualConfig P S) {layer : Nat} (hl : layer < cfg.numLayers)
    (kv : List (List S)) (layers : List (List (List S))) (k : Nat) (x : Cells P S) :
    overlay cfg layer (kv :: layers) k x =
      overlay cfg (layer+1) layers k
        (match kv[k]? with
        | some v => Cells.put cfg layer v x
        | none => x) := by
  funext l
  rcases Nat.lt_trichotomy l layer with hlt | heq | hgt
  · have h₁ : ¬ layer ≤ l := by omega
    have h₂ : ¬ layer+1 ≤ l := by omega
    simp only [overlay,h₁,h₂,false_and,if_false]
    cases kv[k]? with
    | none => rfl
    | some v => simp [Cells.put,Nat.ne_of_lt hlt]
  · subst heq
    have h₂ : ¬ l+1 ≤ l := by omega
    simp only [overlay,h₂,hl,Nat.le_refl,true_and,false_and,if_true,if_false,Nat.sub_self,
      List.getElem?_cons_zero,Option.bind_some]
    cases kv[k]? with
    | none => rfl
    | some v => simp [Cells.put]
  · have h₁ : layer ≤ l := by omega
    have h₂ : layer+1 ≤ l := by omega
    have hsub : l-layer = (l-(layer+1))+1 := by omega
    have hx : (match kv[k]? with
        | some v => Cells.put cfg layer v x
        | none => x) l = x l := by
      cases kv[k]? with
      | none => rfl
      | some v => simp [Cells.put,Nat.ne_of_gt hgt]
    simp only [overlay,h₁,h₂,true_and,hsub,List.getElem?_cons_succ,hx]

variable {u : List BlockId}

theorem writeLayer_read (hs : h.compBlocks = h.swaBlocks) (hal : Aligned u h.swaBlocks) (c : DualPool P S)
    {layer start : Nat} {rows : List (List S)}
    (hlen : start+rows.length ≤ h.swaBlocks.length*cfg.cache.blockSize) (q : Nat) :
    (writeLayer cfg h layer start rows c).readAt cfg.cache u q =
      if h.swaBlocks[q/cfg.cache.blockSize]? = u[q/cfg.cache.blockSize]? ∧ start ≤ q then
        match rows[q-start]? with
        | some v => (c.readAt cfg.cache u q).map (Cells.put cfg layer v)
        | none => c.readAt cfg.cache u q
      else c.readAt cfg.cache u q := by
  unfold writeLayer writePacked
  simp only [hs]
  rw [RadixCache.readAt_writeAt hal _ hlen,RadixCache.readAt_writeAt hal _ (by simpa using hlen),
    RadixCache.readAt_writeAt hal _ (by simpa using hlen)]
  split
  · rw [List.getElem?_map]
    cases rows[q-start]? with
    | none => rfl
    | some v =>
      simp only [Option.map_some,Option.map_map]
      congr 1
      funext x
      simp [Cells.putSwa,Cells.putComp,Cells.putRestore,Cells.put]
  · rfl

theorem writeLayers_read (hs : h.compBlocks = h.swaBlocks) (hal : Aligned u h.swaBlocks)
    {start : Nat} {pick : List (List S) → List (List S)} (c : DualPool P S) {layer : Nat}
    {layers : List (List (List S))}
    (hlen : ∀ kv ∈ layers, start+(pick kv).length ≤ h.swaBlocks.length*cfg.cache.blockSize) (q : Nat) :
    (writeLayers cfg h start pick layer layers c).readAt cfg.cache u q =
      if h.swaBlocks[q/cfg.cache.blockSize]? = u[q/cfg.cache.blockSize]? ∧ start ≤ q then
        (c.readAt cfg.cache u q).map (overlay cfg layer (layers.map pick) (q-start))
      else c.readAt cfg.cache u q := by
  induction layers generalizing layer c with
  | nil =>
    have hid : overlay cfg layer [] (q-start) = id := by
      funext x l
      simp [overlay]
    simp [writeLayers,hid]
  | cons kv layers ih =>
    unfold writeLayers
    split
    next hge =>
      have hid : overlay cfg layer ((kv :: layers).map pick) (q-start) = id := by
        funext x l
        simp only [overlay]
        rw [if_neg (by omega)]
        rfl
      rw [hid]
      simp
    next hlt =>
      rw [ih _ (fun x hx => hlen x (List.mem_cons_of_mem _ hx)),
        writeLayer_read hs hal c (hlen kv (by simp))]
      split
      · rw [List.map_cons]
        cases hk : (pick kv)[q-start]? with
        | none =>
          simp only
          congr 1
          funext x
          rw [overlay_cons cfg (by omega),hk]
        | some v =>
          simp only [Option.map_map]
          congr 1
          funext x
          rw [overlay_cons cfg (by omega),hk]
          rfl
      · rfl

end Write

section Shared

variable {V : Type} {cfg : CacheConfig} {c : RadixCache V} {ts : List (List BlockId)}

/-- One page table under both names is forked once. -/
@[simp] theorem forkTables_same (c : RadixCache V) (swa : List BlockId) :
    forkTables c swa swa = (c.forkBlocks swa,swa,swa) := by
  by_cases hs : swa = []
  · simp [forkTables,hs,RadixCache.forkBlocks]
  · simp [forkTables,hs,distinctTables]

structure Shelf (cfg : CacheConfig) (c : RadixCache V) (ts : List (List BlockId))
    (es : List V4PrefixEntry) : Prop where
  tabled : Tabled cfg c (ts ++ es.map (·.swaBlockIds))
  same : ∀ en ∈ es, en.compBlockIds = en.swaBlockIds

variable {es : List V4PrefixEntry} {en : V4PrefixEntry}

theorem Shelf.push (h : Shelf cfg c (en.swaBlockIds :: ts) es) (he : en.compBlockIds = en.swaBlockIds) :
    Shelf cfg c ts (es ++ [en]) := by
  constructor
  · refine h.tabled.perm ?_
    rw [List.map_append,← List.append_assoc]
    exact (List.perm_append_singleton _ _).symm
  · intro x hx
    rcases List.mem_append.mp hx with hx | hx
    · exact h.same x hx
    · rw [List.mem_singleton.mp hx,he]

variable [Zero V]

theorem releaseEntryPages_same (he : en.compBlockIds = en.swaBlockIds) :
    releaseEntryPages c en = c.releaseBlocks en.swaBlockIds := by
  simp [releaseEntryPages,distinctTables,he]

theorem Shelf.drop (h : Shelf cfg c ts (en :: es)) : Shelf cfg (releaseEntryPages c en) ts es := by
  rw [releaseEntryPages_same (h.same en (by simp))]
  exact ⟨(h.tabled.perm List.perm_middle).release,fun x hx => h.same x (List.mem_cons_of_mem _ hx)⟩

theorem Shelf.dropOldest (maxEntries : Nat) (h : Shelf cfg c ts es) :
    Shelf cfg (dropOldest maxEntries c es).1 ts (dropOldest maxEntries c es).2 := by
  induction es generalizing c with
  | nil => exact h
  | cons en es ih =>
    unfold Hybrid.dropOldest
    split
    · exact ih h.drop
    · exact h

theorem Shelf.replaceEntry {r : RadixCache V × List V4PrefixEntry}
    (h : Shelf cfg c (en.swaBlockIds :: ts) es) (he : en.compBlockIds = en.swaBlockIds)
    (hr : replaceEntry c en es = some r) : Shelf cfg r.1 ts r.2 := by
  induction es generalizing ts r with
  | nil => simp [Hybrid.replaceEntry] at hr
  | cons old es ih =>
    unfold Hybrid.replaceEntry at hr
    split at hr
    · cases hr
      have hd := h.drop
      refine ⟨hd.tabled.perm List.perm_middle.symm,fun x hx => ?_⟩
      rcases List.mem_cons.mp hx with rfl | hx
      · exact he
      · exact hd.same x hx
    · obtain ⟨r',hr',rfl⟩ := Option.map_eq_some_iff.mp hr
      have hmid : Shelf cfg c (en.swaBlockIds :: old.swaBlockIds :: ts) es := by
        refine ⟨h.tabled.perm ?_,fun x hx => h.same x (List.mem_cons_of_mem _ hx)⟩
        exact List.perm_middle.trans (List.Perm.swap _ _ _)
      have hold := ih hmid hr'
      refine ⟨hold.tabled.perm List.perm_middle.symm,fun x hx => ?_⟩
      rcases List.mem_cons.mp hx with rfl | hx
      · exact h.same _ (by simp)
      · exact hold.same x hx

theorem withSame (he : en.compBlockIds = en.swaBlockIds) :
    { en with compBlockIds := en.swaBlockIds } = en := by
  cases en
  cases he
  rfl

theorem Shelf.insert (maxEntries : Nat) (h : Shelf cfg c ts es) (en : V4PrefixEntry)
    (he : en.compBlockIds = en.swaBlockIds) (hmem : en.swaBlockIds = [] ∨ en.swaBlockIds ∈ ts) :
    Shelf cfg (insert maxEntries c es en).1 ts (insert maxEntries c es en).2 := by
  unfold Hybrid.insert
  split_ifs
  · exact h
  · exact h
  · rw [he,forkTables_same]
    have hfork : Shelf cfg (c.forkBlocks en.swaBlockIds) (en.swaBlockIds :: ts) es := by
      refine ⟨?_,h.same⟩
      rcases hmem with hnil | hmem
      · rw [hnil]
        exact Tabled.nil_cons.mpr h.tabled
      · exact h.tabled.fork (List.mem_append_left _ hmem)
    simp only [withSame he]
    cases hr : Hybrid.replaceEntry (c.forkBlocks en.swaBlockIds) en es with
    | some r => exact Shelf.replaceEntry hfork he hr
    | none => exact (hfork.push he).dropOldest _

theorem mem_insert {maxEntries : Nat} {x : V4PrefixEntry} (en : V4PrefixEntry) (he : en.compBlockIds = en.swaBlockIds)
    (hx : x ∈ (insert maxEntries c es en).2) : x ∈ es ∨ x.swaBlockIds = en.swaBlockIds := by
  have hdrop : ∀ (es : List V4PrefixEntry) (c : RadixCache V),
      x ∈ (Hybrid.dropOldest maxEntries c es).2 → x ∈ es := by
    intro es
    induction es with
    | nil => intro c hx; exact hx
    | cons en es ih =>
      intro c hx
      unfold Hybrid.dropOldest at hx
      split at hx
      · exact List.mem_cons_of_mem _ (ih _ hx)
      · exact hx
  have hrep : ∀ (es : List V4PrefixEntry) (c : RadixCache V) (new : V4PrefixEntry)
      (r : RadixCache V × List V4PrefixEntry), Hybrid.replaceEntry c new es = some r → x ∈ r.2 →
      x ∈ es ∨ x = new := by
    intro es
    induction es with
    | nil => intro c new r hr; simp [Hybrid.replaceEntry] at hr
    | cons old es ih =>
      intro c new r hr hx
      unfold Hybrid.replaceEntry at hr
      split at hr
      · cases hr
        rcases List.mem_cons.mp hx with hx | hx
        · exact .inr hx
        · exact .inl (List.mem_cons_of_mem _ hx)
      · obtain ⟨r',hr',rfl⟩ := Option.map_eq_some_iff.mp hr
        rcases List.mem_cons.mp hx with hx | hx
        · exact .inl (by simp [hx])
        · rcases ih c new r' hr' hx with hx | hx
          · exact .inl (List.mem_cons_of_mem _ hx)
          · exact .inr hx
  unfold Hybrid.insert at hx
  split_ifs at hx
  · exact .inl hx
  · exact .inl hx
  · rw [he,forkTables_same] at hx
    simp only [withSame he] at hx
    cases hr : Hybrid.replaceEntry (c.forkBlocks en.swaBlockIds) en es with
    | some r =>
      rw [hr] at hx
      rcases hrep es _ _ r hr hx with hx | hx
      · exact .inl hx
      · exact .inr (by rw [hx])
    | none =>
      rw [hr] at hx
      rcases List.mem_append.mp (hdrop _ _ hx) with hx | hx
      · exact .inl hx
      · exact .inr (by rw [List.mem_singleton.mp hx])

end Shared

structure Grown {V : Type} (cfg : CacheConfig) (ts : List (List BlockId)) (c c' : RadixCache V)
    (h h' : DualPoolHandle) : Prop where
  tabled : Tabled cfg c' (h'.swaBlocks :: ts)
  same : h'.compBlocks = h'.swaBlocks
  nTokens : h'.nTokens = h.nTokens
  table : ∃ extra, h'.swaBlocks = h.swaBlocks ++ extra ∧ ∀ b ∈ extra, ∀ u ∈ ts, b ∉ u
  pages : ∀ u ∈ h.swaBlocks :: ts, ∀ b ∈ u, c'.pages b = c.pages b

theorem ensureCapacity_grown {V : Type} [Zero V] {cfg : CacheConfig} {c : RadixCache V}
    {ts : List (List BlockId)} {h : DualPoolHandle} (ht : Tabled cfg c (h.swaBlocks :: ts))
    (hs : h.compBlocks = h.swaBlocks) (n : Nat) :
    Grown cfg ts c (ensureCapacity cfg c h n).1 h (ensureCapacity cfg c h n).2.1 ∧
      ((ensureCapacity cfg c h n).2.2 = true →
        n ≤ (ensureCapacity cfg c h n).2.1.swaBlocks.length*cfg.blockSize) := by
  have hsame : Grown cfg ts c c h h := ⟨ht,hs,rfl,⟨[],by simp,by simp⟩,fun _ _ _ _ => rfl⟩
  have hdist : distinctTables h.swaBlocks h.compBlocks = false := by simp [distinctTables,hs]
  unfold ensureCapacity
  simp only
  split
  next hle => exact ⟨hsame,fun _ => cfg.pages_le_iff.mp hle⟩
  next hlt =>
    have hgrow := ht.grow (n := cfg.pages n-h.swaBlocks.length)
    cases hc : c.allocateBlocks cfg (cfg.pages n-h.swaBlocks.length) with
    | mk c₁ o =>
      rw [hc] at hgrow
      cases o with
      | none => exact ⟨⟨hgrow.1,hs,rfl,⟨[],by simp,by simp⟩,hgrow.2⟩,by simp⟩
      | some extra =>
        obtain ⟨htab,hlen,hnew,hpages⟩ := hgrow
        simp only [hdist,Bool.false_eq_true,if_false]
        refine ⟨⟨htab,rfl,rfl,⟨extra,rfl,fun b hb => (hnew b hb).2⟩,hpages⟩,fun _ => ?_⟩
        apply cfg.pages_le_iff.mp
        rw [List.length_append]
        omega

/-- What an append at `pos` does: the tables stay in order, and another table
reads something else only at the appended position, on a page that was in the
handle's table. -/
structure Appended (cfg : CacheConfig) (ts : List (List BlockId)) (c c' : DualPool P S)
    (h h' : DualPoolHandle) (pos : Nat) : Prop where
  tabled : Tabled cfg c' (h'.swaBlocks :: ts)
  same : h'.compBlocks = h'.swaBlocks
  table : h.swaBlocks <+: h'.swaBlocks
  frame : ∀ u ∈ ts, ∀ q, (q = pos → ∀ b, h.swaBlocks[q/cfg.blockSize]? = some b →
    u[q/cfg.blockSize]? ≠ some b) → c'.readAt cfg u q = c.readAt cfg u q

theorem Grown.appended {ts : List (List BlockId)} {cc : CacheConfig} {c c' : DualPool P S}
    {h h' : DualPoolHandle} (hg : Grown cc ts c c' h h') (pos : Nat) : Appended cc ts c c' h h' pos := by
  obtain ⟨extra,hex,_⟩ := hg.table
  exact ⟨hg.tabled,hg.same,⟨extra,hex.symm⟩,fun u hu q _ =>
    RadixCache.readAt_congr (hg.pages u (List.mem_cons_of_mem _ hu)) q⟩

/-- The page of a position below the capacity is an old one of the handle, or no
other table has it. -/
theorem Grown.page {V : Type} {ts : List (List BlockId)} {cc : CacheConfig} {c c' : RadixCache V}
    {h h' : DualPoolHandle} {u : List BlockId} {k : Nat} (hg : Grown cc ts c c' h h') (hu : u ∈ ts)
    (hk : k < h'.swaBlocks.length) (he : h'.swaBlocks[k]? = u[k]?) :
    ∃ b, h.swaBlocks[k]? = some b ∧ u[k]? = some b := by
  obtain ⟨extra,hex,hnew⟩ := hg.table
  obtain ⟨b,hb⟩ : ∃ b, h'.swaBlocks[k]? = some b := ⟨_,List.getElem?_eq_getElem hk⟩
  have hub : u[k]? = some b := he.symm.trans hb
  rw [hex] at hb
  by_cases hold : k < h.swaBlocks.length
  · rw [List.getElem?_append_left hold] at hb
    exact ⟨b,hb,hub⟩
  · rw [List.getElem?_append_right (by omega)] at hb
    exact absurd (List.mem_of_getElem? hub) (hnew b (List.mem_of_getElem? hb) u hu)

theorem Grown.readAt {V : Type} {ts : List (List BlockId)} {cc : CacheConfig} {c c' : RadixCache V}
    {h h' : DualPoolHandle} {q : Nat} (hg : Grown cc ts c c' h h') (hq : q < h.swaBlocks.length*cc.blockSize) :
    c'.readAt cc h'.swaBlocks q = c.readAt cc h.swaBlocks q := by
  obtain ⟨extra,hex,_⟩ := hg.table
  have hlt : q/cc.blockSize < h.swaBlocks.length := (Nat.div_lt_iff_lt_mul cc.blockSize_pos).mpr hq
  have hpage := hg.pages h.swaBlocks (by simp) _ (List.getElem_mem hlt)
  simp only [RadixCache.readAt,hex,List.getElem?_append_left hlt,List.getElem?_eq_getElem hlt,
    Option.map_some,hpage]

theorem appendRow_length (pos : Nat) (kv : List (List S)) : (appendRow pos kv).length ≤ 1 := by
  unfold appendRow
  split
  · rw [List.length_drop]
    omega
  · rw [List.length_take]
    omega

theorem appendRow_replicate (pos : Nat) (v : List S) : appendRow pos (List.replicate (pos+1) v) = [v] := by
  simp [appendRow]

theorem overlay_appendRow (cfg : DualConfig P S) (layers : List (List (List S))) (pos k : Nat)
    (hk : 0 < k) : overlay cfg 0 (layers.map (appendRow pos)) k = id := by
  funext x l
  simp only [overlay,List.getElem?_map,id]
  split
  · cases layers[l-0]? with
    | none => rfl
    | some kv =>
      have hlen := appendRow_length pos kv
      rw [Option.map_some,Option.bind_some,List.getElem?_eq_none (by omega)]
  · rfl

theorem dualAppend_spec [Zero P] [Zero S] {cfg : DualConfig P S} {ts : List (List BlockId)}
    {c : DualPool P S} {h : DualPoolHandle} (ht : Tabled cfg.cache c (h.swaBlocks :: ts))
    (hs : h.compBlocks = h.swaBlocks) (pos : Nat) (layers : List (List (List S))) :
    Appended cfg.cache ts c (dualAppendLayers cfg c h pos layers).1 h
      (dualAppendLayers cfg c h pos layers).2 pos := by
  obtain ⟨hg,hcap⟩ := ensureCapacity_grown ht hs (pos+1)
  unfold dualAppendLayers
  split
  · exact ⟨ht,hs,List.prefix_refl _,fun _ _ _ _ => rfl⟩
  · cases hc : ensureCapacity cfg.cache c h (pos+1) with
    | mk c₁ r =>
      obtain ⟨h₁,ok⟩ := r
      rw [hc] at hg hcap
      have hap := hg.appended pos
      cases ok with
      | false => exact hap
      | true =>
        have hcap := hcap rfl
        simp only at hcap
        simp only
        split
        · exact hap
        · refine ⟨?_,hap.same,hap.table,fun u hu q hq => ?_⟩
          · rw [writeLayers_eq]
            exact hg.tabled.withPages _
          · have hal : Aligned u h₁.swaBlocks :=
              hg.tabled.aligned u (List.mem_cons_of_mem _ hu) _ (by simp)
            have hlen : ∀ kv ∈ layers,
                pos+(appendRow pos kv).length ≤ h₁.swaBlocks.length*cfg.cache.blockSize := by
              intro kv _
              have := appendRow_length pos kv
              omega
            rw [writeLayers_read hg.same hal c₁ hlen,hap.frame u hu q hq]
            split
            next hcond =>
              by_cases hpos : q = pos
              · -- the page of the position would be in both tables
                exfalso
                have hk : q/cfg.cache.blockSize < h₁.swaBlocks.length :=
                  (Nat.div_lt_iff_lt_mul cfg.cache.blockSize_pos).mpr (by omega)
                obtain ⟨b,hb,hub⟩ := hg.page hu hk hcond.1
                exact hq hpos b hb hub
              · rw [overlay_appendRow cfg layers pos (q-pos) (by omega)]
                simp
            next => rfl

/-- The handle's own reads after an append that had its page: the new row at
`pos`, and the old ones before it. -/
theorem dualAppend_own [Zero P] [Zero S] {cfg : DualConfig P S} {ts : List (List BlockId)}
    {c : DualPool P S} {h : DualPoolHandle} {pos : Nat} {layers : List (List (List S))}
    (ht : Tabled cfg.cache c (h.swaBlocks :: ts)) (hs : h.compBlocks = h.swaBlocks)
    (hlive : cfg.packed = true ∧ 0 < cfg.numLayers) (hne : layers ≠ [])
    (hok : (ensureCapacity cfg.cache c h (pos+1)).2.2 = true) :
    (dualAppendLayers cfg c h pos layers).2.nTokens = max h.nTokens (pos+1) ∧
      pos+1 ≤ (dualAppendLayers cfg c h pos layers).2.swaBlocks.length*cfg.cache.blockSize ∧
      (∀ q, q < pos → q < h.swaBlocks.length*cfg.cache.blockSize →
        (dualAppendLayers cfg c h pos layers).1.readAt cfg.cache
          (dualAppendLayers cfg c h pos layers).2.swaBlocks q = c.readAt cfg.cache h.swaBlocks q) ∧
      ∃ x, (dualAppendLayers cfg c h pos layers).1.readAt cfg.cache
          (dualAppendLayers cfg c h pos layers).2.swaBlocks pos
        = some (overlay cfg 0 (layers.map (appendRow pos)) 0 x) := by
  obtain ⟨hg,hcap⟩ := ensureCapacity_grown ht hs (pos+1)
  cases hc : ensureCapacity cfg.cache c h (pos+1) with
  | mk c₁ r =>
    obtain ⟨h₁,ok⟩ := r
    rw [hc] at hg hcap hok
    cases ok with
    | false => simp at hok
    | true =>
      have hcap := hcap rfl
      simp only at hcap
      have hal : Aligned h₁.swaBlocks h₁.swaBlocks := hg.tabled.aligned _ (by simp) _ (by simp)
      have hlen : ∀ kv ∈ layers,
          pos+(appendRow pos kv).length ≤ h₁.swaBlocks.length*cfg.cache.blockSize := by
        intro kv _
        have := appendRow_length pos kv
        omega
      have hzero : cfg.numLayers ≠ 0 := by omega
      simp only [dualAppendLayers,hlive.1,hne,hc,hzero,if_false,Bool.true_eq_false,or_self]
      refine ⟨by rw [hg.nTokens],hcap,fun q hq hold => ?_,?_⟩
      · rw [writeLayers_read hg.same hal c₁ hlen,if_neg (by omega)]
        exact hg.readAt hold
      · have hlt : pos/cfg.cache.blockSize < h₁.swaBlocks.length :=
          (Nat.div_lt_iff_lt_mul cfg.cache.blockSize_pos).mpr (by omega)
        refine ⟨c₁.pages (h₁.swaBlocks[pos/cfg.cache.blockSize]) (pos%cfg.cache.blockSize),?_⟩
        rw [writeLayers_read hg.same hal c₁ hlen,if_pos ⟨rfl,Nat.le_refl _⟩,RadixCache.readAt,
          List.getElem?_eq_getElem hlt,Nat.sub_self]
        rfl

/-- A `dual_write_from_model` that succeeds: it allocated `ids`, with the pool
`c₁` after that. -/
structure Wrote [Zero P] [Zero S] (cfg : DualConfig P S) (ts : List (List BlockId)) (c : DualPool P S)
    (layers : List (List (List S))) (n : Nat) (fails : Bool) (c₁ : DualPool P S) (ids : List BlockId) :
    Prop where
  live : cfg.packed = true ∧ 0 < cfg.numLayers
  tabled : Tabled cfg.cache c₁ (ids :: ts)
  length : ids.length = cfg.cache.pages n
  ne : ids ≠ []
  result : dualWriteLayers cfg c layers n fails =
    (if layers = [] then
      writePacked cfg { swaBlocks := ids, compBlocks := ids, nTokens := n } 0 0 (List.replicate n 0) c₁
    else
      writeLayers cfg { swaBlocks := ids, compBlocks := ids, nTokens := n } 0 (fun kv => kv.take n) 0
        layers c₁,
    some { swaBlocks := ids, compBlocks := ids, nTokens := n })

theorem Wrote.tabled_result [Zero P] [Zero S] {cfg : DualConfig P S} {ts : List (List BlockId)}
    {c c₁ : DualPool P S} {layers : List (List (List S))} {n : Nat} {fails : Bool} {ids : List BlockId}
    (h : Wrote cfg ts c layers n fails c₁ ids) :
    Tabled cfg.cache (dualWriteLayers cfg c layers n fails).1 (ids :: ts) := by
  rw [h.result]
  simp only
  split
  · rw [writePacked_eq]
    exact h.tabled.withPages _
  · rw [writeLayers_eq]
    exact h.tabled.withPages _

theorem dualWrite_cases [Zero P] [Zero S] {cfg : DualConfig P S} {ts : List (List BlockId)}
    {c : DualPool P S} (ht : Tabled cfg.cache c ts) (layers : List (List (List S))) (n : Nat)
    (fails : Bool) :
    (∃ c', dualWriteLayers cfg c layers n fails = (c',none) ∧ Tabled cfg.cache c' ts) ∨
      ∃ c₁ ids, Wrote cfg ts c layers n fails c₁ ids := by
  have hgrow := (Tabled.nil_cons.mpr ht).grow (n := cfg.cache.pages n)
  by_cases hn : n = 0 ∨ cfg.packed = false
  · exact .inl ⟨c,by simp [dualWriteLayers,hn],ht⟩
  · cases hc : c.allocateBlocks cfg.cache (cfg.cache.pages n) with
    | mk c₁ o =>
      rw [hc] at hgrow
      cases o with
      | none => exact .inl ⟨c₁,by simp [dualWriteLayers,hn,hc],Tabled.nil_cons.mp hgrow.1⟩
      | some ids =>
        obtain ⟨htab,hlen,_⟩ := hgrow
        have hne : ids ≠ [] := by
          intro hnil
          rw [hnil,List.length_nil] at hlen
          have := cfg.cache.pages_le_iff.mp (Nat.le_of_eq hlen.symm)
          omega
        by_cases hf : fails ∨ cfg.numLayers = 0
        · refine .inl ⟨c₁.releaseBlocks ids,?_,Tabled.release htab⟩
          simp only [dualWriteLayers,hn,hc,hf,if_true,if_false,releaseHandle,hne]
        · refine .inr ⟨c₁,ids,?_,htab,hlen,hne,?_⟩
          · simp at hn hf
            exact ⟨by simpa using hn.2,by omega⟩
          · simp only [dualWriteLayers,hn,hc,hf,if_false]
            split <;> rfl

structure DualState (P S : Type) where
  radix : DualPool P S
  entries : List V4PrefixEntry := []
  handles : List DualPoolHandle := []

namespace DualState

/-- The calls that touch the pool. An insert stores the pages of a live handle,
or none; a release gives a handle back. -/
inductive Event (S : Type) where
  | write (layers : List (List (List S))) (n : Nat) (fails : Bool)
  | insert (from? : Option Nat) (tokens : List Token) (buffers primary : Bool)
  | fork (entry : Nat)
  | append (handle pos : Nat) (layers : List (List (List S)))
  | release (handle : Nat)

section Step

variable (cfg : DualConfig P S) [Zero P] [Zero S]

def insertFrom (e : DualState P S) (h : DualPoolHandle) (tokens : List Token) (buffers primary : Bool) :
    DualState P S :=
  let en : V4PrefixEntry :=
    { tokenIds := tokens
      row := {}
      buffers := buffers
      swaBlockIds := h.swaBlocks
      compBlockIds := h.compBlocks
      dualPoolTokens := h.nTokens
      dualPrimary := primary }
  let r := insert cfg.maxEntries e.radix e.entries en
  { e with radix := r.1, entries := r.2 }

def step (e : DualState P S) : Event S → DualState P S
  | .write layers n fails =>
      match dualWriteLayers cfg e.radix layers n fails with
      | (c,none) => { e with radix := c }
      | (c,some h) => { e with radix := c, handles := e.handles ++ [h] }
  | .insert none tokens buffers primary => e.insertFrom cfg {} tokens buffers primary
  | .insert (some i) tokens buffers primary =>
      match e.handles[i]? with
      | none => e
      | some h => e.insertFrom cfg h tokens buffers primary
  | .fork j =>
      match e.entries[j]? with
      | none => e
      | some en =>
          match forkForHit e.radix en with
          | (c,none) => { e with radix := c }
          | (c,some h) => { e with radix := c, handles := e.handles ++ [h] }
  | .append i pos layers =>
      match e.handles[i]? with
      | none => e
      | some h =>
          let r := dualAppendLayers cfg e.radix h pos layers
          { e with radix := r.1, handles := e.handles.set i r.2 }
  | .release i =>
      match e.handles[i]? with
      | none => e
      | some h => { e with radix := releaseHandle e.radix h, handles := e.handles.eraseIdx i }

def init : DualState P S := { radix := .empty }

def run : List (Event S) → DualState P S → DualState P S
  | [], e => e
  | ev :: evs, e => run evs (e.step cfg ev)

end Step

def tables (e : DualState P S) : List (List BlockId) :=
  e.handles.map (·.swaBlocks) ++ e.entries.map (·.swaBlockIds)

/-- The page tables have exact reference counts, the compressed pool is under the
same pages, and there are pages only when the pools are written at all. -/
structure Kept (cfg : DualConfig P S) (e : DualState P S) : Prop where
  tabled : Tabled cfg.cache e.radix e.tables
  handles : ∀ h ∈ e.handles, h.compBlocks = h.swaBlocks ∧ h.swaBlocks ≠ []
  entries : ∀ en ∈ e.entries, en.compBlockIds = en.swaBlockIds
  live : ∀ t ∈ e.tables, t ≠ [] → cfg.packed = true ∧ 0 < cfg.numLayers

section Kept

variable {cfg : DualConfig P S} {e : DualState P S}

theorem Kept.shelf (h : Kept cfg e) : Shelf cfg.cache e.radix (e.handles.map (·.swaBlocks)) e.entries :=
  ⟨h.tabled,h.entries⟩

theorem Kept.push {c : DualPool P S} {h : DualPoolHandle} (hk : Kept cfg e)
    (ht : Tabled cfg.cache c (h.swaBlocks :: e.tables)) (hs : h.compBlocks = h.swaBlocks)
    (hne : h.swaBlocks ≠ []) (hl : cfg.packed = true ∧ 0 < cfg.numLayers) :
    Kept cfg { e with radix := c, handles := e.handles ++ [h] } := by
  constructor
  · refine ht.perm ?_
    simp only [tables,List.map_append,List.append_assoc]
    exact List.perm_middle.symm
  · intro x hx
    rcases List.mem_append.mp hx with hx | hx
    · exact hk.handles x hx
    · rw [List.mem_singleton.mp hx]
      exact ⟨hs,hne⟩
  · exact hk.entries
  · exact fun _ _ _ => hl

variable [Zero P] [Zero S]

theorem kept_init : Kept cfg (init : DualState P S) :=
  ⟨⟨(RadixCache.owned_empty cfg.cache).congr (by simp [listed,tables,init]),by simp [tables,init]⟩,
    by simp [init],by simp [init],by simp [tables,init]⟩

theorem Kept.insertFrom {h : DualPoolHandle} (hk : Kept cfg e) (hs : h.compBlocks = h.swaBlocks)
    (hmem : h.swaBlocks = [] ∨ h.swaBlocks ∈ e.handles.map (·.swaBlocks)) (tokens : List Token)
    (buffers primary : Bool) : Kept cfg (e.insertFrom cfg h tokens buffers primary) := by
  set en : V4PrefixEntry :=
    { tokenIds := tokens
      row := {}
      buffers := buffers
      swaBlockIds := h.swaBlocks
      compBlockIds := h.compBlocks
      dualPoolTokens := h.nTokens
      dualPrimary := primary } with hen
  have hst := hk.shelf.insert cfg.maxEntries en hs hmem
  refine ⟨hst.tabled,hk.handles,hst.same,fun t ht hne => ?_⟩
  rcases List.mem_append.mp ht with ht | ht
  · exact hk.live t (List.mem_append_left _ ht) hne
  · obtain ⟨x,hx,rfl⟩ := List.mem_map.mp ht
    rcases mem_insert en hs hx with hx | hx
    · exact hk.live _ (List.mem_append_right _ (List.mem_map_of_mem hx)) hne
    · have hxs : x.swaBlockIds = h.swaBlocks := hx
      rcases hmem with hnil | hmem
      · exact absurd (hxs.trans hnil) hne
      · exact hk.live _ (List.mem_append_left _ (hxs ▸ hmem)) hne

def others (e : DualState P S) (i : Nat) : List (List BlockId) :=
  (e.handles.eraseIdx i).map (·.swaBlocks) ++ e.entries.map (·.swaBlockIds)

omit [Zero P] [Zero S] in
theorem tables_perm {i : Nat} {h : DualPoolHandle} (hi : e.handles[i]? = some h) :
    e.tables.Perm (h.swaBlocks :: e.others i) := by
  obtain ⟨hlt,rfl⟩ := List.getElem?_eq_some_iff.mp hi
  exact (((List.getElem_cons_eraseIdx_perm hlt).symm.map _).append_right _)

omit [Zero P] [Zero S] in
theorem tables_set {c : DualPool P S} {i : Nat} {h h' : DualPoolHandle} (hi : e.handles[i]? = some h) :
    ({ e with radix := c, handles := e.handles.set i h' } : DualState P S).tables.Perm
      (h'.swaBlocks :: e.others i) := by
  obtain ⟨hlt,_⟩ := List.getElem?_eq_some_iff.mp hi
  exact ((List.set_perm_cons_eraseIdx hlt h').map _).append_right _

omit [Zero P] [Zero S] in
theorem Kept.at {i : Nat} {h : DualPoolHandle} (hk : Kept cfg e) (hi : e.handles[i]? = some h) :
    Tabled cfg.cache e.radix (h.swaBlocks :: e.others i) :=
  hk.tabled.perm (tables_perm hi)

omit [Zero P] [Zero S] in
theorem Kept.live_at {i : Nat} {h : DualPoolHandle} (hk : Kept cfg e) (hi : e.handles[i]? = some h) :
    cfg.packed = true ∧ 0 < cfg.numLayers :=
  hk.live h.swaBlocks ((tables_perm hi).mem_iff.mpr (by simp))
    (hk.handles h (List.mem_of_getElem? hi)).2

theorem Kept.append {i : Nat} {h : DualPoolHandle} (hk : Kept cfg e) (hi : e.handles[i]? = some h)
    (pos : Nat) (layers : List (List (List S))) : Kept cfg (e.step cfg (.append i pos layers)) := by
  have hmem := List.mem_of_getElem? hi
  have hap := dualAppend_spec (hk.at hi) (hk.handles h hmem).1 pos layers
  simp only [step,hi]
  refine ⟨hap.tabled.perm (tables_set hi).symm,fun x hx => ?_,hk.entries,fun _ _ _ => hk.live_at hi⟩
  rcases List.mem_or_eq_of_mem_set hx with hx | rfl
  · exact hk.handles x hx
  · refine ⟨hap.same,fun hnil => (hk.handles h hmem).2 ?_⟩
    have hpre := hap.table
    rw [hnil] at hpre
    exact List.prefix_nil.mp hpre

theorem Kept.release {i : Nat} {h : DualPoolHandle} (hk : Kept cfg e) (hi : e.handles[i]? = some h) :
    Kept cfg (e.step cfg (.release i)) := by
  have hne := (hk.handles h (List.mem_of_getElem? hi)).2
  simp only [step,hi,releaseHandle,hne,if_false]
  refine ⟨(hk.at hi).release,fun x hx => hk.handles x (List.mem_of_mem_eraseIdx hx),hk.entries,
    fun _ _ _ => hk.live_at hi⟩

theorem Kept.write (hk : Kept cfg e) (layers : List (List (List S))) (n : Nat) (fails : Bool) :
    Kept cfg (e.step cfg (.write layers n fails)) := by
  rcases dualWrite_cases hk.tabled layers n fails with ⟨c,hc,ht⟩ | ⟨c,ids,hw⟩
  · simp only [step,hc]
    exact ⟨ht,hk.handles,hk.entries,hk.live⟩
  · have ht := hw.tabled_result
    rw [hw.result] at ht
    simp only [step,hw.result]
    exact hk.push ht rfl hw.ne hw.live

theorem Kept.fork {j : Nat} {en : V4PrefixEntry} (hk : Kept cfg e) (hj : e.entries[j]? = some en) :
    Kept cfg (e.step cfg (.fork j)) := by
  have hmem := List.mem_of_getElem? hj
  have hin : en.swaBlockIds ∈ e.tables := List.mem_append_right _ (List.mem_map_of_mem hmem)
  simp only [step,hj,forkForHit]
  by_cases hnil : en.swaBlockIds = []
  · simp only [hnil,if_true]
    exact hk
  · simp only [hnil,if_false,hk.entries en hmem,forkTables_same]
    exact hk.push (hk.tabled.fork hin) rfl hnil (hk.live _ hin hnil)

theorem Kept.step (hk : Kept cfg e) (ev : Event S) : Kept cfg (e.step cfg ev) := by
  cases ev with
  | write layers n fails => exact hk.write layers n fails
  | insert i tokens buffers primary =>
    cases i with
    | none => exact hk.insertFrom rfl (.inl rfl) tokens buffers primary
    | some i =>
      cases hi : e.handles[i]? with
      | none =>
        simp only [DualState.step,hi]
        exact hk
      | some h =>
        have hmem := List.mem_of_getElem? hi
        simp only [DualState.step,hi]
        exact hk.insertFrom (hk.handles h hmem).1 (.inr (List.mem_map_of_mem hmem)) tokens buffers primary
  | fork j =>
    cases hj : e.entries[j]? with
    | none =>
      simp only [DualState.step,hj]
      exact hk
    | some en => exact hk.fork hj
  | append i pos layers =>
    cases hi : e.handles[i]? with
    | none =>
      simp only [DualState.step,hi]
      exact hk
    | some h => exact hk.append hi pos layers
  | release i =>
    cases hi : e.handles[i]? with
    | none =>
      simp only [DualState.step,hi]
      exact hk
    | some h => exact hk.release hi

theorem Kept.run (hk : Kept cfg e) (evs : List (Event S)) : Kept cfg (run cfg evs e) := by
  induction evs generalizing e with
  | nil => exact hk
  | cons ev evs ih => exact ih (hk.step ev)

end Kept

/-- Whoever has these page tables reads the same below `n`, in all three pools and
all layers. -/
def SameReads (cfg : DualConfig P S) (c c' : DualPool P S) (swa comp : List BlockId) (n : Nat) : Prop :=
  ∀ q, q < n → ∀ l,
    (c'.readAt cfg.cache swa q).map (fun x => (x l).swa) = (c.readAt cfg.cache swa q).map (fun x => (x l).swa) ∧
    (c'.readAt cfg.cache comp q).map (fun x => (x l).comp)
      = (c.readAt cfg.cache comp q).map (fun x => (x l).comp) ∧
    (c'.readAt cfg.cache swa q).map (fun x => (x l).restore)
      = (c.readAt cfg.cache swa q).map (fun x => (x l).restore)

def Unseen (cfg : DualConfig P S) (e : DualState P S) (i : Nat) (c' : DualPool P S) : Prop :=
  (∀ j u, j ≠ i → e.handles[j]? = some u →
    SameReads cfg e.radix c' u.swaBlocks u.compBlocks u.nTokens) ∧
  ∀ en ∈ e.entries, SameReads cfg e.radix c' en.swaBlockIds en.compBlockIds en.dualPoolTokens

/-- The page of position `pos` in the table of handle `i` is with nobody else who
counts that position. -/
def Unclaimed (cfg : DualConfig P S) (e : DualState P S) (i pos : Nat) (h : DualPoolHandle) : Prop :=
  ∀ b, h.swaBlocks[pos/cfg.cache.blockSize]? = some b →
    (∀ j u, j ≠ i → e.handles[j]? = some u → pos < u.nTokens → b ∉ u.swaBlocks) ∧
    ∀ en ∈ e.entries, pos < en.dualPoolTokens → b ∉ en.swaBlockIds

def Extracted (layers : List (List (List S))) : Prop :=
  ∀ kv ∈ layers, kv ≠ [] ∧ ∀ v ∈ kv, v.length = dsv4HeadDim

section Isolation

variable {cfg : DualConfig P S} {e : DualState P S}

theorem SameReads.of_readAt {c c' : DualPool P S} {swa comp : List BlockId} {n : Nat} (hs : comp = swa)
    (h : ∀ q, q < n → c'.readAt cfg.cache swa q = c.readAt cfg.cache swa q) :
    SameReads cfg c c' swa comp n := by
  intro q hq l
  rw [hs,h q hq]
  exact ⟨rfl,rfl,rfl⟩

theorem mem_others_handle {i j : Nat} {u : DualPoolHandle} (hij : j ≠ i) (hj : e.handles[j]? = some u) :
    u.swaBlocks ∈ e.others i :=
  List.mem_append_left _ (List.mem_map_of_mem (List.mem_eraseIdx_iff_getElem?.mpr ⟨j,hij,hj⟩))

theorem mem_others_entry {i : Nat} {en : V4PrefixEntry} (he : en ∈ e.entries) :
    en.swaBlockIds ∈ e.others i :=
  List.mem_append_right _ (List.mem_map_of_mem he)

theorem exists_other_vector [Nontrivial S] (w : Option (List S)) :
    ∃ v : List S, v.length = dsv4HeadDim ∧ some v ≠ w := by
  obtain ⟨x,y,hxy⟩ := exists_pair_ne S
  by_cases hx : w = some (List.replicate dsv4HeadDim x)
  · refine ⟨List.replicate dsv4HeadDim y,List.length_replicate,?_⟩
    rw [hx]
    intro he
    have hdim : dsv4HeadDim ≠ 0 := by decide
    exact hxy ((List.replicate_right_inj hdim).mp (Option.some.inj he)).symm
  · exact ⟨List.replicate dsv4HeadDim x,List.length_replicate,fun he => hx he.symm⟩

variable [Zero P] [Zero S]

theorem Kept.append_unseen {i pos : Nat} {h : DualPoolHandle} (hk : Kept cfg e)
    (hi : e.handles[i]? = some h) (hun : Unclaimed cfg e i pos h) (layers : List (List (List S))) :
    Unseen cfg e i (dualAppendLayers cfg e.radix h pos layers).1 := by
  have hap := dualAppend_spec (hk.at hi) (hk.handles h (List.mem_of_getElem? hi)).1 pos layers
  constructor
  · intro j u hij hj
    refine SameReads.of_readAt (hk.handles u (List.mem_of_getElem? hj)).1 fun q hq => ?_
    refine hap.frame _ (mem_others_handle hij hj) q fun hqp b hb hub => ?_
    subst hqp
    exact (hun b hb).1 j u hij hj hq (List.mem_of_getElem? hub)
  · intro en he
    refine SameReads.of_readAt (hk.entries en he) fun q hq => ?_
    refine hap.frame _ (mem_others_entry he) q fun hqp b hb hub => ?_
    subst hqp
    exact (hun b hb).2 en he hq (List.mem_of_getElem? hub)

/-- An append onto a page that another table lists too: the new vector is what
that table reads. -/
theorem Kept.append_seen {i pos : Nat} {h : DualPoolHandle} {b : BlockId} {u : List BlockId}
    (hk : Kept cfg e) (hi : e.handles[i]? = some h) (hb : h.swaBlocks[pos/cfg.cache.blockSize]? = some b)
    (hu : u ∈ e.others i) (hub : b ∈ u) (v : List S) :
    ((dualAppendLayers cfg e.radix h pos [List.replicate (pos+1) v]).1.readAt cfg.cache u pos).map
      (fun x => (x 0).restore) = some v := by
  have ht := hk.at hi
  obtain ⟨hpacked,hlayers⟩ := hk.live_at hi
  have hs := (hk.handles h (List.mem_of_getElem? hi)).1
  have hal : Aligned u h.swaBlocks := ht.aligned u (List.mem_cons_of_mem _ hu) _ (by simp)
  obtain ⟨k,hkb⟩ := List.getElem?_of_mem hub
  have hidx : u[pos/cfg.cache.blockSize]? = some b := hal k _ b hkb hb ▸ hkb
  obtain ⟨hlt,_⟩ := List.getElem?_eq_some_iff.mp hb
  have hcap : pos+1 ≤ h.swaBlocks.length*cfg.cache.blockSize :=
    (Nat.div_lt_iff_lt_mul cfg.cache.blockSize_pos).mp hlt
  have hneed : cfg.cache.pages (pos+1) ≤ h.swaBlocks.length := by
    rw [cfg.cache.pages_succ]
    exact hlt
  have hfull : ensureCapacity cfg.cache e.radix h (pos+1) = (e.radix,h,true) := by
    simp [ensureCapacity,hneed]
  simp only [dualAppendLayers,hpacked,hfull,Nat.ne_of_gt hlayers,if_false,Bool.true_eq_false,
    List.cons_ne_nil,or_self]
  rw [writeLayers_read hs hal _ (by simpa [appendRow_replicate] using hcap),hb,hidx]
  simp only [Nat.le_refl,and_self,if_true,Nat.sub_self,List.map_cons,List.map_nil,appendRow_replicate]
  rw [RadixCache.readAt,hidx]
  simp [overlay,hlayers]

theorem Kept.unclaimed [Nontrivial S] {i pos : Nat} {h : DualPoolHandle} (hk : Kept cfg e)
    (hi : e.handles[i]? = some h)
    (hun : ∀ layers, Extracted layers → Unseen cfg e i (dualAppendLayers cfg e.radix h pos layers).1) :
    Unclaimed cfg e i pos h := by
  have hseen : ∀ u ∈ e.others i, ∀ b, h.swaBlocks[pos/cfg.cache.blockSize]? = some b → b ∈ u →
      ∃ layers : List (List (List S)), Extracted layers ∧
        ((dualAppendLayers cfg e.radix h pos layers).1.readAt cfg.cache u pos).map
          (fun x => (x 0).restore) ≠ (e.radix.readAt cfg.cache u pos).map (fun x => (x 0).restore) := by
    intro u hu b hb hub
    obtain ⟨v,hv,hne⟩ := exists_other_vector ((e.radix.readAt cfg.cache u pos).map fun x => (x 0).restore)
    refine ⟨[List.replicate (pos+1) v],?_,?_⟩
    · intro kv hkv
      rw [List.mem_singleton.mp hkv]
      refine ⟨by simp,fun w hw => ?_⟩
      rw [List.eq_of_mem_replicate hw,hv]
    · rw [hk.append_seen hi hb hu hub v]
      exact hne
  intro b hb
  constructor
  · intro j u hij hj hlt hub
    obtain ⟨layers,hex,hne⟩ := hseen _ (mem_others_handle hij hj) b hb hub
    exact hne ((hun layers hex).1 j u hij hj pos hlt 0).2.2
  · intro en he hlt hub
    obtain ⟨layers,hex,hne⟩ := hseen _ (mem_others_entry he) b hb hub
    exact hne ((hun layers hex).2 en he pos hlt 0).2.2

/-- In every state that is reached, an append to a handle at its next position
goes unseen, whatever the model has computed, exactly when the page of that
position is with nobody else who counts the position. -/
theorem append_isolated [Nontrivial S] (cfg : DualConfig P S) (evs : List (Event S)) {i : Nat}
    {h : DualPoolHandle} (hi : (run cfg evs init : DualState P S).handles[i]? = some h) :
    (∀ layers, Extracted layers → Unseen cfg (run cfg evs init) i
        ((run cfg evs init : DualState P S).step cfg (.append i h.nTokens layers)).radix) ↔
      Unclaimed cfg (run cfg evs init) i h.nTokens h := by
  have hk : Kept cfg (run cfg evs init : DualState P S) := kept_init.run evs
  simp only [DualState.step,hi]
  exact ⟨hk.unclaimed hi,fun hun layers _ => hk.append_unseen hi hun layers⟩

def twoSlots : DualConfig Nat Nat where
  cache := ⟨2,4,Nat.two_pos,pos_four⟩
  numLayers := 1
  packed := true
  pack v := v.headD 0
  maxEntries := 4

def vec (x : Nat) : List Nat := List.replicate dsv4HeadDim x

def hitTwice : List (Event Nat) :=
  [.write [[vec 1]] 1 false,.insert (some 0) [7] true true,.fork 0,.fork 0,.append 1 1 [[vec 1,vec 2]]]

theorem append_isolated_first : ∃ h, (run twoSlots hitTwice init : DualState Nat Nat).handles[1]? = some h ∧
    h.nTokens = 2 ∧ ∀ layers, Extracted layers → Unseen twoSlots (run twoSlots hitTwice init) 1
      ((run twoSlots hitTwice init : DualState Nat Nat).step twoSlots (.append 1 h.nTokens layers)).radix := by
  refine ⟨_,rfl,rfl,(append_isolated twoSlots hitTwice rfl).mpr fun b hb => ?_⟩
  have hnone : none = some b := hb
  cases hnone

/-- The second hit decodes its first token, onto the first hit's. -/
theorem second_hit_overwrites : ∃ h, (run twoSlots hitTwice init : DualState Nat Nat).handles[2]? = some h ∧
    ¬ Unseen twoSlots (run twoSlots hitTwice init) 2
      ((run twoSlots hitTwice init : DualState Nat Nat).step twoSlots
        (.append 2 h.nTokens [[vec 1,vec 3]])).radix := by
  refine ⟨_,rfl,fun hun => ?_⟩
  have hread : some (vec 3) = some (vec 2) := (hun.1 1 _ (by decide) rfl 1 (by decide) 0).2.2
  have hdim : dsv4HeadDim ≠ 0 := by decide
  exact absurd ((List.replicate_right_inj hdim).mp (Option.some.inj hread)) (by decide)

end Isolation

end DualState

end SglangLite.Hybrid
