import SglangLite.Hybrid.Ranks

set_option autoImplicit false

namespace SglangLite.Hybrid

section Halves

variable {X S Q O K : Type} [LinearOrder K]

theorem map_mapIdx {A B C : Type} (g : B → C) (f : Nat → A → B) (l : List A) :
    (l.mapIdx f).map g = l.mapIdx fun i a => g (f i a) := by
  refine List.ext_getElem? fun i => ?_
  rw [List.getElem?_map,List.getElem?_mapIdx,List.getElem?_mapIdx,Option.map_map]
  rfl

theorem mapIdx_map {A B C : Type} (f : A → B) (g : Nat → B → C) (l : List A) :
    (l.map f).mapIdx g = l.mapIdx fun i a => g i (f a) := by
  refine List.ext_getElem? fun i => ?_
  rw [List.getElem?_mapIdx,List.getElem?_map,List.getElem?_mapIdx,Option.map_map]
  rfl

theorem length_forwardRow {X S : Type} (c : Scalars S) (args : ModelArgs) (net : List (Layer X S)) (start : Nat)
    (xs : List X) (rows : List (LayerRow S)) : (forwardRow c args net start xs rows).2.1.length = xs.length := by
  induction net generalizing xs rows with
  | nil => rfl
  | cons l net ih =>
    cases rows with
    | nil => rfl
    | cons row rows => exact (ih _ rows).trans (l.length_rest ..)

theorem Block.forward_andThen (b : Block X S Q O K) (g : X → X) (c : Scalars S) (args : ModelArgs) (start : Nat)
    (xs : List X) (row : LayerRow S) :
    let b' : Block X S Q O K := { b with rest := fun pos x o => g (b.rest pos x o) }
    let r := (b.layer args).forward c args start xs row
    (b'.layer args).forward c args start xs row = (r.1,r.2.1.map g,r.2.2) := by
  have hread : ∀ cache index out, Block.read args { b with rest := fun pos x o => g (b.rest pos x o) } start xs cache
      index out = (b.read args start xs cache index out).map g := by
    intro cache index out
    unfold Block.read
    split_ifs
    · exact (map_mapIdx g _ xs).symm
    · rw [List.map_map]
      rfl
  exact congrArg₂ Prod.mk rfl (congrArg₂ Prod.mk (hread _ _ _) rfl)

end Halves

namespace Sharded

open Strides Sharding Moe

section Batch

variable {X K V W Y : Type} [Field K] [LinearOrder K] [AddCommMonoid Y]

def LayerWeights.ffnTokens (ws : Nat) (p : LayerWeights X K V W Y) : List X → Option (List X)
  | [] => some []
  | d :: xs => do
    let x := fun t => (d :: xs).getD t d
    let r : Routing W := ⟨(d :: xs).map fun x => (p.gate x).1,fun t => (p.gate (x t)).2⟩
    let ys ← moeRanks ws p.experts (fun t => p.ffnIn (x t)) r
    return List.zipWith p.ffnPost (d :: xs) ys

variable (c : Scalars K) (args : ModelArgs) (e : K → K) (ws : Nat)

def writeRows {A S : Type} (cache : Nat → S) (xss : List A) (f : Nat → A → S) (slot : Nat) : S :=
  (xss[slot]?.map (f slot)).getD (cache slot)

/-- `Block.forward` on a batch, with a row of the caches for each row of it. -/
def batchLayer (p : LayerWeights X K V W Y) (start : Nat) (xss : List (List X)) (cache : Nat → LayerRow K) :
    Option ((Nat → LayerRow K) × List (List X)) := do
  let attn := fun slot xs => ((attnBlock e ws p).layer args).forward c args start xs (cache slot)
  let x := xss.mapIdx fun slot xs => (attn slot xs).2.1
  let y ← p.ffnTokens ws x.flatten
  return (writeRows cache xss fun slot xs => (attn slot xs).1,blocks (xss.headD []).length xss.length y)

def batchLayers : List (LayerWeights X K V W Y) → Nat → List (List X) → List (Nat → LayerRow K) →
    Option (List (Nat → LayerRow K) × List (List X))
  | p :: ps, start, xss, cache :: caches => do
    let r ← batchLayer c args e ws p start xss cache
    let rs ← batchLayers ps start r.2 caches
    return (r.1 :: rs.1,rs.2)
  | _, _, xss, _ => some ([],xss)

/-- The model by the weights outside of its blocks: `expand` makes the copies of
an embedding, `norm` the input of the head. -/
structure Weights (X K V W Y : Type) where
  vocabSize : Nat
  dim : Nat
  embed : List (List K)
  expand : Nat → List K → X
  layers : List (LayerWeights X K V W Y)
  norm : X → List K
  head : List (List K)

structure Weights.Fits (m : Weights X K V W Y) : Prop where
  pos : 0 < ws
  vocab : ws ∣ m.vocabSize
  embed : m.embed.length = m.vocabSize
  dim : ∀ row ∈ m.embed, row.length = m.dim
  layers : ∀ p ∈ m.layers, p.Fits ws
  head : m.head.length = m.vocabSize

variable (m : Weights X K V W Y)

def Weights.enter (t : Nat) : X :=
  m.expand t (allReduce ((List.range ws).map fun r => localEmbed ws m.vocabSize m.dim r (shard ws m.embed r) t))

/-- `Transformer.forward` on a batch: the logits of the last token of each row.
The caches have no more than `max_batch_size` rows. -/
def Weights.forward (start : Nat) (inputIds : List (List Nat)) (caches : List (Nat → LayerRow K)) :
    Option (List (Nat → LayerRow K) × List (List K)) := do
  if args.maxBatchSize < inputIds.length then none
  let r ← batchLayers c args e ws m.layers start (inputIds.map fun row => row.map (m.enter ws)) caches
  let last ← r.2.mapM List.getLast?
  return (r.1,last.map fun x => logits ws (shard ws m.head) (m.norm x))

end Batch

section Agree

variable {X K V W Y : Type} [Field K] [LinearOrder K] [AddCommMonoid Y] {c : Scalars K} {args : ModelArgs}
  {e : K → K} {ws k : Nat}

omit [Field K] [LinearOrder K] in
theorem ffnTokens_eq {p : LayerWeights X K V W Y} (h : p.Fits ws) (xs : List X) :
    p.ffnTokens ws xs = some (xs.map (p.ffnHalf ws)) := by
  cases xs with
  | nil => rfl
  | cons d xs =>
    rw [LayerWeights.ffnTokens,moeRanks_tokens h,Option.bind_eq_bind,Option.bind_some,List.zipWith_map_right,
      List.zipWith_self]
    rfl

theorem batchLayer_eq {p : LayerWeights X K V W Y} (h : p.Fits ws) (start : Nat) {xss : List (List X)}
    (hk : Even k xss) (cache : Nat → LayerRow K) :
    let row := fun slot xs => ((rankBlock e ws p).layer args).forward c args start xs (cache slot)
    batchLayer c args e ws p start xss cache =
      some (writeRows cache xss fun slot xs => (row slot xs).1,xss.mapIdx fun slot xs => (row slot xs).2.1) := by
  intro row
  obtain ⟨attn,hattn⟩ : ∃ attn, (fun slot xs => ((attnBlock e ws p).layer args).forward c args start xs (cache slot)) =
    attn := ⟨_,rfl⟩
  have hrow : ∀ slot xs, row slot xs = ((attn slot xs).1,(attn slot xs).2.1.map (p.ffnHalf ws),(attn slot xs).2.2) := by
    intro slot xs
    rw [← hattn]
    exact (attnBlock e ws p).forward_andThen (p.ffnHalf ws) c args start xs (cache slot)
  have hlen : ∀ slot xs, (attn slot xs).2.1.length = xs.length := fun slot xs => by
    rw [← hattn]
    exact ((attnBlock e ws p).layer args).length_rest ..
  have hmids : (xss.mapIdx fun slot xs => (attn slot xs).2.1).flatten.map (p.ffnHalf ws) =
      (xss.mapIdx fun slot xs => (row slot xs).2.1).flatten := by
    rw [List.map_flatten,map_mapIdx]
    simp only [hrow]
  have heven : Even k (xss.mapIdx fun slot xs => (row slot xs).2.1) := by
    intro ys hys
    obtain ⟨slot,hslot,rfl⟩ := List.mem_mapIdx.mp hys
    rw [hrow,List.length_map,hlen]
    exact hk _ (List.getElem_mem _)
  have hview : blocks (xss.headD []).length xss.length (xss.mapIdx fun slot xs => (row slot xs).2.1).flatten =
      xss.mapIdx fun slot xs => (row slot xs).2.1 := by
    cases xss with
    | nil => rfl
    | cons xs xss =>
      have hhead : ((xs :: xss).headD []).length = k := hk xs List.mem_cons_self
      have hrows := blocks_flatten heven
      rwa [List.length_mapIdx,← hhead] at hrows
  rw [batchLayer,hattn,ffnTokens_eq h,hmids,Option.bind_eq_bind,Option.bind_some,hview]
  simp only [hrow]
  rfl

/-- The rows of a batch do not mix, and it does not matter on how many ranks they
are computed. -/
theorem batchLayers_eq {ps : List (LayerWeights X K V W Y)} (h : ∀ p ∈ ps, p.Fits ws) (start : Nat)
    {xss : List (List X)} (hk : Even k xss) {caches : List (Nat → LayerRow K)} (hlen : caches.length = ps.length) :
    let row := fun slot xs => forwardRow c args (layers args (ps.map (rankBlock e 1))) start xs (caches.map (· slot))
    ∃ caches', batchLayers c args e ws ps start xss caches =
        some (caches',xss.mapIdx fun slot xs => (row slot xs).2.1) ∧
      ∀ slot, caches'.map (· slot) = (xss[slot]?.map fun xs => (row slot xs).1).getD (caches.map (· slot)) := by
  induction ps generalizing xss caches with
  | nil =>
    obtain rfl := List.length_eq_zero_iff.mp hlen
    have hstay : (xss.mapIdx fun _ xs => xs) = xss := List.ext_getElem? fun i => by
      rw [List.getElem?_mapIdx]
      exact Option.map_id'
    refine ⟨[],?_,fun slot => ?_⟩
    · rw [List.map_nil]
      exact congrArg (fun xss => some ([],xss)) hstay.symm
    · cases xss[slot]? with
      | none => rfl
      | some xs => rfl
  | cons p ps ih =>
    obtain ⟨cache,caches,rfl⟩ := List.exists_cons_of_length_eq_add_one hlen
    obtain ⟨row,hrow⟩ : ∃ row, (fun slot xs => ((rankBlock e 1 p).layer args).forward c args start xs (cache slot)) =
      row := ⟨_,rfl⟩
    have hfirst : batchLayer c args e ws p start xss cache =
        some (writeRows cache xss fun slot xs => (row slot xs).1,xss.mapIdx fun slot xs => (row slot xs).2.1) := by
      rw [batchLayer_eq (h p List.mem_cons_self) start hk,layer_sharded (h p List.mem_cons_self),← hrow]
    have hk' : Even k (xss.mapIdx fun slot xs => (row slot xs).2.1) := by
      intro ys hys
      obtain ⟨slot,hslot,rfl⟩ := List.mem_mapIdx.mp hys
      rw [← hrow]
      exact (((rankBlock e 1 p).layer args).length_rest ..).trans (hk _ (List.getElem_mem _))
    obtain ⟨caches',hrest,hcaches⟩ := ih (fun q hq => h q (List.mem_cons_of_mem p hq)) hk' (Nat.succ.inj hlen)
    have hboth : ∀ slot xs, forwardRow c args (layers args ((p :: ps).map (rankBlock e 1))) start xs
        ((cache :: caches).map (· slot)) =
          let rs := forwardRow c args (layers args (ps.map (rankBlock e 1))) start (row slot xs).2.1
            (caches.map (· slot))
          ((row slot xs).1 :: rs.1,rs.2.1,(row slot xs).2.2 :: rs.2.2) := by
      intro slot xs
      rw [← hrow]
      rfl
    simp only [hboth]
    refine ⟨writeRows cache xss (fun slot xs => (row slot xs).1) :: caches',?_,fun slot => ?_⟩
    · rw [batchLayers,hfirst,Option.bind_eq_bind,Option.bind_some,hrest,Option.bind_eq_bind,Option.bind_some,
        List.mapIdx_mapIdx]
      rfl
    · rw [List.map_cons,hcaches,List.getElem?_mapIdx,writeRows]
      cases xss[slot]? with
      | none => rfl
      | some xs => rfl

section Forward

variable {m : Weights X K V W Y}

omit [Field K] [LinearOrder K] [AddCommMonoid Y] in
theorem Weights.Fits.one (h : m.Fits ws) : m.Fits 1 :=
  { h with pos := Nat.one_pos, vocab := one_dvd _, layers := fun p hp => (h.layers p hp).one }

variable (m) in
def Weights.token (t : Nat) : X := m.expand t (m.embed.getD t [])

variable (m) in
def Weights.lastLogits (xs : List X) : List K := (xs.getLast?.map fun x => linear (m.norm x) m.head).getD []

omit [LinearOrder K] [AddCommMonoid Y] in
theorem enter_eq (h : m.Fits ws) {t : Nat} (ht : t < m.vocabSize) : m.enter ws t = m.token t :=
  congrArg (m.expand t) (embed_allReduce h.vocab h.embed h.dim ht)

omit [LinearOrder K] [AddCommMonoid Y] in
theorem logits_eq (h : m.Fits ws) (xss : List (List X)) (hne : ∀ xs ∈ xss, xs ≠ []) :
    (xss.mapM List.getLast?).map (List.map fun x => logits ws (shard ws m.head) (m.norm x)) =
      some (xss.map m.lastLogits) := by
  induction xss with
  | nil => rfl
  | cons xs xss ih =>
    have hlast := List.getLast?_eq_some_getLast (hne xs List.mem_cons_self)
    obtain ⟨ls,hls,hmap⟩ := Option.map_eq_some_iff.mp (ih fun ys hys => hne ys (List.mem_cons_of_mem xs hys))
    have hhead : ∀ x, logits ws (shard ws m.head) x = linear x m.head := fun x =>
      logits_shard (by rw [h.head]; exact h.vocab) x
    rw [List.mapM_cons,hlast,hls,List.map_cons,← hmap,Weights.lastLogits,hlast]
    simp only [Option.bind_eq_bind,Option.bind_some,Option.map_some,Option.getD_some,List.map_cons,hhead,
      Option.pure_def]

/-- The rows of a batch on the ranks are computed as each of them alone, on one
rank. -/
theorem forward_eq (h : m.Fits ws) (start : Nat) {inputIds : List (List Nat)} {k : Nat}
    (hlen : ∀ row ∈ inputIds, row.length = k+1) (hids : ∀ row ∈ inputIds, ∀ t ∈ row, t < m.vocabSize)
    (hbatch : inputIds.length ≤ args.maxBatchSize) {caches : List (Nat → LayerRow K)}
    (hcaches : caches.length = m.layers.length) :
    let row := fun slot (row : List Nat) => forwardRow c args (layers args (m.layers.map (rankBlock e 1))) start
      (row.map m.token) (caches.map (· slot))
    ∃ caches', m.forward c args e ws start inputIds caches =
        some (caches',inputIds.mapIdx fun slot ids => m.lastLogits (row slot ids).2.1) ∧
      ∀ slot, caches'.map (· slot) =
        (inputIds[slot]?.map fun ids => (row slot ids).1).getD (caches.map (· slot)) := by
  intro row
  have henter : (inputIds.map fun ids => ids.map (m.enter ws)) = inputIds.map fun ids => ids.map m.token :=
    List.map_congr_left fun ids hmem => List.map_congr_left fun t ht => enter_eq h (hids ids hmem t ht)
  have hk : Even (k+1) (inputIds.map fun ids => ids.map m.token) := by
    intro xs hxs
    obtain ⟨ids,hmem,rfl⟩ := List.mem_map.mp hxs
    rw [List.length_map,hlen ids hmem]
  obtain ⟨caches',hrun,hrows⟩ := @batchLayers_eq X K V W Y _ _ _ c args e ws (k+1) m.layers h.layers start _ hk caches
    hcaches
  rw [mapIdx_map] at hrun
  have hne : ∀ xs ∈ inputIds.mapIdx fun slot ids => (row slot ids).2.1, xs ≠ [] := by
    intro xs hxs hnil
    obtain ⟨slot,hslot,rfl⟩ := List.mem_mapIdx.mp hxs
    have := congrArg List.length hnil
    rw [length_forwardRow,List.length_map,hlen _ (List.getElem_mem _),List.length_nil] at this
    omega
  obtain ⟨last,hlast,hlogits⟩ := Option.map_eq_some_iff.mp (logits_eq h _ hne)
  refine ⟨caches',?_,fun slot => ?_⟩
  · have hlast' : (inputIds.mapIdx fun slot ids => (forwardRow c args (layers args (m.layers.map (rankBlock e 1))) start
        (ids.map m.token) (caches.map (· slot))).2.1).mapM List.getLast? = some last := hlast
    rw [Weights.forward,if_neg (by omega),henter,hrun]
    simp only [Option.bind_eq_bind,Option.bind_some,hlast',Option.pure_def,hlogits,map_mapIdx]
  · rw [hrows,List.getElem?_map,Option.map_map]
    rfl

/-- On any number of ranks and in any batch a row gets the logits, and leaves the
caches, that it gets alone on one rank; the other rows of the caches stay. -/
theorem forward_alone (h : m.Fits ws) (start : Nat) {inputIds : List (List Nat)} {k : Nat}
    (hlen : ∀ row ∈ inputIds, row.length = k+1) (hids : ∀ row ∈ inputIds, ∀ t ∈ row, t < m.vocabSize)
    (hbatch : inputIds.length ≤ args.maxBatchSize) {caches : List (Nat → LayerRow K)}
    (hcaches : caches.length = m.layers.length) :
    ∃ caches' ls, m.forward c args e ws start inputIds caches = some (caches',ls) ∧
      (∀ slot row, inputIds[slot]? = some row → ∃ alone l, ls[slot]? = some l ∧
        m.forward c args e 1 start [row] (caches.map fun cache _ => cache slot) = some (alone,[l]) ∧
        alone.map (· 0) = caches'.map (· slot)) ∧
      ∀ slot, inputIds.length ≤ slot → caches'.map (· slot) = caches.map (· slot) := by
  obtain ⟨caches',hrun,hrows⟩ := forward_eq (c := c) (e := e) h start hlen hids hbatch hcaches
  refine ⟨caches',_,hrun,fun slot row hrow => ?_,fun slot hslot => ?_⟩
  · have hmem := List.mem_of_getElem? hrow
    have hone : [row].length ≤ args.maxBatchSize := by
      have := List.length_pos_of_mem hmem
      rw [List.length_singleton]
      omega
    obtain ⟨alone,halone,hrows'⟩ := @forward_eq X K V W Y _ _ _ c args e 1 m h.one start [row] k
      (fun r hr => by rw [List.mem_singleton.mp hr]; exact hlen row hmem)
      (fun r hr => by rw [List.mem_singleton.mp hr]; exact hids row hmem) hone
      (caches.map fun cache _ => cache slot) (by rw [List.length_map,hcaches])
    have hcol : (caches.map fun cache _ => cache slot).map (· 0) = caches.map (· slot) := by
      rw [List.map_map]
      rfl
    refine ⟨alone,_,by rw [List.getElem?_mapIdx,hrow]; rfl,halone.trans ?_,?_⟩
    · rw [List.mapIdx_cons,List.mapIdx_nil]
      simp only [hcol]
    · rw [hrows',hrows,hrow]
      simp only [List.getElem?_cons_zero,Option.map_some,hcol]
  · rw [hrows,List.getElem?_eq_none hslot]
    rfl

end Forward

end Agree

def pairing : Compressor (List ℚ) ℚ where
  wkv x := x ++ x
  wgate x := x ++ x
  ape _ := []
  add s _ := s
  pool kv score := [(kv ++ score).flatten.sum]
  post _ r := r

def splitLayer : LayerWeights (List ℚ) ℚ (List ℚ) ℚ ℚ where
  ratio := 4
  indexTopk := 1
  comp := pairing
  index := pairing
  wkv _ x := x
  args := ⟨2,1,2,1,1,rfl⟩
  scale := 1
  qr x := x
  head pos x := x.map (·+pos)
  unrotate pos x := x.map (·-pos)
  attn := ⟨[[1],[2]],[0,1],[[1],[3]],[[1,2]]⟩
  indexHeads := 2
  indexHeadDim := 1
  indexIn x := x
  indexHead _ x := x
  indexWqB := [[1],[1]]
  weightsProj := [[1],[2]]
  indexScale := 1
  attnPost x y := List.zipWith (·+·) x y
  ffnIn x := x
  gate x := ([x.length%2],fun _ => 1)
  experts := [fun x w => x.sum*w,fun x w => x.sum+w]
  ffnPost x y := x.map (·+y)

theorem splitLayer_fits : splitLayer.Fits 2 where
  attn := ⟨by decide,by decide,by decide,by decide,rfl,rfl,rfl,by decide⟩
  unrotate pos x := List.length_map _
  indexHeads := by decide
  indexWqB := rfl
  weightsProj := rfl
  experts := by decide

def splitWeights : Weights (List ℚ) ℚ (List ℚ) ℚ ℚ where
  vocabSize := 4
  dim := 1
  embed := [[1],[2],[3],[4]]
  expand _ x := x
  layers := [splitLayer]
  norm x := x
  head := [[1],[-1],[2],[0]]

theorem splitWeights_fits : splitWeights.Fits 2 where
  pos := by decide
  vocab := by decide
  embed := rfl
  dim := by decide
  layers p hp := by rw [List.mem_singleton.mp hp]; exact splitLayer_fits
  head := rfl

theorem zero_ne_lowest : (0 : ℚ) ≠ -1 := by decide

def splitScalars : Scalars ℚ := ⟨0,-1,zero_ne_lowest⟩

def splitArgs : ModelArgs := ⟨2,16,4,1,1,Nat.one_pos⟩

def splitCaches : List (Nat → LayerRow ℚ) :=
  (freshModel splitScalars splitArgs (splitWeights.layers.map LayerWeights.ratio)).map fun st slot => st.row slot

theorem forward_alone_split :
    ∃ caches' ls, splitWeights.forward splitScalars splitArgs (·+1) 2 0 [[0,1,2],[3,2,1]] splitCaches =
        some (caches',ls) ∧
      (∀ slot row, [[0,1,2],[3,2,1]][slot]? = some row → ∃ alone l, ls[slot]? = some l ∧
        splitWeights.forward splitScalars splitArgs (·+1) 1 0 [row] (splitCaches.map fun cache _ => cache slot) =
          some (alone,[l]) ∧ alone.map (· 0) = caches'.map (· slot)) ∧
      ∀ slot, 2 ≤ slot → caches'.map (· slot) = splitCaches.map (· slot) :=
  forward_alone splitWeights_fits 0 (k := 2) (by decide) (by decide) (by decide) rfl

end Sharded

end SglangLite.Hybrid
