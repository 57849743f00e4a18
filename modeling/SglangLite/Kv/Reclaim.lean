import SglangLite.Kv.Counted

set_option autoImplicit false

namespace SglangLite.Kv.RadixCache

variable {V : Type} {cfg : CacheConfig} {c c' : RadixCache V} {held : BlockId → Nat}

/-- Every node with pages is a leaf that one prompt inserted, and no two nodes
list the same page. -/
structure Evictable (f : Children) : Prop where
  leaf : ∀ p n k, f.nodeAt p = some (n,k) → n.blockIds ≠ [] → k = .nil ∧ n.refCount ≤ 1
  single : ∀ b, f.count b ≤ 1

theorem evictable_nil : Evictable .nil := ⟨by simp,by simp [Children.count]⟩

theorem Evictable.pruned {f g : Children} (h : Evictable f) (hp : f.Pruned g)
    (hc : ∀ b, g.count b ≤ f.count b) : Evictable g := by
  refine ⟨fun p n k hn hne => ?_,fun b => (hc b).trans (h.single b)⟩
  obtain ⟨k₀,hk,hl⟩ := hp p n k hn
  obtain ⟨hnil,hr⟩ := h.leaf p n k₀ hk hne
  exact ⟨hl hnil,hr⟩

/-- The condition under which a prompt can be committed for good: no node on
its path has pages, its own node is new, and its pages are in no node. -/
structure FreshPath (f : Children) (tokens : List Token) (ids : List BlockId) : Prop where
  path : ∀ p, p <+: tokens → f.blocksAt p = []
  node : ids ≠ [] → f.nodeAt tokens = none
  pages : ∀ b ∈ ids, f.count b = 0

section Insert

variable [Zero V]

theorem insertOrUpdate_tree (c : RadixCache V) (tokens : List Token) (kv logits : Bool)
    (ids : List BlockId) (ht : tokens ≠ []) :
    (c.insertOrUpdate tokens kv ids logits).tree =
      ((if (c.tree.insertPath tokens).blocksAt tokens = ids then c.tree.insertPath tokens
        else (c.tree.insertPath tokens).update (fun n => { n with blockIds := ids }) tokens).update
          (fun n => { n with pastKv := n.pastKv || kv, lastLogits := n.lastLogits || logits })
          tokens) := by
  unfold RadixCache.insertOrUpdate
  rw [if_neg ht]
  simp only [RadixCache.setBlocks]
  split_ifs <;> simp

theorem nodeAt_update {f : Children} {g : RadixNode → RadixNode} {p q : List Token} {n : RadixNode}
    {k : Children} (h : (f.update g p).nodeAt q = some (n,k)) :
    ∃ n₀ k₀, f.nodeAt q = some (n₀,k₀) ∧ (k₀ = .nil → k = .nil) ∧
      n = if q = p then g n₀ else n₀ := by
  by_cases hqp : q = p
  · subst hqp
    cases hq : f.nodeAt q with
    | none =>
      rw [Children.update_of_none hq,hq] at h
      simp at h
    | some e =>
      rw [Children.nodeAt_update_self f q g hq] at h
      obtain ⟨rfl,rfl⟩ := Prod.mk.inj (Option.some.inj h)
      exact ⟨e.1,e.2,rfl,id,by simp⟩
  · have hne := Children.nodeAt_update_ne f p q g hqp
    cases hq : f.nodeAt q with
    | none =>
      simp only [hq] at hne
      rw [hne] at h
      simp at h
    | some e =>
      simp only [hq] at hne
      obtain ⟨k',hk',hiff⟩ := hne
      rw [hk'] at h
      obtain ⟨rfl,rfl⟩ := Prod.mk.inj (Option.some.inj h)
      exact ⟨e.1,e.2,rfl,hiff.mpr,by simp [hqp]⟩

theorem Evictable.insertOrUpdate {tokens : List Token} {ids : List BlockId} {kv logits : Bool}
    (h : Evictable c.tree) (ht : tokens ≠ []) (hids : ids.Nodup)
    (hf : FreshPath c.tree tokens ids) :
    Evictable (c.insertOrUpdate tokens kv ids logits).tree := by
  rw [insertOrUpdate_tree c tokens kv logits ids ht]
  have hpath : (c.tree.insertPath tokens).blocksAt tokens = [] := by
    rw [Children.blocksAt_insertPath]
    exact hf.path tokens (List.prefix_refl _)
  obtain ⟨n₁,k₁,hn₁,hb₁⟩ := Children.nodeAt_insertPath_self c.tree tokens ht
  have hflags : ∀ (f : Children), Evictable f → Evictable (f.update (fun n => { n with
      pastKv := n.pastKv || kv, lastLogits := n.lastLogits || logits }) tokens) := by
    intro f hev
    refine ⟨fun p n k hn hne => ?_,fun b => ?_⟩
    · obtain ⟨n₀,k₀,h₀,hk,rfl⟩ := nodeAt_update hn
      have hsame : ∀ m : RadixNode, (if p = tokens then { m with
          pastKv := m.pastKv || kv, lastLogits := m.lastLogits || logits } else m).blockIds =
          m.blockIds ∧ (if p = tokens then { m with
          pastKv := m.pastKv || kv, lastLogits := m.lastLogits || logits } else m).refCount =
          m.refCount := by intro m; split_ifs <;> exact ⟨rfl,rfl⟩
      obtain ⟨hb,hr⟩ := hsame n₀
      rw [hb] at hne
      obtain ⟨hnil,hle⟩ := hev.leaf p n₀ k₀ h₀ hne
      exact ⟨hk hnil,by rw [hr]; exact hle⟩
    · cases hq : f.nodeAt tokens with
      | none => rw [Children.update_of_none hq]; exact hev.single b
      | some e =>
        have := Children.count_update b f tokens (fun n => { n with
          pastKv := n.pastKv || kv, lastLogits := n.lastLogits || logits }) e.1 e.2 hq
        have := hev.single b
        simp only at *
        omega
  refine hflags _ ?_
  -- the path itself carries no pages, the rest of the tree is untouched
  have hins : ∀ p n k, (c.tree.insertPath tokens).nodeAt p = some (n,k) → n.blockIds ≠ [] →
      k = .nil ∧ n.refCount ≤ 1 := by
    intro p n k hn hne
    by_cases hp : p <+: tokens
    · have : (c.tree.insertPath tokens).blocksAt p = n.blockIds := by simp [Children.blocksAt,hn]
      rw [Children.blocksAt_insertPath,hf.path p hp] at this
      exact absurd this.symm hne
    · rw [Children.nodeAt_insertPath_of_not_prefix c.tree p tokens hp] at hn
      exact h.leaf p n k hn hne
  by_cases hnil : ids = []
  · rw [if_pos (by rw [hpath,hnil])]
    exact ⟨hins,fun b => by rw [Children.count_insertPath]; exact h.single b⟩
  · rw [if_neg (by rw [hpath]; exact Ne.symm hnil)]
    refine ⟨fun p n k hn hne => ?_,fun b => ?_⟩
    · obtain ⟨n₀,k₀,h₀,hk,hnq⟩ := nodeAt_update hn
      by_cases hp : p = tokens
      · rw [hp,Children.nodeAt_insertPath_fresh c.tree tokens ht (hf.node hnil)] at h₀
        obtain ⟨rfl,rfl⟩ := Prod.mk.inj (Option.some.inj h₀)
        rw [if_pos hp] at hnq
        exact ⟨hk rfl,by rw [hnq]⟩
      · rw [if_neg hp] at hnq
        subst hnq
        obtain ⟨h1,h2⟩ := hins p n k₀ h₀ hne
        exact ⟨hk h1,h2⟩
    · have hcu := Children.count_update b (c.tree.insertPath tokens) tokens
        (fun n => { n with blockIds := ids }) n₁ k₁ hn₁
      rw [Children.count_insertPath] at hcu
      have hone := List.nodup_iff_count_le_one.mp hids b
      have := h.single b
      by_cases hb : b ∈ ids
      · have := hf.pages b hb
        simp only at hcu
        omega
      · have := List.count_eq_zero.mpr hb
        simp only at hcu
        omega

end Insert

section Evict

variable [Zero V]

/-- A release moves to the free list what nobody refers to any more. -/
theorem releaseBlock_free (c : RadixCache V) (b x : BlockId) :
    x ∈ (c.releaseBlock b).free ↔
      x ∈ c.free ∨ c.refs x ≠ none ∧ (c.releaseBlock b).refs x = none := by
  rw [releaseBlock_refs]
  unfold releaseBlock
  cases hr : c.refs b with
  | none =>
    by_cases hx : x = b
    · subst hx; simp [hr]
    · simp [hx]
  | some r =>
    by_cases hx : x = b
    · subst hx; by_cases h1 : r ≤ 1 <;> simp [h1,hr,dropRef,setRef]
    · by_cases h1 : r ≤ 1 <;> simp [h1,hx,setRef]

theorem releaseLoop_free (ids seen : List BlockId) (c : RadixCache V) (x : BlockId) :
    x ∈ (c.releaseLoop seen ids).free ↔
      x ∈ c.free ∨ c.refs x ≠ none ∧ (c.releaseLoop seen ids).refs x = none := by
  have dropped : ∀ (ids seen : List BlockId) (c : RadixCache V), c.refs x = none →
      (c.releaseLoop seen ids).refs x = none := by
    intro ids seen c hn
    rw [releaseLoop_refs]
    split_ifs
    · rw [hn]; rfl
    · exact hn
  induction ids generalizing seen c with
  | nil => simp [releaseLoop]
  | cons b ids ih =>
    simp only [releaseLoop]
    split_ifs
    · exact ih seen c
    · refine (ih _ _).trans ?_
      rw [releaseBlock_free]
      have hd := dropped ids (b :: seen) (c.releaseBlock b)
      have hn : c.refs x = none → (c.releaseBlock b).refs x = none := by
        intro h0
        rw [releaseBlock_refs,h0]
        simp [dropRef]
      tauto

theorem releaseBlocks_free (ids : List BlockId) (c : RadixCache V) (x : BlockId) :
    x ∈ (c.releaseBlocks ids).free ↔
      x ∈ c.free ∨ c.refs x ≠ none ∧ (c.releaseBlocks ids).refs x = none :=
  releaseLoop_free ids [] c x

theorem evictLoop_free {needed k : Nat} {es : List (Nat × List Token)} (hw : c.tree.WF)
    (hn : (es.map Prod.snd).Nodup) (hl : ∀ e ∈ es, ∃ n, c.tree.nodeAt e.2 = some (n,.nil)) :
    c.free ⊆ (evictLoop needed es c k).1.free ∧ k ≤ (evictLoop needed es c k).2 := by
  induction es generalizing c k with
  | nil => exact ⟨fun _ hx => hx,Nat.le_refl _⟩
  | cons e es ih =>
    obtain ⟨n,hp⟩ := hl e (by simp)
    simp only [List.map_cons,List.nodup_cons] at hn
    simp only [evictLoop]
    split_ifs
    · exact ⟨fun _ hx => hx,Nat.le_refl _⟩
    · obtain ⟨hf,hk⟩ := ih (c := ({ c with tree := c.tree.unlink e.2 }).releaseBlocks
          (c.tree.blocksAt e.2)) (k := k+(c.tree.blocksAt e.2).length)
        (by rw [releaseBlocks_tree]; exact hw.unlink e.2) hn.2
        (leaves_unlink hw hp hn.1 fun e' he' => hl e' (List.mem_cons_of_mem _ he'))
      exact ⟨fun b hb => hf ((releaseBlocks_free _ _ b).mpr (.inl hb)),by omega⟩

theorem evict_frees (needed : Nat) (hw : c.tree.WF) (hpos : 0 < needed)
    (hc : c.candidates c.tree ≠ []) : (c.evict needed).1.free ≠ [] ∧ (c.evict needed).2 ≠ 0 := by
  have hperm := List.perm_insertionSort (fun x y : Nat × List Token => x.1 ≤ y.1)
    (c.candidates c.tree)
  have hnd := ((hperm.map Prod.snd).nodup_iff).mpr (candidates_nodup hw)
  have hleaf := fun e he => mem_candidates (c := c) hw (e := e) (hperm.mem_iff.mp he)
  unfold evict
  rw [if_neg (by omega)]
  cases hs : (c.candidates c.tree).insertionSort (fun x y => x.1 ≤ y.1) with
  | nil =>
    rw [hs] at hperm
    exact absurd hperm.symm.eq_nil hc
  | cons e es =>
    rw [hs] at hnd hleaf
    simp only [List.map_cons,List.nodup_cons] at hnd
    obtain ⟨n,hn,_,b,hb,hpriv⟩ := hleaf e (by simp)
    have hblocks : c.tree.blocksAt e.2 = n.blockIds := by simp [Children.blocksAt,hn]
    simp only [evictLoop,if_neg (Nat.not_le_of_lt hpos)]
    obtain ⟨hf,hk⟩ := evictLoop_free (k := 0+(c.tree.blocksAt e.2).length)
      (c := ({ c with tree := c.tree.unlink e.2 }).releaseBlocks (c.tree.blocksAt e.2))
      (by rw [releaseBlocks_tree]; exact hw.unlink e.2) hnd.2
      (leaves_unlink hw hn hnd.1 fun e' he' => by
        obtain ⟨m,hm,_⟩ := hleaf e' (List.mem_cons_of_mem _ he')
        exact ⟨m,hm⟩)
    -- the victim's private page goes to the free list and stays there
    have hfreed : b ∈ (({ c with tree := c.tree.unlink e.2 }).releaseBlocks
        (c.tree.blocksAt e.2)).free := by
      rw [releaseBlocks_free,releaseBlocks_refs,hblocks,if_pos hb]
      unfold isPrivate at hpriv
      cases hr : c.refs b with
      | none => simp [hr] at hpriv
      | some r =>
        simp only [hr,decide_eq_true_eq] at hpriv
        exact .inr ⟨by simp,by simp [dropRef,hpriv]⟩
    have hlen : 0 < (c.tree.blocksAt e.2).length := by
      rw [hblocks]
      exact List.length_pos_of_mem hb
    exact ⟨List.ne_nil_of_mem (hf hfreed),by omega⟩

/-- With all other pages in the tree, an allocation within the capacity of the
pool goes through. -/
theorem allocateLoop_succeeds {c₀ : RadixCache V} {ids : List BlockId} (count n : Nat)
    (h : Allocated cfg (fun _ => 0) c₀ ids c) (hc : Counted c) (he : Evictable c.tree)
    (hcount : count = ids.length+n) (hcap : count ≤ cfg.numBlocks) :
    (allocateLoop cfg count n ids c).2 ≠ none := by
  induction n generalizing c ids with
  | zero => simp [allocateLoop]
  | succ n ih =>
    have next : ∀ (b : BlockId) (c'' : RadixCache V), Allocated cfg (fun _ => 0) c₀ (ids ++ [b]) c'' →
        Counted c'' → Evictable c''.tree →
        (allocateLoop cfg count n (ids ++ [b]) c'').2 ≠ none :=
      fun b c'' h' hc' he' => ih h' hc' he' (by simp; omega)
    have taken : ∀ (c' : RadixCache V) b, Counted c' → Counted (c'.take b) :=
      fun c' b h' => counted_setRef h' (by omega)
    simp only [allocateLoop]
    cases hf : c.free with
    | cons b free =>
      exact next b _ (h.push (h.owned.free_refs b (by simp [hf])).1 (h.owned.takeFree hf) rfl rfl)
        (taken { c with free := free } b hc) he
    | nil =>
      simp only
      by_cases hnext : cfg.numBlocks ≤ c.next
      · rw [if_pos hnext]
        -- some page of the pool is not among those just taken, so it is in a leaf of the tree
        obtain ⟨b,hb,hbids⟩ : ∃ b < cfg.numBlocks, b ∉ ids := by
          by_contra hno
          simp only [not_exists,not_and,not_not] at hno
          have hsub : List.range cfg.numBlocks ⊆ ids := fun b hb => hno b (List.mem_range.mp hb)
          have := (List.nodup_range.subperm hsub).length_le
          rw [List.length_range] at this
          omega
        have hcand : c.candidates c.tree ≠ [] := by
          obtain ⟨r,hr⟩ : ∃ r, c.refs b = some r := by
            by_contra hno
            have hnone : c.refs b = none := by
              cases hr : c.refs b with
              | none => rfl
              | some r => exact absurd ⟨r,hr⟩ hno
            have := h.owned.cover b (by omega) hnone
            simp [hf] at this
          have hre := h.owned.refs_eq b r hr
          simp only [List.count_eq_zero.mpr hbids,Nat.zero_add] at hre
          have hr0 : r ≠ 0 := fun h0 => hc b (h0 ▸ hr)
          obtain ⟨p,hp⟩ := Children.exists_blocksAt h.owned.wf (b := b) (by omega)
          have hone := he.single b
          cases hn : c.tree.nodeAt p with
          | none => simp [Children.blocksAt,hn] at hp
          | some e =>
            obtain ⟨m,k⟩ := e
            have hbm : b ∈ m.blockIds := by simpa [Children.blocksAt,hn] using hp
            obtain ⟨hnil,hle⟩ := he.leaf p m k hn (List.ne_nil_of_mem hbm)
            rw [hnil] at hn
            refine List.ne_nil_of_mem (mem_candidates_of_leaf hn hle ⟨b,hbm,?_⟩)
            simp only [isPrivate,hr,decide_eq_true_eq]
            omega
        obtain ⟨hfree,hfreed⟩ := evict_frees (count-ids.length) h.owned.wf (by omega) hcand
        obtain ⟨ho,hev⟩ := h.owned.evict (count-ids.length)
        have hev' : Evolves (fun _ => 0) c (c.evict (count-ids.length)).1 :=
          hev.mono (fun x => Nat.zero_le _)
        have h' : Allocated cfg (fun _ => 0) c₀ ids (c.evict (count-ids.length)).1 :=
          ⟨ho,h.nodup,fun b hb => ⟨(h.fresh b hb).1,Nat.le_zero.mp
            ((hev'.count_le b).trans (Nat.le_of_eq (h.fresh b hb).2))⟩,h.evolves.trans hev'⟩
        cases hf' : (c.evict (count-ids.length)).1.free with
        | nil => exact absurd hf' hfree
        | cons b free =>
          simp only
          rw [if_neg hfreed]
          exact next b _ (h'.push (ho.free_refs b (by simp [hf'])).1 (ho.takeFree hf') rfl rfl)
            (taken { (c.evict (count-ids.length)).1 with free := free } b (hc.evict _))
            (he.pruned hev.pruned hev.count_le)
      · rw [if_neg hnext]
        have htake := h.owned.takeNext (Nat.lt_of_not_le hnext)
        simp only [hf] at htake
        exact next _ _ (h.push h.owned.refs_next htake rfl rfl)
          (taken { c with free := [], next := c.next+1 } c.next hc) he

theorem allocateBlocks_succeeds (h : Owned cfg c (fun _ => 0)) (hc : Counted c)
    (he : Evictable c.tree) {n : Nat} (hn : n ≤ cfg.numBlocks) :
    (c.allocateBlocks cfg n).2 ≠ none :=
  allocateLoop_succeeds n n ⟨h.congr (by simp),by simp,by simp,.refl _ _⟩ hc he (by simp) hn

end Evict

end SglangLite.Kv.RadixCache
