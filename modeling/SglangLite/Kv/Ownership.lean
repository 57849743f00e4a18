import SglangLite.Kv.RadixCache

set_option autoImplicit false

namespace SglangLite.Kv

/-- `f'` is `f` with some nodes taken out: what is left has its payload, and a
leaf stays a leaf. -/
def Children.Pruned (f f' : Children) : Prop :=
  ∀ q m k', f'.nodeAt q = some (m,k') → ∃ k, f.nodeAt q = some (m,k) ∧ (k = .nil → k' = .nil)

namespace Children

theorem Pruned.refl (f : Children) : f.Pruned f := fun _ _ k' h => ⟨k',h,id⟩

theorem Pruned.trans {f g h : Children} (h₁ : f.Pruned g) (h₂ : g.Pruned h) : f.Pruned h := by
  intro q m k' hq
  obtain ⟨k,hk,hl⟩ := h₂ q m k' hq
  obtain ⟨k₀,hk₀,hl₀⟩ := h₁ q m k hk
  exact ⟨k₀,hk₀,fun e => hl (hl₀ e)⟩

theorem Pruned.blocksAt {f g : Children} (h : f.Pruned g) (q : List Token) :
    g.blocksAt q = f.blocksAt q ∨ g.blocksAt q = [] := by
  cases hq : g.nodeAt q with
  | none => exact .inr (by simp [Children.blocksAt,hq])
  | some e =>
    obtain ⟨k,hk,_⟩ := h q e.1 e.2 hq
    exact .inl (by simp [Children.blocksAt,hq,hk])

theorem NoPast.pruned {f g : Children} (hf : f.NoPast) (h : f.Pruned g) : g.NoPast := by
  intro p n k hn
  obtain ⟨k₀,hk,_⟩ := h p n k hn
  exact hf p n k₀ hk

theorem pruned_unlink {f : Children} (hf : f.WF) {p : List Token} {n : RadixNode}
    (hp : f.nodeAt p = some (n,nil)) : f.Pruned (f.unlink p) := by
  intro q m k' hq
  by_cases hqp : q = p
  · rw [hqp,nodeAt_unlink_self hf hp] at hq
    exact absurd hq (by simp)
  · have h := nodeAt_unlink_ne hf hp hqp
    cases hn : f.nodeAt q with
    | none => simp only [hn] at h; simp [h] at hq
    | some e =>
      simp only [hn] at h
      obtain ⟨k'',h₁,h₂⟩ := h
      rw [h₁] at hq
      cases hq
      exact ⟨e.2,rfl,h₂⟩

end Children

namespace RadixCache

variable {V : Type}

/-- Every reference count is exact: `held` counts the block tables outside the
tree that hold the block. The remaining fields are the allocator's partition
of the ids handed out so far. -/
structure Owned (cfg : CacheConfig) (c : RadixCache V) (held : BlockId → Nat) : Prop where
  refs_eq : ∀ b r, c.refs b = some r → r = held b+c.tree.count b
  refs_none : ∀ b, c.refs b = none → held b = 0 ∧ c.tree.count b = 0
  wf : c.tree.WF
  nodup : ∀ p, (c.tree.blocksAt p).Nodup
  free_nodup : c.free.Nodup
  free_refs : ∀ b ∈ c.free, c.refs b = none ∧ b < c.next
  refs_lt : ∀ b r, c.refs b = some r → b < c.next
  cover : ∀ b, b < c.next → c.refs b = none → b ∈ c.free
  next_le : c.next ≤ cfg.numBlocks

/-- `c'` follows from `c` by steps that only drop tree nodes and move unowned
blocks: whatever is still owned keeps its page. -/
structure Evolves (held : BlockId → Nat) (c c' : RadixCache V) : Prop where
  pruned : c.tree.Pruned c'.tree
  count_le : ∀ b, c'.tree.count b ≤ c.tree.count b
  pages : ∀ b, 0 < held b+c'.tree.count b → c'.pages b = c.pages b

theorem Evolves.refl (held : BlockId → Nat) (c : RadixCache V) : Evolves held c c :=
  ⟨.refl _,fun _ => Nat.le_refl _,fun _ _ => rfl⟩

theorem Evolves.trans {held : BlockId → Nat} {a b c : RadixCache V} (h₁ : Evolves held a b)
    (h₂ : Evolves held b c) : Evolves held a c := by
  refine ⟨h₁.pruned.trans h₂.pruned,fun x => (h₂.count_le x).trans (h₁.count_le x),?_⟩
  intro x hx
  have := h₂.count_le x
  exact (h₂.pages x hx).trans (h₁.pages x (by omega))

theorem Evolves.mono {held held' : BlockId → Nat} (hle : ∀ b, held' b ≤ held b) {c c' : RadixCache V}
    (h : Evolves held c c') : Evolves held' c c' :=
  ⟨h.pruned,h.count_le,fun b hb => h.pages b (by have := hle b; omega)⟩

variable {cfg : CacheConfig} {c : RadixCache V} {held : BlockId → Nat}

theorem Owned.refs_of_pos (h : Owned cfg c held) {b : BlockId} (hb : 0 < held b+c.tree.count b) :
    c.refs b = some (held b+c.tree.count b) := by
  cases hr : c.refs b with
  | none => have := h.refs_none b hr; omega
  | some r => rw [h.refs_eq b r hr]

theorem Owned.congr {held' : BlockId → Nat} (h : Owned cfg c held) (he : ∀ b, held b = held' b) :
    Owned cfg c held' := funext he ▸ h

theorem owned_empty [Zero V] (cfg : CacheConfig) :
    Owned cfg (empty : RadixCache V) (fun _ => 0) where
  refs_eq := by simp [empty]
  refs_none := by simp [empty,Children.count]
  wf := trivial
  nodup := by simp [empty]
  free_nodup := by simp [empty]
  free_refs := by simp [empty]
  refs_lt := by simp [empty]
  cover := by simp [empty]
  next_le := by simp [empty]

theorem Owned.setRef (held' : BlockId → Nat) {b : BlockId} {r : Nat} (h : Owned cfg c held)
    (hb : b < c.next) (hf : b ∉ c.free) (hr : r = held' b+c.tree.count b)
    (he : ∀ x, x ≠ b → held' x = held x) : Owned cfg (c.setRef b (some r)) held' := by
  refine ⟨?_,?_,h.wf,h.nodup,h.free_nodup,?_,?_,?_,h.next_le⟩
  · intro x r' hx
    by_cases hxb : x = b
    · subst hxb
      simp only [RadixCache.setRef,Function.update_self,Option.some.injEq] at hx
      rw [← hx]
      exact hr
    · simp only [RadixCache.setRef,Function.update_of_ne hxb] at hx
      rw [he x hxb]
      exact h.refs_eq x r' hx
  · intro x hx
    by_cases hxb : x = b
    · subst hxb; simp [RadixCache.setRef] at hx
    · simp only [RadixCache.setRef,Function.update_of_ne hxb] at hx
      rw [he x hxb]
      exact h.refs_none x hx
  · intro x hx
    have hxb : x ≠ b := fun e => hf (e ▸ hx)
    simpa [RadixCache.setRef,Function.update_of_ne hxb] using h.free_refs x hx
  · intro x r' hx
    by_cases hxb : x = b
    · exact hxb ▸ hb
    · simp only [RadixCache.setRef,Function.update_of_ne hxb] at hx
      exact h.refs_lt x r' hx
  · intro x hx hn
    by_cases hxb : x = b
    · subst hxb; simp [RadixCache.setRef] at hn
    · simp only [RadixCache.setRef,Function.update_of_ne hxb] at hn
      exact h.cover x hx hn

theorem Owned.not_mem_free (h : Owned cfg c held) {b : BlockId} (hb : c.refs b ≠ none) :
    b ∉ c.free := fun hm => hb (h.free_refs b hm).1

section Release

variable [Zero V]

@[simp] theorem releaseBlock_tree (c : RadixCache V) (b : BlockId) :
    (c.releaseBlock b).tree = c.tree := by
  unfold releaseBlock
  split
  · rfl
  · split_ifs <;> rfl

/-- Giving back one counted reference keeps the counts exact; a block that
still has an owner keeps its page. -/
theorem Owned.releaseBlock {b : BlockId}
    (h : Owned cfg c (fun x => held x+if x = b then 1 else 0)) :
    Owned cfg (c.releaseBlock b) held ∧ Evolves held c (c.releaseBlock b) := by
  have hr := h.refs_of_pos (b := b) (by simp only [if_true]; omega)
  simp only [if_true] at hr
  have hbf : b ∉ c.free := h.not_mem_free (by simp [hr])
  have hlt := h.refs_lt b _ hr
  by_cases h1 : held b+1+c.tree.count b ≤ 1
  · have hc : c.releaseBlock b = { c with
        refs := Function.update c.refs b none
        free := b :: c.free
        pages := Function.update c.pages b (fun _ => 0) } := by
      simp [RadixCache.releaseBlock,hr,h1]
    rw [hc]
    refine ⟨⟨?_,?_,h.wf,h.nodup,List.nodup_cons.mpr ⟨hbf,h.free_nodup⟩,?_,?_,?_,h.next_le⟩,
      .refl _,fun _ => Nat.le_refl _,?_⟩
    · intro x r hx
      by_cases hxb : x = b
      · subst hxb; simp at hx
      · simp only [Function.update_of_ne hxb] at hx
        simpa [hxb] using h.refs_eq x r hx
    · intro x hx
      by_cases hxb : x = b
      · subst hxb; simp only; omega
      · simp only [Function.update_of_ne hxb] at hx
        simpa [hxb] using h.refs_none x hx
    · intro x hx
      rcases List.mem_cons.mp hx with rfl | hx
      · exact ⟨by simp,hlt⟩
      · have hxb : x ≠ b := fun e => hbf (e ▸ hx)
        simpa [Function.update_of_ne hxb] using h.free_refs x hx
    · intro x r hx
      by_cases hxb : x = b
      · exact hxb ▸ hlt
      · simp only [Function.update_of_ne hxb] at hx
        exact h.refs_lt x r hx
    · intro x hx hn
      by_cases hxb : x = b
      · simp [hxb]
      · simp only [Function.update_of_ne hxb] at hn
        exact List.mem_cons_of_mem _ (h.cover x hx hn)
    · intro x hx
      have hxb : x ≠ b := by rintro rfl; simp only at hx; omega
      simp [Function.update_of_ne hxb]
  · have hc : c.releaseBlock b = c.setRef b (some (held b+1+c.tree.count b-1)) := by
      simp only [RadixCache.releaseBlock,hr,h1,if_false]
    rw [hc]
    refine ⟨h.setRef _ hlt hbf (by omega) (fun x hx => by simp [hx]),.refl _,
      fun _ => Nat.le_refl _,fun _ _ => rfl⟩

theorem releaseLoop_eq_foldl {seen ids : List BlockId} (c : RadixCache V) (hn : ids.Nodup)
    (hs : ∀ b ∈ ids, b ∉ seen) : c.releaseLoop seen ids = ids.foldl RadixCache.releaseBlock c := by
  induction ids generalizing c seen with
  | nil => rfl
  | cons b ids ih =>
    obtain ⟨hb,hn⟩ := List.nodup_cons.mp hn
    simp only [releaseLoop,hs b (by simp),if_false,List.foldl_cons]
    refine ih (c.releaseBlock b) hn (fun x hx => ?_)
    have hxb : x ≠ b := fun e => hb (e ▸ hx)
    simpa [hxb] using hs x (List.mem_cons_of_mem b hx)

theorem Owned.releaseBlocks {ids : List BlockId} (hn : ids.Nodup)
    (h : Owned cfg c (fun x => held x+ids.count x)) :
    Owned cfg (c.releaseBlocks ids) held ∧ Evolves held c (c.releaseBlocks ids) := by
  have key : ∀ (ids : List BlockId) (c : RadixCache V),
      Owned cfg c (fun x => held x+ids.count x) →
      Owned cfg (ids.foldl RadixCache.releaseBlock c) held ∧
        Evolves held c (ids.foldl RadixCache.releaseBlock c) := by
    intro ids
    induction ids with
    | nil => intro c h; exact ⟨h.congr (by simp),.refl _ _⟩
    | cons b ids ih =>
      intro c h
      have h' : Owned cfg c (fun x => (held x+ids.count x)+if x = b then 1 else 0) := by
        refine h.congr (fun x => ?_)
        by_cases hxb : x = b
        · subst hxb; simp; omega
        · simp [hxb,List.count_cons_of_ne (Ne.symm hxb)]
      obtain ⟨ho,hev⟩ := h'.releaseBlock
      obtain ⟨ho',hev'⟩ := ih _ ho
      exact ⟨ho',(hev.mono (fun x => Nat.le_add_right _ _)).trans hev'⟩
  rw [RadixCache.releaseBlocks,releaseLoop_eq_foldl c hn (by simp)]
  exact key ids c h

@[simp] theorem releaseBlocks_tree (c : RadixCache V) (ids : List BlockId) :
    (c.releaseBlocks ids).tree = c.tree := by
  have key : ∀ (ids seen : List BlockId) (c : RadixCache V),
      (c.releaseLoop seen ids).tree = c.tree := by
    intro ids
    induction ids with
    | nil => intros; rfl
    | cons b ids ih =>
      intro seen c
      simp only [releaseLoop]
      split_ifs <;> simp [ih]
  exact key ids [] c

end Release

section Fork

theorem Owned.bump {b : BlockId} (h : Owned cfg c held) (hb : c.refs b ≠ none) :
    Owned cfg (c.bump b) (fun x => held x+if x = b then 1 else 0) := by
  obtain ⟨r,hr⟩ := Option.ne_none_iff_exists'.mp hb
  have hre := h.refs_eq b r hr
  have hc : c.bump b = c.setRef b (some (r+1)) := by simp [RadixCache.bump,hr]
  rw [hc]
  exact h.setRef _ (h.refs_lt b r hr) (h.not_mem_free hb) (by simp only [if_true]; omega)
    (fun x hx => by simp [hx])

@[simp] theorem bump_tree (c : RadixCache V) (b : BlockId) : (c.bump b).tree = c.tree := by
  unfold bump; split <;> rfl

@[simp] theorem bump_pages (c : RadixCache V) (b : BlockId) : (c.bump b).pages = c.pages := by
  unfold bump; split <;> rfl

theorem bump_refs_ne_none (c : RadixCache V) (b x : BlockId) :
    (c.bump b).refs x ≠ none ↔ c.refs x ≠ none := by
  unfold bump
  split
  · rename_i r hr
    by_cases hxb : x = b
    · subst hxb; simp [setRef,hr]
    · simp [setRef,Function.update_of_ne hxb]
  · rfl

@[simp] theorem forkBlocks_tree (c : RadixCache V) (ids : List BlockId) :
    (c.forkBlocks ids).tree = c.tree := by
  unfold forkBlocks
  induction ids generalizing c with
  | nil => rfl
  | cons b ids ih => simp [ih]

@[simp] theorem forkBlocks_pages (c : RadixCache V) (ids : List BlockId) :
    (c.forkBlocks ids).pages = c.pages := by
  unfold forkBlocks
  induction ids generalizing c with
  | nil => rfl
  | cons b ids ih => simp [ih]

theorem Owned.forkBlocks (ids : List BlockId) (h : Owned cfg c held)
    (hids : ∀ b ∈ ids, c.refs b ≠ none) :
    Owned cfg (c.forkBlocks ids) (fun x => held x+ids.count x) := by
  unfold RadixCache.forkBlocks
  induction ids generalizing c held with
  | nil => exact h.congr (by simp)
  | cons b ids ih =>
    have h' := h.bump (hids b (by simp))
    have := ih h' (fun x hx => (bump_refs_ne_none c b x).mpr (hids x (List.mem_cons_of_mem b hx)))
    refine this.congr (fun x => ?_)
    by_cases hxb : x = b
    · subst hxb; simp; omega
    · simp [hxb,List.count_cons_of_ne (Ne.symm hxb)]

end Fork

section Evict

theorem mem_candidates {f : Children} (hf : f.WF) {e : Nat × List Token}
    (h : e ∈ c.candidates f) :
    ∃ n, f.nodeAt e.2 = some (n,.nil) ∧ n.refCount ≤ 1 ∧ ∃ b ∈ n.blockIds, c.isPrivate b := by
  induction f generalizing e with
  | nil => simp [candidates] at h
  | cons u n k r hk hr =>
    obtain ⟨hu,hkw,hrw⟩ := hf
    simp only [candidates,List.mem_append,List.mem_map] at h
    rcases h with (h | ⟨e',he',rfl⟩) | h
    · split_ifs at h with hc
      · obtain rfl := List.mem_singleton.mp h
        exact ⟨n,by simp [Children.nodeAt,hc.2.2.1],hc.2.1,by simpa using hc.2.2.2⟩
      · simp at h
    · obtain ⟨m,hm,hrest⟩ := hk hkw he'
      have hne : e'.2 ≠ [] := fun h0 => by simp [h0] at hm
      exact ⟨m,by simpa [Children.nodeAt,hne] using hm,hrest⟩
    · obtain ⟨m,hm,hrest⟩ := hr hrw h
      refine ⟨m,?_,hrest⟩
      cases hp : e.2 with
      | nil => simp [hp] at hm
      | cons t ts =>
        have hut : u ≠ t := by
          rintro rfl
          rw [hp,Children.nodeAt_none_extend hu ts] at hm
          simp at hm
        simpa [Children.nodeAt,hut,hp] using hm

theorem mem_candidates_of_leaf {f : Children} {p : List Token} {n : RadixNode}
    (h : f.nodeAt p = some (n,.nil)) (hr : n.refCount ≤ 1)
    (hb : ∃ b ∈ n.blockIds, c.isPrivate b) : (n.refCount,p) ∈ c.candidates f := by
  induction f generalizing p with
  | nil => simp at h
  | cons u m k r hk hr' =>
    cases p with
    | nil => simp at h
    | cons t ts =>
      simp only [Children.nodeAt] at h
      simp only [candidates,List.mem_append,List.mem_map]
      by_cases hut : u = t
      · by_cases hts : ts = []
        · simp only [hut,hts,if_true,Option.some.injEq,Prod.mk.injEq] at h
          obtain ⟨rfl,rfl⟩ := h
          have hne : m.blockIds ≠ [] := by
            obtain ⟨b,hb,_⟩ := hb
            exact List.ne_nil_of_mem hb
          have hany : m.blockIds.any c.isPrivate = true := by simpa using hb
          simp [hne,hr,hany,hut,hts]
        · simp only [hut,hts,if_true,if_false] at h
          exact .inl (.inr ⟨_,hk h,by simp [hut]⟩)
      · simp only [hut,if_false] at h
        exact .inr (hr' h)

theorem candidates_nodup {f : Children} (hf : f.WF) :
    ((c.candidates f).map Prod.snd).Nodup := by
  induction f with
  | nil => simp [candidates]
  | cons u n k r hk hr =>
    obtain ⟨hu,hkw,hrw⟩ := hf
    have hne : ∀ e ∈ c.candidates k, e.2 ≠ [] := by
      intro e he h0
      obtain ⟨m,hm,_⟩ := mem_candidates hkw he
      simp [h0] at hm
    have hhead : ∀ e ∈ c.candidates r, ∀ ts, e.2 ≠ u :: ts := by
      intro e he ts h0
      obtain ⟨m,hm,_⟩ := mem_candidates hrw he
      rw [h0,Children.nodeAt_none_extend hu ts] at hm
      simp at hm
    have hmap : (((c.candidates k).map (fun e => (e.1,u :: e.2))).map Prod.snd).Nodup := by
      have : ((c.candidates k).map (fun e => (e.1,u :: e.2))).map Prod.snd =
          ((c.candidates k).map Prod.snd).map (u :: ·) := by simp
      rw [this]
      exact (hk hkw).map (List.cons_injective)
    simp only [candidates,List.map_append]
    refine List.Nodup.append (List.Nodup.append ?_ hmap ?_) (hr hrw) ?_
    · split_ifs <;> simp
    · intro p hp hp'
      simp only [List.map_map,List.mem_map,Function.comp] at hp'
      obtain ⟨e,he,rfl⟩ := hp'
      split_ifs at hp
      · simp at hp
        exact hne e he hp
      · simp at hp
    · intro p hp hp'
      obtain ⟨e,he,rfl⟩ := List.mem_map.mp hp'
      rcases List.mem_append.mp hp with h | h
      · split_ifs at h
        · simp at h
          exact hhead e he [] h
        · simp at h
      · simp only [List.map_map,List.mem_map,Function.comp] at h
        obtain ⟨e',_,h⟩ := h
        exact hhead e he e'.2 h.symm

variable [Zero V]

/-- One round of `evict`: the leaf is unlinked and its pages are released. -/
theorem Owned.evictLeaf {p : List Token} {n : RadixNode} (h : Owned cfg c held)
    (hp : c.tree.nodeAt p = some (n,.nil)) :
    Owned cfg (({ c with tree := c.tree.unlink p }).releaseBlocks (c.tree.blocksAt p)) held ∧
      Evolves held c (({ c with tree := c.tree.unlink p }).releaseBlocks (c.tree.blocksAt p)) := by
  have hb : c.tree.blocksAt p = n.blockIds := by simp [Children.blocksAt,hp]
  have hcount := fun b => Children.count_unlink b c.tree p n hp
  have hunlink : Owned cfg { c with tree := c.tree.unlink p }
      (fun x => held x+n.blockIds.count x) := by
    refine ⟨?_,?_,h.wf.unlink p,?_,h.free_nodup,h.free_refs,h.refs_lt,h.cover,h.next_le⟩
    · intro b r hr
      have := h.refs_eq b r hr
      have := hcount b
      simp only; omega
    · intro b hr
      have := h.refs_none b hr
      have := hcount b
      simp only; omega
    · intro q
      rw [Children.blocksAt_unlink h.wf hp]
      split_ifs
      · simp
      · exact h.nodup q
  rw [hb]
  obtain ⟨ho,hev⟩ := hunlink.releaseBlocks (hb ▸ h.nodup p)
  refine ⟨ho,(?_ : Evolves held c { c with tree := c.tree.unlink p }).trans hev⟩
  refine ⟨Children.pruned_unlink h.wf hp,fun b => ?_,fun _ _ => rfl⟩
  have := hcount b
  simp only; omega

theorem leaves_unlink {p : List Token} {n : RadixNode} {es : List (Nat × List Token)}
    {ids : List BlockId} (hw : c.tree.WF) (hp : c.tree.nodeAt p = some (n,.nil))
    (hn : p ∉ es.map Prod.snd) (hl : ∀ e ∈ es, ∃ m, c.tree.nodeAt e.2 = some (m,.nil)) :
    ∀ e ∈ es, ∃ m, (({ c with tree := c.tree.unlink p }).releaseBlocks ids).tree.nodeAt e.2 =
      some (m,.nil) := by
  intro e he
  obtain ⟨m,hm⟩ := hl e he
  have hne : e.2 ≠ p := fun h0 => hn (h0 ▸ List.mem_map_of_mem he)
  have := Children.nodeAt_unlink_ne hw hp hne
  simp only [hm] at this
  obtain ⟨k,hk,hnil⟩ := this
  exact ⟨m,by rw [releaseBlocks_tree]; simp only [hk,hnil trivial]⟩

theorem Owned.evictLoop {needed : Nat} {es : List (Nat × List Token)} {k : Nat}
    (h : Owned cfg c held) (hn : (es.map Prod.snd).Nodup)
    (hl : ∀ e ∈ es, ∃ n, c.tree.nodeAt e.2 = some (n,.nil)) :
    Owned cfg (evictLoop needed es c k).1 held ∧ Evolves held c (evictLoop needed es c k).1 := by
  induction es generalizing c k with
  | nil => exact ⟨h,.refl _ _⟩
  | cons e es ih =>
    obtain ⟨n,hp⟩ := hl e (by simp)
    simp only [List.map_cons,List.nodup_cons] at hn
    simp only [RadixCache.evictLoop]
    split_ifs
    · exact ⟨h,.refl _ _⟩
    · obtain ⟨ho,hev⟩ := h.evictLeaf hp
      obtain ⟨ho',hev'⟩ := ih (k := k+(c.tree.blocksAt e.2).length) ho hn.2
        (leaves_unlink h.wf hp hn.1 fun e' he' => hl e' (List.mem_cons_of_mem _ he'))
      exact ⟨ho',hev.trans hev'⟩

theorem Owned.evict (needed : Nat) (h : Owned cfg c held) :
    Owned cfg (c.evict needed).1 held ∧ Evolves held c (c.evict needed).1 := by
  unfold RadixCache.evict
  split_ifs
  · exact ⟨h,.refl _ _⟩
  · have hperm := List.perm_insertionSort (fun x y : Nat × List Token => x.1 ≤ y.1)
      (c.candidates c.tree)
    refine h.evictLoop ?_ ?_
    · exact ((hperm.map Prod.snd).nodup_iff).mpr (candidates_nodup h.wf)
    · intro e he
      obtain ⟨n,hn,_⟩ := mem_candidates h.wf (hperm.mem_iff.mp he)
      exact ⟨n,hn⟩

end Evict

section Allocate

theorem Owned.takeFree {b : BlockId} {free : List BlockId} (h : Owned cfg c held)
    (hf : c.free = b :: free) :
    Owned cfg ({ c with free := free }.take b) (fun x => held x+if x = b then 1 else 0) := by
  have hfree := h.free_nodup
  rw [hf] at hfree
  obtain ⟨hbf,hfree⟩ := List.nodup_cons.mp hfree
  obtain ⟨hbn,hlt⟩ := h.free_refs b (by simp [hf])
  have h0 := h.refs_none b hbn
  refine ⟨?_,?_,h.wf,h.nodup,hfree,?_,?_,?_,h.next_le⟩
  · intro x r hx
    by_cases hxb : x = b
    · subst hxb
      simp only [take,RadixCache.setRef,Function.update_self,Option.some.injEq,if_true] at hx ⊢
      omega
    · simp only [take,RadixCache.setRef,Function.update_of_ne hxb] at hx
      simpa [take,RadixCache.setRef,hxb] using h.refs_eq x r hx
  · intro x hx
    by_cases hxb : x = b
    · subst hxb; simp [take,RadixCache.setRef] at hx
    · simp only [take,RadixCache.setRef,Function.update_of_ne hxb] at hx
      simpa [take,RadixCache.setRef,hxb] using h.refs_none x hx
  · intro x hx
    have hxb : x ≠ b := fun e => hbf (e ▸ hx)
    have hx' : x ∈ c.free := by rw [hf]; exact List.mem_cons_of_mem b hx
    simpa [take,RadixCache.setRef,Function.update_of_ne hxb] using h.free_refs x hx'
  · intro x r hx
    by_cases hxb : x = b
    · exact hxb ▸ hlt
    · simp only [take,RadixCache.setRef,Function.update_of_ne hxb] at hx
      exact h.refs_lt x r hx
  · intro x hx hn
    by_cases hxb : x = b
    · subst hxb; simp [take,RadixCache.setRef] at hn
    · simp only [take,RadixCache.setRef,Function.update_of_ne hxb] at hn
      have := h.cover x hx hn
      rw [hf] at this
      exact (List.mem_cons.mp this).resolve_left hxb

theorem Owned.refs_next (h : Owned cfg c held) : c.refs c.next = none := by
  cases hr : c.refs c.next with
  | none => rfl
  | some r => exact absurd (h.refs_lt _ _ hr) (Nat.lt_irrefl _)

theorem Owned.takeNext (h : Owned cfg c held) (hlt : c.next < cfg.numBlocks) :
    Owned cfg ({ c with next := c.next+1 }.take c.next)
      (fun x => held x+if x = c.next then 1 else 0) := by
  have h0 := h.refs_none _ h.refs_next
  refine ⟨?_,?_,h.wf,h.nodup,h.free_nodup,?_,?_,?_,hlt⟩
  · intro x r hx
    by_cases hxb : x = c.next
    · subst hxb
      simp only [take,RadixCache.setRef,Function.update_self,Option.some.injEq,if_true] at hx ⊢
      omega
    · simp only [take,RadixCache.setRef,Function.update_of_ne hxb] at hx
      simpa [take,RadixCache.setRef,hxb] using h.refs_eq x r hx
  · intro x hx
    by_cases hxb : x = c.next
    · subst hxb; simp [take,RadixCache.setRef] at hx
    · simp only [take,RadixCache.setRef,Function.update_of_ne hxb] at hx
      simpa [take,RadixCache.setRef,hxb] using h.refs_none x hx
  · intro x hx
    obtain ⟨h1,h2⟩ := h.free_refs x hx
    have hxb : x ≠ c.next := Nat.ne_of_lt h2
    exact ⟨by simpa [take,RadixCache.setRef,Function.update_of_ne hxb] using h1,Nat.lt_succ_of_lt h2⟩
  · intro x r hx
    by_cases hxb : x = c.next
    · rw [hxb]; exact Nat.lt_succ_self _
    · simp only [take,RadixCache.setRef,Function.update_of_ne hxb] at hx
      exact Nat.lt_succ_of_lt (h.refs_lt x r hx)
  · intro x hx hn
    by_cases hxb : x = c.next
    · subst hxb; simp [take,RadixCache.setRef] at hn
    · simp only [take,RadixCache.setRef,Function.update_of_ne hxb] at hn
      have hx' : x < c.next+1 := hx
      exact h.cover x (by omega) hn

structure Allocated (cfg : CacheConfig) (held : BlockId → Nat) (c : RadixCache V)
    (ids : List BlockId) (c' : RadixCache V) : Prop where
  owned : Owned cfg c' (fun x => held x+ids.count x)
  nodup : ids.Nodup
  fresh : ∀ b ∈ ids, held b = 0 ∧ c'.tree.count b = 0
  evolves : Evolves held c c'

theorem Allocated.push {ids : List BlockId} {c' c'' : RadixCache V} {b : BlockId}
    (h : Allocated cfg held c ids c') (hb : c'.refs b = none)
    (ho : Owned cfg c'' (fun x => (held x+ids.count x)+if x = b then 1 else 0))
    (ht : c''.tree = c'.tree) (hp : c''.pages = c'.pages) :
    Allocated cfg held c (ids ++ [b]) c'' := by
  obtain ⟨h0,h0'⟩ := h.owned.refs_none b hb
  have hcount : ids.count b = 0 := by omega
  have hbids : b ∉ ids := List.count_eq_zero.mp hcount
  refine ⟨ho.congr (fun x => ?_),?_,?_,?_⟩
  · by_cases hxb : x = b
    · subst hxb; simp [List.count_append]; omega
    · simp [hxb,List.count_append,List.count_cons_of_ne (Ne.symm hxb)]
  · exact List.Nodup.append h.nodup (by simp) (by simpa using hbids)
  · intro x hx
    rcases List.mem_append.mp hx with hx | hx
    · rw [ht]; exact h.fresh x hx
    · obtain rfl := List.mem_singleton.mp hx
      rw [ht]
      exact ⟨by omega,h0'⟩
  · refine ⟨?_,?_,?_⟩
    · rw [ht]; exact h.evolves.pruned
    · rw [ht]; exact h.evolves.count_le
    · rw [ht,hp]; exact h.evolves.pages

variable [Zero V]

theorem Owned.allocateLoop (count n : Nat) {ids : List BlockId} {c₀ : RadixCache V}
    (h : Allocated cfg held c₀ ids c) :
    match RadixCache.allocateLoop cfg count n ids c with
    | (c',some ids') => Allocated cfg held c₀ ids' c' ∧ ids'.length = ids.length+n
    | (c',none) => Owned cfg c' held ∧ Evolves held c₀ c' := by
  induction n generalizing c ids with
  | zero => exact ⟨h,rfl⟩
  | succ n ih =>
    -- the two ways to obtain a block end in the same recursive call
    have step : ∀ (b : BlockId) (c'' : RadixCache V), Allocated cfg held c₀ (ids ++ [b]) c'' →
        match RadixCache.allocateLoop cfg count n (ids ++ [b]) c'' with
        | (c',some ids') => Allocated cfg held c₀ ids' c' ∧ ids'.length = ids.length+(n+1)
        | (c',none) => Owned cfg c' held ∧ Evolves held c₀ c' := by
      intro b c'' hb
      have := ih hb
      split <;> rename_i heq <;> rw [heq] at this
      · refine ⟨this.1,?_⟩
        have := this.2
        simp only [List.length_append,List.length_singleton] at this
        omega
      · exact this
    have give_up : ∀ c' : RadixCache V, Allocated cfg held c₀ ids c' →
        Owned cfg (c'.releaseBlocks ids) held ∧ Evolves held c₀ (c'.releaseBlocks ids) := by
      intro c' hc'
      obtain ⟨ho,hev⟩ := hc'.owned.releaseBlocks hc'.nodup
      exact ⟨ho,hc'.evolves.trans hev⟩
    simp only [RadixCache.allocateLoop]
    cases hf : c.free with
    | cons b free =>
      simp only
      exact step b _ (h.push (h.owned.free_refs b (by simp [hf])).1 (h.owned.takeFree hf) rfl rfl)
    | nil =>
      simp only
      by_cases hnext : cfg.numBlocks ≤ c.next
      · rw [if_pos hnext]
        obtain ⟨ho,hev⟩ := h.owned.evict (count-ids.length)
        have hev' : Evolves held c (c.evict (count-ids.length)).1 :=
          hev.mono (fun x => Nat.le_add_right _ _)
        have h' : Allocated cfg held c₀ ids (c.evict (count-ids.length)).1 :=
          ⟨ho,h.nodup,fun b hb => ⟨(h.fresh b hb).1,Nat.le_zero.mp
            ((hev'.count_le b).trans (Nat.le_of_eq (h.fresh b hb).2))⟩,h.evolves.trans hev'⟩
        cases hf' : (c.evict (count-ids.length)).1.free with
        | nil => exact give_up _ h'
        | cons b free =>
          simp only
          by_cases hz : (c.evict (count-ids.length)).2 = 0
          · rw [if_pos hz]
            exact give_up _ h'
          · rw [if_neg hz]
            exact step b _ (h'.push (ho.free_refs b (by simp [hf'])).1 (ho.takeFree hf') rfl rfl)
      · rw [if_neg hnext]
        have htake := h.owned.takeNext (Nat.lt_of_not_le hnext)
        simp only [hf] at htake
        exact step _ _ (h.push h.owned.refs_next htake rfl rfl)

theorem Owned.allocateBlocks (count : Nat) (h : Owned cfg c held) :
    match c.allocateBlocks cfg count with
    | (c',some ids) => Allocated cfg held c ids c' ∧ ids.length = count
    | (c',none) => Owned cfg c' held ∧ Evolves held c c' := by
  have h0 : Allocated cfg held c [] c := ⟨h.congr (by simp),by simp,by simp,.refl _ _⟩
  have := Owned.allocateLoop count count h0
  unfold RadixCache.allocateBlocks
  split <;> rename_i heq <;> rw [heq] at this
  · exact ⟨this.1,by simpa using this.2⟩
  · exact this

end Allocate

section CopyOnWrite

variable [Zero V]

/-- What `cow_block_if_shared(b)` promises of the id `b'` it returns, for a
caller that holds `b` and replaces it by `b'`. -/
structure Cowed (cfg : CacheConfig) (held : BlockId → Nat) (c : RadixCache V) (b b' : BlockId)
    (c' : RadixCache V) : Prop where
  owned : Owned cfg c' (fun x => held x+(if x = b' then 1 else 0)-if x = b then 1 else 0)
  pruned : c.tree.Pruned c'.tree
  count_le : ∀ x, c'.tree.count x ≤ c.tree.count x
  pages : ∀ x, x ≠ b' → 0 < held x+c'.tree.count x → c'.pages x = c.pages x
  copied : c'.pages b' = c.pages b
  alone : held b' = (if b' = b then 1 else 0) ∧ c'.tree.count b' = 0

theorem Owned.cowBlockIfShared {b : BlockId} (h : Owned cfg c held) (hb : 0 < held b) :
    match c.cowBlockIfShared cfg b with
    | (c',some b') => Cowed cfg held c b b' c'
    | (c',none) => Owned cfg c' held ∧ Evolves held c c' := by
  have hr := h.refs_of_pos (b := b) (by omega)
  unfold RadixCache.cowBlockIfShared
  rw [hr]
  simp only
  by_cases h1 : held b+c.tree.count b ≤ 1
  · rw [if_pos h1]
    exact ⟨h.congr (by intro x; omega),.refl _,fun _ => Nat.le_refl _,fun _ _ _ => rfl,rfl,
      ⟨by simp only [if_true]; omega,by omega⟩⟩
  · rw [if_neg h1]
    have hal := h.allocateBlocks 1
    cases hc : c.allocateBlocks cfg 1 with
    | mk c' o =>
      rw [hc] at hal
      cases o with
      | none => exact hal
      | some ids =>
        obtain ⟨hal,hlen⟩ := hal
        obtain ⟨new,rfl⟩ := List.length_eq_one_iff.mp hlen
        simp only
        obtain ⟨hn0,hn1⟩ := hal.fresh new (by simp)
        have hbn : b ≠ new := by rintro rfl; omega
        have hpos : 0 < held b+List.count b [new]+c'.tree.count b := by omega
        have hr' := hal.owned.refs_of_pos hpos
        have hlt := hal.owned.refs_lt _ _ hr'
        have hcopy : c'.copyPage b new = { (c'.setRef b
            (some (held b+List.count b [new]+c'.tree.count b-1))) with
            pages := Function.update c'.pages new (c'.pages b) } := by
          simp only [copyPage,hr',RadixCache.setRef]
        have hset := hal.owned.setRef
          (fun x => held x+(if x = new then 1 else 0)-if x = b then 1 else 0)
          (r := held b+List.count b [new]+c'.tree.count b-1) hlt
          (hal.owned.not_mem_free (by simp [hr']))
          (by simp [hbn,Ne.symm hbn]; omega)
          (fun x hx => by
            by_cases hxn : x = new
            · subst hxn; simp [Ne.symm hbn]
            · simp [hxn,hx,Ne.symm hxn])
        rw [hcopy]
        refine ⟨⟨hset.refs_eq,hset.refs_none,hset.wf,hset.nodup,hset.free_nodup,hset.free_refs,
          hset.refs_lt,hset.cover,hset.next_le⟩,hal.evolves.pruned,hal.evolves.count_le,?_,?_,?_⟩
        · intro x hx hpos
          simpa [Function.update_of_ne hx] using hal.evolves.pages x hpos
        · simpa using hal.evolves.pages b (by omega)
        · exact ⟨by simp [Ne.symm hbn,hn0],hn1⟩

end CopyOnWrite

section Tree

theorem Owned.retree {held' : BlockId → Nat} {t : Children} (h : Owned cfg c held)
    (hc : ∀ b, held b+c.tree.count b = held' b+t.count b) (hw : t.WF)
    (hn : ∀ p, (t.blocksAt p).Nodup) : Owned cfg { c with tree := t } held' := by
  refine ⟨?_,?_,hw,hn,h.free_nodup,h.free_refs,h.refs_lt,h.cover,h.next_le⟩
  · intro b r hr
    rw [h.refs_eq b r hr]
    exact hc b
  · intro b hr
    have := h.refs_none b hr
    have := hc b
    simp only; omega

variable [Zero V]

theorem releaseBlocks_withTree (c : RadixCache V) (t : Children) (ids : List BlockId) :
    ({ c with tree := t }).releaseBlocks ids = { c.releaseBlocks ids with tree := t } := by
  have block : ∀ (c : RadixCache V) b,
      ({ c with tree := t }).releaseBlock b = { c.releaseBlock b with tree := t } := by
    intro c b
    unfold RadixCache.releaseBlock
    simp only
    split
    · rfl
    · split_ifs <;> rfl
  have key : ∀ (ids seen : List BlockId) (c : RadixCache V),
      ({ c with tree := t }).releaseLoop seen ids = { c.releaseLoop seen ids with tree := t } := by
    intro ids
    induction ids with
    | nil => intros; rfl
    | cons b ids ih =>
      intro seen c
      simp only [releaseLoop]
      split_ifs
      · exact ih seen c
      · rw [block]; exact ih _ _
  exact key ids [] c

omit [Zero V] in
theorem forkBlocks_withTree (c : RadixCache V) (t : Children) (ids : List BlockId) :
    ({ c with tree := t }).forkBlocks ids = { c.forkBlocks ids with tree := t } := by
  have block : ∀ (c : RadixCache V) b, ({ c with tree := t }).bump b = { c.bump b with tree := t } := by
    intro c b
    unfold RadixCache.bump
    simp only
    split <;> rfl
  unfold forkBlocks
  induction ids generalizing c with
  | nil => rfl
  | cons b ids ih => simp only [List.foldl_cons]; rw [block]; exact ih _

structure Committed (cfg : CacheConfig) (held : BlockId → Nat) (c : RadixCache V)
    (p : List Token) (ids : List BlockId) (c' : RadixCache V) : Prop where
  owned : Owned cfg c' held
  blocksAt : ∀ q, c'.tree.blocksAt q = if q = p then ids else c.tree.blocksAt q
  pages : ∀ x, 0 < held x+c'.tree.count x → c'.pages x = c.pages x

theorem Owned.setBlocks {p : List Token} {ids : List BlockId} (h : Owned cfg c held)
    (hp : c.tree.nodeAt p ≠ none) (hids : ids.Nodup) (hheld : ∀ b ∈ ids, 0 < held b) :
    Committed cfg held c p ids (c.setBlocks p ids) := by
  obtain ⟨⟨n,k⟩,hn⟩ := Option.ne_none_iff_exists'.mp hp
  have hold : c.tree.blocksAt p = n.blockIds := by simp [Children.blocksAt,hn]
  unfold RadixCache.setBlocks
  by_cases he : c.tree.blocksAt p = ids
  · rw [if_pos he]
    refine ⟨h,fun q => ?_,fun _ _ => rfl⟩
    split_ifs with hq
    · rw [hq,he]
    · rfl
  · rw [if_neg he]
    simp only [forkBlocks_tree,releaseBlocks_tree]
    rw [hold]
    -- the tree without the old pages, and the tree with the new ones
    let t₀ := c.tree.update (fun n => { n with blockIds := [] }) p
    let t₁ := c.tree.update (fun n => { n with blockIds := ids }) p
    have hc₀ := fun b => Children.count_update b c.tree p (fun n => { n with blockIds := [] }) n k hn
    have hc₁ := fun b => Children.count_update b c.tree p (fun n => { n with blockIds := ids }) n k hn
    have hb₁ := fun q => Children.blocksAt_update c.tree p q (fun n => { n with blockIds := ids }) n k hn
    have h₀ : Owned cfg { c with tree := t₀ } (fun x => held x+n.blockIds.count x) := by
      refine h.retree (fun b => ?_) (h.wf.update _ _) (fun q => ?_)
      · have := hc₀ b
        simp only [List.count_nil] at this
        simp only [t₀]
        omega
      · rw [Children.blocksAt_update c.tree p q _ n k hn]
        split_ifs
        · simp
        · exact h.nodup q
    obtain ⟨hrel,hev⟩ := h₀.releaseBlocks (hold ▸ h.nodup p)
    have hfork := hrel.forkBlocks ids (fun b hb => by
      rw [hrel.refs_of_pos (by have := hheld b hb; omega)]; simp)
    have hfin : Owned cfg { ({ c with tree := t₀ }.releaseBlocks n.blockIds).forkBlocks ids with
        tree := t₁ } held := by
      refine hfork.retree (fun b => ?_) (h.wf.update _ _) (fun q => ?_)
      · have h0 := hc₀ b
        have h1 := hc₁ b
        simp only [List.count_nil] at h0
        simp only at h1
        simp only [forkBlocks_tree,releaseBlocks_tree,t₀,t₁]
        omega
      · rw [hb₁ q]
        split_ifs
        · exact hids
        · exact h.nodup q
    have heq : { ({ c with tree := t₀ }.releaseBlocks n.blockIds).forkBlocks ids with tree := t₁ } =
        { (c.releaseBlocks n.blockIds).forkBlocks ids with tree := t₁ } := by
      rw [releaseBlocks_withTree,forkBlocks_withTree]
    rw [heq] at hfin
    refine ⟨hfin,hb₁,fun x hx => ?_⟩
    have hpg := hev.pages x
    rw [releaseBlocks_withTree] at hpg
    simp only [forkBlocks_pages] at hpg ⊢
    by_cases hxi : x ∈ ids
    · exact hpg (by have := hheld x hxi; omega)
    · refine hpg ?_
      have h0 := hc₀ x
      have h1 := hc₁ x
      have hz : ids.count x = 0 := List.count_eq_zero.mpr hxi
      simp only [List.count_nil] at h0
      simp only [t₀] at *
      omega

theorem Owned.insertOrUpdate {tokens : List Token} {ids : List BlockId} (kv logits : Bool)
    (h : Owned cfg c held) (ht : tokens ≠ []) (hids : ids.Nodup) (hheld : ∀ b ∈ ids, 0 < held b) :
    Committed cfg held c tokens ids (c.insertOrUpdate tokens kv ids logits) := by
  unfold RadixCache.insertOrUpdate
  rw [if_neg ht]
  have h₁ : Owned cfg { c with tree := c.tree.insertPath tokens } held :=
    h.retree (fun b => by rw [Children.count_insertPath]) (h.wf.insertPath tokens)
      (fun p => by rw [Children.blocksAt_insertPath]; exact h.nodup p)
  obtain ⟨n,k,hn,_⟩ := Children.nodeAt_insertPath_self c.tree tokens ht
  have h₂ := h₁.setBlocks (p := tokens) (by simp [hn]) hids hheld
  have hsame : ∀ (f : Children) (q : List Token),
      (f.update (fun n => { n with pastKv := n.pastKv || kv, lastLogits := n.lastLogits || logits })
        tokens).blocksAt q = f.blocksAt q ∧ ∀ b, (f.update (fun n => { n with
        pastKv := n.pastKv || kv, lastLogits := n.lastLogits || logits }) tokens).count b =
        f.count b := by
    intro f q
    cases hf : f.nodeAt tokens with
    | none => rw [Children.update_of_none hf]; exact ⟨rfl,fun _ => rfl⟩
    | some e =>
      refine ⟨?_,fun b => ?_⟩
      · rw [Children.blocksAt_update f tokens q _ e.1 e.2 hf]
        split_ifs with hq
        · simp [Children.blocksAt,hq,hf]
        · rfl
      · have := Children.count_update b f tokens (fun n => { n with
          pastKv := n.pastKv || kv, lastLogits := n.lastLogits || logits }) e.1 e.2 hf
        simp only at this
        omega
  refine ⟨h₂.owned.retree (fun b => ?_) (h₂.owned.wf.update _ _) (fun q => ?_),fun q => ?_,?_⟩
  · rw [(hsame _ tokens).2 b]
  · rw [(hsame _ q).1]; exact h₂.owned.nodup q
  · rw [(hsame _ q).1,h₂.blocksAt q]
    simp only [Children.blocksAt_insertPath]
  · intro x hx
    refine h₂.pages x ?_
    rw [(hsame _ tokens).2 x] at hx
    exact hx

theorem noPast_insertOrUpdate (h : c.tree.NoPast) (tokens : List Token) (ids : List BlockId)
    (logits : Bool) : (c.insertOrUpdate tokens false ids logits).tree.NoPast := by
  have hset : ∀ c' : RadixCache V, c'.tree.NoPast → (c'.setBlocks tokens ids).tree.NoPast := by
    intro c' h'
    unfold RadixCache.setBlocks
    split_ifs
    · exact h'
    · simp only [forkBlocks_tree,releaseBlocks_tree]
      exact h'.update (g := fun n => { n with blockIds := ids }) (fun _ hn => hn) tokens
  unfold RadixCache.insertOrUpdate
  split_ifs
  · exact h
  · exact (hset { c with tree := c.tree.insertPath tokens } (h.insertPath tokens)).update
      (fun n hn => by simpa using hn) tokens

end Tree

section Match

theorem deepestCommitted_spec (f : Children) (q : List Token) :
    match deepestCommitted f q with
    | some (m,i) => m.blockIds ≠ [] ∧ 0 < i ∧ i ≤ q.length ∧ ∃ k, f.nodeAt (q.take i) = some (m,k)
    | none => True := by
  induction f generalizing q with
  | nil => cases q <;> simp [deepestCommitted]
  | cons u n k r hk hr =>
    cases q with
    | nil => simp [deepestCommitted]
    | cons t ts =>
      simp only [deepestCommitted]
      by_cases hut : u = t
      · rw [if_pos hut]
        have ih := hk ts
        cases hd : deepestCommitted k ts with
        | some e =>
          rw [hd] at ih
          obtain ⟨h1,h2,h3,k',h4⟩ := ih
          have hne : ts.take e.2 ≠ [] := by
            intro h0
            rw [h0] at h4
            simp at h4
          refine ⟨h1,by omega,by simp only [List.length_cons]; omega,k',?_⟩
          simpa [Children.nodeAt,hut,hne] using h4
        | none =>
          simp only
          by_cases hb : n.blockIds = []
          · rw [if_pos hb]; trivial
          · rw [if_neg hb]
            exact ⟨hb,by omega,by simp,k,by simp [Children.nodeAt,hut]⟩
      · rw [if_neg hut]
        have ih := hr (t :: ts)
        cases hd : deepestCommitted r (t :: ts) with
        | none => trivial
        | some e =>
          rw [hd] at ih
          obtain ⟨h1,h2,h3,k',h4⟩ := ih
          obtain ⟨i,hi⟩ := Nat.exists_eq_succ_of_ne_zero (Nat.pos_iff_ne_zero.mp h2)
          refine ⟨h1,h2,h3,k',?_⟩
          rw [hi] at h4 ⊢
          simpa [Children.nodeAt,hut] using h4

/-- The upward walk never changes the node: an ancestor as deep as the node
reached is that node, which had no pages. -/
theorem matchNode_eq_walk (c : RadixCache V) (q : List Token) :
    c.matchNode q = c.tree.walk {} q := by
  unfold matchNode
  simp only
  by_cases h : (c.tree.walk {} q).1.blockIds = [] ∧ 0 < (c.tree.walk {} q).2
  · rw [if_pos h]
    obtain ⟨hle,hnode⟩ := Children.walk_spec {} c.tree q
    rw [if_neg (by omega)] at hnode
    obtain ⟨k,hk⟩ := hnode
    have hd := deepestCommitted_spec c.tree (q.take (c.tree.walk {} q).2)
    cases hdc : deepestCommitted c.tree (q.take (c.tree.walk {} q).2) with
    | none => rfl
    | some e =>
      rw [hdc] at hd
      obtain ⟨h1,_,_,k',h4⟩ := hd
      simp only
      by_cases hi : e.2 = (c.tree.walk {} q).2
      · rw [hi,List.take_take,Nat.min_self,hk] at h4
        have he := (Prod.mk.inj (Option.some.inj h4)).1
        exact absurd (he ▸ h.1) h1
      · rw [if_neg hi]
  · rw [if_neg h]

structure Matched (cfg : CacheConfig) (held : BlockId → Nat) (c : RadixCache V)
    (q : List Token) (m : Match) (c' : RadixCache V) : Prop where
  owned : Owned cfg c' (fun x => held x+m.blockIds.count x)
  tree : c'.tree = c.tree
  pages : c'.pages = c.pages
  nodup : m.blockIds.Nodup
  len_le : m.len ≤ q.length
  miss : m.len = 0 → m = {}
  hit : 0 < m.len → m.blockIds = (c.tree.blocksAt (q.take m.len)).take (cfg.pages m.len) ∧
    cfg.pages m.len ≤ (c.tree.blocksAt (q.take m.len)).length
  exact_logits : 0 < m.len → m.len = q.length → m.lastLogits = true ∨ m.pastKv = true
  past : m.pastKv = true → ∃ n k, c.tree.nodeAt (q.take m.len) = some (n,k) ∧ n.pastKv = true

theorem Owned.matchPrefix {q : List Token} (h : Owned cfg c held) :
    Matched cfg held c q (c.matchPrefix cfg q).2 (c.matchPrefix cfg q).1 := by
  unfold RadixCache.matchPrefix
  rw [matchNode_eq_walk]
  obtain ⟨hle,hnode⟩ := Children.walk_spec {} c.tree q
  generalize c.tree.walk {} q = w at hle hnode ⊢
  obtain ⟨node,i⟩ := w
  simp only at hle hnode ⊢
  split_ifs with hcond
  · obtain ⟨hpos,hlen,hlog⟩ := hcond
    rw [if_neg (by omega)] at hnode
    obtain ⟨k,hk⟩ := hnode
    have hb : c.tree.blocksAt (q.take i) = node.blockIds := by simp [Children.blocksAt,hk]
    have hnd : (node.blockIds.take (cfg.pages i)).Nodup :=
      (List.take_sublist _ _).nodup (hb ▸ h.nodup (q.take i))
    refine ⟨h.forkBlocks _ (fun b hbm => ?_),by simp,by simp,hnd,hle,?_,?_,?_,
      fun hp => ⟨node,k,hk,hp⟩⟩
    · have hmem : b ∈ c.tree.blocksAt (q.take i) := hb ▸ List.mem_of_mem_take hbm
      have := Children.mem_blocksAt_count hmem
      rw [h.refs_of_pos (by omega)]
      simp
    · intro h0; simp only at h0; omega
    · intro _; simp only; rw [hb]; exact ⟨rfl,hlen⟩
    · intro _ hq
      simp only at hq ⊢
      by_contra hno
      simp only [not_or,Bool.not_eq_true] at hno
      exact hlog ⟨hq.symm,hno.1,hno.2⟩
  · exact ⟨h.congr (by simp),rfl,rfl,by simp,by simp,fun _ => rfl,by simp,by simp,by simp⟩

end Match

end RadixCache

end SglangLite.Kv
