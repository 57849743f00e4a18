import SglangLite.Kv.Counted

set_option autoImplicit false

namespace SglangLite.Kv.RadixCache

variable {V : Type} {cfg : CacheConfig} {c c' : RadixCache V}

/-- The ids handed out so far are the allocated ones and the free ones, each
in one of the two. -/
structure Parted (cfg : CacheConfig) (c : RadixCache V) : Prop where
  cover : ∀ b, b < c.next ↔ c.refs b ≠ none ∨ b ∈ c.free
  disjoint : ∀ b ∈ c.free, c.refs b = none
  free_nodup : c.free.Nodup
  next_le : c.next ≤ cfg.numBlocks

/-- `blocks_used` of `get_cache_stats`: the number of allocated ids. -/
def blocksUsed (c : RadixCache V) : Nat :=
  ((List.range c.next).filter fun b => (c.refs b).isSome).length

/-- `blocks_free` of `get_cache_stats`. -/
def blocksFree (cfg : CacheConfig) (c : RadixCache V) : Nat :=
  c.free.length+(cfg.numBlocks-c.next)

theorem Parted.conserved (h : Parted cfg c) : c.blocksUsed+c.blocksFree cfg = cfg.numBlocks := by
  have hperm : c.free.Perm ((List.range c.next).filter fun b => !(c.refs b).isSome) := by
    refine (List.perm_ext_iff_of_nodup h.free_nodup (List.nodup_range.filter _)).mpr fun b => ?_
    simp only [List.mem_filter,List.mem_range,h.cover b,Bool.not_eq_true',
      Option.isSome_eq_false_iff,Option.isNone_iff_eq_none]
    constructor
    · exact fun hb => ⟨.inr hb,h.disjoint b hb⟩
    · rintro ⟨hb,hn⟩
      exact hb.resolve_left (· hn)
  have hsplit := List.length_eq_length_filter_add (l := List.range c.next)
    (fun b => (c.refs b).isSome)
  rw [List.length_range,← hperm.length_eq] at hsplit
  have hused : c.next = c.blocksUsed+c.free.length := hsplit
  have := h.next_le
  unfold blocksFree
  omega

theorem parted_empty [Zero V] (cfg : CacheConfig) : Parted cfg (empty : RadixCache V) :=
  ⟨by simp [empty],by simp [empty],by simp [empty],by simp [empty]⟩

theorem Parted.congr (h : Parted cfg c) (hr : ∀ b, c'.refs b = none ↔ c.refs b = none)
    (hf : c'.free = c.free) (hn : c'.next = c.next) : Parted cfg c' := by
  refine ⟨fun b => ?_,fun b hb => ?_,hf ▸ h.free_nodup,hn ▸ h.next_le⟩
  · rw [hn,hf,h.cover b,ne_eq,ne_eq,hr b]
  · exact (hr b).mpr (h.disjoint b (hf ▸ hb))

theorem Parted.setRef (h : Parted cfg c) {b : BlockId} (r : Nat) (hb : c.refs b ≠ none) :
    Parted cfg (c.setRef b (some r)) := by
  refine h.congr (fun x => ?_) rfl rfl
  by_cases hx : x = b
  · subst hx; simp [RadixCache.setRef,hb]
  · simp [RadixCache.setRef,hx]

theorem Parted.bump (h : Parted cfg c) (b : BlockId) : Parted cfg (c.bump b) := by
  unfold RadixCache.bump
  split
  · rename_i r hr
    exact h.setRef _ (by simp [hr])
  · exact h

theorem Parted.forkBlocks (h : Parted cfg c) (ids : List BlockId) : Parted cfg (c.forkBlocks ids) := by
  unfold RadixCache.forkBlocks
  induction ids generalizing c with
  | nil => exact h
  | cons b ids ih => exact ih (h.bump b)

theorem Parted.takeFree {b : BlockId} {free : List BlockId} (h : Parted cfg c)
    (hf : c.free = b :: free) : Parted cfg ({ c with free := free }.take b) := by
  have hnd := h.free_nodup
  rw [hf] at hnd
  obtain ⟨hb,hnd⟩ := List.nodup_cons.mp hnd
  refine ⟨fun x => ?_,fun x hx => ?_,hnd,h.next_le⟩
  · have hc := h.cover x
    simp only [hf,List.mem_cons] at hc
    by_cases hxb : x = b
    · subst hxb; simp [take,RadixCache.setRef,hc]
    · simpa [take,RadixCache.setRef,hxb] using hc
  · have hxb : x ≠ b := fun e => hb (e ▸ hx)
    have hx' : x ∈ c.free := by rw [hf]; exact List.mem_cons_of_mem b hx
    simpa [take,RadixCache.setRef,hxb] using h.disjoint x hx'

theorem Parted.refs_next (h : Parted cfg c) : c.refs c.next = none ∧ c.next ∉ c.free := by
  have hc := (h.cover c.next).not.mp (Nat.lt_irrefl _)
  simpa using hc

theorem Parted.takeNext (h : Parted cfg c) (hlt : c.next < cfg.numBlocks) :
    Parted cfg ({ c with next := c.next+1 }.take c.next) := by
  refine ⟨fun x => ?_,fun x hx => ?_,h.free_nodup,hlt⟩
  · have hc := h.cover x
    by_cases hxb : x = c.next
    · subst hxb; simp [take,RadixCache.setRef]
    · have hlt' : x < c.next+1 ↔ x < c.next := by omega
      simpa [take,RadixCache.setRef,hxb,hlt'] using hc
  · have hxb : x ≠ c.next := by
      rintro rfl
      exact h.refs_next.2 hx
    simpa [take,RadixCache.setRef,hxb] using h.disjoint x hx

section Release

variable [Zero V]

theorem Parted.releaseBlock (h : Parted cfg c) (b : BlockId) : Parted cfg (c.releaseBlock b) := by
  unfold RadixCache.releaseBlock
  cases hr : c.refs b with
  | none => exact h
  | some r =>
    simp only
    by_cases h1 : r ≤ 1
    · rw [if_pos h1]
      have hb : b ∉ c.free := fun hm => by simp [h.disjoint b hm] at hr
      refine ⟨fun x => ?_,fun x hx => ?_,List.nodup_cons.mpr ⟨hb,h.free_nodup⟩,h.next_le⟩
      · have hc := h.cover x
        by_cases hxb : x = b
        · subst hxb; simpa [hr] using hc
        · simpa [hxb] using hc
      · rcases List.mem_cons.mp hx with rfl | hx
        · simp
        · have hxb : x ≠ b := fun e => hb (e ▸ hx)
          simpa [hxb] using h.disjoint x hx
    · rw [if_neg h1]
      exact h.setRef _ (by simp [hr])

theorem Parted.releaseBlocks (h : Parted cfg c) (ids : List BlockId) :
    Parted cfg (c.releaseBlocks ids) := by
  have key : ∀ (ids seen : List BlockId) (c : RadixCache V), Parted cfg c →
      Parted cfg (c.releaseLoop seen ids) := by
    intro ids
    induction ids with
    | nil => intro _ _ h; exact h
    | cons b ids ih =>
      intro seen c h
      simp only [releaseLoop]
      split_ifs
      · exact ih seen c h
      · exact ih _ _ (h.releaseBlock b)
  exact key ids [] c h

omit [Zero V] in
theorem Parted.withTree (h : Parted cfg c) (t : Children) : Parted cfg { c with tree := t } :=
  h.congr (fun _ => Iff.rfl) rfl rfl

theorem Parted.evictLoop {needed k : Nat} {es : List (Nat × List Token)} (h : Parted cfg c) :
    Parted cfg (evictLoop needed es c k).1 := by
  induction es generalizing c k with
  | nil => exact h
  | cons e es ih =>
    simp only [RadixCache.evictLoop]
    split_ifs
    · exact h
    · exact ih ((h.withTree _).releaseBlocks _)

theorem Parted.evict (h : Parted cfg c) (needed : Nat) : Parted cfg (c.evict needed).1 := by
  unfold RadixCache.evict
  split_ifs
  · exact h
  · exact h.evictLoop

theorem Parted.allocateLoop (count n : Nat) {ids : List BlockId} (h : Parted cfg c) :
    Parted cfg (RadixCache.allocateLoop cfg count n ids c).1 := by
  induction n generalizing c ids with
  | zero => exact h
  | succ n ih =>
    simp only [RadixCache.allocateLoop]
    cases hf : c.free with
    | cons b free => exact ih (h.takeFree hf)
    | nil =>
      simp only
      by_cases hn : cfg.numBlocks ≤ c.next
      · rw [if_pos hn]
        have he := h.evict (count-ids.length)
        cases hf' : (c.evict (count-ids.length)).1.free with
        | nil => exact he.releaseBlocks ids
        | cons b free =>
          simp only
          split_ifs
          · exact he.releaseBlocks ids
          · exact ih (he.takeFree hf')
      · rw [if_neg hn]
        have := h.takeNext (Nat.lt_of_not_le hn)
        simp only [hf] at this
        exact ih this

theorem Parted.allocateBlocks (h : Parted cfg c) (count : Nat) :
    Parted cfg (c.allocateBlocks cfg count).1 := h.allocateLoop count count

omit [Zero V] in
theorem Parted.copyPage (h : Parted cfg c) (src dst : BlockId) : Parted cfg (c.copyPage src dst) := by
  refine h.congr (fun b => ?_) rfl rfl
  unfold RadixCache.copyPage
  cases hr : c.refs src with
  | none => rfl
  | some r =>
    by_cases hb : b = src
    · subst hb; simp [hr]
    · simp [hb]

theorem Parted.cowBlockIfShared (h : Parted cfg c) (b : BlockId) :
    Parted cfg (c.cowBlockIfShared cfg b).1 := by
  have hal := h.allocateBlocks 1
  unfold RadixCache.cowBlockIfShared
  split
  · exact h
  · split_ifs
    · exact h
    · split
      · rename_i heq
        rw [heq] at hal
        exact hal.copyPage _ _
      · rename_i heq
        rw [heq] at hal
        exact hal

theorem Parted.setBlocks (h : Parted cfg c) (path : List Token) (ids : List BlockId) :
    Parted cfg (c.setBlocks path ids) := by
  unfold RadixCache.setBlocks
  split_ifs
  · exact h
  · exact ((h.releaseBlocks _).forkBlocks ids).withTree _

theorem Parted.insertOrUpdate (h : Parted cfg c) (tokens : List Token) (kv : Bool)
    (ids : List BlockId) (logits : Bool) : Parted cfg (c.insertOrUpdate tokens kv ids logits) := by
  unfold RadixCache.insertOrUpdate
  split_ifs
  · exact h
  · exact ((h.withTree _).setBlocks tokens ids).withTree _

end Release

theorem Parted.matchPrefix (h : Parted cfg c) (q : List Token) :
    Parted cfg (c.matchPrefix cfg q).1 := by
  unfold RadixCache.matchPrefix
  simp only
  split_ifs
  · exact h.forkBlocks _
  · exact h

end SglangLite.Kv.RadixCache
