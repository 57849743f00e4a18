import SglangLite.Kv.Eviction
import SglangLite.Kv.Parted

set_option autoImplicit false

namespace SglangLite.Kv.RadixCache

variable {V : Type} {cfg : CacheConfig} {c c₀ c' : RadixCache V} {held : BlockId → Nat}

/-- A loop of `allocate_blocks` under way: the ids taken so far have one
reference each, and what the outside tables hold is as it was. -/
structure Taken (held : BlockId → Nat) (c₀ : RadixCache V) (ids : List BlockId)
    (c : RadixCache V) : Prop where
  backed : Backed c fun b => held b+ids.count b
  one : ∀ b ∈ ids, c.refs b = some 1
  pages : ∀ b, 0 < held b → c.pages b = c₀.pages b
  refs : ∀ b, 0 < held b →
    (c₀.refs b).getD 0+c.tree.count b ≤ (c.refs b).getD 0+c₀.tree.count b

theorem Taken.start (h : Backed c held) : Taken held c [] c :=
  ⟨h.mono fun b => by simp,by simp,fun _ _ => rfl,fun _ _ => Nat.le_refl _⟩

/-- A taken id is in no outside table and in no node, and taken once. -/
theorem Taken.alone {ids : List BlockId} (h : Taken held c₀ ids c) {b : BlockId} (hb : b ∈ ids) :
    held b = 0 ∧ c.tree.count b = 0 ∧ ids.count b = 1 := by
  have hr := h.backed.refs b
  have := List.count_pos_iff.mpr hb
  simp only [h.one b hb,Option.getD_some] at hr
  omega

theorem Taken.nodup {ids : List BlockId} (h : Taken held c₀ ids c) : ids.Nodup :=
  List.nodup_iff_count_le_one.mpr fun b => by
    by_cases hb : b ∈ ids
    · exact Nat.le_of_eq (h.alone hb).2.2
    · rw [List.count_eq_zero.mpr hb]; omega

theorem Taken.push {ids : List BlockId} {b : BlockId} (h : Taken held c₀ ids c)
    (hb : c.refs b = none) (ht : c'.tree = c.tree)
    (hr : c'.refs = Function.update c.refs b (some 1)) (hp : c'.pages = c.pages) :
    Taken held c₀ (ids ++ [b]) c' := by
  have hz := h.backed.refs b
  simp only [hb,Option.getD_none] at hz
  have hne : ∀ x, x ≠ b → c'.refs x = c.refs x := fun x hx => by rw [hr,Function.update_of_ne hx]
  have hself : c'.refs b = some 1 := by rw [hr,Function.update_self]
  refine ⟨⟨ht ▸ h.backed.wf,fun x => ?_⟩,fun x hx => ?_,fun x hx => ?_,fun x hx => ?_⟩
  · have := h.backed.refs x
    rw [ht,List.count_append]
    by_cases hxb : x = b
    · subst hxb
      simp only [hself,Option.getD_some,List.count_singleton_self]
      omega
    · rw [hne x hxb,List.count_singleton,if_neg (by simpa using Ne.symm hxb)]
      omega
  · by_cases hxb : x = b
    · rw [hxb,hself]
    · rw [hne x hxb]
      have hx' : x ∈ ids := by simpa [hxb] using hx
      exact h.one x hx'
  · rw [hp]
    exact h.pages x hx
  · have hxb : x ≠ b := by rintro rfl; omega
    rw [ht,hne x hxb]
    exact h.refs x hx

section

variable [Zero V]

/-- An eviction in the middle of the loop touches neither the ids taken nor
the outside tables. -/
theorem Taken.evict {ids : List BlockId} (h : Taken held c₀ ids c) (needed : Nat) :
    Taken held c₀ ids (c.evict needed).1 := by
  obtain ⟨gone,_,he⟩ := h.backed.evicting needed
  obtain ⟨hb,hr⟩ := h.backed.remains he
  refine ⟨hb,fun b hm => ?_,fun b hm => ?_,fun b hm => ?_⟩
  · have h1 := hr.given b
    have hpos := List.count_pos_iff.mpr hm
    obtain ⟨h2,_⟩ := hr.external b (by omega)
    simp only [h.one b hm,Option.getD_some] at h1
    cases hrb : (c.evict needed).1.refs b with
    | none => simp only [hrb,Option.getD_none] at h2; omega
    | some r =>
      simp only [hrb,Option.getD_some] at h1 h2
      rw [show r = 1 by omega]
  · exact (hr.external b (by omega)).2.trans (h.pages b hm)
  · have := hr.given b
    have := hr.count b
    have := h.refs b hm
    omega

def takenIds (cfg : CacheConfig) (count : Nat) : Nat → List BlockId → RadixCache V → List BlockId
  | 0, ids, _ => ids
  | n+1, ids, c =>
      match c.free with
      | b :: free => takenIds cfg count n (ids ++ [b]) ({ c with free := free }.take b)
      | [] =>
          if cfg.numBlocks ≤ c.next then
            match c.evict (count-ids.length) with
            | (c',freed) =>
                match c'.free with
                | b :: free =>
                    if freed = 0 then ids
                    else takenIds cfg count n (ids ++ [b]) ({ c' with free := free }.take b)
                | [] => ids
          else takenIds cfg count n (ids ++ [c.next]) ({ c with next := c.next+1 }.take c.next)

/-- What a failed call leaves behind: nothing of what it took, the outside
tables as they were, and no leaf that could be evicted. -/
structure Failed (held : BlockId → Nat) (c₀ : RadixCache V) (ids : List BlockId)
    (c : RadixCache V) : Prop where
  backed : Backed c held
  released : ∀ b ∈ ids, c.refs b = none
  pages : ∀ b, 0 < held b → c.pages b = c₀.pages b
  refs : ∀ b, 0 < held b →
    (c₀.refs b).getD 0+c.tree.count b ≤ (c.refs b).getD 0+c₀.tree.count b
  exhausted : ∀ p n, c.tree.nodeAt p = some (n,.nil) → n.refCount ≤ 1 →
    ∀ b ∈ n.blockIds, c.refs b ≠ some 1

theorem Taken.give_up {ids : List BlockId} (h : Taken held c₀ ids c)
    (hc : c.candidates c.tree = []) : Failed held c₀ ids (c.releaseBlocks ids) := by
  have hin : ∀ b ∈ ids, (c.releaseBlocks ids).refs b = none := by
    intro b hb
    rw [releaseBlocks_refs,if_pos hb,h.one b hb]
    rfl
  have hout : ∀ b, b ∉ ids → (c.releaseBlocks ids).refs b = c.refs b := by
    intro b hb
    rw [releaseBlocks_refs,if_neg hb]
  have hheld : ∀ b, 0 < held b → b ∉ ids := by
    intro b hb hm
    have := (h.alone hm).1
    omega
  refine ⟨⟨?_,fun b => ?_⟩,hin,fun b hb => ?_,fun b hb => ?_,fun p n hn hle b hb hone => ?_⟩
  · rw [releaseBlocks_tree]; exact h.backed.wf
  · rw [releaseBlocks_tree]
    by_cases hm : b ∈ ids
    · obtain ⟨h1,h2,_⟩ := h.alone hm
      omega
    · have := h.backed.refs b
      rw [hout b hm]
      omega
  · refine (releaseBlocks_pages c ids b ?_).trans (h.pages b hb)
    have := h.backed.refs b
    rw [hout b (hheld b hb)]
    intro h0
    simp only [h0,Option.getD_none] at this
    omega
  · rw [releaseBlocks_tree,hout b (hheld b hb)]
    exact h.refs b hb
  · -- the page is not among the ids taken, so the leaf would have been a candidate before
    rw [releaseBlocks_tree] at hn
    have hm : b ∉ ids := fun hm => by simp [hin b hm] at hone
    rw [hout b hm] at hone
    have := mem_candidates_of_leaf (c := c) hn hle ⟨b,hb,by simp [isPrivate,hone]⟩
    simp [hc] at this

theorem Taken.allocateLoop (count n : Nat) {ids : List BlockId} (hp : Parted cfg c)
    (h : Taken held c₀ ids c) (hcount : count = ids.length+n) :
    match RadixCache.allocateLoop cfg count n ids c with
    | (c',some ids') => ids'.length = count ∧ Taken held c₀ ids' c'
    | (c',none) => Failed held c₀ (takenIds cfg count n ids c) c' := by
  induction n generalizing c ids with
  | zero => exact ⟨hcount.symm,h⟩
  | succ n ih =>
    simp only [RadixCache.allocateLoop,takenIds]
    cases hf : c.free with
    | cons b free =>
      have hb : c.refs b = none := hp.disjoint b (by simp [hf])
      exact ih (hp.takeFree hf) (h.push hb rfl rfl rfl) (by simp; omega)
    | nil =>
      simp only
      by_cases hnext : cfg.numBlocks ≤ c.next
      · rw [if_pos hnext,if_pos hnext]
        have hp' := hp.evict (count-ids.length)
        have h' := h.evict (count-ids.length)
        by_cases hc : c.candidates c.tree = []
        · have he : c.evict (count-ids.length) = (c,0) := by
            unfold RadixCache.evict
            rw [if_neg (by omega),hc]
            rfl
          simp only [he,hf]
          exact h.give_up hc
        · obtain ⟨hfree,hfreed⟩ := evict_frees (count-ids.length) h.backed.wf (by omega) hc
          cases hf' : (c.evict (count-ids.length)).1.free with
          | nil => exact absurd hf' hfree
          | cons b free =>
            simp only
            rw [if_neg hfreed,if_neg hfreed]
            have hb := hp'.disjoint b (by simp [hf'])
            exact ih (hp'.takeFree hf') (h'.push hb rfl rfl rfl) (by simp; omega)
      · rw [if_neg hnext,if_neg hnext]
        have htake := hp.takeNext (Nat.lt_of_not_le hnext)
        simp only [hf] at htake
        exact ih htake (h.push hp.refs_next.1 rfl rfl rfl) (by simp; omega)

/-- `allocate_blocks` gives what was asked for, or fails without a trace. -/
theorem Backed.allocateBlocks (count : Nat) (hp : Parted cfg c) (h : Backed c held) :
    match c.allocateBlocks cfg count with
    | (c',some ids) => ids.length = count ∧ Taken held c ids c'
    | (c',none) => Failed held c (takenIds cfg count count [] c) c' :=
  (Taken.start h).allocateLoop count count hp (by simp)

end

end SglangLite.Kv.RadixCache
