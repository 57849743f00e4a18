import SglangLite.Kv.Ownership

set_option autoImplicit false

namespace SglangLite.Kv.RadixCache

variable {V : Type} {cfg : CacheConfig} {c : RadixCache V} {held : BlockId → Nat}

def Counted (c : RadixCache V) : Prop := ∀ b, c.refs b ≠ some 0

def dropRef : Option Nat → Option Nat
  | none => none
  | some r => if r ≤ 1 then none else some (r-1)

theorem counted_setRef (h : Counted c) {b : BlockId} {r : Nat} (hr : 0 < r) :
    Counted (c.setRef b (some r)) := by
  intro x hx
  by_cases hxb : x = b
  · subst hxb
    simp only [setRef,Function.update_self,Option.some.injEq] at hx
    omega
  · simp only [setRef,Function.update_of_ne hxb] at hx
    exact h x hx

theorem counted_empty [Zero V] : Counted (empty : RadixCache V) := by
  intro b
  simp [empty]

theorem Counted.bump (h : Counted c) (b : BlockId) : Counted (c.bump b) := by
  unfold RadixCache.bump
  split
  · exact counted_setRef h (by omega)
  · exact h

theorem Counted.forkBlocks (h : Counted c) (ids : List BlockId) : Counted (c.forkBlocks ids) := by
  unfold RadixCache.forkBlocks
  induction ids generalizing c with
  | nil => exact h
  | cons b ids ih => exact ih (h.bump b)

/-- A fork counts every listed block up once for each time it is listed. -/
theorem forkBlocks_refs (c : RadixCache V) (ids : List BlockId) (b : BlockId) :
    (c.forkBlocks ids).refs b = (c.refs b).map (· + ids.count b) := by
  unfold forkBlocks
  induction ids generalizing c with
  | nil => simp
  | cons x ids ih =>
    rw [List.foldl_cons,ih]
    unfold bump
    by_cases hb : b = x
    · subst hb
      cases hr : c.refs b with
      | none => simp [hr]
      | some r => simp [setRef]; omega
    · have hcount : List.count b (x :: ids) = List.count b ids :=
        List.count_cons_of_ne (Ne.symm hb)
      rw [hcount]
      cases c.refs x with
      | none => rfl
      | some r => simp [setRef,Function.update_of_ne hb]

section Release

variable [Zero V]

theorem releaseBlock_refs (c : RadixCache V) (b x : BlockId) :
    (c.releaseBlock b).refs x = if x = b then dropRef (c.refs x) else c.refs x := by
  unfold releaseBlock
  by_cases hx : x = b
  · subst hx
    cases hr : c.refs x with
    | none => simp [dropRef,hr]
    | some r => by_cases h1 : r ≤ 1 <;> simp [dropRef,h1,setRef]
  · cases hr : c.refs b with
    | none => simp [hx]
    | some r => by_cases h1 : r ≤ 1 <;> simp [h1,setRef,hx]

theorem releaseLoop_refs (ids seen : List BlockId) (c : RadixCache V) (x : BlockId) :
    (c.releaseLoop seen ids).refs x =
      if x ∈ ids ∧ x ∉ seen then dropRef (c.refs x) else c.refs x := by
  induction ids generalizing seen c with
  | nil => simp [releaseLoop]
  | cons b ids ih =>
    simp only [releaseLoop]
    by_cases hb : b ∈ seen
    · rw [if_pos hb,ih]
      by_cases hx : x = b
      · subst hx; simp [hb]
      · simp [hx]
    · rw [if_neg hb,ih,releaseBlock_refs]
      by_cases hx : x = b
      · subst hx; simp [hb]
      · simp [hx]

/-- A release counts every listed block down once, also when it is listed
again. -/
theorem releaseBlocks_refs (ids : List BlockId) (c : RadixCache V) (x : BlockId) :
    (c.releaseBlocks ids).refs x = if x ∈ ids then dropRef (c.refs x) else c.refs x := by
  rw [releaseBlocks,releaseLoop_refs]
  simp

theorem Counted.releaseBlock (h : Counted c) (b : BlockId) : Counted (c.releaseBlock b) := by
  intro x hx
  rw [releaseBlock_refs] at hx
  split_ifs at hx
  · cases hr : c.refs x with
    | none => simp [hr,dropRef] at hx
    | some r =>
      simp only [hr,dropRef] at hx
      split_ifs at hx
      simp only [Option.some.injEq] at hx
      omega
  · exact h x hx

theorem Counted.releaseBlocks (h : Counted c) (ids : List BlockId) :
    Counted (c.releaseBlocks ids) := by
  have key : ∀ (ids seen : List BlockId) (c : RadixCache V), Counted c →
      Counted (c.releaseLoop seen ids) := by
    intro ids
    induction ids with
    | nil => intro _ _ h; exact h
    | cons b ids ih =>
      intro seen c h
      simp only [releaseLoop]
      split_ifs
      · exact ih seen c h
      · exact ih _ _ (h.releaseBlock b)
  exact key ids [] c h

theorem Counted.evictLoop {needed k : Nat} {es : List (Nat × List Token)} (h : Counted c) :
    Counted (evictLoop needed es c k).1 := by
  induction es generalizing c k with
  | nil => exact h
  | cons e es ih =>
    simp only [RadixCache.evictLoop]
    split_ifs
    · exact h
    · exact ih (Counted.releaseBlocks (c := { c with tree := c.tree.unlink e.2 }) h _)

theorem Counted.evict (h : Counted c) (needed : Nat) : Counted (c.evict needed).1 := by
  unfold RadixCache.evict
  split_ifs
  · exact h
  · exact h.evictLoop

theorem Counted.allocateLoop (count n : Nat) {ids : List BlockId} (h : Counted c) :
    Counted (RadixCache.allocateLoop cfg count n ids c).1 := by
  have take : ∀ (c' : RadixCache V) b, Counted c' → Counted (c'.take b) :=
    fun c' b h' => counted_setRef h' (by omega)
  induction n generalizing c ids with
  | zero => exact h
  | succ n ih =>
    simp only [RadixCache.allocateLoop]
    cases hf : c.free with
    | cons b free => exact ih (take { c with free := free } b h)
    | nil =>
      simp only
      have he := h.evict (count-ids.length)
      by_cases hn : cfg.numBlocks ≤ c.next
      · rw [if_pos hn]
        cases hf' : (c.evict (count-ids.length)).1.free with
        | nil => exact he.releaseBlocks ids
        | cons b free =>
          simp only
          by_cases hz : (c.evict (count-ids.length)).2 = 0
          · rw [if_pos hz]
            exact he.releaseBlocks ids
          · rw [if_neg hz]
            exact ih (take { (c.evict (count-ids.length)).1 with free := free } b he)
      · rw [if_neg hn]
        exact ih (take { c with next := c.next+1 } c.next h)

theorem Counted.setBlocks (h : Counted c) (path : List Token) (ids : List BlockId) :
    Counted (c.setBlocks path ids) := by
  unfold RadixCache.setBlocks
  split_ifs
  · exact h
  · exact (h.releaseBlocks _).forkBlocks ids

theorem Counted.insertOrUpdate (h : Counted c) (tokens : List Token) (kv : Bool)
    (ids : List BlockId) (logits : Bool) : Counted (c.insertOrUpdate tokens kv ids logits) := by
  unfold RadixCache.insertOrUpdate
  split_ifs
  · exact h
  · exact Counted.setBlocks (c := { c with tree := c.tree.insertPath tokens }) h tokens ids

end Release

theorem Counted.matchPrefix (h : Counted c) (q : List Token) : Counted (c.matchPrefix cfg q).1 := by
  unfold RadixCache.matchPrefix
  simp only
  split_ifs
  · exact h.forkBlocks _
  · exact h

section Copy

variable [Zero V]

def firstVictim (c : RadixCache V) : Option (List Token) :=
  (((c.candidates c.tree).insertionSort (fun x y => x.1 ≤ y.1)).head?).map Prod.snd

/-- Copying `b` loses the page when the eviction that makes room for the copy
takes the leaf that holds the last other reference on `b`. -/
def CopyLoses (cfg : CacheConfig) (c : RadixCache V) (b : BlockId) : Prop :=
  c.refs b = some 2 ∧ c.free = [] ∧ cfg.numBlocks ≤ c.next ∧
    ∃ p ∈ c.firstVictim, b ∈ c.tree.blocksAt p

instance (cfg : CacheConfig) (c : RadixCache V) (b : BlockId) : Decidable (CopyLoses cfg c b) :=
  inferInstanceAs (Decidable (_ ∧ _ ∧ _ ∧ ∃ p ∈ c.firstVictim, _))

theorem evict_one (h : Owned cfg c held) :
    c.evict 1 = (c,0) ∧ c.firstVictim = none ∨
      ∃ p, c.firstVictim = some p ∧ (∃ n, c.tree.nodeAt p = some (n,.nil)) ∧
        c.evict 1 = (({ c with tree := c.tree.unlink p }).releaseBlocks (c.tree.blocksAt p),
          (c.tree.blocksAt p).length) := by
  have hperm := List.perm_insertionSort (fun x y : Nat × List Token => x.1 ≤ y.1)
    (c.candidates c.tree)
  unfold RadixCache.evict firstVictim
  rw [if_neg (by omega)]
  cases hs : (c.candidates c.tree).insertionSort (fun x y => x.1 ≤ y.1) with
  | nil => exact .inl ⟨rfl,rfl⟩
  | cons e es =>
    obtain ⟨n,hn,_,b,hb,_⟩ := mem_candidates h.wf (hperm.mem_iff.mp (hs ▸ List.mem_cons_self))
    have hlen : 0 < (c.tree.blocksAt e.2).length := by
      simp only [Children.blocksAt,hn]
      exact List.length_pos_of_mem hb
    refine .inr ⟨e.2,rfl,⟨n,hn⟩,?_⟩
    rw [evictLoop,if_neg (by omega)]
    simp only [Nat.zero_add]
    cases es with
    | nil => rfl
    | cons e' es => rw [evictLoop,if_pos (Nat.succ_le_of_lt hlen)]

/-- A page that is shared before the allocation of its copy still is shared
after it, unless the copy loses it. -/
theorem shared_allocate {b : BlockId} {r : Nat} {c' : RadixCache V} {ids : List BlockId}
    (h : Owned cfg c held) (hr : c.refs b = some r) (h2 : 2 ≤ r) (hs : ¬ CopyLoses cfg c b)
    (ha : c.allocateBlocks cfg 1 = (c',some ids)) : ∃ r', c'.refs b = some r' ∧ 2 ≤ r' := by
  have take : ∀ {c₁ : RadixCache V} {x : BlockId} {r₁ : Nat}, c₁.refs x = none →
      c₁.refs b = some r₁ → (c₁.take x).refs b = some r₁ := by
    intro c₁ x r₁ hx hb
    have hne : b ≠ x := by
      rintro rfl
      rw [hx] at hb
      simp at hb
    simp only [RadixCache.take,setRef,Function.update_of_ne hne]
    exact hb
  simp only [allocateBlocks,allocateLoop,List.length_nil,Nat.sub_zero] at ha
  cases hf : c.free with
  | cons x free =>
    simp only [hf] at ha
    obtain ⟨rfl,_⟩ := Prod.mk.inj ha
    exact ⟨r,take (h.free_refs x (by simp [hf])).1 hr,h2⟩
  | nil =>
    simp only [hf] at ha
    by_cases hn : cfg.numBlocks ≤ c.next
    · rw [if_pos hn] at ha
      rcases evict_one h with ⟨he,_⟩ | ⟨p,hp,⟨n,hleaf⟩,he⟩
      · simp only [he,hf] at ha
        simp at ha
      · obtain ⟨hown,_⟩ := h.evictLeaf hleaf
        simp only [he] at ha
        -- the count of `b` once the victim's pages are released
        have hb : ∃ r', (({ c with tree := c.tree.unlink p }).releaseBlocks
            (c.tree.blocksAt p)).refs b = some r' ∧ 2 ≤ r' := by
          rw [releaseBlocks_refs]
          by_cases hmem : b ∈ c.tree.blocksAt p
          · have hr2 : r ≠ 2 := by
              rintro rfl
              exact hs ⟨hr,hf,hn,p,by simp [hp],hmem⟩
            refine ⟨r-1,?_,by omega⟩
            simp only [hmem,if_true,hr,dropRef]
            rw [if_neg (by omega)]
          · exact ⟨r,by simp [hmem,hr],h2⟩
        obtain ⟨r',hr',h2'⟩ := hb
        generalize ({ c with tree := c.tree.unlink p }).releaseBlocks (c.tree.blocksAt p) = c₁
          at ha hr' hown
        cases hf' : c₁.free with
        | nil =>
          simp only [hf'] at ha
          simp at ha
        | cons x free =>
          simp only [hf'] at ha
          split_ifs at ha
          · simp at ha
          · obtain ⟨rfl,_⟩ := Prod.mk.inj ha
            exact ⟨r',take (hown.free_refs x (by simp [hf'])).1 hr',h2'⟩
    · rw [if_neg hn] at ha
      obtain ⟨rfl,_⟩ := Prod.mk.inj ha
      exact ⟨r,take h.refs_next hr,h2⟩

theorem Counted.cowBlockIfShared {b : BlockId} (hc : Counted c) (h : Owned cfg c held)
    (hs : ¬ CopyLoses cfg c b) : Counted (c.cowBlockIfShared cfg b).1 := by
  unfold RadixCache.cowBlockIfShared
  cases hr : c.refs b with
  | none => exact hc
  | some r =>
    simp only
    by_cases h1 : r ≤ 1
    · rw [if_pos h1]; exact hc
    rw [if_neg h1]
    have hal : Counted (c.allocateBlocks cfg 1).1 := Counted.allocateLoop 1 1 hc
    cases ha : c.allocateBlocks cfg 1 with
    | mk c' o =>
      rw [ha] at hal
      cases o with
      | none => exact hal
      | some ids =>
        cases ids with
        | nil => exact hal
        | cons new ids =>
          obtain ⟨r',hr',h2⟩ := shared_allocate h hr (by omega) hs ha
          intro x hx
          simp only [copyPage,hr'] at hx
          by_cases hxb : x = b
          · subst hxb
            simp only [Function.update_self,Option.some.injEq] at hx
            omega
          · simp only [Function.update_of_ne hxb] at hx
            exact hal x hx

end Copy

end SglangLite.Kv.RadixCache
