import SglangLite.Kv.Reclaim

set_option autoImplicit false

namespace SglangLite.Kv.RadixCache

variable {V : Type} {cfg : CacheConfig} {c : RadixCache V} {held : BlockId → Nat}

def holders (tables : List (List BlockId)) (b : BlockId) : Nat := tables.countP (b ∈ ·)

/-- Every allocated block has as many references as lists own it, and there is
at least one. -/
structure Exact (cfg : CacheConfig) (c : RadixCache V) (tables : List (List BlockId)) : Prop where
  owned : Owned cfg c (holders tables)
  counted : Counted c

def swapBlock (tables : List (List BlockId)) (i : Nat) (b b' : BlockId) : List (List BlockId) :=
  tables.modify i (List.map fun x => if x = b then b' else x)

theorem countP_modify {α : Type} (p : α → Bool) (g : α → α) (l : List α) (i : Nat) {a : α}
    (h : l[i]? = some a) :
    (l.modify i g).countP p+(if p a then 1 else 0) = l.countP p+if p (g a) then 1 else 0 := by
  induction l generalizing i with
  | nil => simp at h
  | cons x l ih =>
    cases i with
    | zero =>
      simp only [List.getElem?_cons_zero,Option.some.injEq] at h
      subst h
      simp only [List.modify_zero_cons,List.countP_cons]
      omega
    | succ i =>
      have := ih i (by simpa using h)
      simp only [List.modify_succ_cons,List.countP_cons]
      omega

theorem holders_swapBlock {tables : List (List BlockId)} {t : List BlockId} {i : Nat}
    {b b' : BlockId} (ht : tables[i]? = some t) (hb : b ∈ t)
    (hb' : b' = b ∨ holders tables b' = 0) (x : BlockId) :
    holders (swapBlock tables i b b') x
      = holders tables x+(if x = b' then 1 else 0)-if x = b then 1 else 0 := by
  have hmod := countP_modify (fun l => decide (x ∈ l))
    (List.map fun y => if y = b then b' else y) tables i ht
  simp only [holders,swapBlock]
  rcases hb' with rfl | h0
  · have hid : (List.map (fun y => if y = b' then b' else y) t) = t := by
      conv_rhs => rw [← List.map_id t]
      refine List.map_congr_left fun y _ => ?_
      split_ifs with hy <;> simp [hy]
    rw [hid] at hmod
    omega
  · have hnew : b' ∉ t := by
      intro hmem
      have := List.countP_eq_zero.mp h0 t (List.mem_of_getElem? ht)
      simp [hmem] at this
    have hbb' : b ≠ b' := fun he => hnew (he ▸ hb)
    have hmem : x ∈ List.map (fun y => if y = b then b' else y) t ↔ x = b' ∨ (x ≠ b ∧ x ∈ t) := by
      simp only [List.mem_map]
      constructor
      · rintro ⟨y,hy,rfl⟩
        split_ifs with hyb
        · exact .inl rfl
        · exact .inr ⟨hyb,hy⟩
      · rintro (rfl | ⟨hxb,hx⟩)
        · exact ⟨b,hb,by simp⟩
        · exact ⟨x,hx,by simp [hxb]⟩
    simp only [hmem,decide_eq_true_eq] at hmod
    by_cases hxb : x = b
    · subst hxb
      simp only [hb,hbb',if_true,if_false,ne_eq,not_true_eq_false,false_and,or_false] at hmod ⊢
      omega
    · by_cases hxb' : x = b'
      · subst hxb'
        simp only [hnew,if_true,if_false,true_or,hxb] at hmod ⊢
        omega
      · simp only [hxb,hxb',if_false,false_or,ne_eq,not_false_eq_true,true_and] at hmod ⊢
        omega

section Allocate

variable [Zero V]

theorem allocate_one (h : Owned cfg c held) :
    (∃ x free, c.free = x :: free ∧
      c.allocateBlocks cfg 1 = ({ c with free := free }.take x,some [x])) ∨
    (c.free = [] ∧ c.next < cfg.numBlocks ∧
      c.allocateBlocks cfg 1 = ({ c with next := c.next+1 }.take c.next,some [c.next])) ∨
    (c.free = [] ∧ cfg.numBlocks ≤ c.next ∧ c.firstVictim = none ∧
      c.allocateBlocks cfg 1 = (c,none)) ∨
    ∃ p x free, c.free = [] ∧ cfg.numBlocks ≤ c.next ∧ c.firstVictim = some p ∧
      (c.evict 1).1 = ({ c with tree := c.tree.unlink p }).releaseBlocks (c.tree.blocksAt p) ∧
      (c.evict 1).1.free = x :: free ∧
      c.allocateBlocks cfg 1 = ({ (c.evict 1).1 with free := free }.take x,some [x]) := by
  rcases hf : c.free with _ | ⟨x,free⟩
  · by_cases hn : cfg.numBlocks ≤ c.next
    · rcases evict_one h with ⟨he,hv⟩ | ⟨p,hv,_,he⟩
      · refine .inr (.inr (.inl ⟨rfl,hn,hv,?_⟩))
        simp only [allocateBlocks,allocateLoop,hf,hn,if_true,List.length_nil,Nat.sub_zero,he]
        rfl
      · have hcand : c.candidates c.tree ≠ [] := by
          intro hnil
          simp [firstVictim,hnil] at hv
        obtain ⟨hfree,hz⟩ := evict_frees 1 h.wf (by omega) hcand
        obtain ⟨x,free,hx⟩ := List.exists_cons_of_ne_nil hfree
        refine .inr (.inr (.inr ⟨p,x,free,rfl,hn,hv,?_,hx,?_⟩))
        · rw [he,hf]
        · simp only [allocateBlocks,allocateLoop,hf,hn,if_true,List.length_nil,Nat.sub_zero,hx,hz,
            if_false,List.nil_append]
    · refine .inr (.inl ⟨rfl,by omega,?_⟩)
      simp [allocateBlocks,allocateLoop,hf,hn]
  · exact .inl ⟨x,free,rfl,by simp [allocateBlocks,allocateLoop,hf]⟩

/-- When the copy loses its page, the page ends allocated and with no
reference. -/
theorem cow_of_loses (h : Owned cfg c held) {b : BlockId} (hs : CopyLoses cfg c b) :
    ∃ c' b', c.cowBlockIfShared cfg b = (c',some b') ∧ c'.refs b = some 0 := by
  obtain ⟨hr,hf,hn,p,hp,hmem⟩ := hs
  rw [Option.mem_def] at hp
  rcases allocate_one h with ⟨x,free,hcons,_⟩ | ⟨_,hlt,_⟩ | ⟨_,_,hnone,_⟩ |
    ⟨p',x,free,_,_,hp',hevict,hfree,hal⟩
  · simp [hf] at hcons
  · omega
  · simp [hp] at hnone
  · obtain rfl : p = p' := Option.some.inj (hp.symm.trans hp')
    have hrefs : (c.evict 1).1.refs b = some 1 := by
      rw [hevict,releaseBlocks_refs,if_pos hmem]
      simp [hr,dropRef]
    have hbx : b ≠ x := by
      rintro rfl
      have := ((h.evict 1).1.free_refs b (by simp [hfree])).1
      simp [hrefs] at this
    refine ⟨({ (c.evict 1).1 with free := free }.take x).copyPage b x,x,?_,?_⟩
    · simp [cowBlockIfShared,hr,hal]
    · simp [copyPage,take,setRef,Function.update_of_ne hbx,hrefs]

theorem cow_none (h : Owned cfg c held) {b : BlockId} {c' : RadixCache V}
    (hc : c.cowBlockIfShared cfg b = (c',none)) : c' = c := by
  unfold cowBlockIfShared at hc
  cases hr : c.refs b with
  | none => simp [hr] at hc
  | some r =>
    simp only [hr] at hc
    split_ifs at hc with h1
    · simp at hc
    · rcases allocate_one h with ⟨x,free,_,hal⟩ | ⟨_,_,hal⟩ | ⟨_,_,_,hal⟩ | ⟨p,x,free,_,_,_,_,_,hal⟩
      · simp [hal] at hc
      · simp [hal] at hc
      · simp only [hal,Prod.mk.injEq,and_true] at hc
        exact hc.symm
      · simp [hal] at hc

/-- What a caller that owns `b` through its table `i` may expect of
`cow_block_if_shared(b)`. -/
def CopyKeeps (cfg : CacheConfig) (c : RadixCache V) (tables : List (List BlockId)) (i : Nat)
    (b : BlockId) : Prop :=
  match c.cowBlockIfShared cfg b with
  | (c',some b') =>
      Exact cfg c' (swapBlock tables i b b') ∧ c'.pages b' = c.pages b ∧
      (∀ j t, j ≠ i → tables[j]? = some t → b ∈ t → c'.pages b = c.pages b) ∧
      ∀ p, b ∈ c'.tree.blocksAt p → c'.pages b = c.pages b
  | (c',none) => ∀ x, 0 < holders tables x → c'.refs x = c.refs x

/-- The copy keeps every owner exactly when the eviction that makes room for it
does not take the last other owner of the page. -/
theorem cow_keeps {tables : List (List BlockId)} {t : List BlockId} {i : Nat} {b : BlockId}
    (h : Exact cfg c tables) (ht : tables[i]? = some t) (hb : b ∈ t) :
    CopyKeeps cfg c tables i b ↔ ¬ CopyLoses cfg c b := by
  have hheld : 0 < holders tables b :=
    List.countP_pos_iff.mpr ⟨t,List.mem_of_getElem? ht,by simpa using hb⟩
  constructor
  · intro hk hs
    obtain ⟨c',b',hc,hr⟩ := cow_of_loses h.owned hs
    simp only [CopyKeeps,hc] at hk
    exact hk.1.counted b hr
  · intro hs
    have hcounted := h.counted.cowBlockIfShared h.owned hs
    have howned := h.owned.cowBlockIfShared hheld
    unfold CopyKeeps
    cases hc : c.cowBlockIfShared cfg b with
    | mk c' o =>
      rw [hc] at hcounted howned
      cases o with
      | none =>
        intro x _
        rw [cow_none h.owned hc]
      | some b' =>
        have hnew : b' = b ∨ holders tables b' = 0 := by
          have := howned.alone.1
          split_ifs at this with hbb'
          · exact .inl hbb'
          · exact .inr this
        have hswap := holders_swapBlock ht hb hnew
        refine ⟨⟨howned.owned.congr fun x => (hswap x).symm,hcounted⟩,howned.copied,?_,?_⟩
        · intro _ _ _ _ _
          by_cases hbb' : b = b'
          · exact hbb' ▸ howned.copied
          · exact howned.pages b hbb' (by omega)
        · intro _ _
          by_cases hbb' : b = b'
          · exact hbb' ▸ howned.copied
          · exact howned.pages b hbb' (by omega)

def pagesOfOne (n : Nat) : CacheConfig := ⟨1,n+2,Nat.one_pos,by omega⟩

def halfReleased (n : Nat) : RadixCache Nat :=
  (((empty.allocateBlocks (pagesOfOne n) 2).1.insertOrUpdate [7,8] false [0,1] true)
    ).releaseBlocks [1]

theorem halfReleased_exact (n : Nat) : Exact (pagesOfOne n) (halfReleased n) [[0]] := by
  have halloc := (owned_empty (V := Nat) (pagesOfOne n)).allocateBlocks 2
  have h₀ : Allocated (pagesOfOne n) (fun _ => 0) empty [0,1]
      (empty.allocateBlocks (V := Nat) (pagesOfOne n) 2).1 := halloc.1
  have h₁ : Committed _ _ _ [7,8] _ _ :=
    h₀.owned.insertOrUpdate false true (by simp) h₀.nodup (by simp)
  have h₂ : Owned (pagesOfOne n) _ (fun x => [0].count x+[1].count x) := h₁.owned.congr fun x => by
    rw [Nat.zero_add,← List.count_append]
    rfl
  refine ⟨(h₂.releaseBlocks (by simp)).1.congr fun x => ?_,?_⟩
  · by_cases hx : x = 0 <;> simp [holders,hx,eq_comm]
  · exact Counted.releaseBlocks ((Counted.allocateLoop 2 2 counted_empty).insertOrUpdate _ _ _ _) _

/-- With the pool full, the room for the copy comes from the leaf that shares
the page: it stays allocated and nothing refers to it. -/
theorem copy_from_full_pool :
    Exact (pagesOfOne 0) (halfReleased 0) [[0]] ∧
      ¬ CopyKeeps (pagesOfOne 0) (halfReleased 0) [[0]] 0 0 := by
  refine ⟨halfReleased_exact 0,fun hk => ?_⟩
  obtain ⟨c',b',hc,hr⟩ := cow_of_loses (halfReleased_exact 0).owned (b := 0) (by decide)
  simp only [CopyKeeps,hc] at hk
  exact hk.1.counted 0 hr

theorem copy_to_spare_page :
    Exact (pagesOfOne 1) (halfReleased 1) [[0]] ∧
      ((halfReleased 1).cowBlockIfShared (pagesOfOne 1) 0).2 = some 2 ∧
      CopyKeeps (pagesOfOne 1) (halfReleased 1) [[0]] 0 0 :=
  ⟨halfReleased_exact 1,by decide,
    (cow_keeps (t := [0]) (halfReleased_exact 1) rfl (by simp)).mpr (by decide)⟩

end Allocate

end SglangLite.Kv.RadixCache
