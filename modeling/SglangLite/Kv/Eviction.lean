import SglangLite.Kv.Reclaim

set_option autoImplicit false

namespace SglangLite.Kv

namespace Children

/-- `for tid in path[:-1]: parent = parent.children[tid]`, then
`parent.children.pop(path[-1], None)`; `none` is the `KeyError`. -/
def popLeaf : Children → List Token → Option Children
  | f, [] => some f
  | nil, [_] => some nil
  | nil, _ :: _ :: _ => none
  | cons u n k r, t :: ts =>
      if u = t then (if ts = [] then some r else (k.popLeaf ts).map fun k' => cons u n k' r)
      else (r.popLeaf (t :: ts)).map (cons u n k)

theorem popLeaf_eq {f : Children} {p : List Token} (h : f.nodeAt p ≠ none) :
    f.popLeaf p = some (f.unlink p) := by
  induction f generalizing p with
  | nil => simp at h
  | cons u n k r hk hr =>
    cases p with
    | nil => simp at h
    | cons t ts =>
      simp only [nodeAt] at h
      simp only [popLeaf,unlink]
      by_cases hut : u = t
      · by_cases hts : ts = []
        · simp [hut,hts]
        · simp only [hut,hts,if_true,if_false] at h ⊢
          rw [hk h]
          rfl
      · simp only [hut,if_false] at h ⊢
        rw [hr h]
        rfl

theorem payload_unlink {f : Children} (hf : f.WF) {p : List Token} {n : RadixNode}
    (hp : f.nodeAt p = some (n,nil)) (q : List Token) :
    ((f.unlink p).nodeAt q).map Prod.fst = if q = p then none else (f.nodeAt q).map Prod.fst := by
  by_cases hqp : q = p
  · rw [hqp,nodeAt_unlink_self hf hp]
    simp
  · have h := nodeAt_unlink_ne hf hp hqp
    rw [if_neg hqp]
    cases hn : f.nodeAt q with
    | none =>
      simp only [hn] at h
      rw [h]
    | some e =>
      simp only [hn] at h
      obtain ⟨k',hk',_⟩ := h
      rw [hk']
      rfl

theorem two_le_count {f : Children} (hf : f.WF) {p q : List Token} {n m : RadixNode}
    {k : Children} (hp : f.nodeAt p = some (n,nil)) (hq : f.nodeAt q = some (m,k)) (hne : q ≠ p)
    {b : BlockId} (hn : b ∈ n.blockIds) (hm : b ∈ m.blockIds) : 2 ≤ f.count b := by
  have hcount := count_unlink b f p n hp
  have hb : b ∈ (f.unlink p).blocksAt q := by
    have h := nodeAt_unlink_ne hf hp hne
    simp only [hq] at h
    obtain ⟨k',hk',_⟩ := h
    simpa [blocksAt,hk'] using hm
  have := mem_blocksAt_count hb
  have := List.count_pos_iff.mpr hn
  omega

end Children

namespace RadixCache

variable {V : Type} {cfg : CacheConfig} {c c' : RadixCache V} {held : BlockId → Nat}

/-- The dictionary keys of the tree are distinct, and each page has at least
the references that the outside tables and the tree nodes count on. -/
structure Backed (c : RadixCache V) (held : BlockId → Nat) : Prop where
  wf : c.tree.WF
  refs : ∀ b, held b+c.tree.count b ≤ (c.refs b).getD 0

theorem Owned.backed (h : Owned cfg c held) : Backed c held := by
  refine ⟨h.wf,fun b => ?_⟩
  cases hr : c.refs b with
  | none => have := h.refs_none b hr; simp; omega
  | some r => have := h.refs_eq b r hr; simp; omega

theorem Backed.mono {held' : BlockId → Nat} (h : Backed c held) (hle : ∀ b, held' b ≤ held b) :
    Backed c held' :=
  ⟨h.wf,fun b => by have := h.refs b; have := hle b; omega⟩

theorem Backed.refs_of_listed (h : Backed c held) {p : List Token} {n : RadixNode} {k : Children}
    (hp : c.tree.nodeAt p = some (n,k)) {b : BlockId} (hb : b ∈ n.blockIds) :
    1 ≤ (c.refs b).getD 0 := by
  have hm : b ∈ c.tree.blocksAt p := by simpa [Children.blocksAt,hp] using hb
  have := Children.mem_blocksAt_count hm
  have := h.refs b
  omega

theorem dropRef_getD (o : Option Nat) : (dropRef o).getD 0 = o.getD 0-1 := by
  cases o with
  | none => rfl
  | some r =>
    by_cases h1 : r ≤ 1
    · simp [dropRef,h1]
    · simp [dropRef,h1]

theorem backed_empty [Zero V] : Backed (empty : RadixCache V) (fun _ => 0) :=
  ⟨trivial,by simp [empty,Children.count]⟩

/-- `walk` of `evict` collects the nodes themselves with their paths. -/
def leafNodes (c : RadixCache V) : Children → List (RadixNode × List Token)
  | .nil => []
  | .cons u n k r =>
      (if n.blockIds ≠ [] ∧ n.refCount ≤ 1 ∧ k = .nil ∧ n.blockIds.any c.isPrivate then
        [(n,[u])] else []) ++
      (leafNodes c k).map (fun e => (e.1,u :: e.2)) ++ leafNodes c r

theorem candidates_eq (c : RadixCache V) (f : Children) :
    c.candidates f = (c.leafNodes f).map fun e => (e.1.refCount,e.2) := by
  induction f with
  | nil => rfl
  | cons u n k r hk hr =>
    simp only [candidates,leafNodes,List.map_append,List.map_map,hk,hr]
    congr 2
    split_ifs <;> rfl

theorem mem_leafNodes {f : Children} (hf : f.WF) {e : RadixNode × List Token}
    (h : e ∈ c.leafNodes f) :
    f.nodeAt e.2 = some (e.1,.nil) ∧ ∃ b ∈ e.1.blockIds, c.isPrivate b := by
  induction f generalizing e with
  | nil => simp [leafNodes] at h
  | cons u n k r hk hr =>
    obtain ⟨hu,hkw,hrw⟩ := hf
    simp only [leafNodes,List.mem_append,List.mem_map] at h
    rcases h with (h | ⟨e',he',rfl⟩) | h
    · split_ifs at h with hc
      · obtain rfl := List.mem_singleton.mp h
        exact ⟨by simp [Children.nodeAt,hc.2.2.1],by simpa using hc.2.2.2⟩
      · simp at h
    · obtain ⟨hm,hrest⟩ := hk hkw he'
      have hne : e'.2 ≠ [] := fun h0 => by simp [h0] at hm
      exact ⟨by simpa [Children.nodeAt,hne] using hm,hrest⟩
    · obtain ⟨hm,hrest⟩ := hr hrw h
      refine ⟨?_,hrest⟩
      cases hp : e.2 with
      | nil => simp [hp] at hm
      | cons t ts =>
        have hut : u ≠ t := by
          rintro rfl
          rw [hp,Children.nodeAt_none_extend hu ts] at hm
          simp at hm
        simpa [Children.nodeAt,hut,hp] using hm

section Evict

variable [Zero V]

/-- The loop of `evict` with the walks to the parents; `none` is a
`KeyError`. -/
def evictEach (needed : Nat) :
    List (RadixNode × List Token) → RadixCache V → Nat → Option (RadixCache V × Nat)
  | [], c, evicted => some (c,evicted)
  | (node,path) :: rest, c, evicted =>
      if needed ≤ evicted then some (c,evicted)
      else
        match c.tree.popLeaf path with
        | none => none
        | some t =>
            evictEach needed rest (({ c with tree := t }).releaseBlocks node.blockIds)
              (evicted+node.blockIds.length)

def evictWalked (c : RadixCache V) (needed : Nat) : Option (RadixCache V × Nat) :=
  if needed = 0 then some (c,0)
  else
    evictEach needed ((c.leafNodes c.tree).insertionSort (fun x y => x.1.refCount ≤ y.1.refCount))
      c 0

/-- One round of the loop: a leaf goes, with one reference on each page that
it lists; what nobody else refers to is free afterwards. -/
structure Unlinked (c : RadixCache V) (e : RadixNode × List Token) (c' : RadixCache V) : Prop where
  leaf : c.tree.nodeAt e.2 = some (e.1,.nil)
  tree : c'.tree = c.tree.unlink e.2
  given : ∀ b, b ∈ e.1.blockIds → (c.refs b).getD 0 = (c'.refs b).getD 0+1
  other : ∀ b, b ∉ e.1.blockIds → c'.refs b = c.refs b
  freed : ∃ b ∈ e.1.blockIds, c.refs b = some 1 ∧ c'.refs b = none ∧ b ∈ c'.free
  free : c.free ⊆ c'.free
  pages : ∀ b, c'.refs b ≠ none → c'.pages b = c.pages b

inductive Evicting : RadixCache V → List (RadixNode × List Token) → RadixCache V → Prop
  | nil (c : RadixCache V) : Evicting c [] c
  | cons {c c₁ c' : RadixCache V} {e : RadixNode × List Token}
      {gone : List (RadixNode × List Token)} (first : Unlinked c e c₁)
      (rest : Evicting c₁ gone c') : Evicting c (e :: gone) c'

theorem releaseBlock_pages (c : RadixCache V) (b x : BlockId)
    (h : (c.releaseBlock b).refs x ≠ none) : (c.releaseBlock b).pages x = c.pages x := by
  unfold releaseBlock at h ⊢
  split at h
  · rfl
  · split_ifs at h ⊢
    · have hx : x ≠ b := by rintro rfl; simp at h
      simp [hx]
    · rfl

theorem releaseBlocks_pages (c : RadixCache V) (ids : List BlockId) (x : BlockId)
    (h : (c.releaseBlocks ids).refs x ≠ none) : (c.releaseBlocks ids).pages x = c.pages x := by
  have key : ∀ (ids seen : List BlockId) (c : RadixCache V),
      (c.releaseLoop seen ids).refs x ≠ none →
        (c.releaseLoop seen ids).pages x = c.pages x := by
    intro ids
    induction ids with
    | nil => intros; rfl
    | cons b ids ih =>
      intro seen c h
      simp only [releaseLoop] at h ⊢
      split_ifs at h ⊢
      · exact ih seen c h
      · refine (ih _ _ h).trans (releaseBlock_pages c b x fun hn => h ?_)
        rw [releaseLoop_refs,hn]
        split_ifs <;> rfl
  exact key ids [] c h

omit [Zero V] in
theorem Backed.unlinked {e : RadixNode × List Token} (h : Backed c held) (hu : Unlinked c e c') :
    Backed c' held := by
  refine ⟨hu.tree ▸ h.wf.unlink e.2,fun b => ?_⟩
  have hcount := Children.count_unlink b c.tree e.2 e.1 hu.leaf
  have := h.refs b
  rw [hu.tree]
  by_cases hb : b ∈ e.1.blockIds
  · have := List.count_pos_iff.mpr hb
    have := hu.given b hb
    omega
  · rw [hu.other b hb]
    omega

theorem Backed.releaseLeaf {e : RadixNode × List Token} (h : Backed c held)
    (hleaf : c.tree.nodeAt e.2 = some (e.1,.nil)) (hone : ∃ b ∈ e.1.blockIds, c.refs b = some 1) :
    Unlinked c e (({ c with tree := c.tree.unlink e.2 }).releaseBlocks e.1.blockIds) := by
  have hrefs : ∀ b, (({ c with tree := c.tree.unlink e.2 }).releaseBlocks e.1.blockIds).refs b =
      if b ∈ e.1.blockIds then dropRef (c.refs b) else c.refs b :=
    releaseBlocks_refs e.1.blockIds { c with tree := c.tree.unlink e.2 }
  obtain ⟨b₀,hb₀,hr₀⟩ := hone
  refine ⟨hleaf,releaseBlocks_tree _ _,fun b hb => ?_,fun b hb => ?_,⟨b₀,hb₀,hr₀,?_,?_⟩,fun b hb => ?_,
    releaseBlocks_pages _ _⟩
  · have := h.refs_of_listed hleaf hb
    rw [hrefs b,if_pos hb,dropRef_getD]
    omega
  · rw [hrefs b,if_neg hb]
  · rw [hrefs b₀,if_pos hb₀,hr₀]
    rfl
  · rw [releaseBlocks_free,hrefs b₀,if_pos hb₀,hr₀]
    exact .inr ⟨by simp,rfl⟩
  · exact (releaseBlocks_free _ _ b).mpr (.inl hb)

omit [Zero V] in
/-- The nodes still to come keep their place and their private page when
another leaf goes. -/
theorem Backed.still_private {e e' : RadixNode × List Token} (h : Backed c held)
    (hu : Unlinked c e c') (hne : e'.2 ≠ e.2) (hleaf : c.tree.nodeAt e'.2 = some (e'.1,.nil))
    (hone : ∃ b ∈ e'.1.blockIds, c.refs b = some 1) :
    c'.tree.nodeAt e'.2 = some (e'.1,.nil) ∧ ∃ b ∈ e'.1.blockIds, c'.refs b = some 1 := by
  constructor
  · have hkeep := Children.nodeAt_unlink_ne h.wf hu.leaf hne
    simp only [hleaf] at hkeep
    obtain ⟨k,hk,hnil⟩ := hkeep
    rw [hu.tree,hk,hnil trivial]
  · obtain ⟨b,hb,hr⟩ := hone
    refine ⟨b,hb,?_⟩
    have hnot : b ∉ e.1.blockIds := by
      intro hmem
      have := Children.two_le_count h.wf hu.leaf hleaf hne hmem hb
      have := h.refs b
      simp only [hr,Option.getD_some] at this
      omega
    rw [hu.other b hnot,hr]

theorem Backed.evictEach {needed : Nat} {es : List (RadixNode × List Token)} {k : Nat}
    (h : Backed c held) (hn : (es.map Prod.snd).Nodup)
    (hl : ∀ e ∈ es, c.tree.nodeAt e.2 = some (e.1,.nil) ∧ ∃ b ∈ e.1.blockIds, c.refs b = some 1) :
    ∃ gone, evictEach needed es c k =
        some (evictLoop needed (es.map fun e => (e.1.refCount,e.2)) c k) ∧
      Evicting c gone (evictLoop needed (es.map fun e => (e.1.refCount,e.2)) c k).1 := by
  induction es generalizing c k with
  | nil => exact ⟨[],rfl,.nil c⟩
  | cons e es ih =>
    obtain ⟨hleaf,hone⟩ := hl e (by simp)
    simp only [List.map_cons,List.nodup_cons] at hn
    simp only [RadixCache.evictEach,List.map_cons,evictLoop]
    split_ifs
    · exact ⟨[],rfl,.nil c⟩
    · have hblocks : c.tree.blocksAt e.2 = e.1.blockIds := by simp [Children.blocksAt,hleaf]
      have hu := h.releaseLeaf hleaf hone
      rw [Children.popLeaf_eq (by simp [hleaf]),hblocks]
      simp only
      obtain ⟨gone,heq,hg⟩ := ih (k := k+e.1.blockIds.length) (h.unlinked hu) hn.2 fun e' he' => by
        obtain ⟨hleaf',hone'⟩ := hl e' (List.mem_cons_of_mem _ he')
        have hne : e'.2 ≠ e.2 := fun h0 => hn.1 (h0 ▸ List.mem_map_of_mem he')
        exact h.still_private hu hne hleaf' hone'
      exact ⟨e :: gone,heq,.cons hu hg⟩

theorem Backed.evicting (h : Backed c held) (needed : Nat) :
    ∃ gone, c.evictWalked needed = some (c.evict needed) ∧ Evicting c gone (c.evict needed).1 := by
  unfold evictWalked evict
  split_ifs
  · exact ⟨[],rfl,.nil c⟩
  · let es := (c.leafNodes c.tree).insertionSort fun x y => x.1.refCount ≤ y.1.refCount
    have hperm : es.Perm (c.leafNodes c.tree) := List.perm_insertionSort _ _
    have hsort : (c.candidates c.tree).insertionSort (fun x y => x.1 ≤ y.1) =
        es.map fun e => (e.1.refCount,e.2) := by
      rw [candidates_eq]
      exact (List.map_insertionSort (r := fun x y : RadixNode × List Token =>
        x.1.refCount ≤ y.1.refCount) (s := fun x y : Nat × List Token => x.1 ≤ y.1) _ _ fun _ _ _ _ => Iff.rfl).symm
    rw [hsort]
    refine h.evictEach ?_ fun e he => ?_
    · have hcand := candidates_nodup (c := c) h.wf
      rw [candidates_eq,List.map_map] at hcand
      exact ((hperm.map Prod.snd).nodup_iff).mpr hcand
    · obtain ⟨hleaf,b,hb,hpriv⟩ := mem_leafNodes h.wf (hperm.mem_iff.mp he)
      refine ⟨hleaf,b,hb,?_⟩
      have := h.refs_of_listed hleaf hb
      unfold isPrivate at hpriv
      cases hr : c.refs b with
      | none => simp [hr] at hpriv
      | some r =>
        simp only [hr,decide_eq_true_eq] at hpriv
        simp only [hr,Option.getD_some] at this
        rw [show r = 1 by omega]

/-- What a call leaves: the tree without the evicted leaves, one reference less
on a page for each evicted leaf that listed it, and everything that is still
referenced as it was. -/
structure Remains (c : RadixCache V) (held : BlockId → Nat) (gone : List (RadixNode × List Token))
    (c' : RadixCache V) : Prop where
  tree : ∀ q, (c'.tree.nodeAt q).map Prod.fst =
    if q ∈ gone.map Prod.snd then none else (c.tree.nodeAt q).map Prod.fst
  given : ∀ b, (c.refs b).getD 0 = (c'.refs b).getD 0+gone.countP fun e => b ∈ e.1.blockIds
  count : ∀ b, c'.tree.count b+(gone.countP fun e => b ∈ e.1.blockIds) ≤ c.tree.count b
  freed : ∀ e ∈ gone, ∃ b ∈ e.1.blockIds, c.refs b ≠ none ∧ c'.refs b = none ∧ b ∈ c'.free
  pages : ∀ b, c'.refs b ≠ none → c'.pages b = c.pages b
  external : ∀ b, 0 < held b → held b ≤ (c'.refs b).getD 0 ∧ c'.pages b = c.pages b

omit [Zero V] in
theorem Unlinked.stays_none {e : RadixNode × List Token} (hu : Unlinked c e c') {b : BlockId}
    (hb : c.refs b = none) : c'.refs b = none := by
  by_cases hm : b ∈ e.1.blockIds
  · have := hu.given b hm
    simp only [hb,Option.getD_none] at this
    omega
  · rw [hu.other b hm,hb]

omit [Zero V] in
theorem Evicting.grows {gone : List (RadixNode × List Token)} (he : Evicting c gone c') :
    c.free ⊆ c'.free ∧ ∀ b, c.refs b = none → c'.refs b = none := by
  induction he with
  | nil c => exact ⟨fun _ hb => hb,fun _ hb => hb⟩
  | cons first _ ih =>
    exact ⟨fun _ hb => ih.1 (first.free hb),fun b hb => ih.2 b (first.stays_none hb)⟩

omit [Zero V] in
theorem Backed.remains {gone : List (RadixNode × List Token)} (h : Backed c held)
    (he : Evicting c gone c') : Backed c' held ∧ Remains c held gone c' := by
  induction he with
  | nil c =>
    refine ⟨h,by simp,by simp,by simp,by simp,fun _ _ => rfl,fun b _ => ⟨?_,rfl⟩⟩
    have := h.refs b
    omega
  | @cons c c₁ c' e gone first rest ih =>
    obtain ⟨hb',hr⟩ := ih (h.unlinked first)
    obtain ⟨hfree,hnone⟩ := rest.grows
    have hpages : ∀ b, c'.refs b ≠ none → c'.pages b = c.pages b := fun b hb =>
      (hr.pages b hb).trans (first.pages b fun h0 => hb (hnone b h0))
    refine ⟨hb',fun q => ?_,fun b => ?_,fun b => ?_,fun e' he' => ?_,hpages,fun b hb => ?_⟩
    · rw [hr.tree q,first.tree,Children.payload_unlink h.wf first.leaf q]
      simp only [List.map_cons,List.mem_cons]
      by_cases hq : q = e.2
      · simp [hq]
      · simp only [hq,if_false,false_or]
    · have := hr.given b
      rw [List.countP_cons]
      by_cases hm : b ∈ e.1.blockIds
      · have := first.given b hm
        simp only [hm,decide_true,if_true]
        omega
      · rw [← first.other b hm]
        simp only [hm,decide_false,Bool.false_eq_true,if_false]
        omega
    · have := hr.count b
      have hcount := Children.count_unlink b c.tree e.2 e.1 first.leaf
      rw [first.tree] at this
      rw [List.countP_cons]
      by_cases hm : b ∈ e.1.blockIds
      · have := List.count_pos_iff.mpr hm
        simp only [hm,decide_true,if_true]
        omega
      · simp only [hm,decide_false,Bool.false_eq_true,if_false]
        omega
    · rcases List.mem_cons.mp he' with rfl | he'
      · obtain ⟨b,hb,hone,hn,hf⟩ := first.freed
        exact ⟨b,hb,by simp [hone],hnone b hn,hfree hf⟩
      · obtain ⟨b,hb,hne,hn,hf⟩ := hr.freed e' he'
        exact ⟨b,hb,fun h0 => hne (first.stays_none h0),hn,hf⟩
    · have := hb'.refs b
      refine ⟨by omega,hpages b fun h0 => ?_⟩
      simp only [h0,Option.getD_none] at this
      omega

/-- `evict` over any tree whose references are backed: it walks every path it
collected, unlinks leaves only, and leaves the rest alone. -/
theorem evict_touches (needed : Nat) (h : Backed c held) :
    ∃ gone, c.evictWalked needed = some (c.evict needed) ∧ Evicting c gone (c.evict needed).1 ∧
      Remains c held gone (c.evict needed).1 := by
  obtain ⟨gone,heq,he⟩ := h.evicting needed
  exact ⟨gone,heq,he,(h.remains he).2⟩

def twoPrompts : RadixCache Nat where
  tree := .cons 5 { refCount := 2, blockIds := [0] }
    (.cons 6 { refCount := 1, blockIds := [0,1] } .nil .nil) .nil
  refs := fun b => [2,1,1][b]?
  free := []
  next := 3
  pages := fun b _ => b+7

theorem evict_touches_twoPrompts :
    ∃ gone, twoPrompts.evictWalked 1 = some (twoPrompts.evict 1) ∧
      Evicting twoPrompts gone (twoPrompts.evict 1).1 ∧
      Remains twoPrompts (fun b => if b = 2 then 1 else 0) gone (twoPrompts.evict 1).1 := by
  refine evict_touches 1 ⟨⟨rfl,⟨rfl,trivial,trivial⟩,trivial⟩,fun b => ?_⟩
  rcases b with _ | _ | _ | b <;> simp [twoPrompts,Children.count]

end Evict

end RadixCache

end SglangLite.Kv
