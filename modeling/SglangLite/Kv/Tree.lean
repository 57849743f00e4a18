import Mathlib.Tactic
set_option autoImplicit false

namespace SglangLite.Kv

abbrev Token := Int
abbrev BlockId := Nat

/-- The payload of a `RadixNode`. Its edge label is the key under which the
parent's `children` holds it; `past_kv` and `last_logits` are only tested for
presence. -/
structure RadixNode where
  refCount : Nat := 0
  blockIds : List BlockId := []
  pastKv : Bool := false
  lastLogits : Bool := false
  deriving DecidableEq, Repr

/-- The `children` dictionary of a node, in insertion order: the first child
with its own children, then the later siblings. -/
inductive Children where
  | nil
  | cons (tid : Token) (node : RadixNode) (children rest : Children)
  deriving DecidableEq, Repr

namespace Children

/-- `RadixTree.walk` from a node and its children: the deepest node reached
and the number of tokens matched. -/
def walk (node : RadixNode) : Children → List Token → RadixNode × Nat
  | _, [] => (node,0)
  | nil, _ => (node,0)
  | cons u n k r, t :: ts =>
      if u = t then ((k.walk n ts).1,(k.walk n ts).2+1) else r.walk node (t :: ts)

def nodeAt : Children → List Token → Option (RadixNode × Children)
  | _, [] => none
  | nil, _ => none
  | cons u n k r, t :: ts =>
      if u = t then (if ts = [] then some (n,k) else k.nodeAt ts) else r.nodeAt (t :: ts)

/-- A fresh path: one new node per token, each counted once. -/
def chain : List Token → Children
  | [] => nil
  | t :: ts => cons t { refCount := 1 } (chain ts) nil

/-- `RadixTree.insert_path`: creates the missing nodes and adds one to the
`ref_count` of every node on the path. -/
def insertPath : Children → List Token → Children
  | f, [] => f
  | nil, ts => chain ts
  | cons u n k r, t :: ts =>
      if u = t then cons u { n with refCount := n.refCount+1 } (k.insertPath ts) r
      else cons u n k (r.insertPath (t :: ts))

def update (g : RadixNode → RadixNode) : Children → List Token → Children
  | f, [] => f
  | nil, _ => nil
  | cons u n k r, t :: ts =>
      if u = t then (if ts = [] then cons u (g n) k r else cons u n (k.update g ts) r)
      else cons u n k (r.update g (t :: ts))

/-- `parent.children.pop(path[-1], None)` for the parent at `path[:-1]`. -/
def unlink : Children → List Token → Children
  | f, [] => f
  | nil, _ => nil
  | cons u n k r, t :: ts =>
      if u = t then (if ts = [] then r else cons u n (k.unlink ts) r)
      else cons u n k (r.unlink (t :: ts))

def count (b : BlockId) : Children → Nat
  | nil => 0
  | cons _ n k r => n.blockIds.count b+k.count b+r.count b

/-- The pages committed at a path; `[]` where there is no node. -/
def blocksAt (f : Children) (p : List Token) : List BlockId :=
  match f.nodeAt p with
  | some (n,_) => n.blockIds
  | none => []

def WF : Children → Prop
  | nil => True
  | cons u _ k r => r.nodeAt [u] = none ∧ k.WF ∧ r.WF

@[simp] theorem nodeAt_empty (f : Children) : f.nodeAt [] = none := by
  cases f <;> rfl

@[simp] theorem nodeAt_nil (p : List Token) : nil.nodeAt p = none := by
  cases p <;> rfl

@[simp] theorem blocksAt_nil (p : List Token) : nil.blocksAt p = [] := by
  simp [blocksAt]

theorem blocksAt_empty (f : Children) : f.blocksAt [] = [] := by simp [blocksAt]

theorem blocksAt_cons (u : Token) (n : RadixNode) (k r : Children) (t : Token) (ts : List Token) :
    (cons u n k r).blocksAt (t :: ts) =
      if u = t then (if ts = [] then n.blockIds else k.blocksAt ts) else r.blocksAt (t :: ts) := by
  simp only [blocksAt,nodeAt]
  split_ifs <;> rfl

theorem blocksAt_chain (ts p : List Token) : (chain ts).blocksAt p = [] := by
  induction ts generalizing p with
  | nil => simp [chain]
  | cons t ts ih =>
    cases p with
    | nil => exact blocksAt_empty _
    | cons s ss => rw [chain,blocksAt_cons]; simp [ih]

theorem count_chain (b : BlockId) (ts : List Token) : (chain ts).count b = 0 := by
  induction ts with
  | nil => rfl
  | cons t ts ih => simp [chain,count,ih]

theorem blocksAt_insertPath (f : Children) (q p : List Token) :
    (f.insertPath q).blocksAt p = f.blocksAt p := by
  induction f generalizing q p with
  | nil =>
    cases q with
    | nil => rfl
    | cons t ts => simpa [insertPath] using blocksAt_chain (t :: ts) p
  | cons u n k r hk hr =>
    cases q with
    | nil => rfl
    | cons t ts =>
      cases p with
      | nil => simp only [blocksAt_empty]
      | cons s ss =>
        simp only [insertPath]
        split_ifs with hut
        · simp only [blocksAt_cons,hk]
        · simp only [blocksAt_cons,hr]

theorem count_insertPath (b : BlockId) (f : Children) (q : List Token) :
    (f.insertPath q).count b = f.count b := by
  induction f generalizing q with
  | nil =>
    cases q with
    | nil => rfl
    | cons t ts => simpa [insertPath,count] using count_chain b (t :: ts)
  | cons u n k r hk hr =>
    cases q with
    | nil => rfl
    | cons t ts =>
      simp only [insertPath]
      split_ifs
      · simp only [count,hk]
      · simp only [count,hr]

theorem nodeAt_insertPath_self (f : Children) (q : List Token) (hq : q ≠ []) :
    ∃ n k, (f.insertPath q).nodeAt q = some (n,k) ∧ n.blockIds = f.blocksAt q := by
  have hb := blocksAt_insertPath f q q
  suffices h : (f.insertPath q).nodeAt q ≠ none by
    obtain ⟨⟨n,k⟩,hn⟩ := Option.ne_none_iff_exists'.mp h
    exact ⟨n,k,hn,by simpa [blocksAt,hn] using hb⟩
  clear hb
  have chain_ne : ∀ ts : List Token, ts ≠ [] → (chain ts).nodeAt ts ≠ none := by
    intro ts
    induction ts with
    | nil => simp
    | cons t ts ih =>
      intro _
      by_cases hts : ts = []
      · simp [chain,nodeAt,hts]
      · simpa [chain,nodeAt,hts] using ih hts
  induction f generalizing q with
  | nil =>
    cases q with
    | nil => exact absurd rfl hq
    | cons t ts => simpa [insertPath] using chain_ne (t :: ts) hq
  | cons u n k r hk hr =>
    cases q with
    | nil => exact absurd rfl hq
    | cons t ts =>
      simp only [insertPath]
      split_ifs with hut
      · by_cases hts : ts = []
        · simp [nodeAt,hut,hts]
        · simpa [nodeAt,hut,hts] using hk ts hts
      · simpa [nodeAt,hut] using hr (t :: ts) hq

theorem blocksAt_update (f : Children) (p q : List Token) (g : RadixNode → RadixNode)
    (n : RadixNode) (k : Children) (h : f.nodeAt p = some (n,k)) :
    (f.update g p).blocksAt q = if q = p then (g n).blockIds else f.blocksAt q := by
  induction f generalizing p q with
  | nil => simp at h
  | cons u m k' r hk hr =>
    cases p with
    | nil => simp at h
    | cons t ts =>
      cases q with
      | nil => simp [blocksAt_empty]
      | cons s ss =>
        simp only [nodeAt] at h
        by_cases hut : u = t
        · by_cases hts : ts = []
          · simp only [hut,hts,if_true,Option.some.injEq,Prod.mk.injEq] at h
            simp only [update,hut,hts,if_true,blocksAt_cons,List.cons.injEq,h.1]
            rcases eq_or_ne t s with rfl | hs
            · by_cases hss : ss = [] <;> simp [hss]
            · simp [hs,hs.symm]
          · simp only [hut,hts,if_true,if_false] at h
            have ih := hk ts ss h
            simp only [update,hut,hts,if_true,if_false,blocksAt_cons,List.cons.injEq,ih]
            rcases eq_or_ne t s with rfl | hs
            · by_cases hss : ss = []
              · simp [hss,Ne.symm hts]
              · simp [hss]
            · simp [hs,hs.symm]
        · simp only [hut,if_false] at h
          have ih := hr (t :: ts) (s :: ss) h
          simp only [update,hut,if_false,blocksAt_cons,List.cons.injEq] at ih ⊢
          by_cases hus : u = s
          · have hst : s ≠ t := fun e => hut (hus.trans e)
            simp [hus,hst]
          · simp [hus,ih]

theorem count_update (b : BlockId) (f : Children) (p : List Token) (g : RadixNode → RadixNode)
    (n : RadixNode) (k : Children) (h : f.nodeAt p = some (n,k)) :
    (f.update g p).count b+n.blockIds.count b = f.count b+(g n).blockIds.count b := by
  induction f generalizing p with
  | nil => simp at h
  | cons u m k' r hk hr =>
    cases p with
    | nil => simp at h
    | cons t ts =>
      simp only [nodeAt] at h
      by_cases hut : u = t
      · by_cases hts : ts = []
        · simp only [hut,hts,if_true,Option.some.injEq,Prod.mk.injEq] at h
          simp only [update,hut,hts,if_true,count,h.1]
          omega
        · simp only [hut,hts,if_true,if_false] at h
          have ih := hk ts h
          simp only [update,hut,hts,if_true,if_false,count]
          omega
      · simp only [hut,if_false] at h
        have ih := hr (t :: ts) h
        simp only [update,hut,if_false,count]
        omega

/-- Unlinking a leaf takes its page list out of the tree and no other. -/
theorem count_unlink (b : BlockId) (f : Children) (p : List Token) (n : RadixNode)
    (h : f.nodeAt p = some (n,nil)) :
    (f.unlink p).count b+n.blockIds.count b = f.count b := by
  induction f generalizing p with
  | nil => simp at h
  | cons u m k' r hk hr =>
    cases p with
    | nil => simp at h
    | cons t ts =>
      simp only [nodeAt] at h
      by_cases hut : u = t
      · by_cases hts : ts = []
        · simp only [hut,hts,if_true,Option.some.injEq,Prod.mk.injEq] at h
          simp only [unlink,hut,hts,if_true,count,h.1,h.2]
          omega
        · simp only [hut,hts,if_true,if_false] at h
          have ih := hk ts h
          simp only [unlink,hut,hts,if_true,if_false,count]
          omega
      · simp only [hut,if_false] at h
        have ih := hr (t :: ts) h
        simp only [unlink,hut,if_false,count]
        omega

theorem mem_blocksAt_count {b : BlockId} {f : Children} {p : List Token}
    (h : b ∈ f.blocksAt p) : 0 < f.count b := by
  induction f generalizing p with
  | nil => simp at h
  | cons u n k r hk hr =>
    cases p with
    | nil => simp [blocksAt_empty] at h
    | cons t ts =>
      rw [blocksAt_cons] at h
      simp only [count]
      split_ifs at h with hut hts
      · have := List.count_pos_iff.mpr h
        omega
      · have := hk h
        omega
      · have := hr h
        omega

theorem WF.insertPath {f : Children} (hf : f.WF) (q : List Token) : (f.insertPath q).WF := by
  have chain_wf : ∀ ts : List Token, (chain ts).WF := by
    intro ts
    induction ts with
    | nil => trivial
    | cons t ts ih => exact ⟨rfl,ih,trivial⟩
  have single : ∀ (f : Children) (q : List Token) (u : Token), q.head? ≠ some u →
      f.nodeAt [u] = none → (f.insertPath q).nodeAt [u] = none := by
    intro f
    induction f with
    | nil =>
      intro q u hq _
      cases q with
      | nil => rfl
      | cons t ts =>
        have : t ≠ u := by simpa using hq
        simp [Children.insertPath,chain,nodeAt,this]
    | cons v n k r _ hr =>
      intro q u hq h
      cases q with
      | nil => exact h
      | cons t ts =>
        have htu : t ≠ u := by simpa using hq
        by_cases hvu : v = u
        · simp [nodeAt,hvu] at h
        · simp only [nodeAt,hvu,if_false] at h
          simp only [Children.insertPath]
          split_ifs with hvt
          · simpa [nodeAt,hvu] using h
          · simpa [nodeAt,hvu] using hr (t :: ts) u hq h
  induction f generalizing q with
  | nil =>
    cases q with
    | nil => trivial
    | cons t ts => exact chain_wf (t :: ts)
  | cons u n k r hk hr =>
    cases q with
    | nil => exact hf
    | cons t ts =>
      obtain ⟨hu,hkw,hrw⟩ := hf
      simp only [Children.insertPath]
      split_ifs with hut
      · exact ⟨hu,hk hkw ts,hrw⟩
      · exact ⟨single r (t :: ts) u (by simpa using fun e => hut e.symm) hu,hkw,hr hrw (t :: ts)⟩

theorem nodeAt_single_update (f : Children) (p : List Token) (g : RadixNode → RadixNode)
    (u : Token) (h : f.nodeAt [u] = none) : (f.update g p).nodeAt [u] = none := by
  induction f with
  | nil => cases p <;> simp [update]
  | cons v n k r _ hr =>
    cases p with
    | nil => exact h
    | cons t ts =>
      by_cases hvu : v = u
      · simp [nodeAt,hvu] at h
      · simp only [nodeAt,hvu,if_false] at h
        simp only [update]
        split_ifs <;> simp [nodeAt,hvu,h]
        exact hr h

theorem WF.update {f : Children} (hf : f.WF) (p : List Token) (g : RadixNode → RadixNode) :
    (f.update g p).WF := by
  induction f generalizing p with
  | nil => cases p <;> trivial
  | cons u n k r hk hr =>
    cases p with
    | nil => exact hf
    | cons t ts =>
      obtain ⟨hu,hkw,hrw⟩ := hf
      simp only [Children.update]
      split_ifs
      · exact ⟨hu,hkw,hrw⟩
      · exact ⟨hu,hk hkw ts,hrw⟩
      · exact ⟨nodeAt_single_update r _ g u hu,hkw,hr hrw (t :: ts)⟩

theorem nodeAt_single_unlink (f : Children) (p : List Token) (hf : f.WF)
    (u : Token) (h : f.nodeAt [u] = none) : (f.unlink p).nodeAt [u] = none := by
  induction f with
  | nil => cases p <;> simp [unlink]
  | cons v n k r _ hr =>
    cases p with
    | nil => exact h
    | cons t ts =>
      by_cases hvu : v = u
      · simp [nodeAt,hvu] at h
      · simp only [nodeAt,hvu,if_false] at h
        simp only [unlink]
        split_ifs <;> simp [nodeAt,hvu,h]
        exact hr hf.2.2 h

theorem WF.unlink {f : Children} (hf : f.WF) (p : List Token) : (f.unlink p).WF := by
  induction f generalizing p with
  | nil => cases p <;> trivial
  | cons u n k r hk hr =>
    cases p with
    | nil => exact hf
    | cons t ts =>
      obtain ⟨hu,hkw,hrw⟩ := hf
      simp only [Children.unlink]
      split_ifs
      · exact hrw
      · exact ⟨hu,hk hkw ts,hrw⟩
      · exact ⟨nodeAt_single_unlink r _ hrw u hu,hkw,hr hrw (t :: ts)⟩

theorem nodeAt_none_extend {f : Children} {u : Token} (h : f.nodeAt [u] = none)
    (ts : List Token) : f.nodeAt (u :: ts) = none := by
  induction f with
  | nil => simp
  | cons v n k r _ hr =>
    by_cases hvu : v = u
    · simp [nodeAt,hvu] at h
    · simp only [nodeAt,hvu,if_false] at h ⊢
      exact hr h

/-- Away from the unlinked leaf every node keeps its payload, and no leaf
gains children. -/
theorem nodeAt_unlink_ne {f : Children} (hf : f.WF) {p q : List Token} {n : RadixNode}
    (hp : f.nodeAt p = some (n,nil)) (hqp : q ≠ p) :
    match f.nodeAt q with
    | none => (f.unlink p).nodeAt q = none
    | some (m,k) => ∃ k', (f.unlink p).nodeAt q = some (m,k') ∧ (k = nil → k' = nil) := by
  induction f generalizing p q with
  | nil => simp at hp
  | cons u m k r hk hr =>
    obtain ⟨hu,hkw,hrw⟩ := hf
    cases p with
    | nil => simp at hp
    | cons t ts =>
      cases q with
      | nil => simp
      | cons s ss =>
        simp only [nodeAt] at hp
        by_cases hut : u = t
        · by_cases hts : ts = []
          · simp only [hut,hts,if_true,Option.some.injEq,Prod.mk.injEq] at hp
            simp only [unlink,hut,hts,if_true]
            by_cases hts' : t = s
            · have hss : ss ≠ [] := fun e => hqp (by rw [hts',e,hts])
              simp only [nodeAt,hts',hss,hp.2,if_true,if_false,nodeAt_nil]
              exact nodeAt_none_extend (hts' ▸ hut ▸ hu) ss
            · simp only [nodeAt,hts',if_false]
              cases r.nodeAt (s :: ss) with
              | none => rfl
              | some e => exact ⟨e.2,rfl,id⟩
          · simp only [hut,hts,if_true,if_false] at hp
            simp only [unlink,hut,hts,if_true,if_false,nodeAt]
            by_cases hts' : t = s
            · by_cases hss : ss = []
              · simp only [hts',hss,if_true]
                refine ⟨_,rfl,fun e => ?_⟩
                simp [e] at hp
              · have hne : ss ≠ ts := fun e => hqp (by rw [hts',e])
                simp only [hts',hss,if_true,if_false]
                exact hk hkw hp hne
            · simp only [hts',if_false]
              cases r.nodeAt (s :: ss) with
              | none => rfl
              | some e => exact ⟨e.2,rfl,id⟩
        · simp only [hut,if_false] at hp
          simp only [unlink,hut,if_false,nodeAt]
          by_cases hus : u = s
          · by_cases hss : ss = []
            · simp only [hus,hss,if_true]
              exact ⟨k,rfl,id⟩
            · simp only [hus,hss,if_true,if_false]
              cases k.nodeAt ss with
              | none => rfl
              | some e => exact ⟨e.2,rfl,id⟩
          · simp only [hus,if_false]
            exact hr hrw hp hqp

theorem nodeAt_unlink_self {f : Children} (hf : f.WF) {p : List Token} {n : RadixNode}
    (hp : f.nodeAt p = some (n,nil)) : (f.unlink p).nodeAt p = none := by
  induction f generalizing p with
  | nil => simp at hp
  | cons u m k r hk hr =>
    obtain ⟨hu,hkw,hrw⟩ := hf
    cases p with
    | nil => simp at hp
    | cons t ts =>
      simp only [nodeAt] at hp
      by_cases hut : u = t
      · by_cases hts : ts = []
        · simp only [unlink,hut,hts,if_true]
          exact hut ▸ hu
        · simp only [hut,hts,if_true,if_false] at hp
          simpa [unlink,nodeAt,hut,hts] using hk hkw hp
      · simp only [hut,if_false] at hp
        simpa [unlink,nodeAt,hut] using hr hrw hp

theorem blocksAt_unlink {f : Children} (hf : f.WF) {p : List Token} {n : RadixNode}
    (hp : f.nodeAt p = some (n,nil)) (q : List Token) :
    (f.unlink p).blocksAt q = if q = p then [] else f.blocksAt q := by
  split_ifs with hqp
  · simp [blocksAt,hqp,nodeAt_unlink_self hf hp]
  · have h := nodeAt_unlink_ne hf hp hqp
    cases hq : f.nodeAt q with
    | none => simp only [hq] at h; simp [blocksAt,h,hq]
    | some e =>
      simp only [hq] at h
      obtain ⟨k',hk',_⟩ := h
      simp [blocksAt,hk',hq]

theorem nodeAt_insertPath_of_not_prefix (f : Children) (p q : List Token) (h : ¬ p <+: q) :
    (f.insertPath q).nodeAt p = f.nodeAt p := by
  have chain_none : ∀ (ts p : List Token), ¬ p <+: ts → (chain ts).nodeAt p = none := by
    intro ts
    induction ts with
    | nil => simp [chain]
    | cons t ts ih =>
      intro p hp
      cases p with
      | nil => simp
      | cons s ss =>
        by_cases hts : t = s
        · have hss : ss ≠ [] := fun e => hp (by simp [hts,e])
          have : ¬ ss <+: ts := fun e => hp (by simpa [hts] using e)
          simp [chain,nodeAt,hts,hss,ih ss this]
        · simp [chain,nodeAt,hts]
  induction f generalizing p q with
  | nil =>
    cases q with
    | nil => rfl
    | cons t ts => simpa [insertPath] using chain_none (t :: ts) p h
  | cons u n k r hk hr =>
    cases q with
    | nil => rfl
    | cons t ts =>
      cases p with
      | nil => simp
      | cons s ss =>
        simp only [insertPath]
        by_cases hut : u = t
        · by_cases hus : u = s
          · have hss : ss ≠ [] := fun e => h (by simp [← hus,hut,e])
            have : ¬ ss <+: ts := fun e => h (by simpa [← hus,hut] using e)
            simp [nodeAt,hut,← hus,hss,hk ss ts this]
          · simp [nodeAt,hut,hut ▸ hus]
        · by_cases hus : u = s
          · simp [nodeAt,hut,← hus]
          · simpa [nodeAt,hut,hus] using hr (s :: ss) (t :: ts) h

/-- A path that had no node gets one that was counted once and has no child. -/
theorem nodeAt_insertPath_fresh (f : Children) (q : List Token) (hq : q ≠ [])
    (h : f.nodeAt q = none) :
    (f.insertPath q).nodeAt q = some ({ refCount := 1 },nil) := by
  have chain_self : ∀ ts : List Token, ts ≠ [] →
      (chain ts).nodeAt ts = some ({ refCount := 1 },nil) := by
    intro ts
    induction ts with
    | nil => simp
    | cons t ts ih =>
      intro _
      by_cases hts : ts = []
      · simp [chain,nodeAt,hts]
      · simpa [chain,nodeAt,hts] using ih hts
  induction f generalizing q with
  | nil =>
    cases q with
    | nil => exact absurd rfl hq
    | cons t ts => simpa [insertPath] using chain_self (t :: ts) hq
  | cons u n k r hk hr =>
    cases q with
    | nil => exact absurd rfl hq
    | cons t ts =>
      simp only [nodeAt] at h
      by_cases hut : u = t
      · by_cases hts : ts = []
        · simp [hut,hts] at h
        · simp only [hut,hts,if_true,if_false] at h
          simpa [insertPath,nodeAt,hut,hts] using hk ts hts h
      · simp only [hut,if_false] at h
        simpa [insertPath,nodeAt,hut] using hr (t :: ts) hq h

theorem update_eq_nil {f : Children} {g : RadixNode → RadixNode} {p : List Token} :
    f.update g p = nil ↔ f = nil := by
  cases f with
  | nil => cases p <;> simp [update]
  | cons u n k r =>
    cases p with
    | nil => simp [update]
    | cons t ts => simp only [update]; split_ifs <;> simp

theorem update_of_none {f : Children} {p : List Token} {g : RadixNode → RadixNode}
    (h : f.nodeAt p = none) : f.update g p = f := by
  induction f generalizing p with
  | nil => cases p <;> rfl
  | cons u n k r hk hr =>
    cases p with
    | nil => rfl
    | cons t ts =>
      simp only [nodeAt] at h
      by_cases hut : u = t
      · by_cases hts : ts = []
        · simp [hut,hts] at h
        · simp only [hut,hts,if_true,if_false] at h
          simp [update,hut,hts,hk h]
      · simp only [hut,if_false] at h
        simp [update,hut,hr h]

theorem nodeAt_update_self (f : Children) (p : List Token) (g : RadixNode → RadixNode)
    {n : RadixNode} {k : Children} (h : f.nodeAt p = some (n,k)) :
    (f.update g p).nodeAt p = some (g n,k) := by
  induction f generalizing p with
  | nil => simp at h
  | cons u m k' r hk hr =>
    cases p with
    | nil => simp at h
    | cons t ts =>
      simp only [nodeAt] at h
      by_cases hut : u = t
      · by_cases hts : ts = []
        · simp only [hut,hts,if_true,Option.some.injEq,Prod.mk.injEq] at h
          simp [update,nodeAt,hut,hts,h]
        · simp only [hut,hts,if_true,if_false] at h
          simpa [update,nodeAt,hut,hts] using hk ts h
      · simp only [hut,if_false] at h
        simpa [update,nodeAt,hut] using hr (t :: ts) h

theorem nodeAt_update_ne (f : Children) (p q : List Token) (g : RadixNode → RadixNode)
    (hqp : q ≠ p) :
    match f.nodeAt q with
    | none => (f.update g p).nodeAt q = none
    | some (m,k) => ∃ k', (f.update g p).nodeAt q = some (m,k') ∧ (k' = nil ↔ k = nil) := by
  induction f generalizing p q with
  | nil => cases p <;> simp [update]
  | cons u m k r hk hr =>
    cases p with
    | nil =>
      cases hq : (cons u m k r).nodeAt q with
      | none => exact hq
      | some e => exact ⟨e.2,hq,Iff.rfl⟩
    | cons t ts =>
      cases q with
      | nil => simp
      | cons s ss =>
        simp only [update,nodeAt]
        by_cases hut : u = t
        · by_cases hts : ts = []
          · simp only [hut,hts,if_true,nodeAt]
            by_cases hs : t = s
            · have hss : ss ≠ [] := fun e => hqp (by rw [hs,e,hts])
              simp only [hs,hss,if_true,if_false]
              cases k.nodeAt ss with
              | none => rfl
              | some e => exact ⟨e.2,rfl,Iff.rfl⟩
            · simp only [hs,if_false]
              cases r.nodeAt (s :: ss) with
              | none => rfl
              | some e => exact ⟨e.2,rfl,Iff.rfl⟩
          · simp only [hut,hts,if_true,if_false,nodeAt]
            by_cases hs : t = s
            · by_cases hss : ss = []
              · simp only [hs,hss,if_true]
                exact ⟨_,rfl,update_eq_nil⟩
              · have hne : ss ≠ ts := fun e => hqp (by rw [hs,e])
                simp only [hs,hss,if_true,if_false]
                exact hk ts ss hne
            · simp only [hs,if_false]
              cases r.nodeAt (s :: ss) with
              | none => rfl
              | some e => exact ⟨e.2,rfl,Iff.rfl⟩
        · simp only [hut,if_false,nodeAt]
          by_cases hs : u = s
          · by_cases hss : ss = []
            · simp only [hs,hss,if_true]
              exact ⟨k,rfl,Iff.rfl⟩
            · simp only [hs,hss,if_true,if_false]
              cases k.nodeAt ss with
              | none => rfl
              | some e => exact ⟨e.2,rfl,Iff.rfl⟩
          · simp only [hs,if_false]
            exact hr (t :: ts) (s :: ss) hqp

theorem exists_blocksAt {f : Children} (hf : f.WF) {b : BlockId} (h : 0 < f.count b) :
    ∃ p, b ∈ f.blocksAt p := by
  induction f with
  | nil => simp [count] at h
  | cons u n k r hk hr =>
    obtain ⟨hu,hkw,hrw⟩ := hf
    simp only [count] at h
    by_cases hn : 0 < n.blockIds.count b
    · exact ⟨[u],by simpa [blocksAt_cons] using List.count_pos_iff.mp hn⟩
    by_cases hkc : 0 < k.count b
    · obtain ⟨p,hp⟩ := hk hkw hkc
      have hne : p ≠ [] := by rintro rfl; simp [blocksAt_empty] at hp
      exact ⟨u :: p,by simpa [blocksAt_cons,hne] using hp⟩
    · obtain ⟨p,hp⟩ := hr hrw (by omega)
      cases p with
      | nil => simp [blocksAt_empty] at hp
      | cons t ts =>
        have hut : u ≠ t := by
          rintro rfl
          simp [blocksAt,nodeAt_none_extend hu ts] at hp
        exact ⟨t :: ts,by simpa [blocksAt_cons,hut] using hp⟩

def NoPast (f : Children) : Prop := ∀ p n k, f.nodeAt p = some (n,k) → n.pastKv = false

theorem nodeAt_chain {ts p : List Token} {n : RadixNode} {k : Children}
    (h : (chain ts).nodeAt p = some (n,k)) : n = { refCount := 1 } := by
  induction ts generalizing p with
  | nil => simp [chain] at h
  | cons t ts ih =>
    cases p with
    | nil => simp at h
    | cons v vs =>
      simp only [chain,nodeAt] at h
      split_ifs at h
      · simp only [Option.some.injEq,Prod.mk.injEq] at h
        exact h.1.symm
      · exact ih h

theorem NoPast.insertPath {f : Children} (hf : f.NoPast) (q : List Token) :
    (f.insertPath q).NoPast := by
  suffices key : ∀ (f : Children) (q p : List Token) (n : RadixNode) (k : Children),
      (f.insertPath q).nodeAt p = some (n,k) →
      n.pastKv = false ∨ ∃ n₀ k₀, f.nodeAt p = some (n₀,k₀) ∧ n.pastKv = n₀.pastKv by
    intro p n k hn
    rcases key f q p n k hn with h | ⟨n₀,k₀,h₀,h⟩
    · exact h
    · rw [h]; exact hf p n₀ k₀ h₀
  intro f
  induction f with
  | nil =>
    intro q p n k h
    cases q with
    | nil => simp [Children.insertPath] at h
    | cons t ts => exact .inl (by rw [nodeAt_chain h])
  | cons u m k' r hk hr =>
    intro q p n k h
    cases q with
    | nil => exact .inr ⟨n,k,h,rfl⟩
    | cons t ts =>
      cases p with
      | nil => simp at h
      | cons v vs =>
        simp only [Children.insertPath] at h
        by_cases hut : u = t
        · rw [if_pos hut] at h
          simp only [nodeAt] at h ⊢
          by_cases huv : u = v
          · simp only [if_pos huv] at h ⊢
            by_cases hvs : vs = []
            · simp only [if_pos hvs,Option.some.injEq,Prod.mk.injEq] at h ⊢
              exact .inr ⟨m,k',⟨rfl,rfl⟩,by rw [← h.1]⟩
            · simp only [if_neg hvs] at h ⊢
              exact hk ts vs n k h
          · simp only [if_neg huv] at h ⊢
            exact .inr ⟨n,k,h,rfl⟩
        · rw [if_neg hut] at h
          simp only [nodeAt] at h ⊢
          by_cases huv : u = v
          · simp only [if_pos huv] at h ⊢
            exact .inr ⟨n,k,h,rfl⟩
          · simp only [if_neg huv] at h ⊢
            exact hr (t :: ts) (v :: vs) n k h

theorem NoPast.update {f : Children} (hf : f.NoPast) {g : RadixNode → RadixNode}
    (hg : ∀ n, n.pastKv = false → (g n).pastKv = false) (p : List Token) :
    (f.update g p).NoPast := by
  intro q n k hn
  by_cases hqp : q = p
  · subst hqp
    cases hq : f.nodeAt q with
    | none =>
      rw [update_of_none hq,hq] at hn
      simp at hn
    | some e =>
      rw [nodeAt_update_self f q g hq] at hn
      obtain ⟨rfl,_⟩ := Prod.mk.inj (Option.some.inj hn)
      exact hg e.1 (hf q e.1 e.2 hq)
  · have h := nodeAt_update_ne f p q g hqp
    cases hq : f.nodeAt q with
    | none =>
      simp only [hq] at h
      rw [h] at hn
      simp at hn
    | some e =>
      simp only [hq] at h
      obtain ⟨k',hk',_⟩ := h
      rw [hk'] at hn
      obtain ⟨rfl,_⟩ := Prod.mk.inj (Option.some.inj hn)
      exact hf q e.1 e.2 hq

theorem walk_spec (root : RadixNode) (f : Children) (q : List Token) :
    (f.walk root q).2 ≤ q.length ∧
      if (f.walk root q).2 = 0 then (f.walk root q).1 = root
      else ∃ k, f.nodeAt (q.take (f.walk root q).2) = some ((f.walk root q).1,k) := by
  induction f generalizing root q with
  | nil => cases q <;> simp [walk]
  | cons u n k r hk hr =>
    cases q with
    | nil => simp [walk]
    | cons t ts =>
      simp only [walk]
      by_cases hut : u = t
      · obtain ⟨hle,hnode⟩ := hk n ts
        simp only [hut,if_true,List.length_cons,Nat.add_eq_zero_iff,one_ne_zero,and_false,
          if_false,List.take_succ_cons,nodeAt]
        refine ⟨by omega,?_⟩
        by_cases hz : (k.walk n ts).2 = 0
        · simp only [hz,if_true] at hnode
          simp [hz,hnode]
        · simp only [hz,if_false] at hnode
          have hne : ts.take (k.walk n ts).2 ≠ [] := by
            cases ts with
            | nil => simp only [List.length_nil,Nat.le_zero] at hle; exact absurd hle hz
            | cons s ss => simp [hz]
          simpa [hne] using hnode
      · simp only [hut,if_false]
        obtain ⟨hle,hnode⟩ := hr root (t :: ts)
        refine ⟨hle,?_⟩
        split_ifs with hz
        · simpa [hz] using hnode
        · simp only [hz,if_false] at hnode
          obtain ⟨k',hk'⟩ := hnode
          refine ⟨k',?_⟩
          obtain ⟨m,hm⟩ := Nat.exists_eq_succ_of_ne_zero hz
          rw [hm] at hk' ⊢
          simpa [nodeAt,hut] using hk'

end Children

end SglangLite.Kv
