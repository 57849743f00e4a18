import SglangLite.Kv.Clients
import SglangLite.Sched.Scheduler

set_option autoImplicit false

namespace SglangLite.Kv

/-- What a call of `walk` takes on the stack besides its own frame: `visit` at
every node, for the method calls, and `leaf` at a leaf with pages, whose list
comprehension may have a frame. Both are 0 from CPython 3.12 on; earlier
versions count the frame of a comprehension and calls of built-in methods. -/
structure StackCost where
  visit : Nat
  leaf : Nat
  le : visit ≤ leaf

def StackCost.charge (w : StackCost) (n : RadixNode) (k : Children) : Nat :=
  if n.blockIds ≠ [] ∧ n.refCount ≤ 1 ∧ k = .nil then w.leaf else w.visit

namespace Children

variable {w : StackCost} {f : Children}

theorem visit_le_charge (n : RadixNode) (k : Children) : w.visit ≤ w.charge n k := by
  unfold StackCost.charge
  split_ifs
  · exact w.le
  · exact Nat.le_refl _

/-- A node with children has no comprehension, and neither has a node that more
than one prompt inserted. -/
theorem charge_eq_visit {n : RadixNode} {k : Children} (h : n.blockIds ≠ [] → k = nil → 2 ≤ n.refCount) :
    w.charge n k = w.visit := by
  unfold StackCost.charge
  rw [if_neg]
  rintro ⟨hb,hr,hk⟩
  have := h hb hk
  omega

def tall (w : StackCost) : Children → Nat
  | nil => 0
  | cons _ n k r => max (max (w.charge n k) (k.tall w)+1) (r.tall w)

/-- Every node was inserted, and one with pages and children by two prompts. -/
def Tallied : Children → Prop
  | nil => True
  | cons _ n k r => 1 ≤ n.refCount ∧ (n.blockIds ≠ [] → k ≠ nil → 2 ≤ n.refCount) ∧ k.Tallied ∧ r.Tallied

theorem insertPath_eq_nil (q : List Token) (h : f.insertPath q = nil) : f = nil := by
  cases f with
  | nil => rfl
  | cons u n k r =>
    cases q with
    | nil => cases h
    | cons t ts =>
      simp only [insertPath] at h
      split_ifs at h

@[simp] theorem unlink_nil (q : List Token) : nil.unlink q = nil := by
  cases q <;> rfl

theorem tall_chain (ts : List Token) : (chain ts).tall w ≤ ts.length+w.visit := by
  induction ts with
  | nil => simp [chain,tall]
  | cons t ts ih =>
    have hat : w.charge { refCount := 1 } (chain ts) = w.visit := charge_eq_visit fun h => absurd rfl h
    simp only [chain,tall,hat,List.length_cons]
    omega

theorem tallied_chain (ts : List Token) : (chain ts).Tallied := by
  induction ts with
  | nil => trivial
  | cons t ts ih => exact ⟨Nat.le_refl _,fun h => absurd rfl h,ih,trivial⟩

/-- The new nodes have no pages, and no node of the path gets a comprehension. -/
theorem tall_insertPath (f : Children) (q : List Token) :
    (f.insertPath q).tall w ≤ max (f.tall w) (q.length+w.visit) := by
  induction f generalizing q with
  | nil =>
    cases q with
    | nil => simp [insertPath,tall]
    | cons t ts => exact (tall_chain (t :: ts)).trans (Nat.le_max_right _ _)
  | cons u n k r hk hr =>
    cases q with
    | nil => exact Nat.le_max_left _ _
    | cons t ts =>
      simp only [insertPath]
      split_ifs
      · have hat : w.charge { n with refCount := n.refCount+1 } (k.insertPath ts) ≤ w.charge n k := by
          unfold StackCost.charge
          split_ifs with h1 h2
          · exact Nat.le_refl _
          · exact absurd ⟨h1.1,by have := h1.2.1; simp only at this; omega,insertPath_eq_nil ts h1.2.2⟩ h2
          · exact w.le
          · exact Nat.le_refl _
        have := hk ts
        simp only [tall,List.length_cons]
        omega
      · have := hr (t :: ts)
        simp only [tall]
        omega

theorem Tallied.insertPath (h : f.Tallied) (q : List Token) : (f.insertPath q).Tallied := by
  induction f generalizing q with
  | nil =>
    cases q with
    | nil => trivial
    | cons t ts => exact tallied_chain (t :: ts)
  | cons u n k r hk hr =>
    cases q with
    | nil => exact h
    | cons t ts =>
      obtain ⟨h1,h2,h3,h4⟩ := h
      simp only [Children.insertPath]
      split_ifs
      · exact ⟨Nat.le_succ_of_le h1,fun _ _ => Nat.succ_le_succ h1,hk h3 ts,h4⟩
      · exact ⟨h1,h2,h3,hr h4 (t :: ts)⟩

theorem Tallied.twice (h : f.Tallied) {q : List Token} {n : RadixNode} {k : Children}
    (hold : f.nodeAt q ≠ none) (hn : (f.insertPath q).nodeAt q = some (n,k)) : 2 ≤ n.refCount := by
  induction f generalizing q with
  | nil => simp at hold
  | cons u m k' r hk hr =>
    cases q with
    | nil => simp at hold
    | cons t ts =>
      obtain ⟨h1,_,h3,h4⟩ := h
      simp only [nodeAt] at hold
      simp only [Children.insertPath] at hn
      split_ifs at hn hold with hut hts
      · simp only [nodeAt,hut,hts,if_true] at hn
        obtain ⟨rfl,_⟩ := Prod.mk.inj (Option.some.inj hn)
        exact Nat.succ_le_succ h1
      · simp only [nodeAt,hut,hts,if_true,if_false] at hn
        exact hk h3 hold hn
      · simp only [nodeAt,hut,if_false] at hn
        exact hr h4 hold hn

theorem tall_update {g : RadixNode → RadixNode} {p : List Token} {x : Nat}
    (h : ∀ n k, f.nodeAt p = some (n,k) → w.charge (g n) k ≤ x) :
    (f.update g p).tall w ≤ max (f.tall w) (p.length+x) := by
  induction f generalizing p with
  | nil =>
    rw [update_eq_nil.mpr rfl]
    exact Nat.zero_le _
  | cons u n k r hk hr =>
    cases p with
    | nil => exact Nat.le_max_left _ _
    | cons t ts =>
      simp only [nodeAt] at h
      simp only [update]
      split_ifs at h ⊢ with hut hts
      · have := h n k rfl
        simp only [tall,List.length_cons]
        omega
      · have hat : w.charge n (k.update g ts) = w.charge n k := by
          simp only [StackCost.charge,update_eq_nil]
        have := hk h
        simp only [tall,hat,List.length_cons]
        omega
      · have := hr h
        simp only [tall]
        omega

theorem Tallied.update (h : f.Tallied) {g : RadixNode → RadixNode} {p : List Token}
    (hg : ∀ n k, f.nodeAt p = some (n,k) → 1 ≤ n.refCount → (n.blockIds ≠ [] → k ≠ nil → 2 ≤ n.refCount) →
      1 ≤ (g n).refCount ∧ ((g n).blockIds ≠ [] → k ≠ nil → 2 ≤ (g n).refCount)) : (f.update g p).Tallied := by
  induction f generalizing p with
  | nil =>
    rw [update_eq_nil.mpr rfl]
    trivial
  | cons u n k r hk hr =>
    cases p with
    | nil => exact h
    | cons t ts =>
      obtain ⟨h1,h2,h3,h4⟩ := h
      simp only [nodeAt] at hg
      simp only [Children.update]
      split_ifs at hg ⊢ with hut hts
      · obtain ⟨hg1,hg2⟩ := hg n k rfl h1 h2
        exact ⟨hg1,hg2,h3,h4⟩
      · exact ⟨h1,fun hb hne => h2 hb fun hn => hne (update_eq_nil.mpr hn),hk h3 hg,h4⟩
      · exact ⟨h1,h2,h3,hr h4 hg⟩

theorem length_le_tall {p : List Token} {n : RadixNode} {k : Children} (h : f.nodeAt p = some (n,k)) :
    p.length+w.charge n k ≤ f.tall w := by
  induction f generalizing p with
  | nil => simp at h
  | cons u m k' r hk hr =>
    cases p with
    | nil => simp at h
    | cons t ts =>
      simp only [nodeAt] at h
      simp only [tall,List.length_cons]
      split_ifs at h with hut hts
      · obtain ⟨rfl,rfl⟩ := Prod.mk.inj (Option.some.inj h)
        rw [hts,List.length_nil]
        omega
      · have := hk h
        omega
      · have := hr h
        rw [List.length_cons] at this
        omega

/-- A node that loses its children gets no comprehension, as other prompts went
through it. -/
theorem Tallied.unlink (h : f.Tallied) (p : List Token) :
    (f.unlink p).Tallied ∧ (f.unlink p).tall w ≤ f.tall w := by
  induction f generalizing p with
  | nil => simp [Tallied]
  | cons u n k r hk hr =>
    cases p with
    | nil => exact ⟨h,Nat.le_refl _⟩
    | cons t ts =>
      obtain ⟨h1,h2,h3,h4⟩ := h
      simp only [Children.unlink]
      split_ifs
      · exact ⟨h4,Nat.le_max_right _ _⟩
      · obtain ⟨ht,hle⟩ := hk h3 ts
        have hat : w.charge n (k.unlink ts) ≤ w.charge n k := by
          by_cases hnil : k = nil
          · rw [hnil,unlink_nil]
          · rw [charge_eq_visit fun hb _ => h2 hb hnil]
            exact visit_le_charge n k
        refine ⟨⟨h1,fun hb hne => h2 hb fun hn => hne (by rw [hn,unlink_nil]),ht,h4⟩,?_⟩
        simp only [tall]
        omega
      · obtain ⟨ht,hle⟩ := hr h4 (t :: ts)
        refine ⟨⟨h1,h2,h3,ht⟩,?_⟩
        simp only [tall]
        omega

end Children

/-- CPython's default `sys.getrecursionlimit()`. -/
def recursionLimit : Nat := 1000

inductive Outcome where
  | ids (ids : List BlockId)
  | memoryError
  | recursionError
  deriving DecidableEq, Repr

namespace RadixCache

variable {V : Type} {cfg : CacheConfig} {c : RadixCache V} {w : StackCost} {fr : Nat}

/-- The loop of `walk` over the children of a node, with `fr` frames left on
the stack: each child is a call; `none` is the `RecursionError`. -/
def walkIn (w : StackCost) (c : RadixCache V) : Nat → Children → Option (List (Nat × List Token))
  | _, .nil => some []
  | 0, .cons _ _ _ _ => none
  | fr+1, .cons u n k r =>
      if fr < w.charge n k then none
      else do
        let below ← walkIn w c fr k
        let rest ← walkIn w c (fr+1) r
        return (if n.blockIds ≠ [] ∧ n.refCount ≤ 1 ∧ k = .nil ∧ n.blockIds.any c.isPrivate then
          [(n.refCount,[u])] else []) ++ below.map (fun e => (e.1,u :: e.2)) ++ rest

theorem walkIn_eq (fr : Nat) (f : Children) :
    c.walkIn w fr f = if f.tall w ≤ fr then some (c.candidates f) else none := by
  induction f generalizing fr with
  | nil => simp [walkIn,Children.tall,candidates]
  | cons u n k r hk hr =>
    cases fr with
    | zero => simp [walkIn,Children.tall]
    | succ fr =>
      have hd : max (max (w.charge n k) (k.tall w)+1) (r.tall w) ≤ fr+1 ↔
          ¬ fr < w.charge n k ∧ k.tall w ≤ fr ∧ r.tall w ≤ fr+1 := by omega
      simp only [walkIn,hk,hr,Children.tall,candidates,hd]
      by_cases h0 : fr < w.charge n k
      · simp only [h0,if_true,not_true,false_and,if_false]
      by_cases h1 : k.tall w ≤ fr
      · by_cases h2 : r.tall w ≤ fr+1
        · simp only [h0,h1,h2,if_true,if_false,and_self,not_false_iff]
          rfl
        · simp only [h0,h1,h2,if_true,if_false,and_false]
          rfl
      · simp only [h0,h1,if_false,false_and,and_false]
        rfl

def Fits (w : StackCost) (fr : Nat) (f : Children) : Prop := max w.visit (f.tall w)+1 ≤ fr

instance (w : StackCost) (fr : Nat) (f : Children) : Decidable (Fits w fr f) := by
  unfold Fits
  infer_instance

section

variable [Zero V]

/-- `evict` with `fr` frames left for its `walk(self.tree.root, [])`. -/
def evictIn (w : StackCost) (fr : Nat) (c : RadixCache V) (needed : Nat) : Option (RadixCache V × Nat) :=
  if needed = 0 then some (c,0)
  else
    match fr with
    | 0 => none
    | fr+1 =>
        if fr < w.visit then none
        else (c.walkIn w fr c.tree).map fun cs =>
          evictLoop needed (cs.insertionSort (fun x y => x.1 ≤ y.1)) c 0

theorem evictIn_eq (fr : Nat) (c : RadixCache V) {needed : Nat} (hn : 0 < needed) :
    c.evictIn w fr needed = if Fits w fr c.tree then some (c.evict needed) else none := by
  have h0 : needed ≠ 0 := by omega
  unfold evictIn evict Fits
  rw [if_neg h0,if_neg h0]
  cases fr with
  | zero => simp
  | succ fr =>
    have hd : max w.visit (c.tree.tall w)+1 ≤ fr+1 ↔ ¬ fr < w.visit ∧ c.tree.tall w ≤ fr := by omega
    simp only [walkIn_eq,hd]
    by_cases hv : fr < w.visit
    · simp [hv]
    · by_cases ht : c.tree.tall w ≤ fr
      · simp [hv,ht]
      · simp [hv,ht]

/-- The loop of `allocate_blocks`; a `RecursionError` of `evict` passes
through it. -/
def allocateLoopIn (w : StackCost) (fr : Nat) (cfg : CacheConfig) (count : Nat) :
    Nat → List BlockId → RadixCache V → RadixCache V × Outcome
  | 0, ids, c => (c,.ids ids)
  | n+1, ids, c =>
      match c.free with
      | b :: free => allocateLoopIn w fr cfg count n (ids ++ [b]) ({ c with free := free }.take b)
      | [] =>
          if cfg.numBlocks ≤ c.next then
            match c.evictIn w fr (count-ids.length) with
            | none => (c,.recursionError)
            | some (c',freed) =>
                match c'.free with
                | b :: free =>
                    if freed = 0 then (c'.releaseBlocks ids,.memoryError)
                    else allocateLoopIn w fr cfg count n (ids ++ [b]) ({ c' with free := free }.take b)
                | [] => (c'.releaseBlocks ids,.memoryError)
          else
            allocateLoopIn w fr cfg count n (ids ++ [c.next]) ({ c with next := c.next+1 }.take c.next)

def allocateBlocksIn (w : StackCost) (fr : Nat) (cfg : CacheConfig) (c : RadixCache V) (count : Nat) :
    RadixCache V × Outcome :=
  allocateLoopIn w fr cfg count count [] c

theorem tallied_evictLoop (needed k : Nat) (es : List (Nat × List Token)) (h : c.tree.Tallied) :
    (evictLoop needed es c k).1.tree.Tallied ∧ (evictLoop needed es c k).1.tree.tall w ≤ c.tree.tall w := by
  induction es generalizing c k with
  | nil => exact ⟨h,Nat.le_refl _⟩
  | cons e es ih =>
    simp only [evictLoop]
    split_ifs
    · exact ⟨h,Nat.le_refl _⟩
    · obtain ⟨ht,hle⟩ := h.unlink (w := w) e.2
      obtain ⟨ht',hle'⟩ := ih (c := ({ c with tree := c.tree.unlink e.2 }).releaseBlocks (c.tree.blocksAt e.2)) _
        (by rw [releaseBlocks_tree]; exact ht)
      exact ⟨ht',hle'.trans (by rw [releaseBlocks_tree]; exact hle)⟩

theorem tallied_evict (h : c.tree.Tallied) (needed : Nat) :
    (c.evict needed).1.tree.Tallied ∧ (c.evict needed).1.tree.tall w ≤ c.tree.tall w := by
  unfold evict
  split_ifs
  · exact ⟨h,Nat.le_refl _⟩
  · exact tallied_evictLoop needed 0 _ h

structure Roomy (w : StackCost) (fr : Nat) (c : RadixCache V) : Prop where
  fits : Fits w fr c.tree
  tallied : c.tree.Tallied

theorem Roomy.evict (h : Roomy w fr c) (needed : Nat) : Roomy w fr (c.evict needed).1 := by
  obtain ⟨ht,hle⟩ := tallied_evict (w := w) h.tallied needed
  have hf := h.fits
  exact ⟨by unfold Fits at hf ⊢; omega,ht⟩

theorem Roomy.allocateLoopIn {count n : Nat} {ids : List BlockId} (h : Roomy w fr c)
    (hcount : count = ids.length+n) :
    (allocateLoopIn w fr cfg count n ids c).2 ≠ .recursionError ∧
      Roomy w fr (allocateLoopIn w fr cfg count n ids c).1 := by
  induction n generalizing c ids with
  | zero => exact ⟨by simp [RadixCache.allocateLoopIn],h⟩
  | succ n ih =>
    have hlen : ∀ b, count = (ids ++ [b]).length+n := fun b => by simp; omega
    simp only [RadixCache.allocateLoopIn]
    cases hf : c.free with
    | cons b free => exact ih (c := { c with free := free }.take b) ⟨h.fits,h.tallied⟩ (hlen _)
    | nil =>
      simp only
      by_cases hn : cfg.numBlocks ≤ c.next
      · rw [if_pos hn,evictIn_eq fr c (by omega),if_pos h.fits]
        dsimp only
        have hd := h.evict (count-ids.length)
        have hback : Roomy w fr ((c.evict (count-ids.length)).1.releaseBlocks ids) :=
          ⟨by rw [releaseBlocks_tree]; exact hd.fits,by rw [releaseBlocks_tree]; exact hd.tallied⟩
        cases hf' : (c.evict (count-ids.length)).1.free with
        | nil => exact ⟨by simp,hback⟩
        | cons b free =>
          simp only
          split_ifs
          · exact ⟨by simp,hback⟩
          · exact ih (c := { (c.evict (count-ids.length)).1 with free := free }.take b) ⟨hd.fits,hd.tallied⟩ (hlen b)
      · rw [if_neg hn]
        exact ih (c := { c with free := [], next := c.next+1 }.take c.next) ⟨h.fits,h.tallied⟩ (hlen _)

/-- When the walk needs more frames than are left, the first allocation that has
to evict fails with a `RecursionError`. -/
theorem allocateLoopIn_deep {count n : Nat} {ids : List BlockId} (h : ¬ Fits w fr c.tree)
    (hcount : count = ids.length+n) (hn : c.free.length+(cfg.numBlocks-c.next) < n) :
    (allocateLoopIn w fr cfg count n ids c).2 = .recursionError := by
  induction n generalizing c ids with
  | zero => omega
  | succ n ih =>
    have hlen : ∀ b, count = (ids ++ [b]).length+n := fun b => by simp; omega
    simp only [allocateLoopIn]
    cases hf : c.free with
    | cons b free =>
      simp only [hf,List.length_cons] at hn
      exact ih (c := { c with free := free }.take b) h (hlen _) (by
        simp only [take,setRef]
        omega)
    | nil =>
      simp only [hf,List.length_nil] at hn ⊢
      by_cases hnext : cfg.numBlocks ≤ c.next
      · rw [if_pos hnext,evictIn_eq fr c (by omega),if_neg h]
      · rw [if_neg hnext]
        exact ih (c := { c with free := [], next := c.next+1 }.take c.next) h (hlen _) (by
          simp only [take,setRef,List.length_nil]
          omega)

def Survives (w : StackCost) (fr : Nat) (cfg : CacheConfig) (c : RadixCache V) : Prop :=
  (∀ needed, c.evictIn w fr needed ≠ none) ∧
    ∀ n, (c.allocateBlocksIn w fr cfg n).2 ≠ .recursionError

theorem Survives.fits (h : Survives w fr cfg c) : Fits w fr c.tree := by
  by_contra hd
  exact h.1 1 (by rw [evictIn_eq fr c (by omega),if_neg hd])

theorem Roomy.survives (h : Roomy w fr c) : Survives w fr cfg c := by
  refine ⟨fun needed => ?_,fun n => (h.allocateLoopIn (by simp)).1⟩
  by_cases h0 : needed = 0
  · simp [evictIn,h0]
  · rw [evictIn_eq fr c (by omega),if_pos h.fits]
    simp

end

end RadixCache

open RadixCache Transition

variable {V : Type} [Zero V] {cfg : CacheConfig} {w : StackCost} {fr : Nat}

def callIn (w : StackCost) (fr : Nat) (cfg : CacheConfig) (c : RadixCache V) : Call V → RadixCache V
  | .allocate n => (c.allocateBlocksIn w fr cfg n).1
  | .release ids => c.releaseBlocks ids
  | .fork ids => c.forkBlocks ids
  | .cow b =>
      match c.refs b with
      | none => c
      | some r =>
          if r ≤ 1 then c
          else
            match c.allocateBlocksIn w fr cfg 1 with
            | (c',.ids (new :: _)) => c'.copyPage b new
            | (c',_) => c'
  | .lookup q => (c.matchPrefix cfg q).1
  | .insert tokens kv ids logits => c.insertOrUpdate tokens kv ids logits
  | .evict needed => ((c.evictIn w fr needed).map Prod.fst).getD c
  | .write table start vals => c.writeKv cfg table start vals

def stepIn (w : StackCost) (fr : Nat) (cfg : CacheConfig) (c : RadixCache V) (e : Call V) :
    Option (RadixCache V) :=
  some (callIn w fr cfg c e)

/-- The prompt that the call commits leaves room for the walk: one frame for
each of its tokens and one for the root, and what a visit takes besides; at the
end of a new prompt with pages this is the list comprehension. -/
def Shallow (w : StackCost) (fr : Nat) (c : RadixCache V) : Call V → Prop
  | .insert tokens _ ids _ => tokens.length+w.visit+1 ≤ fr ∧
      (tokens ≠ [] → ids ≠ [] → c.tree.nodeAt tokens = none → tokens.length+w.leaf+1 ≤ fr)
  | _ => True

instance (w : StackCost) (fr : Nat) (c : RadixCache V) (e : Call V) : Decidable (Shallow w fr c e) := by
  cases e <;> unfold Shallow <;> infer_instance

section Insert

variable {c : RadixCache V} {tokens : List Token} {kv logits : Bool} {ids : List BlockId}

theorem insertPath_node {f : Children} (h : f.Tallied) (ht : tokens ≠ []) {n : RadixNode} {k : Children}
    (hn : (f.insertPath tokens).nodeAt tokens = some (n,k)) :
    f.nodeAt tokens = none ∧ n = { refCount := 1 } ∧ k = .nil ∨ f.nodeAt tokens ≠ none ∧ 2 ≤ n.refCount := by
  by_cases hold : f.nodeAt tokens = none
  · rw [Children.nodeAt_insertPath_fresh f tokens ht hold] at hn
    obtain ⟨rfl,rfl⟩ := Prod.mk.inj (Option.some.inj hn)
    exact .inl ⟨hold,rfl,rfl⟩
  · exact .inr ⟨hold,h.twice hold hn⟩

variable (kv logits ids) in
/-- A commit changes what the walk needs by the node of its prompt. -/
theorem tallied_insertOrUpdate (h : c.tree.Tallied) (ht : tokens ≠ []) :
    (c.insertOrUpdate tokens kv ids logits).tree.Tallied ∧
      ∃ n k, (c.insertOrUpdate tokens kv ids logits).tree.nodeAt tokens = some (n,k) ∧
        w.charge n k = (if ids ≠ [] ∧ c.tree.nodeAt tokens = none then w.leaf else w.visit) ∧
        (c.insertOrUpdate tokens kv ids logits).tree.tall w ≤
          max (c.tree.tall w) (tokens.length+w.charge n k) := by
  rw [insertOrUpdate_tree c tokens kv logits ids ht]
  obtain ⟨n₁,k₁,hn₁,hb₁⟩ := Children.nodeAt_insertPath_self c.tree tokens ht
  have hpath := Children.tall_insertPath (w := w) c.tree tokens
  have hnode := insertPath_node h ht hn₁
  have hF := h.insertPath tokens
  have hblocks : (c.tree.insertPath tokens).blocksAt tokens = n₁.blockIds := by
    rw [hb₁,Children.blocksAt_insertPath]
  generalize c.tree.insertPath tokens = F at hn₁ hpath hF hblocks
  obtain ⟨m,hm,hr,hids,hG,hle⟩ : ∃ m, (if F.blocksAt tokens = ids then F
      else F.update (fun n => { n with blockIds := ids }) tokens).nodeAt tokens = some (m,k₁) ∧
      m.refCount = n₁.refCount ∧ m.blockIds = ids ∧
      (if F.blocksAt tokens = ids then F else F.update (fun n => { n with blockIds := ids }) tokens).Tallied ∧
      (if F.blocksAt tokens = ids then F else F.update (fun n => { n with blockIds := ids }) tokens).tall w ≤
        max (F.tall w) (tokens.length+w.charge m k₁) := by
    split_ifs with hb
    · exact ⟨n₁,hn₁,rfl,hblocks.symm.trans hb,hF,Nat.le_max_left _ _⟩
    · refine ⟨{ n₁ with blockIds := ids },Children.nodeAt_update_self F tokens _ hn₁,rfl,rfl,
        hF.update fun n k hn h1 _ => ?_,Children.tall_update fun n k hn => ?_⟩
      · obtain ⟨rfl,rfl⟩ := Prod.mk.inj (Option.some.inj (hn₁.symm.trans hn))
        exact ⟨h1,fun _ hk => hnode.elim (fun hnew => absurd hnew.2.2 hk) And.right⟩
      · obtain ⟨rfl,rfl⟩ := Prod.mk.inj (Option.some.inj (hn₁.symm.trans hn))
        exact Nat.le_refl _
  generalize (if F.blocksAt tokens = ids then F
    else F.update (fun n => { n with blockIds := ids }) tokens) = G at hm hG hle ⊢
  have hat : w.charge m k₁ = if ids ≠ [] ∧ c.tree.nodeAt tokens = none then w.leaf else w.visit := by
    unfold StackCost.charge
    rw [hids,hr]
    rcases hnode with ⟨hnew,rfl,rfl⟩ | ⟨hold,htwice⟩
    · simp [hnew]
    · rw [if_neg fun hc => by omega,if_neg fun hc => hold hc.2]
  have hvisit := Children.visit_le_charge (w := w) m k₁
  refine ⟨hG.update fun n k _ h1 h2 => ⟨h1,h2⟩,_,k₁,Children.nodeAt_update_self G tokens _ hm,hat,?_⟩
  have hflags : (G.update (fun n => { n with pastKv := n.pastKv || kv, lastLogits := n.lastLogits || logits })
      tokens).tall w ≤ max (G.tall w) (tokens.length+w.charge m k₁) := by
    refine Children.tall_update fun n k hn => ?_
    obtain ⟨rfl,rfl⟩ := Prod.mk.inj (Option.some.inj (hm.symm.trans hn))
    exact Nat.le_refl _
  refine hflags.trans ?_
  show max (G.tall w) (tokens.length+w.charge m k₁) ≤ max (c.tree.tall w) (tokens.length+w.charge m k₁)
  omega

end Insert

theorem RadixCache.Roomy.callIn {c : RadixCache V} (h : Roomy w fr c) {e : Call V} (he : Shallow w fr c e) :
    Roomy w fr (callIn w fr cfg c e) := by
  have hal : ∀ n, Roomy w fr (c.allocateBlocksIn w fr cfg n).1 := fun n => (h.allocateLoopIn (by simp)).2
  have hsame : ∀ c' : RadixCache V, c'.tree = c.tree → Roomy w fr c' := fun c' ht =>
    ⟨ht ▸ h.fits,ht ▸ h.tallied⟩
  cases e with
  | allocate n => exact hal n
  | release ids => exact hsame _ (releaseBlocks_tree c ids)
  | fork ids => exact hsame _ (forkBlocks_tree c ids)
  | cow b =>
    simp only [Kv.callIn]
    cases c.refs b with
    | none => exact h
    | some r =>
      simp only
      split_ifs
      · exact h
      · have := hal 1
        split <;> rename_i heq <;> rw [heq] at this
        · exact ⟨this.fits,this.tallied⟩
        · exact this
  | lookup q =>
    simp only [Kv.callIn,matchPrefix]
    split_ifs
    · exact hsame _ (by simp)
    · exact h
  | insert tokens kv ids logits =>
    obtain ⟨he1,he2⟩ := he
    by_cases ht : tokens = []
    · simpa [Kv.callIn,insertOrUpdate,ht] using h
    · obtain ⟨htal,n,k,_,hat,hle⟩ := tallied_insertOrUpdate (w := w) kv logits ids
        h.tallied ht
      have hf := h.fits
      refine ⟨?_,htal⟩
      unfold Fits at hf ⊢
      simp only [Kv.callIn]
      split_ifs at hat with hnew
      · have := he2 ht hnew.1 hnew.2
        omega
      · omega
  | evict needed =>
    simp only [Kv.callIn]
    by_cases h0 : needed = 0
    · simpa [evictIn,h0] using h
    · rw [evictIn_eq fr c (by omega),if_pos h.fits]
      exact h.evict needed
  | write table start vals => exact hsame _ (writeKv_frame cfg table c start vals).1

/-- In a run of calls from a fresh cache the walk of `evict` stays within the
stack in every state exactly when every prompt that is committed leaves it the
frames that it needs. -/
theorem eviction_depth {used : Nat} (hu : used+w.visit < recursionLimit) {calls : List (Call V)}
    {c : RadixCache V} (h : exec (stepIn w (recursionLimit-used) cfg) empty calls = some c) :
    Always (stepIn w (recursionLimit-used) cfg) (Survives w (recursionLimit-used) cfg) empty calls ↔
      Guarded (stepIn w (recursionLimit-used) cfg) (Shallow w (recursionLimit-used)) empty calls := by
  have hstart : Roomy w (recursionLimit-used) (empty : RadixCache V) := by
    refine ⟨?_,trivial⟩
    show max w.visit 0+1 ≤ recursionLimit-used
    omega
  refine always_iff_guarded (P := Roomy w (recursionLimit-used)) (fun c hc => hc.survives)
    (fun c e c' hc _ he hs => ?_) (fun c e c' hc he hs hsur => he ?_)
    hstart (Guarded.of_forall (fun _ _ => trivial) _ _ : Guarded _ (fun _ _ => True) _ _) h
  · obtain rfl := Option.some.inj hs
    exact hc.callIn he
  · obtain rfl := Option.some.inj hs
    cases e with
    | insert tokens kv ids logits =>
      by_cases ht : tokens = []
      · have hf := hc.fits
        unfold Fits at hf
        refine ⟨?_,fun hne => absurd ht hne⟩
        rw [ht,List.length_nil]
        omega
      · obtain ⟨_,n,k,hn,hat,_⟩ := tallied_insertOrUpdate (w := w) kv logits ids
          hc.tallied ht
        have hlow := Children.length_le_tall (w := w) hn
        have hvisit := Children.visit_le_charge (w := w) n k
        have hf : Fits w (recursionLimit-used) (c.insertOrUpdate tokens kv ids logits).tree := hsur.fits
        unfold Fits at hf
        refine ⟨by omega,fun _ hids hnew => ?_⟩
        rw [if_pos ⟨hids,hnew⟩] at hat
        omega
    | _ => trivial

def longPage : CacheConfig := ⟨1024,1,by decide,Nat.one_pos⟩

def longPrompt : List (Call Nat) := [.allocate 1,.insert (List.replicate 1000 7) false [0] true]

omit [Zero V] in
theorem forkBlocks_alloc (c : RadixCache V) (ids : List BlockId) :
    (c.forkBlocks ids).free = c.free ∧ (c.forkBlocks ids).next = c.next := by
  unfold forkBlocks
  induction ids generalizing c with
  | nil => exact ⟨rfl,rfl⟩
  | cons b ids ih =>
    have hb : (c.bump b).free = c.free ∧ (c.bump b).next = c.next := by
      unfold bump
      split <;> exact ⟨rfl,rfl⟩
    rw [List.foldl_cons,(ih _).1,(ih _).2]
    exact hb

theorem insertOrUpdate_alloc {c : RadixCache V} {tokens : List Token} {ids : List BlockId}
    (kv logits : Bool) (hb : c.tree.blocksAt tokens = []) :
    (c.insertOrUpdate tokens kv ids logits).free = c.free ∧
      (c.insertOrUpdate tokens kv ids logits).next = c.next := by
  have hb' : (c.tree.insertPath tokens).blocksAt tokens = [] := by
    rw [Children.blocksAt_insertPath,hb]
  simp only [insertOrUpdate,setBlocks,hb']
  split_ifs
  · exact ⟨rfl,rfl⟩
  · exact ⟨rfl,rfl⟩
  · exact forkBlocks_alloc _ ids

/-- The stack of CPython from 3.12 on, where a visit takes nothing but its frame. -/
def ownFrames : StackCost := ⟨0,0,Nat.le_refl 0⟩

/-- A prompt of 1000 tokens is admitted, and once it fills the pool the next
allocation fails with a `RecursionError`. -/
theorem longPrompt_overflows :
    (List.replicate 1000 (7 : Token)).length ≤ ({} : Sched.SchedConfig).maxPromptTokens ∧
    ∃ c, exec (stepIn ownFrames recursionLimit longPage) empty longPrompt = some c ∧
      ¬ Survives ownFrames recursionLimit longPage c ∧
      (c.allocateBlocksIn ownFrames recursionLimit longPage 1).2 = .recursionError := by
  let c₁ : RadixCache Nat := (empty.allocateBlocksIn ownFrames recursionLimit longPage 1).1
  let c := c₁.insertOrUpdate (List.replicate 1000 7) false [0] true
  have hlong : List.replicate 1000 (7 : Token) ≠ [] :=
    List.ne_nil_of_length_pos (by rw [List.length_replicate]; decide)
  have hdeep : ¬ Fits ownFrames recursionLimit c.tree := by
    have htal : c₁.tree.Tallied := trivial
    obtain ⟨_,n,k,hn,_⟩ := tallied_insertOrUpdate (w := ownFrames) false true [0]
      htal hlong
    have hlow : (List.replicate 1000 (7 : Token)).length+ownFrames.charge n k ≤ c.tree.tall ownFrames :=
      Children.length_le_tall hn
    rw [List.length_replicate] at hlow
    unfold Fits recursionLimit
    omega
  obtain ⟨hfree,hnext⟩ : c.free = c₁.free ∧ c.next = c₁.next :=
    insertOrUpdate_alloc false true (Children.blocksAt_nil _)
  refine ⟨by rw [List.length_replicate]; decide,c,rfl,fun h => hdeep h.fits,allocateLoopIn_deep hdeep rfl ?_⟩
  have hf : c.free.length = 0 := by rw [show c.free = c₁.free from hfree]; rfl
  have hn : c.next = 1 := hnext
  have hp : longPage.numBlocks = 1 := rfl
  omega

/-- Before CPython 3.12. -/
def countedCalls : StackCost := ⟨1,2,by decide⟩

theorem eviction_depth_short :
    Always (stepIn countedCalls (recursionLimit-20) longPage) (Survives countedCalls (recursionLimit-20) longPage)
        (empty : RadixCache Nat) [.allocate 1,.insert [5,6] false [0] true,.evict 1] ↔
      Guarded (stepIn countedCalls (recursionLimit-20) longPage) (Shallow countedCalls (recursionLimit-20))
        (empty : RadixCache Nat) [.allocate 1,.insert [5,6] false [0] true,.evict 1] :=
  eviction_depth (by decide) rfl

end SglangLite.Kv
