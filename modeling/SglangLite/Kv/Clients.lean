import SglangLite.Kv.Allocation
import SglangLite.Transition

set_option autoImplicit false

namespace SglangLite.Kv

namespace RadixCache

variable {V : Type} {cfg : CacheConfig} {c : RadixCache V} {held : BlockId → Nat}

theorem Backed.retree {held' : BlockId → Nat} {t : Children} (h : Backed c held)
    (hc : ∀ b, held' b+t.count b ≤ held b+c.tree.count b) (hw : t.WF) :
    Backed { c with tree := t } held' :=
  ⟨hw,fun b => (hc b).trans (h.refs b)⟩

/-- The references that a fork of `ids` hands out: none on an unknown id. -/
def forked (c : RadixCache V) (ids : List BlockId) (b : BlockId) : Nat :=
  if c.refs b = none then 0 else ids.count b

theorem Backed.forkBlocks (h : Backed c held) (ids : List BlockId) :
    Backed (c.forkBlocks ids) fun b => held b+c.forked ids b := by
  refine ⟨by rw [forkBlocks_tree]; exact h.wf,fun b => ?_⟩
  have := h.refs b
  rw [forkBlocks_tree,forkBlocks_refs]
  unfold forked
  cases hr : c.refs b with
  | none =>
    simp only [hr,Option.getD_none] at this
    simp only [if_true,Option.map_none,Option.getD_none]
    omega
  | some r =>
    simp only [hr,Option.getD_some] at this
    simp only [reduceCtorEq,if_false,Option.map_some,Option.getD_some]
    omega

def returned (ids : List BlockId) (b : BlockId) : Nat := if b ∈ ids then 1 else 0

variable [Zero V]

theorem Backed.releaseBlocks {ids : List BlockId}
    (h : Backed c fun b => held b+returned ids b) : Backed (c.releaseBlocks ids) held := by
  refine ⟨by rw [releaseBlocks_tree]; exact h.wf,fun b => ?_⟩
  have := h.refs b
  rw [releaseBlocks_tree,releaseBlocks_refs]
  unfold returned at this
  by_cases hb : b ∈ ids
  · rw [if_pos hb,dropRef_getD]
    simp only [hb,if_true] at this
    omega
  · rw [if_neg hb]
    simp only [hb,if_false] at this
    omega

omit [Zero V] in
theorem Backed.matchPrefix (h : Backed c held) (q : List Token) :
    Backed (c.matchPrefix cfg q).1 fun b => held b+c.forked (c.matchPrefix cfg q).2.blockIds b := by
  unfold RadixCache.matchPrefix
  simp only
  split_ifs
  · exact h.forkBlocks _
  · exact h.mono fun b => by simp [forked]

/-- Other pages on a node: the old ones are given back, the new ones, which
the caller holds, get one more reference each. -/
theorem Backed.setBlocks {p : List Token} {ids : List BlockId} (h : Backed c held)
    (hp : c.tree.nodeAt p ≠ none) (hheld : ∀ b ∈ ids, 0 < held b) :
    Backed (c.setBlocks p ids) held := by
  obtain ⟨⟨n,k⟩,hn⟩ := Option.ne_none_iff_exists'.mp hp
  have hold : c.tree.blocksAt p = n.blockIds := by simp [Children.blocksAt,hn]
  have hc₀ := fun b => Children.count_update b c.tree p (fun n => { n with blockIds := [] }) n k hn
  have hc₁ := fun b => Children.count_update b c.tree p (fun n => { n with blockIds := ids }) n k hn
  simp only [List.count_nil] at hc₀
  simp only at hc₁
  unfold RadixCache.setBlocks
  split_ifs
  · exact h
  simp only
  rw [hold,forkBlocks_tree,releaseBlocks_tree]
  have h₀ : Backed { c with tree := c.tree.update (fun n => { n with blockIds := [] }) p }
      (fun b => held b+returned n.blockIds b) := by
    refine h.retree (fun b => ?_) (h.wf.update _ _)
    have := hc₀ b
    unfold returned
    split_ifs with hb
    · have := List.count_pos_iff.mpr hb
      omega
    · omega
  have h₁ := h₀.releaseBlocks
  rw [releaseBlocks_withTree] at h₁
  have hforked : ∀ b, ids.count b ≤ (c.releaseBlocks n.blockIds).forked ids b := by
    intro b
    unfold forked
    split_ifs with hr
    · have hle := h₁.refs b
      simp only [hr,Option.getD_none] at hle
      by_contra hpos
      have := hheld b (List.count_pos_iff.mp (by omega))
      omega
    · exact Nat.le_refl _
  have h₂ : Backed _ fun b => held b+ids.count b :=
    (h₁.forkBlocks ids).mono fun b => Nat.add_le_add_left (hforked b) _
  rw [forkBlocks_withTree] at h₂
  refine h₂.retree (fun b => ?_) (h.wf.update _ _)
  have := hc₀ b
  have := hc₁ b
  simp only
  omega

theorem Backed.insertOrUpdate {tokens : List Token} {ids : List BlockId} (kv logits : Bool)
    (h : Backed c held) (hheld : ∀ b ∈ ids, 0 < held b) :
    Backed (c.insertOrUpdate tokens kv ids logits) held := by
  unfold RadixCache.insertOrUpdate
  split_ifs with ht
  · exact h
  have h₁ : Backed { c with tree := c.tree.insertPath tokens } held :=
    h.retree (fun b => by rw [Children.count_insertPath]) (h.wf.insertPath tokens)
  obtain ⟨n,k,hn,_⟩ := Children.nodeAt_insertPath_self c.tree tokens ht
  have h₂ := h₁.setBlocks (p := tokens) (by simp [hn]) hheld
  refine h₂.retree (fun b => ?_) (h₂.wf.update _ _)
  cases hf : (({ c with tree := c.tree.insertPath tokens }).setBlocks tokens ids).tree.nodeAt
      tokens with
  | none => rw [Children.update_of_none hf]
  | some e =>
    have := Children.count_update b _ tokens (fun n => { n with
      pastKv := n.pastKv || kv, lastLogits := n.lastLogits || logits }) e.1 e.2 hf
    simp only at this
    omega

def swapped (held : BlockId → Nat) (b b' : BlockId) (x : BlockId) : Nat :=
  if b' = b then held x else held x+(if x = b' then 1 else 0)-if x = b then 1 else 0

theorem Backed.cowBlockIfShared {b : BlockId} (hp : Parted cfg c) (h : Backed c held)
    (hb : 0 < held b) :
    match c.cowBlockIfShared cfg b with
    | (c',some b') => Backed c' (swapped held b b')
    | (c',none) => Backed c' held := by
  have hself : swapped held b b = held := funext fun x => by simp [swapped]
  unfold RadixCache.cowBlockIfShared
  cases hr : c.refs b with
  | none =>
    simp only [hself]
    exact h
  | some r =>
    simp only
    split_ifs
    · simp only [hself]
      exact h
    have hal := h.allocateBlocks 1 hp
    cases hc : c.allocateBlocks cfg 1 with
    | mk c' o =>
      rw [hc] at hal
      cases o with
      | none => exact hal.backed
      | some ids =>
        obtain ⟨hlen,ht⟩ := hal
        obtain ⟨new,rfl⟩ := List.length_eq_one_iff.mp hlen
        simp only
        have hne : new ≠ b := by
          rintro rfl
          have := (ht.alone (b := new) (by simp)).1
          omega
        refine ⟨ht.backed.wf,fun x => ?_⟩
        have hx := ht.backed.refs x
        simp only [swapped,if_neg hne]
        rw [List.count_singleton] at hx
        have hcount : (if (new == x) = true then 1 else 0) = if x = new then 1 else 0 := by
          by_cases hxn : x = new
          · simp [hxn]
          · simp [hxn,Ne.symm hxn]
        rw [hcount] at hx
        unfold copyPage
        cases hrb : c'.refs b with
        | none =>
          simp only
          omega
        | some r' =>
          simp only
          by_cases hxb : x = b
          · subst hxb
            simp only [hrb,Option.getD_some] at hx
            simp only [Function.update_self,Option.getD_some,if_true]
            omega
          · simp only [Function.update_of_ne hxb,hxb,if_false]
            omega

omit [Zero V] in
theorem writeKv_frame (cfg : CacheConfig) (table : List BlockId) (c : RadixCache V) (start : Nat)
    (vals : List V) : (c.writeKv cfg table start vals).tree = c.tree ∧
      (c.writeKv cfg table start vals).refs = c.refs ∧
      (c.writeKv cfg table start vals).free = c.free ∧
      (c.writeKv cfg table start vals).next = c.next := by
  induction vals generalizing c start with
  | nil => exact ⟨rfl,rfl,rfl,rfl⟩
  | cons v vals ih =>
    simp only [writeKv]
    split
    · exact ih _ _
    · exact ⟨rfl,rfl,rfl,rfl⟩

end RadixCache

open RadixCache Transition

inductive Call (V : Type) where
  | allocate (count : Nat)
  | release (ids : List BlockId)
  | fork (ids : List BlockId)
  | cow (b : BlockId)
  | lookup (q : List Token)
  | insert (tokens : List Token) (kv : Bool) (ids : List BlockId) (logits : Bool)
  | evict (needed : Nat)
  | write (table : List BlockId) (start : Nat) (vals : List V)

/-- The cache with a ledger of the references that its clients hold. -/
structure Shared (V : Type) where
  cache : RadixCache V
  held : BlockId → Nat

namespace Shared

variable {V : Type} [Zero V] {cfg : CacheConfig}

def start : Shared V := ⟨empty,fun _ => 0⟩

def call (cfg : CacheConfig) (s : Shared V) : Call V → Shared V
  | .allocate n =>
      match s.cache.allocateBlocks cfg n with
      | (c,some ids) => ⟨c,fun b => s.held b+ids.count b⟩
      | (c,none) => ⟨c,s.held⟩
  | .release ids => ⟨s.cache.releaseBlocks ids,fun b => s.held b-returned ids b⟩
  | .fork ids => ⟨s.cache.forkBlocks ids,fun b => s.held b+s.cache.forked ids b⟩
  | .cow b =>
      match s.cache.cowBlockIfShared cfg b with
      | (c,some b') => ⟨c,swapped s.held b b'⟩
      | (c,none) => ⟨c,s.held⟩
  | .lookup q =>
      ⟨(s.cache.matchPrefix cfg q).1,
        fun b => s.held b+s.cache.forked (s.cache.matchPrefix cfg q).2.blockIds b⟩
  | .insert tokens kv ids logits => ⟨s.cache.insertOrUpdate tokens kv ids logits,s.held⟩
  | .evict needed => ⟨(s.cache.evict needed).1,s.held⟩
  | .write table start vals => ⟨s.cache.writeKv cfg table start vals,s.held⟩

def step (cfg : CacheConfig) (s : Shared V) (e : Call V) : Option (Shared V) := some (s.call cfg e)

/-- The client gives back, replaces and commits only pages that clients hold. -/
def Owns (s : Shared V) : Call V → Prop
  | .release ids => ∀ b ∈ ids, 0 < s.held b
  | .cow b => 0 < s.held b
  | .insert _ _ ids _ => ∀ b ∈ ids, 0 < s.held b
  | _ => True

instance (s : Shared V) (e : Call V) : Decidable (Owns s e) :=
  match e with
  | .release ids => inferInstanceAs (Decidable (∀ b ∈ ids, 0 < s.held b))
  | .cow b => inferInstanceAs (Decidable (0 < s.held b))
  | .insert _ _ ids _ => inferInstanceAs (Decidable (∀ b ∈ ids, 0 < s.held b))
  | .allocate _ | .fork _ | .lookup _ | .evict _ | .write _ _ _ => .isTrue trivial

theorem owns_of_checks {s : Shared V} {calls : List (Call V)}
    (h : checks (step cfg) (fun s e => decide (Owns s e)) s calls = true) :
    Guarded (step cfg) Owns s calls := Guarded.of_checks (fun _ _ => of_decide_eq_true) h

theorem parted_call {s : Shared V} (h : Parted cfg s.cache) (e : Call V) :
    Parted cfg (s.call cfg e).cache := by
  cases e with
  | allocate n =>
    have := h.allocateBlocks n
    simp only [call]
    split <;> rename_i heq <;> rw [heq] at this <;> exact this
  | release ids => exact h.releaseBlocks ids
  | fork ids => exact h.forkBlocks ids
  | cow b =>
    have := h.cowBlockIfShared b
    simp only [call]
    split <;> rename_i heq <;> rw [heq] at this <;> exact this
  | lookup q => exact h.matchPrefix q
  | insert tokens kv ids logits => exact h.insertOrUpdate tokens kv ids logits
  | evict needed => exact h.evict needed
  | write table start vals =>
    obtain ⟨_,hr,hf,hn⟩ := writeKv_frame cfg table s.cache start vals
    exact h.congr (fun b => by simp only [call,hr]) hf hn

theorem backed_call {s : Shared V} (hp : Parted cfg s.cache) (h : Backed s.cache s.held)
    {e : Call V} (ho : Owns s e) : Backed (s.call cfg e).cache (s.call cfg e).held := by
  cases e with
  | allocate n =>
    have := h.allocateBlocks n hp
    simp only [call]
    split <;> rename_i heq <;> rw [heq] at this
    · exact this.2.backed
    · exact this.backed
  | release ids =>
    show Backed (s.cache.releaseBlocks ids) fun b => s.held b-returned ids b
    refine Backed.releaseBlocks (h.mono fun b => ?_)
    unfold returned
    split_ifs with hb
    · have : 0 < s.held b := ho b hb
      omega
    · omega
  | fork ids => exact h.forkBlocks ids
  | cow b =>
    have := h.cowBlockIfShared hp ho
    simp only [call]
    split <;> rename_i heq <;> rw [heq] at this <;> exact this
  | lookup q => exact h.matchPrefix q
  | insert tokens kv ids logits => exact h.insertOrUpdate kv logits ho
  | evict needed =>
    obtain ⟨gone,_,he⟩ := h.evicting needed
    exact (h.remains he).1
  | write table start vals =>
    obtain ⟨ht,hr,_⟩ := writeKv_frame cfg table s.cache start vals
    exact ⟨by simp only [call,ht]; exact h.wf,by simp only [call,ht,hr]; exact h.refs⟩

theorem parted_run {s : Shared V} {calls : List (Call V)}
    (h : exec (step cfg) start calls = some s) : Parted cfg s.cache := by
  refine exec_always (P := fun t : Shared V => Parted cfg t.cache) ?_ (parted_empty cfg) h
  intro t e t' ht hs
  obtain rfl := Option.some.inj hs
  exact parted_call ht e

theorem backed_run {s : Shared V} {calls : List (Call V)}
    (h : exec (step cfg) start calls = some s) (hg : Guarded (step cfg) Owns start calls) :
    Backed s.cache s.held := by
  refine (exec_invariant (P := fun t : Shared V => Parted cfg t.cache ∧ Backed t.cache t.held) ?_
    ⟨parted_empty cfg,backed_empty⟩ hg h).2
  rintro t e t' ⟨hp,hb⟩ ho hs
  obtain rfl := Option.some.inj hs
  exact ⟨parted_call hp e,backed_call hp hb ho⟩

/-- After any sequence of calls, with whatever ids, the ids handed out so far
are split between the allocated and the free ones and the counts add up. While
clients give back only what they hold, a new allocation consists of distinct
ids that nobody holds. -/
theorem allocator_partition {s : Shared V} {calls : List (Call V)}
    (h : exec (step cfg) start calls = some s) :
    Parted cfg s.cache ∧ s.cache.blocksUsed+s.cache.blocksFree cfg = cfg.numBlocks ∧
      (Guarded (step cfg) Owns start calls → ∀ n c' ids,
        s.cache.allocateBlocks cfg n = (c',some ids) → ids.length = n ∧ ids.Nodup ∧
          ∀ b ∈ ids, s.held b = 0 ∧ c'.tree.count b = 0 ∧ c'.refs b = some 1) := by
  have hp := parted_run h
  refine ⟨hp,hp.conserved,fun hg n c' ids heq => ?_⟩
  have hal := (backed_run h hg).allocateBlocks n hp
  rw [heq] at hal
  obtain ⟨hlen,ht⟩ := hal
  exact ⟨hlen,ht.nodup,fun b hb => ⟨(ht.alone hb).1,(ht.alone hb).2.1,ht.one b hb⟩⟩

def onePage : CacheConfig := ⟨1,1,Nat.one_pos,Nat.one_pos⟩

theorem allocator_partition_onePage :
    ∃ s : Shared Nat, exec (step onePage) start [.allocate 1,.insert [5] false [0] true,
        .release [0],.allocate 2] = some s ∧
      Parted onePage s.cache ∧ s.cache.blocksUsed+s.cache.blocksFree onePage = 1 ∧
        ∀ c' ids, s.cache.allocateBlocks onePage 1 = (c',some ids) → ids.length = 1 ∧ ids.Nodup ∧
          ∀ b ∈ ids, s.held b = 0 ∧ c'.tree.count b = 0 ∧ c'.refs b = some 1 := by
  obtain ⟨h1,h2,h3⟩ := @allocator_partition Nat _ onePage _
    [.allocate 1,.insert [5] false [0] true,.release [0],.allocate 2] rfl
  exact ⟨_,rfl,h1,h2,h3 (owns_of_checks rfl) 1⟩

/-- Page 0 came from the cache once and is given back twice while the tree
lists it: the next allocation gets it twice. -/
theorem handed_out_twice :
    ∃ s : Shared Nat, ((empty : RadixCache Nat).allocateBlocks onePage 1).2 = some [0] ∧
      exec (step onePage) start [.allocate 1,.insert [5] false [0] true,.release [0],
        .release [0]] = some s ∧
      (s.cache.allocateBlocks onePage 2).2 = some [0,0] :=
  ⟨_,rfl,rfl,rfl⟩

/-- A failed allocation leaves none of the ids that it took, keeps what clients
hold, and fails only when no leaf can be evicted; a successful one returns
distinct ids with one reference each. -/
theorem allocate_atomic {s : Shared V} {calls : List (Call V)}
    (h : exec (step cfg) start calls = some s) (hg : Guarded (step cfg) Owns start calls) (n : Nat) :
    match s.cache.allocateBlocks cfg n with
    | (c',some ids) => ids.length = n ∧ ids.Nodup ∧ ∀ b ∈ ids, c'.refs b = some 1
    | (c',none) =>
        (∀ b ∈ takenIds cfg n n [] s.cache, c'.refs b = none) ∧
        (∀ b, 0 < s.held b → c'.pages b = s.cache.pages b ∧ s.held b ≤ (c'.refs b).getD 0 ∧
          (s.cache.refs b).getD 0+c'.tree.count b ≤ (c'.refs b).getD 0+s.cache.tree.count b) ∧
        ∀ p m, c'.tree.nodeAt p = some (m,.nil) → m.refCount ≤ 1 →
          ∀ b ∈ m.blockIds, c'.refs b ≠ some 1 := by
  have hal := (backed_run h hg).allocateBlocks n (parted_run h)
  split <;> rename_i heq <;> rw [heq] at hal
  · obtain ⟨hlen,ht⟩ := hal
    exact ⟨hlen,ht.nodup,ht.one⟩
  · refine ⟨hal.released,fun b hb => ⟨hal.pages b hb,?_,hal.refs b hb⟩,hal.exhausted⟩
    have := hal.backed.refs b
    omega

theorem allocate_atomic_onePage :
    ∃ s : Shared Nat, exec (step onePage) start [.allocate 1,.write [0] 0 [7]] = some s ∧
      match s.cache.allocateBlocks onePage 2 with
      | (c',some ids) => ids.length = 2 ∧ ids.Nodup ∧ ∀ b ∈ ids, c'.refs b = some 1
      | (c',none) =>
          (∀ b ∈ takenIds onePage 2 2 [] s.cache, c'.refs b = none) ∧
          (∀ b, 0 < s.held b → c'.pages b = s.cache.pages b ∧ s.held b ≤ (c'.refs b).getD 0 ∧
            (s.cache.refs b).getD 0+c'.tree.count b ≤ (c'.refs b).getD 0+s.cache.tree.count b) ∧
          ∀ p m, c'.tree.nodeAt p = some (m,.nil) → m.refCount ≤ 1 →
            ∀ b ∈ m.blockIds, c'.refs b ≠ some 1 :=
  ⟨_,rfl,@allocate_atomic Nat _ onePage _ [.allocate 1,.write [0] 0 [7]] rfl
    (owns_of_checks rfl) 2⟩

/-- After the second release of page 0 a client gets it with the tree still
listing it: an allocation that fails takes it away and zeroes it. -/
theorem failure_takes_page :
    ∃ s : Shared Nat, exec (step onePage) start [.allocate 1,.insert [5] false [0] true,
        .release [0],.release [0],.allocate 1,.write [0] 0 [7]] = some s ∧
      s.held 0 = 1 ∧ s.cache.pages 0 0 = 7 ∧
      (s.cache.allocateBlocks onePage 2).2 = none ∧
      (s.cache.allocateBlocks onePage 2).1.refs 0 = none ∧
      (s.cache.allocateBlocks onePage 2).1.pages 0 0 = 0 :=
  ⟨_,rfl,rfl,rfl,rfl,rfl,rfl⟩

end Shared

end SglangLite.Kv
