import SglangLite.Kv.Counted

set_option autoImplicit false

namespace SglangLite.Kv

namespace Children

/-- The tokens that `RadixTree.walk` collects. -/
def walked : Children → List Token → List Token
  | _, [] => []
  | nil, _ => []
  | cons u _ k r, t :: ts => if u = t then t :: k.walked ts else r.walked (t :: ts)

theorem walked_eq_take (root : RadixNode) (f : Children) (q : List Token) :
    f.walked q = q.take (f.walk root q).2 := by
  induction f generalizing root q with
  | nil => cases q <;> simp [walked,walk]
  | cons u n k r hk hr =>
    cases q with
    | nil => simp [walked]
    | cons t ts =>
      simp only [walked,walk]
      by_cases hut : u = t
      · simp [hut,hk n ts]
      · simp only [hut,if_false]
        exact hr root (t :: ts)

/-- The walk goes at least as deep as every node on the path. -/
theorem le_walk_of_nodeAt (root : RadixNode) {f : Children} {q : List Token} {i : Nat}
    {e : RadixNode × Children} (hi : i ≤ q.length) (h : f.nodeAt (q.take i) = some e) :
    i ≤ (f.walk root q).2 := by
  induction f generalizing root q i with
  | nil => simp at h
  | cons u n k r hk hr =>
    cases q with
    | nil => simp at h
    | cons t ts =>
      cases i with
      | zero => omega
      | succ i =>
        simp only [List.length_cons] at hi
        rw [List.take_succ_cons] at h
        simp only [walk]
        by_cases hut : u = t
        · simp only [hut,if_true]
          by_cases h0 : i = 0
          · omega
          have hne : ts.take i ≠ [] := by
            intro hnil
            simp only [List.take_eq_nil_iff] at hnil
            rcases hnil with hnil | hnil
            · exact h0 hnil
            · simp only [hnil,List.length_nil] at hi
              omega
          simp only [nodeAt,hut,if_true,hne,if_false] at h
          have := hk n (by omega) h
          omega
        · simp only [hut,if_false]
          simp only [nodeAt,hut,if_false] at h
          refine hr root (q := t :: ts) (by simpa using hi) ?_
          rw [List.take_succ_cons]
          exact h

/-- A run can resume after the first `i` tokens of `q`: the node there lists
pages for all of them and, if nothing remains, can also say what comes next. -/
def Reusable (cfg : CacheConfig) (f : Children) (q : List Token) (i : Nat) : Prop :=
  0 < i ∧ i ≤ q.length ∧ ∃ e ∈ f.nodeAt (q.take i),
    cfg.pages i ≤ e.1.blockIds.length ∧
      (i = q.length → e.1.lastLogits = true ∨ e.1.pastKv = true)

instance (cfg : CacheConfig) (f : Children) (q : List Token) (i : Nat) :
    Decidable (f.Reusable cfg q i) :=
  inferInstanceAs (Decidable (_ ∧ _ ∧ ∃ e ∈ f.nodeAt (q.take i), _))

def Longest (cfg : CacheConfig) (f : Children) (q : List Token) (i : Nat) : Prop :=
  f.Reusable cfg q i ∧ ∀ j, f.Reusable cfg q j → j ≤ i

variable {cfg : CacheConfig} {f : Children} {q : List Token}

theorem Reusable.le_walk {i : Nat} (h : f.Reusable cfg q i) : i ≤ (f.walk {} q).2 := by
  obtain ⟨_,hle,e,he,_⟩ := h
  exact le_walk_of_nodeAt {} hle he

theorem Reusable.exists_longest {i : Nat} (h : f.Reusable cfg q i) : ∃ j, f.Longest cfg q j := by
  refine ⟨Nat.findGreatest (f.Reusable cfg q) q.length,?_,fun j hj => ?_⟩
  · exact Nat.findGreatest_spec h.2.1 h
  · exact Nat.le_findGreatest hj.2.1 hj

theorem Longest.unique {i j : Nat} (hi : f.Longest cfg q i) (hj : f.Longest cfg q j) : i = j :=
  Nat.le_antisymm (hj.2 i hi.1) (hi.2 j hj.1)

/-- No prefix of `q` that a run could resume after is hidden below a longer
path that it cannot resume after. -/
def NoneHidden (cfg : CacheConfig) (f : Children) (q : List Token) : Prop :=
  ∀ i, i < (f.walk {} q).2 → f.Reusable cfg q i → f.Reusable cfg q (f.walk {} q).2

theorem noneHidden_iff :
    f.NoneHidden cfg q ↔ ∀ i, f.Reusable cfg q i → f.Reusable cfg q (f.walk {} q).2 := by
  constructor
  · intro h i hi
    by_cases hlt : i < (f.walk {} q).2
    · exact h i hlt hi
    · have := hi.le_walk
      obtain rfl : i = (f.walk {} q).2 := by omega
      exact hi
  · exact fun h i _ => h i

theorem Reusable.longest (h : f.Reusable cfg q (f.walk {} q).2) :
    f.Longest cfg q (f.walk {} q).2 := ⟨h,fun _ hj => hj.le_walk⟩

end Children

namespace RadixCache

variable {V : Type} {cfg : CacheConfig} {c : RadixCache V} {q : List Token}

/-- The tuple that `match_prefix` returns. -/
structure Answer where
  matched : List Token := []
  len : Nat := 0
  remaining : List Token
  blockIds : List BlockId := []
  pastKv : Bool := false
  lastLogits : Bool := false
  deriving DecidableEq, Repr

/-- `match_prefix` with the token lists it returns. -/
def matchAnswer (cfg : CacheConfig) (c : RadixCache V) (q : List Token) : RadixCache V × Answer :=
  let (c',m) := c.matchPrefix cfg q
  if m.len = 0 then (c',{ remaining := q })
  else
    (c',
      { matched := (c.tree.walked q).take m.len
        len := m.len
        remaining := q.drop m.len
        blockIds := m.blockIds
        pastKv := m.pastKv
        lastLogits := m.lastLogits })

def handedOut (cfg : CacheConfig) (c : RadixCache V) (q : List Token) : List BlockId :=
  (c.tree.blocksAt (q.take (c.tree.walk {} q).2)).take (cfg.pages (c.tree.walk {} q).2)

/-- `match_prefix` hits exactly when the node where the walk ends can be
resumed from. -/
theorem matchAnswer_eq (cfg : CacheConfig) (c : RadixCache V) (q : List Token) :
    (c.tree.Reusable cfg q (c.tree.walk {} q).2 ∧
      (c.matchAnswer cfg q).1 = c.forkBlocks (c.handedOut cfg q) ∧
      (c.matchAnswer cfg q).2.matched = q.take (c.tree.walk {} q).2 ∧
      (c.matchAnswer cfg q).2.len = (c.tree.walk {} q).2 ∧
      (c.matchAnswer cfg q).2.remaining = q.drop (c.tree.walk {} q).2 ∧
      (c.matchAnswer cfg q).2.blockIds = c.handedOut cfg q) ∨
    (¬ c.tree.Reusable cfg q (c.tree.walk {} q).2 ∧
      c.matchAnswer cfg q = (c,{ remaining := q })) := by
  have hw := Children.walked_eq_take {} c.tree q
  obtain ⟨hle,hnode⟩ := Children.walk_spec {} c.tree q
  unfold matchAnswer matchPrefix handedOut Children.Reusable
  rw [matchNode_eq_walk,hw]
  generalize c.tree.walk {} q = w at hle hnode ⊢
  obtain ⟨node,i⟩ := w
  simp only at hle hnode ⊢
  by_cases hpos : 0 < i
  · rw [if_neg (by omega)] at hnode
    obtain ⟨k,hk⟩ := hnode
    have hb : c.tree.blocksAt (q.take i) = node.blockIds := by simp [Children.blocksAt,hk]
    simp only [hk,Option.mem_def,Option.some.injEq,exists_eq_left',hb]
    by_cases hpages : cfg.pages i ≤ node.blockIds.length
    · by_cases hlast : q.length = i ∧ node.lastLogits = false ∧ node.pastKv = false
      · right
        simp [hlast]
      · left
        have hlog : i = q.length → node.lastLogits = true ∨ node.pastKv = true := by
          intro hq
          simp only [not_and,Bool.not_eq_false] at hlast
          cases hl : node.lastLogits with
          | true => exact .inl rfl
          | false => exact .inr (hlast hq.symm hl)
        refine ⟨⟨hpos,hle,hpages,hlog⟩,?_⟩
        simp [hpos,hpages,hlast,Nat.pos_iff_ne_zero.mp hpos,List.take_take]
    · right
      simp [hpages]
  · right
    simp [hpos]

/-- The answer is the longest prefix to resume after, and the caller holds one
more reference on its pages and on no others. -/
structure LongestMatch (cfg : CacheConfig) (c : RadixCache V) (q : List Token)
    (c' : RadixCache V) (a : Answer) : Prop where
  len : ∀ i, 0 < i → (a.len = i ↔ c.tree.Longest cfg q i)
  hit : 0 < a.len → a.matched = q.take a.len ∧ a.remaining = q.drop a.len ∧
    a.blockIds = (c.tree.blocksAt (q.take a.len)).take (cfg.pages a.len)
  miss : a.len = 0 → a = { remaining := q }
  taken : ∀ b ∈ a.blockIds, ∃ r, c.refs b = some r ∧ c'.refs b = some (r+1)
  kept : ∀ b, b ∉ a.blockIds → c'.refs b = c.refs b

def HandsOut (cfg : CacheConfig) (c : RadixCache V) (q : List Token) : Prop :=
  c.tree.Reusable cfg q (c.tree.walk {} q).2 →
    (c.handedOut cfg q).Nodup ∧ ∀ b ∈ c.handedOut cfg q, c.refs b ≠ none

theorem Owned.handsOut {held : BlockId → Nat} (h : Owned cfg c held) (q : List Token) :
    c.HandsOut cfg q := by
  intro _
  refine ⟨(List.take_sublist _ _).nodup (h.nodup _),fun b hb => ?_⟩
  have := Children.mem_blocksAt_count (List.mem_of_mem_take hb)
  rw [h.refs_of_pos (by omega)]
  simp

theorem taken_forkBlocks_iff (c : RadixCache V) (ids : List BlockId) :
    (∀ b ∈ ids, ∃ r, c.refs b = some r ∧ (c.forkBlocks ids).refs b = some (r+1)) ↔
      ids.Nodup ∧ ∀ b ∈ ids, c.refs b ≠ none := by
  constructor
  · intro h
    constructor
    · refine List.nodup_iff_count_le_one.mpr fun b => ?_
      by_cases hb : b ∈ ids
      · obtain ⟨r,hr,hr'⟩ := h b hb
        rw [forkBlocks_refs,hr] at hr'
        simp only [Option.map_some,Option.some.injEq] at hr'
        omega
      · simp [List.count_eq_zero.mpr hb]
    · intro b hb
      obtain ⟨r,hr,_⟩ := h b hb
      simp [hr]
  · rintro ⟨hn,ha⟩ b hb
    obtain ⟨r,hr⟩ := Option.ne_none_iff_exists'.mp (ha b hb)
    refine ⟨r,hr,?_⟩
    rw [forkBlocks_refs,hr,List.count_eq_one_of_mem hn hb]
    rfl

/-- `match_prefix` answers with the longest committed prefix exactly when none
is hidden and the pages are fit to be handed out. -/
theorem matchAnswer_longest (c : RadixCache V) (q : List Token) :
    LongestMatch cfg c q (c.matchAnswer cfg q).1 (c.matchAnswer cfg q).2 ↔
      c.tree.NoneHidden cfg q ∧ c.HandsOut cfg q := by
  rw [Children.noneHidden_iff]
  rcases matchAnswer_eq cfg c q with ⟨hre,hc,hm,hl,hrem,hb⟩ | ⟨hre,ha⟩
  · have htaken := taken_forkBlocks_iff c (c.handedOut cfg q)
    rw [← hc] at htaken
    constructor
    · intro h
      exact ⟨fun _ _ => hre,fun _ => htaken.mp (hb ▸ h.taken)⟩
    · rintro ⟨_,hout⟩
      refine ⟨fun i _ => ?_,fun _ => ⟨by rw [hm,hl],by rw [hrem,hl],by rw [hb,hl]; rfl⟩,
        fun h0 => ?_,?_,?_⟩
      · rw [hl]
        exact ⟨fun hi => hi ▸ hre.longest,fun hi => hre.longest.unique hi⟩
      · have := hre.1
        omega
      · rw [hb]
        exact htaken.mpr (hout hre)
      · intro b hbm
        rw [hb] at hbm
        rw [hc,forkBlocks_refs,List.count_eq_zero.mpr hbm]
        simp
  · rw [ha]
    constructor
    · intro h
      refine ⟨fun i hi => ?_,fun hr => absurd hr hre⟩
      obtain ⟨j,hj⟩ := hi.exists_longest
      have hj0 := (h.len j hj.1.1).mpr hj
      have := hj.1.1
      simp only at hj0
      omega
    · rintro ⟨hnone,_⟩
      refine ⟨fun i hi => ?_,by simp,fun _ => rfl,by simp,fun _ _ => rfl⟩
      simp only
      constructor
      · omega
      · intro h
        exact absurd (hnone i h.1) hre

def branching : RadixCache Nat :=
  ((((empty.allocateBlocks ⟨2,4,by decide,by decide⟩ 3).1.insertOrUpdate [1,2] false [0] true
    ).insertOrUpdate [1,2,3,4] false [0,1] true).insertOrUpdate [1,2,3,5] false [0,2] true)

/-- A third turn could resume after the first two tokens, but the walk ends one
token further, at a node without pages, and the answer is a miss. -/
theorem branching_hides_prefix :
    branching.tree.Longest ⟨2,4,by decide,by decide⟩ [1,2,3,9] 2 ∧
      (branching.matchAnswer ⟨2,4,by decide,by decide⟩ [1,2,3,9]).2 = { remaining := [1,2,3,9] } ∧
      ¬ LongestMatch ⟨2,4,by decide,by decide⟩ branching [1,2,3,9]
        (branching.matchAnswer ⟨2,4,by decide,by decide⟩ [1,2,3,9]).1
        (branching.matchAnswer ⟨2,4,by decide,by decide⟩ [1,2,3,9]).2 := by
  have hlong : branching.tree.Longest ⟨2,4,by decide,by decide⟩ [1,2,3,9] 2 := by
    refine ⟨by decide,fun j hj => ?_⟩
    have hle : j ≤ 4 := hj.2.1
    interval_cases j <;> first | omega | exact absurd hj (by decide)
  have hmiss : (branching.matchAnswer ⟨2,4,by decide,by decide⟩ [1,2,3,9]).2
      = { remaining := [1,2,3,9] } := by decide
  refine ⟨hlong,hmiss,fun h => ?_⟩
  have hlen := (h.len 2 (by omega)).mpr hlong
  rw [hmiss] at hlen
  exact absurd hlen (by decide)

end RadixCache

end SglangLite.Kv
