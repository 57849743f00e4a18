import Mathlib.Order.WithBot
import Mathlib.Data.List.Sort
import SglangLite.Hybrid.Compressor
import SglangLite.Hybrid.SparseMla

set_option autoImplicit false

namespace SglangLite.Hybrid

open SparseMla

/-- The order in which `topk` returns scores with their indices: the larger
score first. Torch leaves the order of equal scores open; here the one that
stands first is taken first. -/
def ahead {K : Type} [LinearOrder K] (a b : K × Nat) : Bool :=
  decide (b.1 < a.1 ∨ b.1 = a.1 ∧ a.2 ≤ b.2)

/-- `scores.topk(k)[1]`. -/
def topk {K : Type} [LinearOrder K] (k : Nat) (scores : List K) : List Nat :=
  ((scores.zipIdx.mergeSort ahead).take k).map Prod.snd

/-- A block by what it computes for one token and its position: the key and
value row of the window, the query, the score that the indexer gives to a row of
its cache, the sparse attention over the rows that the indices select, where
`none` stands for an index of -1, and the rest of the block. -/
structure Block (X S Q O K : Type) where
  ratio : Nat
  indexTopk : Nat
  comp : Compressor X S
  index : Compressor X S
  wkv : Nat → X → List S
  query : Nat → X → Q
  score : Nat → X → List S → K
  sparseAttn : Q → List (Option (List S)) → O
  masked : ∀ q rows, sparseAttn q rows = sparseAttn q (rows.filter Option.isSome)
  rest : Nat → X → O → X

def gather {S : Type} (kv : Nat → List S) (idxs : List Int) : List (Option (List S)) :=
  idxs.map fun i => if i < 0 then none else some (kv i.toNat)

namespace Block

variable {X S Q O K : Type} [LinearOrder K] (args : ModelArgs) (b : Block X S Q O K)

def indexerIdxs (len start offset i : Nat) (x : X) (cache : BufferRow S) : List Int :=
  let cols := (start+len)/b.ratio
  if start = 0 then
    let scores : List (WithBot K) := (List.range cols).map fun t =>
      if (i+1)/b.ratio ≤ t then ⊥ else WithBot.some (b.score i x (cache t))
    (topk (min b.indexTopk cols) scores).map fun t =>
      if (i+1)/b.ratio ≤ t then -1 else Int.ofNat (t+offset)
  else
    (topk (min b.indexTopk cols) ((List.range cols).map fun t => b.score start x (cache t))).map
      fun t => Int.ofNat (t+offset)

def compressIdxs (len start offset i : Nat) (x : X) (index : Option (BufferRow S)) : List Int :=
  if b.ratio = 0 then []
  else
    match index with
    | some cache => b.indexerIdxs len start offset i x cache
    | none => (compressTopkIdxs b.ratio len start offset).getD i []

def token (len start offset i : Nat) (x : X) (kv : Nat → List S) (index : Option (BufferRow S)) : X :=
  let idxs := (getWindowTopkIdxs args.windowSize len start).getD i [] ++
    b.compressIdxs len start offset i x index
  b.rest (start+i) x (b.sparseAttn (b.query (start+i) x) (gather kv idxs))

/-- `Attention.forward` after the caches are written, with the rest of the block:
the first pass reads the rows it has just made, a decode step the cache. -/
def read (start : Nat) (xs : List X) (cache : BufferRow S) (index : Option (BufferRow S))
    (out : Option (List (List S))) : List X :=
  if start = 0 then
    let kv := xs.mapIdx b.wkv ++ out.getD []
    xs.mapIdx fun i x => b.token args xs.length 0 xs.length i x (fun j => kv.getD j []) index
  else xs.map fun x => b.token args 1 start args.windowSize 0 x cache index

def layer : Layer X S where
  ratio := b.ratio
  comp := b.comp
  index := b.index
  wkv := b.wkv
  rest := b.read args
  length_rest start xs cache index out := by
    unfold read
    split_ifs
    · exact List.length_mapIdx
    · exact List.length_map _

end Block

section Topk

variable {K : Type} [LinearOrder K]

theorem ahead_antisymm {a b : K × Nat} (h1 : ahead a b = true) (h2 : ahead b a = true) : a = b := by
  simp only [ahead,decide_eq_true_eq] at h1 h2
  rcases h1 with h1 | ⟨he,h1⟩
  · rcases h2 with h2 | ⟨he,_⟩
    · exact absurd (h1.trans h2) (lt_irrefl _)
    · exact absurd h1 (he ▸ lt_irrefl _)
  · rcases h2 with h2 | ⟨_,h2⟩
    · exact absurd h2 (he ▸ lt_irrefl _)
    · exact Prod.ext he.symm (Nat.le_antisymm h1 h2)

theorem ahead_trans (a b c : K × Nat) (h1 : ahead a b = true) (h2 : ahead b c = true) :
    ahead a c = true := by
  simp only [ahead,decide_eq_true_eq] at h1 h2 ⊢
  rcases h1 with h1 | ⟨he,h1⟩
  · rcases h2 with h2 | ⟨he',_⟩
    · exact .inl (h2.trans h1)
    · exact .inl (he' ▸ h1)
  · rcases h2 with h2 | ⟨he',h2⟩
    · exact .inl (he ▸ h2)
    · exact .inr ⟨he'.trans he,h1.trans h2⟩

theorem ahead_total (a b : K × Nat) : (ahead a b || ahead b a) = true := by
  simp only [ahead,Bool.or_eq_true,decide_eq_true_eq]
  rcases lt_trichotomy a.1 b.1 with h | h | h
  · exact .inr (.inl h)
  · rcases Nat.le_total a.2 b.2 with h2 | h2
    · exact .inl (.inr ⟨h.symm,h2⟩)
    · exact .inr (.inr ⟨h,h2⟩)
  · exact .inl (.inl h)

theorem mergeSort_append {l r : List (K × Nat)} (h : ∀ a ∈ l, ∀ b ∈ r, ahead a b = true) :
    (l ++ r).mergeSort ahead = l.mergeSort ahead ++ r.mergeSort ahead := by
  have hsorted : ∀ l : List (K × Nat), (l.mergeSort ahead).Pairwise fun a b => ahead a b = true :=
    fun l => List.pairwise_mergeSort ahead_trans ahead_total l
  refine List.Perm.eq_of_pairwise (fun a b _ _ => ahead_antisymm) (hsorted _) ?_ ?_
  · refine List.pairwise_append.mpr ⟨hsorted l,hsorted r,fun a ha b hb => ?_⟩
    exact h a (List.mem_mergeSort.mp ha) b (List.mem_mergeSort.mp hb)
  · exact (List.mergeSort_perm _ _).trans
      ((List.mergeSort_perm l _).symm.append (List.mergeSort_perm r _).symm)

/-- What the order among scores decides is not changed by an embedding of the
scores. -/
theorem mergeSort_map {L : Type} [LinearOrder L] {g : K → L} (hg : ∀ a b, g a < g b ↔ a < b)
    (l : List (K × Nat)) :
    (l.map fun a => (g a.1,a.2)).mergeSort ahead = (l.mergeSort ahead).map fun a => (g a.1,a.2) := by
  refine (List.map_mergeSort fun a _ b _ => ?_).symm
  have heq : g b.1 = g a.1 ↔ b.1 = a.1 := by
    rw [le_antisymm_iff,le_antisymm_iff,← not_lt,← not_lt,← not_lt,← not_lt,hg,hg]
  simp only [ahead,hg,heq]

/-- Masked scores behind the others are not selected before them. -/
theorem topk_masked (scores : List K) (k m : Nat) :
    (topk k (scores.map WithBot.some ++ List.replicate m ⊥)).filter (· < scores.length) =
      topk k scores := by
  have hbot : ∀ a ∈ (scores.map WithBot.some).zipIdx,
      ∀ b ∈ (List.replicate m (⊥ : WithBot K)).zipIdx scores.length, ahead a b = true := by
    rintro ⟨a,i⟩ ha ⟨b,j⟩ hb
    have hi := (List.mem_zipIdx ha).2.1
    have hj := List.mem_zipIdx hb
    have hb' : b = ⊥ := hj.2.2.trans (List.getElem_replicate _)
    simp only [ahead,decide_eq_true_eq,hb',List.length_map] at hi ⊢
    rcases eq_or_ne a ⊥ with ha' | ha'
    · exact .inr ⟨ha'.symm,by omega⟩
    · exact .inl (bot_lt_iff_ne_bot.mpr ha')
  have hmap : (scores.map WithBot.some).zipIdx = scores.zipIdx.map fun a => (WithBot.some a.1,a.2) := by
    rw [List.zipIdx_map]
    rfl
  rw [topk,topk,List.zipIdx_append,List.length_map,Nat.zero_add,mergeSort_append hbot,hmap,
    mergeSort_map fun _ _ => WithBot.coe_lt_coe,List.take_append,List.map_append,List.filter_append,
    ← List.map_take,List.map_map,List.filter_eq_self.mpr,List.filter_eq_nil_iff.mpr,List.append_nil]
  · rfl
  · intro i hi
    obtain ⟨⟨b,j⟩,hb,rfl⟩ := List.mem_map.mp hi
    have := List.mem_zipIdx (List.mem_mergeSort.mp (List.mem_of_mem_take hb))
    simp only [decide_eq_true_eq]
    omega
  · intro i hi
    obtain ⟨a,ha,rfl⟩ := List.mem_map.mp hi
    have := List.mem_zipIdx (List.mem_mergeSort.mp (List.mem_of_mem_take ha))
    simp only [Function.comp_apply,decide_eq_true_eq]
    omega

theorem topk_lt {k : Nat} {scores : List K} {t : Nat} (h : t ∈ topk k scores) : t < scores.length := by
  obtain ⟨a,ha,rfl⟩ := List.mem_map.mp h
  have := List.mem_zipIdx (List.mem_mergeSort.mp (List.mem_of_mem_take ha))
  omega

theorem topk_min (k : Nat) (scores : List K) : topk (min k scores.length) scores = topk k scores := by
  have hlen : (scores.zipIdx.mergeSort ahead).length = scores.length := by
    rw [List.length_mergeSort,List.length_zipIdx]
  rw [topk,topk,← hlen,List.take_eq_take_min (i := k)]

end Topk

end SglangLite.Hybrid
