import SglangLite.Kv.Counted
import SglangLite.Hybrid.DualPool

set_option autoImplicit false

namespace SglangLite.Hybrid
open Kv

section Pool

variable {V : Type} [Zero V] {cfg : CacheConfig} {c : RadixCache V}

/-- A pool under an empty tree, in which every allocated block has a reference. -/
structure Bare (c : RadixCache V) : Prop where
  tree : c.tree = .nil
  counted : RadixCache.Counted c

theorem bare_empty : Bare (RadixCache.empty : RadixCache V) := ⟨rfl,RadixCache.counted_empty⟩

omit [Zero V] in
theorem Bare.forkBlocks (h : Bare c) (ids : List BlockId) : Bare (c.forkBlocks ids) :=
  ⟨by rw [RadixCache.forkBlocks_tree,h.tree],h.counted.forkBlocks ids⟩

theorem Bare.releaseBlocks (h : Bare c) (ids : List BlockId) : Bare (c.releaseBlocks ids) :=
  ⟨by rw [RadixCache.releaseBlocks_tree,h.tree],h.counted.releaseBlocks ids⟩

theorem pruned_nil {f : Children} (h : Children.Pruned .nil f) : f = .nil := by
  cases f with
  | nil => rfl
  | cons u n k r =>
    obtain ⟨k',hk,_⟩ := h [u] n k (by simp [Children.nodeAt])
    simp [Children.nodeAt] at hk

theorem Bare.allocateBlocks {held : BlockId → Nat} (h : Bare c) (ho : RadixCache.Owned cfg c held)
    (n : Nat) : Bare (c.allocateBlocks cfg n).1 := by
  refine ⟨pruned_nil ?_,h.counted.allocateLoop n n⟩
  have hal := ho.allocateBlocks n
  rw [← h.tree]
  cases hc : c.allocateBlocks cfg n with
  | mk c' o =>
    rw [hc] at hal
    cases o with
    | none => exact hal.2.pruned
    | some ids => exact hal.1.evolves.pruned

omit [Zero V] in
theorem Bare.forkTables (h : Bare c) (swa comp : List BlockId) : Bare (forkTables c swa comp).1 := by
  unfold Hybrid.forkTables
  split_ifs
  · exact h
  · exact (h.forkBlocks swa).forkBlocks comp
  · exact h.forkBlocks swa

theorem Bare.releaseEntryPages (h : Bare c) (en : V4PrefixEntry) : Bare (releaseEntryPages c en) := by
  unfold Hybrid.releaseEntryPages
  split_ifs
  · exact (h.releaseBlocks _).releaseBlocks _
  · exact h.releaseBlocks _

theorem Bare.dropOldest (h : Bare c) (maxEntries : Nat) (es : List V4PrefixEntry) :
    Bare (dropOldest maxEntries c es).1 := by
  induction es generalizing c with
  | nil => exact h
  | cons en es ih =>
    unfold Hybrid.dropOldest
    split
    · exact ih (h.releaseEntryPages en)
    · exact h

theorem Bare.replaceEntry {en : V4PrefixEntry} {es : List V4PrefixEntry}
    {r : RadixCache V × List V4PrefixEntry} (h : Bare c) (hr : replaceEntry c en es = some r) :
    Bare r.1 := by
  induction es generalizing r with
  | nil => simp [Hybrid.replaceEntry] at hr
  | cons old es ih =>
    unfold Hybrid.replaceEntry at hr
    split at hr
    · cases hr
      exact h.releaseEntryPages old
    · obtain ⟨r',hr',rfl⟩ := Option.map_eq_some_iff.mp hr
      exact ih (r := r') hr'

theorem Bare.insert (h : Bare c) (maxEntries : Nat) (es : List V4PrefixEntry) (en : V4PrefixEntry) :
    Bare (insert maxEntries c es en).1 := by
  have hf := h.forkTables en.swaBlockIds en.compBlockIds
  unfold Hybrid.insert
  split_ifs
  · exact h
  · exact h
  · simp only
    split
    next hr => exact hf.replaceEntry hr
    next => exact hf.dropOldest maxEntries _

structure Stocked (cfg : CacheConfig) (c : RadixCache V) (ts : List (List BlockId))
    (es : List V4PrefixEntry) : Prop where
  shelf : Shelf cfg c ts es
  bare : Bare c

variable {ts us : List (List BlockId)} {es : List V4PrefixEntry} {h : DualPoolHandle}

theorem stocked_empty : Stocked cfg (RadixCache.empty : RadixCache V) [] [] :=
  ⟨⟨⟨(RadixCache.owned_empty cfg).congr fun _ => rfl,by simp⟩,by simp⟩,bare_empty⟩

omit [Zero V] in
theorem Stocked.perm (hs : Stocked cfg c ts es) (hp : ts.Perm us) : Stocked cfg c us es :=
  ⟨⟨hs.shelf.tabled.perm (hp.append_right _),hs.shelf.same⟩,hs.bare⟩

theorem Stocked.insert (maxEntries : Nat) (hs : Stocked cfg c ts es) (en : V4PrefixEntry)
    (he : en.compBlockIds = en.swaBlockIds) (hmem : en.swaBlockIds = [] ∨ en.swaBlockIds ∈ ts) :
    Stocked cfg (insert maxEntries c es en).1 ts (insert maxEntries c es en).2 :=
  ⟨hs.shelf.insert maxEntries en he hmem,hs.bare.insert maxEntries es en⟩

omit [Zero V] in
theorem Stocked.forkForHit {en : V4PrefixEntry} (hs : Stocked cfg c ts es) (hen : en ∈ es) :
    match forkForHit c en with
    | (c',none) => Stocked cfg c' ts es
    | (c',some h) => Stocked cfg c' (h.swaBlocks :: ts) es ∧ h.compBlocks = h.swaBlocks ∧ h.swaBlocks ≠ [] := by
  unfold Hybrid.forkForHit
  by_cases hnil : en.swaBlockIds = []
  · rw [if_pos hnil]
    exact hs
  · rw [if_neg hnil,hs.shelf.same en hen,forkTables_same]
    have hin : en.swaBlockIds ∈ ts ++ es.map (·.swaBlockIds) :=
      List.mem_append_right _ (List.mem_map_of_mem hen)
    exact ⟨⟨⟨hs.shelf.tabled.fork hin,hs.shelf.same⟩,hs.bare.forkBlocks _⟩,rfl,hnil⟩

theorem Stocked.releaseHandle (hs : Stocked cfg c (h.swaBlocks :: ts) es) (hne : h.swaBlocks ≠ []) :
    Stocked cfg (releaseHandle c h) ts es := by
  simp only [Hybrid.releaseHandle,hne,if_false]
  exact ⟨⟨Tabled.release hs.shelf.tabled,hs.shelf.same⟩,hs.bare.releaseBlocks _⟩

theorem Stocked.ensureCapacity (hs : Stocked cfg c (h.swaBlocks :: ts) es)
    (hsame : h.compBlocks = h.swaBlocks) (hne : h.swaBlocks ≠ []) (n : Nat) :
    Stocked cfg (ensureCapacity cfg c h n).1 ((ensureCapacity cfg c h n).2.1.swaBlocks :: ts) es ∧
      (ensureCapacity cfg c h n).2.1.compBlocks = (ensureCapacity cfg c h n).2.1.swaBlocks ∧
      (ensureCapacity cfg c h n).2.1.swaBlocks ≠ [] := by
  have ht : Tabled cfg c (h.swaBlocks :: (ts ++ es.map (·.swaBlockIds))) := hs.shelf.tabled
  obtain ⟨hg,_⟩ := ensureCapacity_grown ht hsame n
  obtain ⟨extra,hex,_⟩ := hg.table
  refine ⟨⟨⟨hg.tabled,hs.shelf.same⟩,?_⟩,hg.same,by simp [hex,hne]⟩
  have hdist : distinctTables h.swaBlocks h.compBlocks = false := by simp [distinctTables,hsame]
  unfold Hybrid.ensureCapacity
  simp only [hdist,Bool.false_eq_true,if_false]
  split
  · exact hs.bare
  · have ha := hs.bare.allocateBlocks hs.shelf.tabled.owned (cfg.pages n-h.swaBlocks.length)
    split
    next hc => rw [hc] at ha; exact ha
    next hc => rw [hc] at ha; exact ha

end Pool

theorem Stocked.dualWrite {cfg : CacheConfig} {c : PagePool} {ts : List (List BlockId)}
    {es : List V4PrefixEntry} (hs : Stocked cfg c ts es) (row : Row) (n : Nat) (fails : Bool) :
    match dualWrite cfg c row n fails with
    | (c',none) => Stocked cfg c' ts es
    | (c',some h) => Stocked cfg c' (h.swaBlocks :: ts) es ∧ h.compBlocks = h.swaBlocks ∧ h.swaBlocks ≠ [] := by
  unfold Hybrid.dualWrite
  by_cases hn : n = 0
  · rw [if_pos hn]
    exact hs
  · rw [if_neg hn]
    have hb := hs.bare.allocateBlocks hs.shelf.tabled.owned (cfg.pages n)
    have hg := (Tabled.nil_cons.mpr hs.shelf.tabled).grow (n := cfg.pages n)
    cases hc : c.allocateBlocks cfg (cfg.pages n) with
    | mk c₁ o =>
      rw [hc] at hg hb
      cases o with
      | none => exact ⟨⟨Tabled.nil_cons.mp hg.1,hs.shelf.same⟩,hb⟩
      | some ids =>
        obtain ⟨htab,hlen,_⟩ := hg
        have hne : ids ≠ [] := by
          intro hnil
          rw [hnil,List.length_nil] at hlen
          have := cfg.pages_le_iff.mp (Nat.le_of_eq hlen.symm)
          omega
        have hst : Stocked cfg c₁ (ids :: ts) es := ⟨⟨htab,hs.shelf.same⟩,hb⟩
        cases fails with
        | true => exact hst.releaseHandle (h := { swaBlocks := ids, compBlocks := ids }) hne
        | false => exact ⟨hst,rfl,hne⟩

end SglangLite.Hybrid
