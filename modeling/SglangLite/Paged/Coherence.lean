import SglangLite.Paged.Cancel
import SglangLite.Paged.Phases

set_option autoImplicit false

namespace SglangLite.Paged
open Kv Sched Text

namespace Engine

variable {V : Type} {cfg : Config V} {e e' : Engine V}

/-- Every cached position of a live sequence, and every position of a node with
committed pages, holds the KV of its own token prefix. -/
structure Coherent (cfg : Config V) (e : Engine V) : Prop where
  seqs : ∀ i, (e.seq i).finished = false →
    Holds cfg e.radix.pages (e.seq i).blockTable (e.seq i).tokens (e.seq i).cachedLen
  nodes : ∀ p, e.radix.tree.blocksAt p ≠ [] →
    Holds cfg e.radix.pages (e.radix.tree.blocksAt p) p p.length

def Alone (e : Engine V) (b : BlockId) : Prop := e.sched.held b ≤ 1 ∧ e.radix.tree.count b = 0

structure Core (cfg : Config V) (e : Engine V) : Prop where
  base : Base cfg e
  coherent : Coherent cfg e
  alone : ∀ i, (e.seq i).finished = true → ∀ b ∈ (e.seq i).blockTable, Alone e b
  queue_lt : ∀ i ∈ e.sched.running ++ e.sched.waiting, i < e.sched.seqs.length
  queue_nodup : (e.sched.running ++ e.sched.waiting).Nodup
  noPast : e.radix.tree.NoPast
  noState : ∀ i, (e.seq i).finished = false → (e.seq i).kvState = false

theorem held_pos {i : SeqId} {b : BlockId} (hb : b ∈ (e.seq i).blockTable) :
    0 < e.sched.held b := by
  have := Scheduler.count_le_held e.sched i b
  have := List.count_pos_iff.mpr (show b ∈ (e.sched.seq i).blockTable from hb)
  omega

theorem Alone.unique {i j : SeqId} {b : BlockId} (h : Alone e b) (hi : b ∈ (e.seq i).blockTable)
    (hj : b ∈ (e.seq j).blockTable) : i = j := by
  by_contra hij
  have := Scheduler.two_tables (s := e.sched) hij b
  have := List.count_pos_iff.mpr (show b ∈ (e.sched.seq i).blockTable from hi)
  have := List.count_pos_iff.mpr (show b ∈ (e.sched.seq j).blockTable from hj)
  have := h.1
  omega

theorem Alone.not_node {p : List Token} {b : BlockId} (h : Alone e b) :
    b ∉ e.radix.tree.blocksAt p := by
  intro hb
  have := Children.mem_blocksAt_count hb
  have := h.2
  omega

theorem core_init [Zero V] (cfg : Config V) : Core cfg (init : Engine V) where
  base := base_init cfg
  coherent := ⟨fun i hi => absurd (lt_of_unfinished hi) (by simp [init]),
    fun p hp => by simp [init,RadixCache.empty] at hp⟩
  alone := fun i hi b hb => by
    rw [(Clean.init cfg).emptied i hi] at hb
    simp at hb
  queue_lt := by simp [init]
  queue_nodup := by simp [init]
  noPast := fun p n k h => by simp [init,RadixCache.empty] at h
  noState := fun i hi => absurd (lt_of_unfinished hi) (by simp [init])

theorem Core.withPc (h : Core cfg e) (pc : Pc) : Core cfg { e with pc := pc } :=
  ⟨h.base.withPc pc,⟨h.coherent.seqs,h.coherent.nodes⟩,h.alone,h.queue_lt,h.queue_nodup,
    h.noPast,h.noState⟩

theorem Core.ended (h : Core cfg e) (hb : Base cfg e') (hend : Ended e e') : Core cfg e' where
  base := hb
  coherent := by
    refine ⟨fun i hi => ?_,fun p hp => ?_⟩
    · have heq := hend.live hi
      rw [heq] at hi ⊢
      exact (h.coherent.seqs i hi).congr fun b hbm =>
        hend.pages b (by have := held_pos (e := e') (heq ▸ hbm); omega)
    · rw [hend.tree] at hp ⊢
      refine (h.coherent.nodes p hp).congr fun b hbm => hend.pages b ?_
      have := Children.mem_blocksAt_count hbm
      rw [hend.tree]
      omega
  alone := by
    intro i hi b hbm
    rcases hend.seqs i with heq | ⟨_,ht,_⟩
    · rw [heq] at hi hbm
      obtain ⟨h1,h2⟩ := h.alone i hi b hbm
      exact ⟨(hend.held_le b).trans h1,by rw [hend.tree]; exact h2⟩
    · rw [ht] at hbm
      simp at hbm
  queue_lt := fun i hi => by
    rw [hend.length]
    exact h.queue_lt i ((hend.running.append hend.waiting).subset hi)
  queue_nodup := (hend.running.append hend.waiting).nodup h.queue_nodup
  noPast := hend.tree ▸ h.noPast
  noState := fun i hi => by
    have heq := hend.live hi
    rw [heq] at hi ⊢
    exact h.noState i hi

theorem Grown.alone_new {i : SeqId} {new : List BlockId} {b : BlockId} (hg : Grown cfg e i new e')
    (hi : i < e.sched.seqs.length) (hb : b ∈ new) : Alone e' b := by
  obtain ⟨h0,h1⟩ := hg.fresh b hb
  have hnd := hg.base.nodup i
  rw [hg.seq_self hi] at hnd
  have := List.nodup_iff_count_le_one.mp (List.nodup_append.mp hnd).2.1 b
  exact ⟨by rw [hg.held hi]; omega,h1⟩

theorem Grown.alone_old {i : SeqId} {new : List BlockId} {b : BlockId} (hg : Grown cfg e i new e')
    (hi : i < e.sched.seqs.length) (ha : Alone e b) (hb : b ∉ new) : Alone e' b := by
  have hz := List.count_eq_zero.mpr hb
  have hc := hg.evolves.count_le b
  obtain ⟨h0,h1⟩ := ha
  exact ⟨by rw [hg.held hi,hz]; exact h0,by omega⟩

theorem Core.grown {i : SeqId} {new : List BlockId} (h : Core cfg e)
    (hi : i < e.sched.seqs.length) (hg : Grown cfg e i new e') : Core cfg e' := by
  have hkeep : ∀ j, ∀ b ∈ (e.seq j).blockTable, e'.radix.pages b = e.radix.pages b :=
    fun j b hb => hg.evolves.pages b (by have := held_pos hb; omega)
  have hold : ∀ j, ∀ b ∈ (e.seq j).blockTable, Alone e b → Alone e' b := by
    intro j b hb ha
    refine hg.alone_old hi ha fun hbn => ?_
    have := (hg.fresh b hbn).1
    have := held_pos hb
    omega
  refine ⟨hg.base,⟨fun j hj => ?_,fun p hp => ?_⟩,fun j hj b hb => ?_,?_,?_,
    h.noPast.pruned hg.evolves.pruned,fun j hj => ?_⟩
  · rw [hg.field (·.finished) (fun _ _ => rfl)] at hj
    have hH := (h.coherent.seqs j hj).congr (hkeep j)
    rw [hg.field (·.tokens) (fun _ _ => rfl),hg.field (·.cachedLen) (fun _ _ => rfl)]
    by_cases hji : j = i
    · subst hji
      rw [hg.seq_self hi]
      exact hH.append new
    · rw [hg.seq_ne hji]
      exact hH
  · rcases hg.evolves.pruned.blocksAt p with heq | heq
    · rw [heq] at hp ⊢
      refine (h.coherent.nodes p hp).congr fun b hb => hg.evolves.pages b ?_
      have := Children.mem_blocksAt_count (heq ▸ hb)
      omega
    · exact absurd heq hp
  · rw [hg.field (·.finished) (fun _ _ => rfl)] at hj
    by_cases hji : j = i
    · subst hji
      rw [hg.seq_self hi] at hb
      rcases List.mem_append.mp hb with hb | hb
      · exact hold j b hb (h.alone j hj b hb)
      · exact hg.alone_new hi hb
    · rw [hg.seq_ne hji] at hb
      exact hold j b hb (h.alone j hj b hb)
  · rw [hg.length,hg.sched]
    exact h.queue_lt
  · rw [hg.sched]
    exact h.queue_nodup
  · rw [hg.field (·.finished) (fun _ _ => rfl)] at hj
    rw [hg.field (·.kvState) (fun _ _ => rfl)]
    exact h.noState j hj

theorem Swapped.field {α : Type} (g : Sequence → α) (hg : ∀ q t, g { q with blockTable := t } = g q)
    {i : SeqId} {page : Nat} {b b' : BlockId} (h : Swapped cfg e i page b b' e') (j : SeqId) :
    g (e'.seq j) = g (e.seq j) := by
  unfold Engine.seq
  rw [h.sched]
  exact seq_modify_field (e := e) g (fun q => hg q _) i j

theorem Swapped.seq_self {i : SeqId} {page : Nat} {b b' : BlockId}
    (h : Swapped cfg e i page b b' e') (hi : i < e.sched.seqs.length) :
    e'.seq i = { e.seq i with blockTable := (e.seq i).blockTable.set page b' } := by
  unfold Engine.seq
  rw [h.sched,Scheduler.seq_modify_self hi]

theorem Swapped.seq_ne {i j : SeqId} {page : Nat} {b b' : BlockId}
    (h : Swapped cfg e i page b b' e') (hij : j ≠ i) : e'.seq j = e.seq j := by
  unfold Engine.seq
  rw [h.sched,Scheduler.seq_modify_ne hij]

theorem Swapped.alone_new {i : SeqId} {page : Nat} {b b' : BlockId}
    (h : Swapped cfg e i page b b' e') : Alone e' b' := by
  obtain ⟨h0,h1⟩ := h.cowed.alone
  refine ⟨?_,h1⟩
  -- both counts are exact, so the tables hold the copy as often as promised
  have hpos : 0 < e'.sched.held b'+e'.radix.tree.count b' ∨ e'.sched.held b' = 0 := by omega
  rcases hpos with hpos | hz
  · have hr := h.base.owned.refs_of_pos hpos
    have := h.cowed.owned.refs_eq b' _ hr
    rw [h0] at this
    simp only [if_true] at this
    split_ifs at this <;> omega
  · omega

theorem Swapped.alone_old {i : SeqId} {page : Nat} {b b' x : BlockId}
    (h : Swapped cfg e i page b b' e') (ha : Alone e x) : Alone e' x := by
  by_cases hxb : x = b'
  · exact hxb ▸ h.alone_new
  · have hc := h.cowed.count_le x
    refine ⟨?_,by have := ha.2; omega⟩
    by_cases hz : e'.sched.held x = 0
    · omega
    · have hr := h.base.owned.refs_of_pos (b := x) (by omega)
      have := h.cowed.owned.refs_eq x _ hr
      simp only [hxb,if_false] at this
      have := ha.1
      have := ha.2
      split_ifs at * <;> omega

theorem Swapped.pages {i j : SeqId} {page : Nat} {b b' x : BlockId}
    (h : Swapped cfg e i page b b' e') (hx : x ∈ (e.seq j).blockTable) :
    e'.radix.pages x = e.radix.pages x := by
  have hpos := held_pos hx
  by_cases hxb : x = b'
  · have h0 := h.cowed.alone.1
    subst hxb
    by_cases hbb : x = b
    · rw [h.cowed.copied,hbb]
    · simp only [hbb,if_false] at h0
      omega
  · exact h.cowed.pages x hxb (by omega)

theorem Core.swapped {i : SeqId} {page : Nat} {b b' : BlockId} (h : Core cfg e)
    (hi : i < e.sched.seqs.length) (hs : Swapped cfg e i page b b' e') : Core cfg e' := by
  refine ⟨hs.base,⟨fun j hj => ?_,fun p hp => ?_⟩,fun j hj x hx => ?_,?_,?_,
    h.noPast.pruned hs.cowed.pruned,fun j hj => ?_⟩
  · rw [hs.field (·.finished) (fun _ _ => rfl)] at hj
    have hH := h.coherent.seqs j hj
    rw [hs.field (·.tokens) (fun _ _ => rfl),hs.field (·.cachedLen) (fun _ _ => rfl)]
    by_cases hji : j = i
    · subst hji
      rw [hs.seq_self hi]
      intro l hl
      obtain ⟨x,hx,hv⟩ := hH l hl
      by_cases hpage : page = l/cfg.cache.blockSize
      · have hxb : b = x := by
          have := hs.was
          rw [hpage,hx] at this
          exact (Option.some.inj this).symm
        have hlt := (List.getElem?_eq_some_iff.mp hx).1
        refine ⟨b',?_,?_⟩
        · rw [hpage,List.getElem?_set_self hlt]
        · rw [hs.cowed.copied,hxb]
          exact hv
      · refine ⟨x,?_,?_⟩
        · rw [List.getElem?_set_ne hpage]
          exact hx
        · rw [hs.pages (List.mem_of_getElem? hx)]
          exact hv
    · rw [hs.seq_ne hji]
      exact hH.congr fun x hx => hs.pages hx
  · rcases hs.cowed.pruned.blocksAt p with heq | heq
    · rw [heq] at hp ⊢
      refine (h.coherent.nodes p hp).congr fun x hx => ?_
      have hpos := Children.mem_blocksAt_count (heq ▸ hx)
      have hxb : x ≠ b' := by
        rintro rfl
        have := hs.cowed.alone.2
        omega
      exact hs.cowed.pages x hxb (by omega)
    · exact absurd heq hp
  · rw [hs.field (·.finished) (fun _ _ => rfl)] at hj
    by_cases hji : j = i
    · subst hji
      rw [hs.seq_self hi] at hx
      rcases List.mem_or_eq_of_mem_set hx with hx | rfl
      · exact hs.alone_old (h.alone j hj x hx)
      · exact hs.alone_new
    · rw [hs.seq_ne hji] at hx
      exact hs.alone_old (h.alone j hj x hx)
  · rw [hs.sched,Scheduler.length_modify]
    exact h.queue_lt
  · rw [hs.sched]
    exact h.queue_nodup
  · rw [hs.field (·.finished) (fun _ _ => rfl)] at hj
    rw [hs.field (·.kvState) (fun _ _ => rfl)]
    exact h.noState j hj

section Write

/-- A write of `vals` from `start` on through the table of `i` that agrees with
whatever other owners keep in the slots it hits. -/
def Agrees (cfg : Config V) (e : Engine V) (i : SeqId) (start : Nat) (vals : List V) : Prop :=
  ∀ j v b, vals[j]? = some v → (e.seq i).blockTable[(start+j)/cfg.cache.blockSize]? = some b →
    (∀ k, (e.seq k).finished = false → k ≠ i → ∀ l < (e.seq k).cachedLen,
      (e.seq k).blockTable[l/cfg.cache.blockSize]? = some b →
      l%cfg.cache.blockSize = (start+j)%cfg.cache.blockSize →
      v = cfg.kv ((e.seq k).tokens.take (l+1))) ∧
    ∀ p, ∀ l < p.length, (e.radix.tree.blocksAt p)[l/cfg.cache.blockSize]? = some b →
      l%cfg.cache.blockSize = (start+j)%cfg.cache.blockSize → v = cfg.kv (p.take (l+1))

theorem writeKv_slot (cc : CacheConfig) {table : List BlockId} (c : RadixCache V) (pos : Nat)
    (vals : List V) (hn : table.Nodup) (b : BlockId) (s : Nat) :
    (∃ j v, vals[j]? = some v ∧ table[(pos+j)/cc.blockSize]? = some b ∧
        s = (pos+j)%cc.blockSize ∧ (RadixCache.writeKv cc table c pos vals).pages b s = v) ∨
      (RadixCache.writeKv cc table c pos vals).pages b s = c.pages b s := by
  by_cases h : ∃ j, j < vals.length ∧ table[(pos+j)/cc.blockSize]? = some b ∧
      (pos+j)%cc.blockSize = s
  · obtain ⟨j,hj,hb,hs⟩ := h
    have hv : vals[j]? = some vals[j] := List.getElem?_eq_getElem hj
    obtain ⟨b',hb',hval⟩ := writeKv_at c pos vals hn hv (List.getElem?_eq_some_iff.mp hb).1
    obtain rfl : b = b' := Option.some.inj (hb.symm.trans hb')
    exact .inl ⟨j,vals[j],hv,hb,hs.symm,hs ▸ hval⟩
  · refine .inr (writeKv_other c pos vals fun j hj hb hs => h ⟨j,hj,hb,hs⟩)

/-- A write at the end of what is cached of `i` disturbs nothing, when it
agrees with the other owners. -/
theorem Core.write {i : SeqId} {vals : List V} (h : Core cfg e)
    (hw : Agrees cfg e i (e.seq i).cachedLen vals) :
    Core cfg { e with
      radix := RadixCache.writeKv cfg.cache (e.seq i).blockTable e.radix (e.seq i).cachedLen vals } := by
  have hslot := writeKv_slot cfg.cache e.radix (e.seq i).cachedLen vals (h.base.nodup i)
  rw [writeKv_eq] at hslot ⊢
  generalize (RadixCache.writeKv cfg.cache (e.seq i).blockTable e.radix
      (e.seq i).cachedLen vals).pages = pages at hslot ⊢
  refine ⟨h.base.withPages pages,⟨fun k hk l hl => ?_,fun p hp l hl => ?_⟩,h.alone,h.queue_lt,
    h.queue_nodup,h.noPast,h.noState⟩
  · obtain ⟨b,hb,hv⟩ := h.coherent.seqs k hk l hl
    refine ⟨b,hb,?_⟩
    rcases hslot b (l%cfg.cache.blockSize) with ⟨j,v,hj,hbt,hs,hval⟩ | hsame
    · refine hval.trans ?_
      by_cases hki : k = i
      · subst hki
        have := slot_inj (h.base.nodup k) hb hbt hs
        have hl' : l < (e.seq k).cachedLen := hl
        omega
      · exact (hw j v b hj hbt).1 k hk hki l hl hb hs
    · exact hsame.trans hv
  · obtain ⟨b,hb,hv⟩ := h.coherent.nodes p hp l hl
    refine ⟨b,hb,?_⟩
    rcases hslot b (l%cfg.cache.blockSize) with ⟨j,v,hj,hbt,hs,hval⟩ | hsame
    · exact hval.trans ((hw j v b hj hbt).2 p l hl hb hs)
    · exact hsame.trans hv

theorem Holds.written {table : List BlockId} {tokens : List Token} {len n : Nat}
    {c : RadixCache V} (hn : table.Nodup) (h : Holds cfg c.pages table tokens len)
    (hl : cfg.cache.pages (len+n) ≤ table.length) :
    Holds cfg (RadixCache.writeKv cfg.cache table c len
      ((List.range n).map fun j => cfg.kv (tokens.take (len+j+1)))).pages table tokens (len+n) := by
  intro l hlt
  by_cases hold : l < len
  · obtain ⟨b,hb,hv⟩ := h l hold
    refine ⟨b,hb,?_⟩
    rw [writeKv_other]
    · exact hv
    · intro j _ hbj hs
      have := slot_inj hn hbj hb hs
      omega
  · obtain ⟨j,rfl⟩ : ∃ j, l = len+j := ⟨l-len,by omega⟩
    have hv : ((List.range n).map fun j => cfg.kv (tokens.take (len+j+1)))[j]? =
        some (cfg.kv (tokens.take (len+j+1))) := by
      simp [show j < n by omega]
    have hlt' := lt_pages cfg.cache hlt
    exact writeKv_at c len _ hn hv (by omega)

theorem Core.modify {i : SeqId} {f : Sequence → Sequence} (h : Core cfg e)
    (ht : ∀ q, (f q).blockTable = q.blockTable) (hp : ∀ q, (f q).inputIds = q.inputIds)
    (hf : ∀ q, (f q).finished = q.finished)
    (hs : (e.seq i).finished = false → (f (e.seq i)).kvState = false)
    (hH : (e.seq i).finished = false → Holds cfg e.radix.pages (e.seq i).blockTable
      (f (e.seq i)).tokens (f (e.seq i)).cachedLen) : Core cfg (e.modify i f) := by
  have hheld : ∀ b, (e.modify i f).sched.held b = e.sched.held b :=
    fun b => Scheduler.held_modify_same e.sched i f b ht
  refine ⟨h.base.modify i ht hp,⟨fun j hj => ?_,h.coherent.nodes⟩,fun j hj b hb => ?_,
    fun j hj => ?_,h.queue_nodup,h.noPast,fun j hj => ?_⟩
  · rw [seq_modify_field (·.finished) hf] at hj
    by_cases hji : j = i
    · subst hji
      rw [seq_modify_self (lt_of_unfinished hj),ht]
      exact hH hj
    · rw [seq_modify_ne hji]
      exact h.coherent.seqs j hj
  · rw [seq_modify_field (·.finished) hf] at hj
    rw [seq_modify_field (·.blockTable) ht] at hb
    obtain ⟨h1,h2⟩ := h.alone j hj b hb
    exact ⟨by rw [hheld]; exact h1,h2⟩
  · simpa [Engine.modify] using h.queue_lt j hj
  · rw [seq_modify_field (·.finished) hf] at hj
    by_cases hji : j = i
    · subst hji
      rw [seq_modify_self (lt_of_unfinished hj)]
      exact hs hj
    · rw [seq_modify_ne hji]
      exact h.noState j hj

end Write

section Call

def PageAlone (cfg : Config V) (e : Engine V) (i : SeqId) : Prop :=
  ∀ b, (e.seq i).blockTable[(e.seq i).cachedLen/cfg.cache.blockSize]? = some b → Alone e b

/-- A prefill of `i` overwrites no slot in which another live sequence or a
node of the tree keeps the KV of different tokens. -/
def PrefillAgrees (cfg : Config V) (e : Engine V) (i : SeqId) : Prop :=
  ∀ pos b, (e.seq i).cachedLen ≤ pos → pos < (e.seq i).inputIds.length →
    (e.seq i).blockTable[pos/cfg.cache.blockSize]? = some b →
    (∀ k, (e.seq k).finished = false → k ≠ i → ∀ l < (e.seq k).cachedLen,
      (e.seq k).blockTable[l/cfg.cache.blockSize]? = some b →
      l%cfg.cache.blockSize = pos%cfg.cache.blockSize →
      (e.seq k).tokens.take (l+1) = (e.seq i).inputIds.take (pos+1)) ∧
    ∀ p, ∀ l < p.length, (e.radix.tree.blocksAt p)[l/cfg.cache.blockSize]? = some b →
      l%cfg.cache.blockSize = pos%cfg.cache.blockSize →
      p.take (l+1) = (e.seq i).inputIds.take (pos+1)

theorem agrees_of_alone {i : SeqId} {start : Nat} {vals : List V}
    (h : ∀ j v b, vals[j]? = some v →
      (e.seq i).blockTable[(start+j)/cfg.cache.blockSize]? = some b → Alone e b) :
    Agrees cfg e i start vals := by
  intro j v b hj hb
  have ha := h j v b hj hb
  refine ⟨fun k _ hki l _ hl _ => ?_,fun p l _ hl _ => ?_⟩
  · exact absurd (ha.unique (List.mem_of_getElem? hl) (List.mem_of_getElem? hb)) hki
  · exact absurd (List.mem_of_getElem? hl) ha.not_node

theorem agrees_decode {i : SeqId} (h : PageAlone cfg e i) :
    Agrees cfg e i (e.seq i).cachedLen (decodeKv cfg (e.seq i)) := by
  refine agrees_of_alone fun j v b hj hb => h b ?_
  have hj0 : j = 0 := by
    have := (List.getElem?_eq_some_iff.mp hj).1
    simp only [decodeKv,List.length_singleton] at this
    omega
  rw [hj0,Nat.add_zero] at hb
  exact hb

theorem agrees_prefill {i : SeqId} (hc : Core cfg e)
    (h : (e.seq i).finished = false → PrefillAgrees cfg e i) :
    Agrees cfg e i (e.seq i).cachedLen (prefillKv cfg (e.seq i)) := by
  cases hf : (e.seq i).finished with
  | true => exact agrees_of_alone fun j v b _ hb => hc.alone i hf b (List.mem_of_getElem? hb)
  | false =>
    intro j v b hj hb
    have hlt : j < Scheduler.remainingPrompt (e.seq i) := by
      have := (List.getElem?_eq_some_iff.mp hj).1
      simpa [prefillKv] using this
    have hv : v = cfg.kv ((e.seq i).inputIds.take ((e.seq i).cachedLen+j+1)) := by
      simp only [prefillKv,List.getElem?_map,List.getElem?_range hlt,Option.map_some,
        Option.some.injEq] at hj
      exact hj.symm
    unfold Scheduler.remainingPrompt at hlt
    obtain ⟨h1,h2⟩ := h hf ((e.seq i).cachedLen+j) b (by omega) (by omega) hb
    refine ⟨fun k hk hki l hl hbl hs => ?_,fun p l hl hbl hs => ?_⟩
    · rw [hv,h1 k hk hki l hl hbl hs]
    · rw [hv,h2 p l hl hbl hs]

theorem Agrees.grown {i : SeqId} {start : Nat} {vals : List V} {new : List BlockId}
    (h : Agrees cfg e i start vals) (hi : i < e.sched.seqs.length) (hg : Grown cfg e i new e') :
    Agrees cfg e' i start vals := by
  intro j v b hj hb
  rw [hg.seq_self hi] at hb
  by_cases hlt : (start+j)/cfg.cache.blockSize < (e.seq i).blockTable.length
  · rw [List.getElem?_append_left hlt] at hb
    obtain ⟨h1,h2⟩ := h j v b hj hb
    refine ⟨fun k hk hki l hl hbl hs => ?_,fun p l hl hbl hs => ?_⟩
    · rw [hg.seq_ne hki] at hk hl hbl ⊢
      exact h1 k hk hki l hl hbl hs
    · rcases hg.evolves.pruned.blocksAt p with heq | heq
      · rw [heq] at hbl
        exact h2 p l hl hbl hs
      · simp [heq] at hbl
  · rw [List.getElem?_append_right (Nat.le_of_not_lt hlt)] at hb
    obtain ⟨h0,h1⟩ := hg.fresh b (List.mem_of_getElem? hb)
    refine ⟨fun k _ hki l _ hbl _ => ?_,fun p l _ hbl _ => ?_⟩
    · rw [hg.seq_ne hki] at hbl
      have := held_pos (List.mem_of_getElem? hbl)
      omega
    · have := Children.mem_blocksAt_count (List.mem_of_getElem? hbl)
      omega

variable [Zero V]

/-- A commit in the mode that rebuilds KV from pages: the table is topped up,
then the values are written. -/
theorem Core.commitPages {i : SeqId} {vals : List V} {e₂ : Engine V} {ok : Bool}
    (hm : cfg.mode = .hfRebuild) (h : Core cfg e) (hi : i < e.sched.seqs.length)
    (hw : Agrees cfg e i (e.seq i).cachedLen vals) (hx : commitPages cfg e i vals = (e₂,ok)) :
    Core cfg e₂ ∧ ∃ new e₁, Grown cfg e i new e₁ ∧ e₂.sched = e₁.sched ∧
      e₂.radix.tree = e₁.radix.tree ∧
      (ok = true → e₂.radix = RadixCache.writeKv cfg.cache (e₁.seq i).blockTable e₁.radix
          (e.seq i).cachedLen vals ∧
        cfg.cache.pages ((e.seq i).cachedLen+vals.length) ≤ (e₁.seq i).blockTable.length) := by
  obtain ⟨new,hg,hlen⟩ := h.base.ensureBlocks ((e.seq i).cachedLen+vals.length) hi
  unfold Engine.commitPages at hx
  simp only [hm] at hx
  generalize Engine.ensureBlocks cfg e i ((e.seq i).cachedLen+vals.length) = w at hx hg hlen
  obtain ⟨e₁,ok₁⟩ := w
  have hcore := h.grown hi hg
  cases ok₁ with
  | false =>
    obtain ⟨rfl,rfl⟩ := Prod.mk.inj hx
    exact ⟨hcore,new,e₁,hg,rfl,rfl,by simp⟩
  | true =>
    obtain ⟨rfl,rfl⟩ := Prod.mk.inj hx
    have hcl : (e₁.seq i).cachedLen = (e.seq i).cachedLen := hg.field (·.cachedLen) (fun _ _ => rfl) i
    have hw' := hw.grown hi hg
    rw [← hcl] at hw'
    have := hcore.write hw'
    rw [hcl] at this
    exact ⟨this,new,e₁,hg,rfl,by simp only; rw [writeKv_eq],fun _ => ⟨rfl,hlen rfl⟩⟩

omit [Zero V] in
theorem PageAlone.grown {i j : SeqId} {new : List BlockId} (h : PageAlone cfg e j)
    (hi : i < e.sched.seqs.length) (hg : Grown cfg e i new e') : PageAlone cfg e' j := by
  intro b hb
  rw [hg.field (·.cachedLen) (fun _ _ => rfl)] at hb
  by_cases hbn : b ∈ new
  · exact hg.alone_new hi hbn
  · have hb' : (e.seq j).blockTable[(e.seq j).cachedLen/cfg.cache.blockSize]? = some b := by
      by_cases hji : j = i
      · subst hji
        rw [hg.seq_self hi,List.getElem?_append] at hb
        split_ifs at hb
        · exact hb
        · exact absurd (List.mem_of_getElem? hb) hbn
      · rw [hg.seq_ne hji] at hb
        exact hb
    exact hg.alone_old hi (h b hb') hbn

omit [Zero V] in
theorem PageAlone.swapped {i j : SeqId} {page : Nat} {b b' : BlockId} (h : PageAlone cfg e j)
    (hi : i < e.sched.seqs.length) (hs : Swapped cfg e i page b b' e') : PageAlone cfg e' j := by
  intro x hx
  rw [hs.field (·.cachedLen) (fun _ _ => rfl)] at hx
  by_cases hji : j = i
  · subst hji
    rw [hs.seq_self hi] at hx
    by_cases hpage : page = (e.seq j).cachedLen/cfg.cache.blockSize
    · have hlt := (List.getElem?_eq_some_iff.mp hs.was).1
      simp only [← hpage,List.getElem?_set_self hlt,Option.some.injEq] at hx
      exact hx ▸ hs.alone_new
    · simp only [List.getElem?_set_ne hpage] at hx
      exact hs.alone_old (h x hx)
  · rw [hs.seq_ne hji] at hx
    exact hs.alone_old (h x hx)

def SamePhase (q q' : Sequence) : Prop :=
  q'.inputIds = q.inputIds ∧ q'.outputIds = q.outputIds ∧ q'.cachedLen = q.cachedLen ∧
    q'.lastLogits = q.lastLogits

structure Called (cfg : Config V) (e : Engine V) (op : Op) (ok : Bool) (e' : Engine V) : Prop where
  core : Core cfg e'
  acted : Acted cfg e op e'
  phase : ∀ j, op.result ≠ some j → SamePhase (e.seq j) (e'.seq j)
  alone : ∀ j, op.result ≠ some j → PageAlone cfg e j → PageAlone cfg e' j
  copied : ∀ i, op = .cow i → ok = true → PageAlone cfg e' i
  done : ∀ i, op.result = some i → ok = true → (e.seq i).finished = false →
    Done (e'.seq i) ∧ (e'.seq i).outputIds = (e.seq i).outputIds

omit [Zero V] in
theorem Called.refl {op : Op} {ok : Bool} (h : Core cfg e) (hr : op.result = none)
    (hc : ∀ i, op ≠ .cow i) : Called cfg e op ok e :=
  ⟨h,.refl op h.base,fun _ _ => ⟨rfl,rfl,rfl,rfl⟩,fun _ _ ha => ha,fun i hi => absurd hi (hc i),
    fun i hi => by simp [hr] at hi⟩

omit [Zero V] in
theorem decodeKv_eq {q : Sequence} (h : Ready q) :
    decodeKv cfg q = (List.range 1).map fun j => cfg.kv (q.tokens.take (q.cachedLen+j+1)) := by
  have hlen : q.tokens.length-1 = q.cachedLen := by have := h.2; omega
  simp only [decodeKv,lastToken,hlen,List.take_append_drop,List.range_one,List.map_cons,List.map_nil,
    Nat.add_zero,h.2,List.take_length]

omit [Zero V] in
theorem prefillKv_eq {q : Sequence} (h : q.outputIds = []) :
    prefillKv cfg q = (List.range (Scheduler.remainingPrompt q)).map fun j =>
      cfg.kv (q.tokens.take (q.cachedLen+j+1)) := by
  simp [prefillKv,Sequence.tokens,h]

theorem Core.commit (op : Op) (raised : Bool) {i : SeqId} {vals : List V} {e₂ : Engine V} {ok : Bool}
    {n : Nat} {f : Sequence → Sequence} (hm : cfg.mode = .hfRebuild) (h : Core cfg e)
    (hi : i < e.sched.seqs.length) (hop : op.target = some i) (hres : op.result = some i)
    (hw : Agrees cfg e i (e.seq i).cachedLen vals) (hx : Engine.commitPages cfg e i vals = (e₂,ok))
    (ha : allocates cfg e op = decide (cfg.mode = .hfRebuild))
    (hvals : (e.seq i).finished = false → vals = (List.range n).map fun j =>
      cfg.kv ((e.seq i).tokens.take ((e.seq i).cachedLen+j+1)))
    (hn : (e.seq i).finished = false → (e.seq i).cachedLen+n = (e.seq i).tokens.length)
    (ht : ∀ q, (f q).blockTable = q.blockTable) (hp : ∀ q, (f q).inputIds = q.inputIds)
    (hf : ∀ q, (f q).finished = q.finished) (hgr : ∀ q, (f q).greedy = q.greedy)
    (hout : ∀ q, (f q).outputIds = q.outputIds) (hs : ∀ q, (f q).kvState = false)
    (hlen : (e.seq i).finished = false → ∀ q, q.inputIds = (e.seq i).inputIds →
      q.cachedLen = (e.seq i).cachedLen → (f q).cachedLen = (e.seq i).cachedLen+n) :
    Called cfg e op (ok && raised) (if ok then e₂.modify i f else e₂) := by
  have hact := h.base.commitPages_acted op vals hi hop ha
  rw [hx] at hact
  obtain ⟨hcore,new,e₁,hg,hsched,htree,hwrote⟩ := h.commitPages hm hi hw hx
  have hseq : ∀ j, e₂.seq j = e₁.seq j := fun j => by unfold Engine.seq; rw [hsched]
  have hne : ∀ j, op.result ≠ some j → j ≠ i := fun j hj he => hj (he ▸ hres)
  have halone : ∀ j, PageAlone cfg e j → PageAlone cfg e₂ j := by
    intro j hj b hb
    rw [hseq] at hb
    obtain ⟨h0,h1⟩ := hj.grown hi hg b hb
    exact ⟨by rw [hsched]; exact h0,by rw [htree]; exact h1⟩
  have hcow : ∀ k, op ≠ .cow k := fun k hk => by simp [hk,Op.result] at hres
  cases ok with
  | false =>
    exact ⟨hcore,hact,fun j hj => by
        rw [if_neg (by simp),hseq,hg.seq_ne (hne j hj)]; exact ⟨rfl,rfl,rfl,rfl⟩,
      fun j hj hja => halone j hja,fun k hk => absurd hk (hcow k),by simp⟩
  | true =>
    simp only [if_true,Bool.true_and]
    obtain ⟨hradix,hpages⟩ := hwrote rfl
    have hin : (e₂.seq i).inputIds = (e.seq i).inputIds := by
      rw [hseq]; exact hg.field (·.inputIds) (fun _ _ => rfl) i
    have hou : (e₂.seq i).outputIds = (e.seq i).outputIds := by
      rw [hseq]; exact hg.field (·.outputIds) (fun _ _ => rfl) i
    have hcl : (e₂.seq i).cachedLen = (e.seq i).cachedLen := by
      rw [hseq]; exact hg.field (·.cachedLen) (fun _ _ => rfl) i
    have hfin : (e₂.seq i).finished = (e.seq i).finished := hact.finished i
    have htok : (f (e₂.seq i)).tokens = (e.seq i).tokens := by
      simp only [Sequence.tokens,hp,hout,hin,hou]
    have hH : (e₂.seq i).finished = false → Holds cfg e₂.radix.pages (e₂.seq i).blockTable
        (f (e₂.seq i)).tokens (f (e₂.seq i)).cachedLen := by
      intro hlive
      rw [hfin] at hlive
      rw [htok,hlen hlive _ hin hcl,hradix,hvals hlive,hseq]
      have hH₁ := (h.grown hi hg).coherent.seqs i
        ((hg.field (·.finished) (fun _ _ => rfl) i).trans hlive)
      rw [hg.field (·.tokens) (fun _ _ => rfl),hg.field (·.cachedLen) (fun _ _ => rfl)] at hH₁
      refine Holds.written (hg.base.nodup i) hH₁ ?_
      rw [hvals hlive] at hpages
      simpa using hpages
    refine ⟨hcore.modify ht hp hf (fun _ => hs _) hH,hact.modify hop ht hp hf hgr,fun j hj => ?_,
      fun j hj hja => ?_,fun k hk => absurd hk (hcow k),fun k hk _ hlive => ?_⟩
    · rw [seq_modify_ne (hne j hj),hseq,hg.seq_ne (hne j hj)]
      exact ⟨rfl,rfl,rfl,rfl⟩
    · intro b hb
      rw [seq_modify_ne (hne j hj)] at hb
      obtain ⟨h0,h1⟩ := halone j hja b hb
      exact ⟨by rw [show (e₂.modify i f).sched.held b = _ from
        Scheduler.held_modify_same e₂.sched i f b ht]; exact h0,h1⟩
    · obtain rfl : i = k := Option.some.inj (hres.symm.trans hk)
      have hi₂ : i < e₂.sched.seqs.length := by rw [hact.length]; exact hi
      rw [seq_modify_self hi₂,hout,hou]
      refine ⟨?_,rfl⟩
      unfold Done
      rw [htok,hlen hlive _ hin hcl]
      exact hn hlive

/-- Copy-on-write keeps what was committed, and the page is then the
sequence's own. -/
theorem Core.cow {i : SeqId} {rest todo : List Op} {tok : Token} {raises ok : Bool} {e₁ : Engine V}
    (h : Core cfg e) (hi : i < e.sched.seqs.length)
    (hx : Engine.execOp cfg e rest tok raises (.cow i) = (e₁,ok,todo)) :
    Called cfg e (.cow i) ok e₁ ∧ todo = rest := by
  have hs : ∀ j, (Op.cow i).target = some j → j < e.sched.seqs.length := fun j hj => by
    obtain rfl := Option.some.inj hj
    exact hi
  have hact := h.base.execOp rest tok raises hs
  have hcp := h.base.cowPage hi
  simp only [Engine.execOp] at hx hact
  generalize Engine.cowPage cfg e i = w at hx hcp hact
  obtain ⟨e₂,ok₂⟩ := w
  simp only [Prod.mk.injEq] at hx
  obtain ⟨rfl,rfl,rfl⟩ := hx
  refine ⟨?_,rfl⟩
  rcases hcp with ⟨hsched,hpc,hb,hev,hnone⟩ | ⟨b,b',hsw⟩
  · -- the pool is exhausted, or the table has no such page
    have hg : Grown cfg e i [] e₂ :=
      ⟨by rw [hsched]; exact (Scheduler.modify_same fun q => by simp).symm,hpc,hb,by simp,hev⟩
    have hseq : ∀ j, e₂.seq j = e.seq j := fun j => by unfold Engine.seq; rw [hsched]
    refine ⟨h.grown hi hg,hact,fun j _ => by rw [hseq]; exact ⟨rfl,rfl,rfl,rfl⟩,
      fun j _ ha => ha.grown hi hg,fun k hk hok b hbk => ?_,fun k hk => by simp [Op.result] at hk⟩
    obtain rfl := Op.cow.inj hk
    rw [hseq,hnone hok] at hbk
    simp at hbk
  · refine ⟨h.swapped hi hsw,hact,fun j _ => ?_,fun j _ ha => ha.swapped hi hsw,
      fun k hk _ x hx => ?_,fun k hk => by simp [Op.result] at hk⟩
    · exact ⟨hsw.field (·.inputIds) (fun _ _ => rfl) j,hsw.field (·.outputIds) (fun _ _ => rfl) j,
        hsw.field (·.cachedLen) (fun _ _ => rfl) j,hsw.field (·.lastLogits) (fun _ _ => rfl) j⟩
    · obtain rfl := Op.cow.inj hk
      rw [hsw.field (·.cachedLen) (fun _ _ => rfl),hsw.seq_self hi] at hx
      have hlt := (List.getElem?_eq_some_iff.mp hsw.was).1
      simp only [List.getElem?_set_self hlt,Option.some.injEq] at hx
      exact hx ▸ hsw.alone_new

theorem Core.sample {i : SeqId} {rest todo : List Op} {tok : Token} {raises ok : Bool} {e₁ : Engine V}
    (h : Core cfg e) (hi : i < e.sched.seqs.length)
    (hphase : (e.seq i).finished = false → OpPhase (e.seq i) (.sample i))
    (hx : Engine.execOp cfg e rest tok raises (.sample i) = (e₁,ok,todo)) :
    Called cfg e (.sample i) ok e₁ ∧ todo = rest := by
  have hs : ∀ j, (Op.sample i).target = some j → j < e.sched.seqs.length := fun j hj => by
    obtain rfl := Option.some.inj hj
    exact hi
  have hact := h.base.execOp rest tok raises hs
  rw [hx] at hact
  simp only [Engine.execOp] at hx
  by_cases hl : (e.seq i).lastLogits = true
  · rw [if_pos hl] at hx
    simp only [Prod.mk.injEq] at hx
    obtain ⟨rfl,_,rfl⟩ := hx
    have hne : ∀ j, (Op.sample i).result ≠ some j → j ≠ i := fun j hj he => hj (he ▸ rfl)
    have hcl : (e.seq i).finished = false → (e.seq i).cachedLen = (e.seq i).inputIds.length :=
      fun hlive => (hphase hlive).2
    refine ⟨⟨h.modify (fun _ => rfl) (fun _ => rfl) (fun _ => rfl) (h.noState i) (fun hlive => ?_),
      hact,fun j hj => ?_,fun j hj ha b hb => ?_,fun k hk => by simp at hk,
      fun k hk _ hlive => ?_⟩,rfl⟩
    · have := h.coherent.seqs i hlive
      rw [hcl hlive] at this
      exact this
    · rw [seq_modify_ne (hne j hj)]
      exact ⟨rfl,rfl,rfl,rfl⟩
    · rw [seq_modify_ne (hne j hj)] at hb
      obtain ⟨h0,h1⟩ := ha b hb
      exact ⟨by rw [show (e.modify i _).sched.held b = _ from
        Scheduler.held_modify_same e.sched i (fun q => { q with cachedLen := q.inputIds.length }) b
          (fun _ => rfl)]; exact h0,h1⟩
    · obtain rfl : i = k := Option.some.inj hk
      rw [seq_modify_self hi]
      refine ⟨?_,rfl⟩
      simp [Done,Sequence.tokens,(hphase hlive).1]
  · rw [if_neg hl] at hx
    simp only [Prod.mk.injEq] at hx
    obtain ⟨rfl,rfl,rfl⟩ := hx
    exact ⟨⟨h,.refl _ h.base,fun _ _ => ⟨rfl,rfl,rfl,rfl⟩,fun _ _ ha => ha,fun k hk => by simp at hk,
      fun k _ hok => by simp at hok⟩,rfl⟩

theorem Core.execOp {op : Op} {rest todo : List Op} {tok : Token} {raises ok : Bool}
    {e₁ : Engine V} (hm : cfg.mode = .hfRebuild) (h : Core cfg e)
    (hs : ∀ i, op.target = some i → i < e.sched.seqs.length) (hnb : op.ofBurst = false)
    (hphase : ∀ i, op.result = some i → (e.seq i).finished = false → OpPhase (e.seq i) op)
    (hcow : ∀ i, op = .commitDecode i → PageAlone cfg e i)
    (hpre : ∀ i, op = .commitPrefill i → (e.seq i).finished = false → PrefillAgrees cfg e i)
    (hx : Engine.execOp cfg e rest tok raises op = (e₁,ok,todo)) :
    Called cfg e op ok e₁ ∧ todo = rest := by
  cases op with
  | ensure i total =>
    obtain ⟨new,hg,_⟩ := h.base.ensureBlocks total (hs i rfl)
    simp only [Engine.execOp,Prod.mk.injEq] at hx
    obtain ⟨rfl,_,rfl⟩ := hx
    refine ⟨⟨h.grown (hs i rfl) hg,hg.acted rfl (by simp [allocates]),fun j _ => ?_,
      fun j _ ha => ha.grown (hs i rfl) hg,fun k hk => by simp at hk,fun k hk => by simp [Op.result] at hk⟩,
      rfl⟩
    exact ⟨hg.field (·.inputIds) (fun _ _ => rfl) j,hg.field (·.outputIds) (fun _ _ => rfl) j,
      hg.field (·.cachedLen) (fun _ _ => rfl) j,hg.field (·.lastLogits) (fun _ _ => rfl) j⟩
  | cow i => exact h.cow (hs i rfl) hx
  | forward g =>
    simp only [Engine.execOp,Prod.mk.injEq] at hx
    obtain ⟨rfl,_,rfl⟩ := hx
    exact ⟨.refl h rfl (fun i => by simp),rfl⟩
  | sample i => exact h.sample (hs i rfl) (hphase i rfl) hx
  | commitPrefill i =>
    have hw := agrees_prefill h (hpre i rfl)
    simp only [Engine.execOp] at hx
    cases hcp : Engine.commitPages cfg e i (prefillKv cfg (e.seq i)) with
    | mk e₂ ok₂ =>
      have hc := h.commit (.commitPrefill i) (!raises)
        (n := Scheduler.remainingPrompt (e.seq i))
        (f := fun q => { q with
          cachedLen := q.cachedLen+Scheduler.remainingPrompt q
          lastLogits := true
          kvState := decide (cfg.mode = .hfCache) }) hm (hs i rfl) rfl rfl hw hcp rfl
        (fun hlive => prefillKv_eq (hphase i rfl hlive).1)
        (fun hlive => by
          obtain ⟨h1,h2⟩ := hphase i rfl hlive
          simp only [Sequence.tokens,h1,List.append_nil,Scheduler.remainingPrompt]
          omega)
        (fun _ => rfl) (fun _ => rfl) (fun _ => rfl) (fun _ => rfl) (fun _ => rfl)
        (fun _ => by simp [hm])
        (fun _ q hq hqc => by simp only [Scheduler.remainingPrompt,hq,hqc])
      rw [hcp] at hx
      cases ok₂ with
      | false =>
        cases hx
        exact ⟨hc,rfl⟩
      | true =>
        cases hx
        exact ⟨hc,rfl⟩
  | commitDecode i =>
    have hw := agrees_decode (hcow i rfl)
    simp only [Engine.execOp] at hx
    cases hcp : Engine.commitPages cfg e i (decodeKv cfg (e.seq i)) with
    | mk e₂ ok₂ =>
      have hc := h.commit (.commitDecode i) (!raises) (n := 1)
        (f := fun q => { q with
          cachedLen := q.cachedLen+1, kvState := decide (cfg.mode = .hfCache) })
        hm (hs i rfl) rfl rfl hw hcp rfl
        (fun hlive => decodeKv_eq (hphase i rfl hlive))
        (fun hlive => (hphase i rfl hlive).2)
        (fun _ => rfl) (fun _ => rfl) (fun _ => rfl) (fun _ => rfl) (fun _ => rfl)
        (fun _ => by simp [hm])
        (fun _ q _ hqc => by simp only [hqc])
      rw [hcp] at hx
      cases ok₂ with
      | false =>
        cases hx
        exact ⟨hc,rfl⟩
      | true =>
        cases hx
        exact ⟨hc,rfl⟩
  | burst i n => simp [Op.ofBurst] at hnb
  | commitBurst i => simp [Op.ofBurst] at hnb

end Call

end Engine

end SglangLite.Paged
