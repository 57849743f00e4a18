import SglangLite.Paged.Engine

set_option autoImplicit false

namespace SglangLite.Paged
open Kv Sched Text

def Pc.todo : Pc → List Op
  | .inBatch _ todo _ => todo
  | .bursting _ todo _ => todo
  | _ => []

def Op.target : Op → Option SeqId
  | .ensure i _ => some i
  | .cow i => some i
  | .forward _ => none
  | .sample i => some i
  | .commitPrefill i => some i
  | .commitDecode i => some i
  | .burst i _ => some i
  | .commitBurst i => some i

namespace Engine

variable {V : Type} {cfg : Config V} {e e' : Engine V}

theorem seq_modify (e : Engine V) (i j : SeqId) (f : Sequence → Sequence) :
    (e.modify i f).seq j = if j = i ∧ i < e.sched.seqs.length then f (e.seq i) else e.seq j :=
  Scheduler.seq_modify e.sched i j f

theorem seq_modify_self {i : SeqId} (hi : i < e.sched.seqs.length) (f : Sequence → Sequence) :
    (e.modify i f).seq i = f (e.seq i) := Scheduler.seq_modify_self hi f

theorem seq_modify_ne {i j : SeqId} (hij : j ≠ i) (f : Sequence → Sequence) :
    (e.modify i f).seq j = e.seq j := Scheduler.seq_modify_ne hij f

theorem lt_of_unfinished {i : SeqId} (h : (e.seq i).finished = false) :
    i < e.sched.seqs.length := Scheduler.lt_of_unfinished h

theorem seq_modify_field {α : Type} (g : Sequence → α) {f : Sequence → Sequence}
    (hf : ∀ q, g (f q) = g q) (i j : SeqId) : g ((e.modify i f).seq j) = g (e.seq j) := by
  rw [seq_modify]
  split_ifs with h
  · rw [hf,h.1]
  · rfl

theorem modify_fixed {i : SeqId} {f : Sequence → Sequence} (h : f (e.seq i) = e.seq i) :
    e.modify i f = e := by
  have hl : e.sched.seqs.modify i f = e.sched.seqs := by
    refine List.ext_getElem? fun j => ?_
    rw [List.getElem?_modify]
    cases hj : e.sched.seqs[j]? with
    | none => rfl
    | some q =>
      by_cases hij : i = j
      · subst hij
        have hq : e.seq i = q := by
          simp [Engine.seq,Scheduler.seq,hj]
        simpa [hq] using h
      · simp [hij]
  simp only [Engine.modify,Scheduler.modify,hl]

/-- The reference counts are exact over the block tables, and no table lists a
page twice. -/
structure Base (cfg : Config V) (e : Engine V) : Prop where
  owned : RadixCache.Owned cfg.cache e.radix e.sched.held
  nodup : ∀ i, (e.seq i).blockTable.Nodup
  prompt : ∀ i, i < e.sched.seqs.length → (e.seq i).inputIds ≠ []

def Scoped (e : Engine V) : Prop :=
  ∀ op ∈ e.pc.todo, ∀ i, op.target = some i → i < e.sched.seqs.length

theorem Base.withPc (h : Base cfg e) (pc : Pc) : Base cfg { e with pc := pc } :=
  ⟨h.owned,h.nodup,h.prompt⟩

theorem base_init [Zero V] (cfg : Config V) : Base cfg (init : Engine V) where
  owned := (RadixCache.owned_empty cfg.cache).congr (fun _ => rfl)
  nodup := fun i => by simp [init,seq,Scheduler.seq,show (default : Sequence).blockTable = [] from rfl]
  prompt := fun i hi => by simp [init] at hi

theorem Base.modify (h : Base cfg e) (i : SeqId) {f : Sequence → Sequence}
    (ht : ∀ q, (f q).blockTable = q.blockTable) (hp : ∀ q, (f q).inputIds = q.inputIds) :
    Base cfg (e.modify i f) where
  owned := h.owned.congr fun b => (Scheduler.held_modify_same e.sched i f b ht).symm
  nodup := fun j => by
    rw [seq_modify_field (·.blockTable) ht]
    exact h.nodup j
  prompt := fun j hj => by
    rw [seq_modify_field (·.inputIds) hp]
    exact h.prompt j (by simpa [Engine.modify] using hj)

/-- A call that only ends requests: their tables are emptied, and every page
that still has an owner is as before. -/
structure Ended (e e' : Engine V) : Prop where
  tree : e'.radix.tree = e.radix.tree
  pages : ∀ b, 0 < e'.sched.held b+e'.radix.tree.count b → e'.radix.pages b = e.radix.pages b
  held_le : ∀ b, e'.sched.held b ≤ e.sched.held b
  length : e'.sched.seqs.length = e.sched.seqs.length
  seqs : ∀ i, e'.seq i = e.seq i ∨
    (e'.seq i).finished = true ∧ (e'.seq i).blockTable = [] ∧
      (e'.seq i).inputIds = (e.seq i).inputIds
  waiting : e'.sched.waiting.Sublist e.sched.waiting
  running : e'.sched.running.Sublist e.sched.running

namespace Ended

theorem refl (e : Engine V) : Ended e e :=
  ⟨rfl,fun _ _ => rfl,fun _ => Nat.le_refl _,rfl,fun _ => .inl rfl,.refl _,.refl _⟩

theorem withPc {pc : Pc} (h : Ended e e') : Ended e { e' with pc := pc } :=
  ⟨h.tree,h.pages,h.held_le,h.length,h.seqs,h.waiting,h.running⟩

theorem trans {e'' : Engine V} (h₁ : Ended e e') (h₂ : Ended e' e'') : Ended e e'' := by
  refine ⟨h₂.tree.trans h₁.tree,?_,fun b => (h₂.held_le b).trans (h₁.held_le b),
    h₂.length.trans h₁.length,?_,h₂.waiting.trans h₁.waiting,h₂.running.trans h₁.running⟩
  · intro b hb
    have := h₂.held_le b
    rw [h₂.pages b hb,h₁.pages b (by rw [h₂.tree] at hb; omega)]
  · intro i
    rcases h₂.seqs i with h | ⟨hf,ht,hp⟩
    · rw [h]; exact h₁.seqs i
    · refine .inr ⟨hf,ht,hp.trans ?_⟩
      rcases h₁.seqs i with h | ⟨_,_,h⟩
      · rw [h]
      · exact h

theorem live (h : Ended e e') {i : SeqId} (hi : (e'.seq i).finished = false) :
    e'.seq i = e.seq i := by
  rcases h.seqs i with h | ⟨hf,_⟩
  · exact h
  · rw [hf] at hi; exact absurd hi (by simp)

theorem finished (h : Ended e e') {i : SeqId} (hi : (e.seq i).finished = true) :
    (e'.seq i).finished = true := by
  rcases h.seqs i with h | ⟨hf,_⟩
  · rw [h]; exact hi
  · exact hf

end Ended

section Release

variable [Zero V]

theorem held_markFinished (s : Scheduler) (i : SeqId) (reason : FinishReason) (b : BlockId) :
    (s.markFinished i reason).held b+(s.seq i).blockTable.count b = s.held b := by
  by_cases hi : i < s.seqs.length
  · have := Scheduler.held_modify s (fun q => { q with
      finished := true, finishReason := some reason, blockTable := [], kvState := false }) b hi
    simpa [Scheduler.modify,Scheduler.held,Scheduler.markFinished] using this
  · have hge := Nat.le_of_not_lt hi
    rw [Scheduler.seq_of_ge hge]
    simp [Scheduler.held,Scheduler.markFinished,List.modify_eq_self hge,
      show (default : Sequence).blockTable = [] from rfl]

theorem seq_mark (e : Engine V) (i j : SeqId) (reason : FinishReason) :
    (e.mark i reason).seq j = if j = i ∧ i < e.sched.seqs.length then
        { e.seq i with
          finished := true, finishReason := some reason, blockTable := [], kvState := false }
      else e.seq j := Scheduler.seq_markFinished e.sched i j reason

theorem Base.mark (h : Base cfg e) (i : SeqId) (reason : FinishReason) :
    Base cfg (e.mark i reason) ∧ Ended e (e.mark i reason) := by
  have hheld := held_markFinished e.sched i reason
  have ho := h.owned.congr (fun b => (hheld b).symm)
  obtain ⟨hrel,hev⟩ := ho.releaseBlocks (h.nodup i)
  have hlen : (e.mark i reason).sched.seqs.length = e.sched.seqs.length := by
    simp [Engine.mark,Scheduler.markFinished]
  refine ⟨⟨hrel,fun j => ?_,fun j hj => ?_⟩,⟨?_,hev.pages,fun b => ?_,hlen,fun j => ?_,?_,?_⟩⟩
  · rw [seq_mark]
    split_ifs
    · simp
    · exact h.nodup j
  · rw [hlen] at hj
    rw [seq_mark]
    split_ifs with hji
    · exact h.prompt i (hji.1 ▸ hj)
    · exact h.prompt j hj
  · simp [Engine.mark]
  · have := hheld b
    simp only [Engine.mark]
    omega
  · rw [seq_mark]
    split_ifs with hji
    · exact .inr ⟨rfl,rfl,by simp [hji.1]⟩
    · exact .inl rfl
  · exact List.filter_sublist
  · exact List.erase_sublist

theorem Base.cancelRequest (h : Base cfg e) (r : RequestId) :
    Base cfg (e.cancelRequest r) ∧ Ended e (e.cancelRequest r) := by
  unfold Engine.cancelRequest
  cases hr : e.sched.byRequest r with
  | none => exact ⟨h,.refl e⟩
  | some i =>
    simp only
    have hm := h.modify i (f := fun q => { q with cancelled := true }) (fun _ => rfl) (fun _ => rfl)
    obtain ⟨hb,he⟩ := hm.mark i .cancelled
    refine ⟨hb,he.tree,he.pages,fun b => ?_,by simpa [Engine.modify] using he.length,fun j => ?_,
      he.waiting,he.running⟩
    · refine (he.held_le b).trans (Nat.le_of_eq ?_)
      exact Scheduler.held_modify_same e.sched i _ b (fun _ => rfl)
    · rw [seq_mark,show (e.modify i _).sched.seqs.length = e.sched.seqs.length from Scheduler.length_modify _ _ _]
      split_ifs with hji
      · refine .inr ⟨rfl,rfl,?_⟩
        rw [hji.1,seq_modify_self hji.2]
      · refine .inl ?_
        rw [seq_modify,if_neg hji]

theorem Base.emit (h : Base cfg e) (full : Bool) (r : RequestId) :
    Base cfg (e.emit full r) ∧ Ended e (e.emit full r) := by
  unfold Engine.emit
  split_ifs
  · exact h.cancelRequest r
  · exact ⟨h,.refl e⟩

theorem Base.abortBatch (h : Base cfg e) (full : RequestId → Bool) (batch : List (SeqId × Bool)) :
    Base cfg (abortBatch full e batch) ∧ Ended e (abortBatch full e batch) := by
  induction batch generalizing e with
  | nil => exact ⟨h.withPc _,(Ended.refl e).withPc⟩
  | cons b batch ih =>
    obtain ⟨i,_⟩ := b
    obtain ⟨h₁,hm⟩ := h.mark i .error
    obtain ⟨h₂,he⟩ := h₁.emit (full (e.seq i).requestId) (e.seq i).requestId
    obtain ⟨h₃,ha⟩ := ih h₂
    exact ⟨h₃,(hm.trans he).trans ha⟩

end Release

section Pages

/-- The table of `i` grew by the pages `new`, which nobody else owns. -/
structure Grown (cfg : Config V) (e : Engine V) (i : SeqId) (new : List BlockId)
    (e' : Engine V) : Prop where
  sched : e'.sched = e.sched.modify i fun q => { q with blockTable := q.blockTable ++ new }
  pc : e'.pc = e.pc
  base : Base cfg e'
  fresh : ∀ b ∈ new, e.sched.held b = 0 ∧ e'.radix.tree.count b = 0
  evolves : RadixCache.Evolves e.sched.held e.radix e'.radix

theorem Grown.refl (i : SeqId) (h : Base cfg e) : Grown cfg e i [] e :=
  ⟨(Scheduler.modify_same fun q => by simp).symm,rfl,h,by simp,.refl _ _⟩

theorem Grown.seq_self {i : SeqId} {new : List BlockId} (h : Grown cfg e i new e')
    (hi : i < e.sched.seqs.length) :
    e'.seq i = { e.seq i with blockTable := (e.seq i).blockTable ++ new } := by
  unfold Engine.seq
  rw [h.sched,Scheduler.seq_modify_self hi]

theorem Grown.seq_ne {i j : SeqId} {new : List BlockId} (h : Grown cfg e i new e')
    (hij : j ≠ i) : e'.seq j = e.seq j := by
  unfold Engine.seq
  rw [h.sched,Scheduler.seq_modify_ne hij]

theorem Grown.length {i : SeqId} {new : List BlockId} (h : Grown cfg e i new e') :
    e'.sched.seqs.length = e.sched.seqs.length := by
  rw [h.sched]; simp

theorem Grown.held {i : SeqId} {new : List BlockId} (h : Grown cfg e i new e')
    (hi : i < e.sched.seqs.length) (b : BlockId) :
    e'.sched.held b = e.sched.held b+new.count b := by
  have := Scheduler.held_modify e.sched
    (fun q => { q with blockTable := q.blockTable ++ new }) b hi
  rw [h.sched]
  simp only [List.count_append] at this
  omega

theorem Grown.field {α : Type} (g : Sequence → α) (hg : ∀ q t, g { q with blockTable := t } = g q)
    {i : SeqId} {new : List BlockId} (h : Grown cfg e i new e') (j : SeqId) :
    g (e'.seq j) = g (e.seq j) := by
  unfold Engine.seq
  rw [h.sched]
  exact seq_modify_field (e := e) g (fun q => hg q _) i j

theorem Base.grow {i : SeqId} {new : List BlockId} {radix : RadixCache V} (h : Base cfg e)
    (hi : i < e.sched.seqs.length) (ha : RadixCache.Allocated cfg.cache e.sched.held e.radix new radix) :
    Grown cfg e i new
      (({ e with radix := radix }).modify i fun q =>
        { q with blockTable := q.blockTable ++ new }) := by
  refine ⟨rfl,rfl,⟨ha.owned.congr fun b => ?_,fun j => ?_,fun j hj => ?_⟩,ha.fresh,ha.evolves⟩
  · have := Scheduler.held_modify e.sched
      (fun q => { q with blockTable := q.blockTable ++ new }) b hi
    simp only [List.count_append] at this
    simp only [Engine.modify]
    omega
  · by_cases hji : j = i
    · subst hji
      rw [seq_modify_self (e := { e with radix := radix }) hi]
      refine (h.nodup j).append ha.nodup (fun b hb hb' => ?_)
      have := Scheduler.count_le_held e.sched j b
      have := List.count_pos_iff.mpr (show b ∈ (e.sched.seq j).blockTable from hb)
      have := (ha.fresh b hb').1
      omega
    · rw [seq_modify_ne hji]
      exact h.nodup j
  · rw [seq_modify_field (e := { e with radix := radix }) (·.inputIds)
      (f := fun q => { q with blockTable := q.blockTable ++ new }) (fun _ => rfl)]
    exact h.prompt j (by simpa [Engine.modify] using hj)

theorem Grown.trans {e'' : Engine V} {i : SeqId} {new new' : List BlockId}
    (hi : i < e.sched.seqs.length) (h₁ : Grown cfg e i new e') (h₂ : Grown cfg e' i new' e'') :
    Grown cfg e i (new ++ new') e'' := by
  have hh := h₁.held hi
  refine ⟨?_,h₂.pc.trans h₁.pc,h₂.base,fun b hb => ?_,h₁.evolves.trans
    (h₂.evolves.mono fun b => by rw [hh b]; omega)⟩
  · rw [h₂.sched,h₁.sched]
    simp only [Scheduler.modify,List.modify_modify_eq,Function.comp_def,List.append_assoc]
  · rcases List.mem_append.mp hb with hb | hb
    · obtain ⟨h0,h1⟩ := h₁.fresh b hb
      exact ⟨h0,Nat.le_zero.mp ((h₂.evolves.count_le b).trans (Nat.le_of_eq h1))⟩
    · obtain ⟨h0,h1⟩ := h₂.fresh b hb
      rw [hh b] at h0
      exact ⟨by omega,h1⟩

variable [Zero V]

/-- `_ensure_blocks` appends fresh pages, also when it runs out of memory on
the way. -/
theorem Base.ensureLoop {i : SeqId} (n : Nat) (h : Base cfg e) (hi : i < e.sched.seqs.length) :
    ∃ new, Grown cfg e i new (ensureLoop cfg i n e).1 ∧
      ((ensureLoop cfg i n e).2 = true → new.length = n) := by
  induction n generalizing e with
  | zero =>
    exact ⟨[],.refl i h,by simp⟩
  | succ n ih =>
    have hal := h.owned.allocateBlocks 1
    simp only [Engine.ensureLoop]
    cases hc : e.radix.allocateBlocks cfg.cache 1 with
    | mk radix o =>
      rw [hc] at hal
      cases o with
      | none =>
        exact ⟨[],⟨(Scheduler.modify_same fun q => by simp).symm,rfl,⟨hal.1,h.nodup,h.prompt⟩,
          by simp,hal.2⟩,by simp⟩
      | some ids =>
        obtain ⟨hal,hlen⟩ := hal
        have hg := h.grow hi hal
        obtain ⟨new,hg',hn⟩ := ih hg.base (by rw [hg.length]; exact hi)
        refine ⟨ids ++ new,hg.trans hi hg',fun hok => ?_⟩
        rw [List.length_append,hlen,hn hok]
        omega

theorem Base.ensureBlocks {i : SeqId} (total : Nat) (h : Base cfg e)
    (hi : i < e.sched.seqs.length) :
    ∃ new, Grown cfg e i new (ensureBlocks cfg e i total).1 ∧
      ((ensureBlocks cfg e i total).2 = true →
        cfg.cache.pages total ≤ ((ensureBlocks cfg e i total).1.seq i).blockTable.length) := by
  obtain ⟨new,hg,hn⟩ := h.ensureLoop (cfg.cache.pages total-(e.seq i).blockTable.length) hi
  refine ⟨new,hg,fun hok => ?_⟩
  have := hn hok
  rw [show (Engine.ensureBlocks cfg e i total).1.seq i = _ from hg.seq_self hi]
  simp only [List.length_append]
  omega

/-- Page `page` of the table of `i`, which was `b`, is now `b'`. -/
structure Swapped (cfg : Config V) (e : Engine V) (i : SeqId) (page : Nat) (b b' : BlockId)
    (e' : Engine V) : Prop where
  sched : e'.sched = e.sched.modify i fun q => { q with blockTable := q.blockTable.set page b' }
  pc : e'.pc = e.pc
  base : Base cfg e'
  was : (e.seq i).blockTable[page]? = some b
  cowed : RadixCache.Cowed cfg.cache e.sched.held e.radix b b' e'.radix

omit [Zero V] in
theorem Base.swap {i : SeqId} {page : Nat} {b b' : BlockId} {radix : RadixCache V} (h : Base cfg e)
    (hi : i < e.sched.seqs.length) (hb : (e.seq i).blockTable[page]? = some b)
    (hc : RadixCache.Cowed cfg.cache e.sched.held e.radix b b' radix) :
    Swapped cfg e i page b b'
      (({ e with radix := radix }).modify i fun q =>
        { q with blockTable := q.blockTable.set page b' }) := by
  obtain ⟨hlt,hget⟩ := List.getElem?_eq_some_iff.mp hb
  have hcount : ∀ x, ((e.seq i).blockTable.set page b').count x+(if x = b then 1 else 0) =
      (e.seq i).blockTable.count x+if x = b' then 1 else 0 := by
    intro x
    rw [List.count_set hlt,hget]
    simp only [beq_iff_eq,@eq_comm _ x b,@eq_comm _ x b']
    by_cases hx : b = x
    · have := List.count_pos_iff.mpr (hx ▸ List.mem_of_getElem? hb)
      simp only [hx,if_true]
      omega
    · simp only [hx,if_false]
      omega
  refine ⟨rfl,rfl,⟨hc.owned.congr fun x => ?_,fun j => ?_,fun j hj => ?_⟩,hb,hc⟩
  · have := Scheduler.held_modify e.sched
      (fun q => { q with blockTable := q.blockTable.set page b' }) x hi
    have := hcount x
    have := Scheduler.count_le_held e.sched i x
    simp only [Engine.modify,Engine.seq] at *
    split_ifs at * <;> omega
  · by_cases hji : j = i
    · subst hji
      rw [seq_modify_self (e := { e with radix := radix }) hi]
      refine List.nodup_iff_count_le_one.mpr (fun x => ?_)
      have := hcount x
      have hle := List.nodup_iff_count_le_one.mp (h.nodup j) x
      have := Scheduler.count_le_held e.sched j x
      by_cases hx : x = b'
      · have := hc.alone.1
        subst hx
        simp only [Engine.seq] at *
        split_ifs at * <;> omega
      · simp only [hx,if_false] at *
        show ((e.seq j).blockTable.set page b').count x ≤ 1
        omega
    · rw [seq_modify_ne hji]
      exact h.nodup j
  · rw [seq_modify_field (e := { e with radix := radix }) (·.inputIds)
      (f := fun q => { q with blockTable := q.blockTable.set page b' }) (fun _ => rfl)]
    exact h.prompt j (by simpa [Engine.modify] using hj)

/-- Copy-on-write either leaves the queues and tables alone, or swaps the page
that the next position falls into. -/
theorem Base.cowPage {i : SeqId} (h : Base cfg e) (hi : i < e.sched.seqs.length) :
    (cowPage cfg e i).1.sched = e.sched ∧ (cowPage cfg e i).1.pc = e.pc ∧
        Base cfg (cowPage cfg e i).1 ∧
        RadixCache.Evolves e.sched.held e.radix (cowPage cfg e i).1.radix ∧
        ((cowPage cfg e i).2 = true →
          (e.seq i).blockTable[(e.seq i).cachedLen/cfg.cache.blockSize]? = none) ∨
      ∃ b b', Swapped cfg e i ((e.seq i).cachedLen/cfg.cache.blockSize) b b' (cowPage cfg e i).1 := by
  unfold Engine.cowPage
  simp only
  cases hb : (e.seq i).blockTable[(e.seq i).cachedLen/cfg.cache.blockSize]? with
  | none => exact .inl ⟨rfl,rfl,h,.refl _ _,fun _ => rfl⟩
  | some b =>
    simp only
    have hpos : 0 < e.sched.held b := by
      have := Scheduler.count_le_held e.sched i b
      have := List.count_pos_iff.mpr (List.mem_of_getElem? hb)
      simp only [Engine.seq] at *
      omega
    have hcow := h.owned.cowBlockIfShared hpos
    cases hc : e.radix.cowBlockIfShared cfg.cache b with
    | mk radix o =>
      rw [hc] at hcow
      cases o with
      | none => exact .inl ⟨rfl,rfl,⟨hcow.1,h.nodup,h.prompt⟩,hcow.2,by simp⟩
      | some b' => exact .inr ⟨b,b',h.swap hi hb hcow⟩

omit [Zero V] in
theorem writeKv_eq (cc : CacheConfig) (table : List BlockId) (c : RadixCache V) (pos : Nat)
    (vals : List V) : RadixCache.writeKv cc table c pos vals =
      { c with pages := (RadixCache.writeKv cc table c pos vals).pages } := by
  induction vals generalizing c pos with
  | nil => rfl
  | cons v vs ih =>
    unfold RadixCache.writeKv
    split
    · rw [ih]
    · rfl

omit [Zero V] in
theorem Base.withPages (h : Base cfg e) (pages : BlockId → Nat → V) :
    Base cfg { e with radix := { e.radix with pages := pages } } :=
  ⟨⟨h.owned.refs_eq,h.owned.refs_none,h.owned.wf,h.owned.nodup,h.owned.free_nodup,
    h.owned.free_refs,h.owned.refs_lt,h.owned.cover,h.owned.next_le⟩,h.nodup,h.prompt⟩

/-- A page write tops up the table first, in the mode that rebuilds KV from
pages, and then changes page contents only. -/
theorem Base.commitPages {i : SeqId} (vals : List V) (h : Base cfg e)
    (hi : i < e.sched.seqs.length) :
    ∃ new e₁ pages, Grown cfg e i new e₁ ∧ (cfg.mode ≠ .hfRebuild → new = []) ∧
      (commitPages cfg e i vals).1 = { e₁ with radix := { e₁.radix with pages := pages } } := by
  unfold Engine.commitPages
  simp only
  cases hm : cfg.mode with
  | hfCache => exact ⟨[],e,e.radix.pages,.refl i h,fun _ => rfl,rfl⟩
  | pagedAttention => exact ⟨[],e,_,.refl i h,fun _ => rfl,by simp only; rw [writeKv_eq]⟩
  | hfRebuild =>
    obtain ⟨new,hg,_⟩ := h.ensureBlocks ((e.seq i).cachedLen+vals.length) hi
    cases hens : Engine.ensureBlocks cfg e i ((e.seq i).cachedLen+vals.length) with
    | mk e₁ ok =>
      rw [hens] at hg
      cases ok with
      | false => exact ⟨new,e₁,e₁.radix.pages,hg,by simp,rfl⟩
      | true => exact ⟨new,e₁,_,hg,by simp,by simp only; rw [writeKv_eq]⟩

end Pages

section Acted

/-- Whether a call may take new pages for its sequence. A burst looks at the
`finished` flag first, except on the greedy path over paged attention. -/
def allocates (cfg : Config V) (e : Engine V) : Op → Bool
  | .ensure _ _ => true
  | .commitPrefill _ => decide (cfg.mode = .hfRebuild)
  | .commitDecode _ => decide (cfg.mode = .hfRebuild)
  | .commitBurst _ => decide (cfg.mode = .hfRebuild)
  | .burst i n => decide (cfg.mode = .pagedAttention) && (e.seq i).greedy && decide (0 < n)
  | _ => false

structure Acted (cfg : Config V) (e : Engine V) (op : Op) (e' : Engine V) : Prop where
  base : Base cfg e'
  pc : e'.pc = e.pc
  waiting : e'.sched.waiting = e.sched.waiting
  running : e'.sched.running = e.sched.running
  byRequest : e'.sched.byRequest = e.sched.byRequest
  length : e'.sched.seqs.length = e.sched.seqs.length
  finished : ∀ j, (e'.seq j).finished = (e.seq j).finished
  greedy : ∀ j, (e'.seq j).greedy = (e.seq j).greedy
  others : ∀ j, op.target ≠ some j → e'.seq j = e.seq j
  table : allocates cfg e op = false → ∀ j, (e.seq j).blockTable = [] → (e'.seq j).blockTable = []

theorem Acted.refl (op : Op) (h : Base cfg e) : Acted cfg e op e :=
  ⟨h,rfl,rfl,rfl,rfl,rfl,fun _ => rfl,fun _ => rfl,fun _ _ => rfl,fun _ _ h => h⟩

theorem Acted.modify {op : Op} {i : SeqId} {f : Sequence → Sequence} (h : Acted cfg e op e')
    (hop : op.target = some i) (ht : ∀ q, (f q).blockTable = q.blockTable)
    (hp : ∀ q, (f q).inputIds = q.inputIds) (hfin : ∀ q, (f q).finished = q.finished)
    (hg : ∀ q, (f q).greedy = q.greedy) : Acted cfg e op (e'.modify i f) where
  base := h.base.modify i ht hp
  pc := h.pc
  waiting := h.waiting
  running := h.running
  byRequest := h.byRequest
  length := by simpa [Engine.modify] using h.length
  finished := fun j => (seq_modify_field (·.finished) hfin i j).trans (h.finished j)
  greedy := fun j => (seq_modify_field (·.greedy) hg i j).trans (h.greedy j)
  others := fun j hj => by
    have hij : j ≠ i := fun he => hj (he ▸ hop)
    rw [seq_modify_ne hij]
    exact h.others j hj
  table := fun ha j hj => by
    rw [seq_modify_field (·.blockTable) ht]
    exact h.table ha j hj

theorem Grown.acted {op : Op} {i : SeqId} {new : List BlockId} (h : Grown cfg e i new e')
    (hop : op.target = some i) (hnew : allocates cfg e op = false → new = []) :
    Acted cfg e op e' where
  base := h.base
  pc := h.pc
  waiting := by rw [h.sched]; rfl
  running := by rw [h.sched]; rfl
  byRequest := by rw [h.sched]; rfl
  length := h.length
  finished := h.field (·.finished) (fun _ _ => rfl)
  greedy := h.field (·.greedy) (fun _ _ => rfl)
  others := fun j hj => h.seq_ne fun he => hj (he ▸ hop)
  table := fun ha j hj => by
    obtain rfl := hnew ha
    unfold Engine.seq
    rw [h.sched,Scheduler.modify_same fun q => by simp]
    exact hj

theorem Swapped.acted {op : Op} {i : SeqId} {page : Nat} {b b' : BlockId}
    (h : Swapped cfg e i page b b' e') (hop : op.target = some i) : Acted cfg e op e' := by
  have hfield : ∀ {α : Type} (g : Sequence → α), (∀ q t, g { q with blockTable := t } = g q) →
      ∀ j, g (e'.seq j) = g (e.seq j) := by
    intro α g hg j
    unfold Engine.seq
    rw [h.sched]
    exact seq_modify_field (e := e) g (fun q => hg q _) i j
  refine ⟨h.base,h.pc,by rw [h.sched]; rfl,by rw [h.sched]; rfl,by rw [h.sched]; rfl,
    by rw [h.sched]; simp,hfield _ (fun _ _ => rfl),hfield _ (fun _ _ => rfl),fun j hj => ?_,
    fun _ j hj => ?_⟩
  · have hij : j ≠ i := fun he => hj (he ▸ hop)
    unfold Engine.seq
    rw [h.sched,Scheduler.seq_modify_ne hij]
  · have hij : j ≠ i := by
      rintro rfl
      have := h.was
      rw [hj] at this
      simp at this
    unfold Engine.seq at hj ⊢
    rw [h.sched,Scheduler.seq_modify_ne hij]
    exact hj

variable [Zero V]

theorem Base.commitPages_acted (op : Op) {i : SeqId} (vals : List V) (h : Base cfg e)
    (hi : i < e.sched.seqs.length) (hop : op.target = some i)
    (ha : allocates cfg e op = decide (cfg.mode = .hfRebuild)) :
    Acted cfg e op (Engine.commitPages cfg e i vals).1 := by
  obtain ⟨new,e₁,pages,hg,hnew,heq⟩ := h.commitPages vals hi
  have h₁ := hg.acted hop (fun hf => hnew (by simpa [ha] using hf))
  rw [heq]
  exact ⟨h₁.base.withPages pages,h₁.pc,h₁.waiting,h₁.running,h₁.byRequest,h₁.length,h₁.finished,
    h₁.greedy,h₁.others,h₁.table⟩

theorem Base.execOp {op : Op} (rest : List Op) (tok : Token) (raises : Bool) (h : Base cfg e)
    (hs : ∀ i, op.target = some i → i < e.sched.seqs.length) :
    Acted cfg e op (execOp cfg e rest tok raises op).1 := by
  cases op with
  | ensure i total =>
    obtain ⟨new,hg,_⟩ := h.ensureBlocks total (hs i rfl)
    exact hg.acted rfl (fun ha => by simp [allocates] at ha)
  | cow i =>
    rcases h.cowPage (hs i rfl) with ⟨hsched,hpc,hb,_⟩ | ⟨b,b',hsw⟩
    · have hseq : ∀ j, (Engine.cowPage cfg e i).1.seq j = e.seq j := by
        intro j
        unfold Engine.seq
        rw [hsched]
      exact ⟨hb,hpc,by rw [Engine.execOp,hsched],by rw [Engine.execOp,hsched],
        by rw [Engine.execOp,hsched],by rw [Engine.execOp,hsched],fun j => by rw [Engine.execOp,hseq],
        fun j => by rw [Engine.execOp,hseq],fun j _ => hseq j,
        fun _ j hj => by rw [Engine.execOp,hseq]; exact hj⟩
    · exact hsw.acted rfl
  | forward group => exact .refl _ h
  | sample i =>
    simp only [Engine.execOp]
    split_ifs
    · exact (Acted.refl _ h).modify rfl (fun _ => rfl) (fun _ => rfl) (fun _ => rfl) (fun _ => rfl)
    · exact .refl _ h
  | burst i n => exact .refl _ h
  | commitPrefill i =>
    have hc := h.commitPages_acted (.commitPrefill i) (prefillKv cfg (e.seq i)) (hs i rfl) rfl rfl
    simp only [Engine.execOp]
    cases hcp : Engine.commitPages cfg e i (prefillKv cfg (e.seq i)) with
    | mk e₁ ok =>
      rw [hcp] at hc
      cases ok with
      | false => exact hc
      | true => exact hc.modify rfl (fun _ => rfl) (fun _ => rfl) (fun _ => rfl) (fun _ => rfl)
  | commitDecode i =>
    have hc := h.commitPages_acted (.commitDecode i) (decodeKv cfg (e.seq i)) (hs i rfl) rfl rfl
    simp only [Engine.execOp]
    cases hcp : Engine.commitPages cfg e i (decodeKv cfg (e.seq i)) with
    | mk e₁ ok =>
      rw [hcp] at hc
      cases ok with
      | false => exact hc
      | true => exact hc.modify rfl (fun _ => rfl) (fun _ => rfl) (fun _ => rfl) (fun _ => rfl)
  | commitBurst i =>
    have hc := h.commitPages_acted (.commitBurst i) (decodeKv cfg (e.seq i)) (hs i rfl) rfl rfl
    simp only [Engine.execOp]
    cases hcp : Engine.commitPages cfg e i (decodeKv cfg (e.seq i)) with
    | mk e₁ ok =>
      rw [hcp] at hc
      cases ok with
      | false => exact hc
      | true => exact hc.modify rfl (fun _ => rfl) (fun _ => rfl) (fun _ => rfl) (fun _ => rfl)

end Acted

section Admission

/-- A new sequence at the end of the heap and of the waiting queue, with the
pages of its prefix match. -/
structure Admitted (cfg : Config V) (e : Engine V) (r : Request) (q : Sequence)
    (m : RadixCache.Match) (e' : Engine V) : Prop where
  sched : e'.sched = { e.sched with
    seqs := e.sched.seqs ++ [q]
    waiting := e.sched.waiting ++ [e.sched.seqs.length]
    byRequest := Function.update e.sched.byRequest r.requestId (some e.sched.seqs.length) }
  pc : e'.pc = e.pc
  base : Base cfg e'
  matched : RadixCache.Matched cfg.cache e.sched.held e.radix r.inputIds m e'.radix
  seq_new : e'.seq e.sched.seqs.length = q
  seq_old : ∀ j, j ≠ e.sched.seqs.length → e'.seq j = e.seq j
  fields : q.requestId = r.requestId ∧ q.inputIds = r.inputIds ∧ q.outputIds = [] ∧
    q.cachedLen = m.len ∧ q.blockTable = m.blockIds ∧ q.finished = false ∧ q.cancelled = false ∧
    q.lastLogits = m.lastLogits ∧ q.kvState = m.pastKv ∧ q.maxTokens = r.maxTokens
  prompt : r.inputIds ≠ []

theorem Base.addRequest {r : Request} (h : Base cfg e) (hr : e.addRequest cfg r = some e') :
    ∃ q m, Admitted cfg e r q m e' := by
  have hm := h.owned.matchPrefix (q := r.inputIds)
  unfold Engine.addRequest at hr
  by_cases hno : r.inputIds = [] ∨ r.maxTokens = 0
  · simp [hno] at hr
  rw [if_neg hno] at hr
  obtain ⟨hp,_⟩ := not_or.mp hno
  generalize e.radix.matchPrefix cfg.cache r.inputIds = w at hm hr
  obtain ⟨sched,hs,rfl⟩ := Option.map_eq_some_iff.mp hr
  unfold Scheduler.addRequest at hs
  by_cases hw : cfg.sched.maxWaiting ≤ e.sched.waiting.length
  · simp [hw] at hs
  rw [if_neg hw] at hs
  dsimp only at hs
  by_cases hl : cfg.sched.maxPromptTokens < (r.sequence cfg.eos).inputIds.length
  · simp [hl] at hs
  rw [if_neg hl] at hs
  obtain rfl := Option.some.inj hs
  have hnew : ∀ (q : Sequence), (e.sched.seqs ++ [q]).getD e.sched.seqs.length default = q := by
    intro q; simp
  have hold : ∀ (q : Sequence) j, j ≠ e.sched.seqs.length →
      (e.sched.seqs ++ [q]).getD j default = e.sched.seqs.getD j default := by
    intro q j hj
    rcases Nat.lt_or_gt_of_ne hj with hlt | hgt
    · simp [List.getElem?_append_left hlt]
    · rw [List.getD_eq_getElem?_getD,List.getD_eq_getElem?_getD,
        List.getElem?_eq_none (by simp; omega),List.getElem?_eq_none (by omega)]
  refine ⟨_,_,rfl,rfl,⟨hm.owned.congr fun b => ?_,fun j => ?_,fun j hj => ?_⟩,hm,hnew _,
    hold _,⟨rfl,rfl,rfl,rfl,rfl,rfl,rfl,rfl,rfl,rfl⟩,hp⟩
  · simp [Scheduler.held]
  · by_cases hj : j = e.sched.seqs.length
    · subst hj
      simp only [Engine.seq,Scheduler.seq,hnew]
      exact hm.nodup
    · simp only [Engine.seq,Scheduler.seq,hold _ j hj]
      exact h.nodup j
  · by_cases hj' : j = e.sched.seqs.length
    · subst hj'
      simp only [Engine.seq,Scheduler.seq,hnew]
      exact hp
    · simp only [Engine.seq,Scheduler.seq,hold _ j hj']
      simp only [List.length_append,List.length_singleton] at hj
      exact h.prompt j (by omega)

theorem Base.withQueues (h : Base cfg e) (waiting running : List SeqId) (pc : Pc) :
    Base cfg { e with sched := { e.sched with waiting := waiting, running := running }, pc := pc } :=
  ⟨h.owned,h.nodup,h.prompt⟩

variable [Zero V]

theorem Base.updateAfterPrefill {i : SeqId} (h : Base cfg e) (hi : i < e.sched.seqs.length) :
    Base cfg (e.updateAfterPrefill i) ∧
      RadixCache.Committed cfg.cache e.sched.held e.radix (e.seq i).inputIds (e.seq i).blockTable
        (e.updateAfterPrefill i).radix := by
  have hm := h.modify i (f := fun q => { q with cachedLen := q.inputIds.length })
    (fun _ => rfl) (fun _ => rfl)
  have hc := h.owned.insertOrUpdate (e.seq i).kvState (e.seq i).lastLogits
    (h.prompt i hi) (h.nodup i) (fun b hb => by
      have := Scheduler.count_le_held e.sched i b
      have := List.count_pos_iff.mpr hb
      simp only [Engine.seq] at *
      omega)
  refine ⟨⟨hc.owned.congr fun b => ?_,hm.nodup,hm.prompt⟩,hc⟩
  exact (Scheduler.held_modify_same e.sched i
    (fun q => { q with cachedLen := q.inputIds.length }) b (fun _ => rfl)).symm

theorem Base.applyPost {i : SeqId} (p : Post) (full : Bool) (h : Base cfg e) :
    Base cfg (e.applyPost i p full) ∧
      Ended (e.modify i fun q => { q with outputIds := p.outputIds }) (e.applyPost i p full) := by
  have hm := h.modify i (f := fun q => { q with outputIds := p.outputIds })
    (fun _ => rfl) (fun _ => rfl)
  unfold Engine.applyPost
  simp only
  cases hr : p.reason with
  | none => exact hm.emit full _
  | some reason =>
    obtain ⟨h₁,he⟩ := hm.mark i reason
    obtain ⟨h₂,he'⟩ := h₁.emit full (e.seq i).requestId
    exact ⟨h₂,he.trans he'⟩

end Admission

section Moves

variable [Zero V]

/-- The moves of the machine, one constructor for each place in which an event
finds the loop thread. -/
inductive Moves (cfg : Config V) (e : Engine V) : Event → Engine V → Prop
  | addRequest {r : Request} {e' : Engine V} (hpc : e.pc = .idle)
      (hr : e.addRequest cfg r = some e') : Moves cfg e (.addRequest r) e'
  | cancel {r : RequestId} : Moves cfg e (.cancel r) (e.cancelRequest r)
  | step {pc : Pc} (hpc : e.pc = .idle)
      (hpc' : pc = if (e.sched.step cfg.sched).2 = [] then .idle
        else .stepped (e.sched.step cfg.sched).2) :
      Moves cfg e .step { e with sched := (e.sched.step cfg.sched).1, pc := pc }
  | check {batch : List (SeqId × Bool)} (hpc : e.pc = .stepped batch) :
      Moves cfg e .check
        { e with pc := .inBatch batch (runBatch cfg e.sched batch) (fun _ => none) }
  | call {batch : List (SeqId × Bool)} {op : Op} {rest todo : List Op}
      {results results' : SeqId → Option Token} {tok : Token} {raises : Bool}
      {full : RequestId → Bool} {e₁ : Engine V} (hpc : e.pc = .inBatch batch (op :: rest) results)
      (hx : execOp cfg e rest tok raises op = (e₁,true,todo))
      (hr : results' = match Op.result op with
        | some i => Function.update results i (some tok)
        | none => results) :
      Moves cfg e (.exec tok raises full) { e₁ with pc := .inBatch batch todo results' }
  | abort {batch : List (SeqId × Bool)} {op : Op} {rest todo : List Op}
      {results : SeqId → Option Token} {tok : Token} {raises : Bool}
      {full : RequestId → Bool} {e₁ : Engine V} (hpc : e.pc = .inBatch batch (op :: rest) results)
      (hx : execOp cfg e rest tok raises op = (e₁,false,todo)) :
      Moves cfg e (.exec tok raises full) (abortBatch full e₁ batch)
  | burstCall {i : SeqId} {op : Op} {rest todo : List Op} {toks toks' : List Token} {tok : Token}
      {raises : Bool} {full : RequestId → Bool} {e₁ : Engine V}
      (hpc : e.pc = .bursting i (op :: rest) toks)
      (hx : execOp cfg e rest tok raises op = (e₁,true,todo)) :
      Moves cfg e (.exec tok raises full) { e₁ with pc := .bursting i todo toks' }
  | burstAbort {i : SeqId} {op : Op} {rest todo : List Op} {toks : List Token} {tok : Token}
      {raises : Bool} {full : RequestId → Bool} {e₁ : Engine V}
      (hpc : e.pc = .bursting i (op :: rest) toks)
      (hx : execOp cfg e rest tok raises op = (e₁,false,todo)) :
      Moves cfg e (.exec tok raises full) { e₁ with pc := .idle }
  | finishBatch {batch : List (SeqId × Bool)} {results : SeqId → Option Token}
      (hpc : e.pc = .inBatch batch [] results) :
      Moves cfg e .finishBatch (leaveBatch cfg e batch results)
  | post {i : SeqId} {tok : Option Token} {pre cancelled full : Bool} {prev : Text}
      {rest : List (SeqId × Option Token × Bool)} (hpc : e.pc = .posting ((i,tok,pre) :: rest)) :
      Moves cfg e (.post cancelled prev full)
        { postOne cfg e i tok pre cancelled prev full with pc := .posting rest }
  | postDone {cancelled full : Bool} {prev : Text} (hpc : e.pc = .posting []) :
      Moves cfg e (.post cancelled prev full)
        { e with sched := e.sched.dropFinished, pc := .idle }
  | finishBurst {i : SeqId} {toks : List Token} {prev : Text} {full : Bool} {e₁ : Engine V}
      (hpc : e.pc = .bursting i [] toks)
      (h₁ : e₁ = e.applyPost i (postBurst cfg.tk cfg.eos (e.seq i) toks prev) full) :
      Moves cfg e (.finishBurst prev full)
        { e₁ with sched := e₁.sched.dropFinished, pc := .idle }

theorem step_moves {ev : Event} (hs : e.step cfg ev = some e') : Moves cfg e ev e' := by
  cases ev with
  | addRequest r =>
    cases hp : e.pc with
    | idle =>
      simp only [Engine.step,hp] at hs
      exact .addRequest hp hs
    | _ => simp [Engine.step,hp] at hs
  | cancel r =>
    simp only [Engine.step,Option.some.injEq] at hs
    exact hs ▸ .cancel
  | step =>
    cases hp : e.pc with
    | idle =>
      simp only [Engine.step,hp,Option.some.injEq] at hs
      exact hs ▸ .step hp rfl
    | _ => simp [Engine.step,hp] at hs
  | check =>
    cases hp : e.pc with
    | stepped batch =>
      simp only [Engine.step,hp,Option.some.injEq] at hs
      exact hs ▸ .check hp
    | _ => simp [Engine.step,hp] at hs
  | exec tok raises full =>
    cases hp : e.pc with
    | inBatch batch todo results =>
      cases todo with
      | nil => simp [Engine.step,hp] at hs
      | cons op rest =>
        simp only [Engine.step,hp] at hs
        cases hx : execOp cfg e rest tok raises op with
        | mk e₁ w =>
          obtain ⟨ok,todo⟩ := w
          rw [hx] at hs
          cases ok with
          | true => exact Option.some.inj hs ▸ .call hp hx rfl
          | false => exact Option.some.inj hs ▸ .abort hp hx
    | bursting i todo toks =>
      cases todo with
      | nil => simp [Engine.step,hp] at hs
      | cons op rest =>
        simp only [Engine.step,hp] at hs
        cases hx : execOp cfg e rest tok raises op with
        | mk e₁ w =>
          obtain ⟨ok,todo⟩ := w
          rw [hx] at hs
          cases ok with
          | true => exact Option.some.inj hs ▸ .burstCall hp hx
          | false => exact Option.some.inj hs ▸ .burstAbort hp hx
    | _ => simp [Engine.step,hp] at hs
  | finishBatch =>
    cases hp : e.pc with
    | inBatch batch todo results =>
      cases todo with
      | nil =>
        simp only [Engine.step,hp,Option.some.injEq] at hs
        exact hs ▸ .finishBatch hp
      | cons op rest => simp [Engine.step,hp] at hs
    | _ => simp [Engine.step,hp] at hs
  | post cancelled prev full =>
    cases hp : e.pc with
    | posting todo =>
      cases todo with
      | nil =>
        simp only [Engine.step,hp,Option.some.injEq] at hs
        exact hs ▸ .postDone hp
      | cons t todo =>
        obtain ⟨i,tok,pre⟩ := t
        simp only [Engine.step,hp,Option.some.injEq] at hs
        exact hs ▸ .post hp
    | _ => simp [Engine.step,hp] at hs
  | finishBurst prev full =>
    cases hp : e.pc with
    | bursting i todo toks =>
      cases todo with
      | nil =>
        simp only [Engine.step,hp,Option.some.injEq] at hs
        exact hs ▸ .finishBurst hp rfl
      | cons op rest => simp [Engine.step,hp] at hs
    | _ => simp [Engine.step,hp] at hs

end Moves

end Engine

end SglangLite.Paged
