import SglangLite.Paged.Calls

set_option autoImplicit false

namespace SglangLite.Paged
open Kv Sched Text

namespace Engine

variable {V : Type} {cfg : Config V} {e e' : Engine V}

section Plan

theorem mem_addToGroup {key : Nat} {i j : SeqId} {gs : List (Nat × List SeqId)}
    {g : Nat × List SeqId} (hg : g ∈ addToGroup key i gs) (hj : j ∈ g.2) :
    j = i ∨ ∃ g' ∈ gs, j ∈ g'.2 := by
  induction gs with
  | nil =>
    obtain rfl := List.mem_singleton.mp hg
    exact .inl (List.mem_singleton.mp hj)
  | cons g₀ gs ih =>
    simp only [addToGroup] at hg
    split_ifs at hg
    · rcases List.mem_cons.mp hg with rfl | hg
      · rcases List.mem_append.mp hj with hj | hj
        · exact .inr ⟨g₀,by simp,hj⟩
        · exact .inl (List.mem_singleton.mp hj)
      · exact .inr ⟨g,List.mem_cons_of_mem _ hg,hj⟩
    · rcases List.mem_cons.mp hg with rfl | hg
      · exact .inr ⟨_,by simp,hj⟩
      · rcases ih hg with rfl | ⟨g',hg',hj'⟩
        · exact .inl rfl
        · exact .inr ⟨g',List.mem_cons_of_mem _ hg',hj'⟩

theorem mem_groups {s : Scheduler} {idxs : List SeqId} {g : List SeqId} {j : SeqId}
    (hg : g ∈ groups s idxs) (hj : j ∈ g) : j ∈ idxs := by
  have key : ∀ (idxs : List SeqId) (gs : List (Nat × List SeqId)) (g : Nat × List SeqId),
      g ∈ idxs.foldl (fun gs i => addToGroup (s.seq i).cachedLen i gs) gs → j ∈ g.2 →
      j ∈ idxs ∨ ∃ g' ∈ gs, j ∈ g'.2 := by
    intro idxs
    induction idxs with
    | nil => intro gs g hg hj; exact .inr ⟨g,hg,hj⟩
    | cons i idxs ih =>
      intro gs g hg hj
      rcases ih _ g hg hj with h | ⟨g',hg',hj'⟩
      · exact .inl (List.mem_cons_of_mem _ h)
      · rcases mem_addToGroup hg' hj' with rfl | h
        · exact .inl (by simp)
        · exact .inr h
  obtain ⟨g',hg',rfl⟩ := List.mem_map.mp hg
  rcases key idxs [] g' hg' hj with h | ⟨_,h,_⟩
  · exact h
  · simp at h

theorem mem_paged {op : Op} {ops : List Op} (h : op ∈ paged cfg ops) : op ∈ ops := by
  unfold paged at h
  split_ifs at h
  · simp at h
  · exact h

theorem target_prefillOne {s : Scheduler} {i j : SeqId} {op : Op} (h : op ∈ prefillOne cfg s i)
    (hj : op.target = some j) : j = i := by
  unfold prefillOne at h
  split_ifs at h
  · obtain rfl := List.mem_singleton.mp h
    exact (Option.some.inj hj).symm
  · rcases List.mem_append.mp h with h | h
    · obtain rfl := List.mem_singleton.mp (mem_paged h)
      exact (Option.some.inj hj).symm
    · simp only [List.mem_cons,List.not_mem_nil,or_false] at h
      rcases h with rfl | rfl
      · simp [Op.target] at hj
      · exact (Option.some.inj hj).symm

theorem target_batchPrefill {s : Scheduler} {group : List SeqId} {j : SeqId} {op : Op}
    (h : op ∈ batchPrefill cfg s group) (hj : op.target = some j) : j ∈ group := by
  unfold batchPrefill at h
  have hmap : ∀ f : SeqId → Op, (∀ i, (f i).target = some i) → op ∈ group.map f → j ∈ group := by
    intro f hf hm
    obtain ⟨i,hi,rfl⟩ := List.mem_map.mp hm
    rw [hf] at hj
    exact Option.some.inj hj ▸ hi
  split at h
  · simp at h
  · split_ifs at h
    · exact hmap _ (fun _ => rfl) h
    · simp only [List.append_assoc,List.mem_append,List.mem_singleton] at h
      rcases h with h | rfl | h
      · exact hmap _ (fun _ => rfl) (mem_paged h)
      · simp [Op.target] at hj
      · exact hmap _ (fun _ => rfl) h
    · obtain ⟨i,hi,h⟩ := List.mem_flatMap.mp h
      exact target_prefillOne h hj ▸ hi

theorem target_batchDecode {s : Scheduler} {group : List SeqId} {j : SeqId} {op : Op}
    (h : op ∈ batchDecode cfg s group) (hj : op.target = some j) : j ∈ group := by
  unfold batchDecode at h
  rcases List.mem_append.mp h with h | h
  · obtain ⟨i,hi,rfl⟩ := List.mem_map.mp h
    exact Option.some.inj hj ▸ (List.mem_filter.mp hi).1
  · split_ifs at h
    · simp at h
    · simp only [List.append_assoc,List.mem_append,List.mem_singleton] at h
      rcases h with h | rfl | h
      · obtain ⟨i,hi,h⟩ := List.mem_flatMap.mp (mem_paged h)
        simp only [List.mem_cons,List.not_mem_nil,or_false] at h
        rcases h with rfl | rfl <;> exact Option.some.inj hj ▸ (List.mem_filter.mp hi).1
      · simp [Op.target] at hj
      · obtain ⟨i,hi,rfl⟩ := List.mem_map.mp h
        exact Option.some.inj hj ▸ (List.mem_filter.mp hi).1

/-- After the finished check, `run_batch` works on unfinished members of the
batch only. -/
theorem target_runBatch {s : Scheduler} {batch : List (SeqId × Bool)} {op : Op} {j : SeqId}
    (h : op ∈ runBatch cfg s batch) (hj : op.target = some j) :
    (s.seq j).finished = false ∧ j ∈ batch.map Prod.fst := by
  suffices hmem : j ∈ (batch.filter fun b => ¬ (s.seq b.1).finished).map Prod.fst by
    obtain ⟨b,hb,rfl⟩ := List.mem_map.mp hmem
    obtain ⟨hb,hf⟩ := List.mem_filter.mp hb
    exact ⟨by simpa using hf,List.mem_map_of_mem hb⟩
  unfold runBatch at h
  simp only [List.mem_append] at h
  rcases h with (h | h) | h
  · obtain ⟨b,hb,rfl⟩ := List.mem_map.mp h
    exact List.mem_map.mpr ⟨b,(List.mem_filter.mp hb).1,Option.some.inj hj⟩
  · obtain ⟨g,hg,h⟩ := List.mem_flatMap.mp h
    obtain ⟨b,hb,rfl⟩ := List.mem_map.mp (mem_groups hg (target_batchPrefill h hj))
    exact List.mem_map_of_mem (List.mem_filter.mp (List.mem_filter.mp hb).1).1
  · obtain ⟨g,hg,h⟩ := List.mem_flatMap.mp h
    obtain ⟨b,hb,rfl⟩ := List.mem_map.mp (mem_groups hg (target_batchDecode h hj))
    exact List.mem_map_of_mem (List.mem_filter.mp (List.mem_filter.mp hb).1).1

theorem target_burstOps {q : Sequence} {i j : SeqId} {n : Nat} {op : Op}
    (h : op ∈ burstOps cfg q i n) (hj : op.target = some j) : j = i := by
  have hrest : ∀ k, op ∈ [Op.forward [i],.commitBurst i,.burst i k] → j = i := by
    intro k h
    simp only [List.mem_cons,List.not_mem_nil,or_false] at h
    rcases h with rfl | rfl | rfl
    · simp [Op.target] at hj
    · exact (Option.some.inj hj).symm
    · exact (Option.some.inj hj).symm
  have hpage : ∀ k, op ∈ [Op.ensure i k,.cow i] → j = i := by
    intro k h
    simp only [List.mem_cons,List.not_mem_nil,or_false] at h
    rcases h with rfl | rfl <;> exact (Option.some.inj hj).symm
  cases n with
  | zero => simp [burstOps] at h
  | succ n =>
    simp only [burstOps] at h
    split_ifs at h
    · rcases List.mem_append.mp h with h | h
      · exact hpage _ h
      · exact hrest n h
    · exact hrest n (by simpa using h)
    · exact hrest n h
    · simp at h
    · rcases List.mem_append.mp h with h | h
      · exact hpage _ (mem_paged h)
      · exact hrest n h

end Plan

section Results

def resultsOf (ops : List Op) : List SeqId := ops.filterMap Op.result

theorem resultsOf_map {f : SeqId → Op} (hf : ∀ i, (f i).result = some i) (l : List SeqId) :
    resultsOf (l.map f) = l := by
  simp [resultsOf,List.filterMap_map,hf]

theorem resultsOf_eq_nil {ops : List Op} (h : ∀ op ∈ ops, op.result = none) :
    resultsOf ops = [] := List.filterMap_eq_nil_iff.mpr h

theorem resultsOf_append (xs ys : List Op) :
    resultsOf (xs ++ ys) = resultsOf xs ++ resultsOf ys := List.filterMap_append

theorem resultsOf_prefillOne (s : Scheduler) (i : SeqId) :
    resultsOf (prefillOne cfg s i) = [i] := by
  unfold prefillOne paged
  split_ifs <;> rfl

theorem resultsOf_batchPrefill (s : Scheduler) (group : List SeqId) :
    resultsOf (batchPrefill cfg s group) = group := by
  unfold batchPrefill
  split
  · rename_i heq
    rw [List.map_eq_nil_iff.mp heq]
    rfl
  · split_ifs
    · exact resultsOf_map (fun _ => rfl) group
    · rw [resultsOf_append,resultsOf_append,resultsOf_map (fun _ => rfl),resultsOf_eq_nil]
      · rfl
      · intro op hop
        obtain ⟨i,_,rfl⟩ := List.mem_map.mp (mem_paged hop)
        rfl
    · rw [resultsOf,List.filterMap_flatMap]
      refine Eq.trans (List.flatMap_congr fun i _ => ?_) (List.flatMap_singleton' group)
      exact resultsOf_prefillOne s i

theorem filter_not_perm {α : Type} (p : α → Bool) (l : List α) :
    (l.filter p ++ l.filter fun b => ¬ p b).Perm l := by
  simpa using List.filter_append_perm p l

theorem resultsOf_batchDecode (s : Scheduler) (group : List SeqId) :
    (resultsOf (batchDecode cfg s group)).Perm group := by
  have hsplit := filter_not_perm (fun i => fromLogits (s.seq i)) group
  unfold batchDecode
  rw [resultsOf_append,resultsOf_map (fun _ => rfl)]
  refine List.Perm.trans (List.Perm.append_left _ (List.Perm.of_eq ?_)) hsplit
  split_ifs with hp
  · rw [hp]
    rfl
  · rw [resultsOf_append,resultsOf_append,resultsOf_map (fun _ => rfl),resultsOf_eq_nil]
    · simp [resultsOf,Op.result]
    · intro op hop
      obtain ⟨i,_,h⟩ := List.mem_flatMap.mp (mem_paged hop)
      simp only [List.mem_cons,List.not_mem_nil,or_false] at h
      rcases h with rfl | rfl <;> rfl

theorem addToGroup_flatten (key : Nat) (i : SeqId) (gs : List (Nat × List SeqId)) :
    ((addToGroup key i gs).flatMap Prod.snd).Perm (gs.flatMap Prod.snd ++ [i]) := by
  induction gs with
  | nil => exact .refl _
  | cons g gs ih =>
    simp only [addToGroup]
    split_ifs
    · simp only [List.flatMap_cons,List.append_assoc]
      exact (List.perm_append_comm).append_left _
    · simp only [List.flatMap_cons,List.append_assoc]
      exact ih.append_left _

theorem groups_flatten (s : Scheduler) (idxs : List SeqId) : (groups s idxs).flatten.Perm idxs := by
  have key : ∀ (idxs : List SeqId) (gs : List (Nat × List SeqId)),
      ((idxs.foldl (fun gs i => addToGroup (s.seq i).cachedLen i gs) gs).flatMap Prod.snd).Perm
        (gs.flatMap Prod.snd ++ idxs) := by
    intro idxs
    induction idxs with
    | nil => intro gs; simp
    | cons i idxs ih =>
      intro gs
      refine (ih _).trans ?_
      refine ((addToGroup_flatten _ i gs).append_right idxs).trans (List.Perm.of_eq ?_)
      simp
  have := key idxs []
  simpa [groups,List.flatMap] using this

theorem resultsOf_flatMap {f : List SeqId → List Op} (hf : ∀ g, (resultsOf (f g)).Perm g)
    (gs : List (List SeqId)) : (resultsOf (gs.flatMap f)).Perm gs.flatten := by
  induction gs with
  | nil => exact .refl _
  | cons g gs ih =>
    rw [List.flatMap_cons,resultsOf_append,List.flatten_cons]
    exact (hf g).append ih

/-- The exact hits, the prefill groups and the decode groups are the members
that `run_batch` has to deal with. -/
theorem parts_perm (s : Scheduler) (live : List (SeqId × Bool)) :
    let rest := live.filter fun b => ¬ exactHit (s.seq b.1) b.2
    let isPrefill := fun b : SeqId × Bool =>
      b.2 && decide ((s.seq b.1).cachedLen < (s.seq b.1).inputIds.length)
    ((live.filter fun b => exactHit (s.seq b.1) b.2).map Prod.fst ++
      (groups s ((rest.filter fun b => isPrefill b).map Prod.fst)).flatten ++
      (groups s ((rest.filter fun b => ¬ isPrefill b).map Prod.fst)).flatten).Perm
        (live.map Prod.fst) := by
  intro rest isPrefill
  have hexact := (filter_not_perm (fun b : SeqId × Bool => exactHit (s.seq b.1) b.2) live).map Prod.fst
  have hrest := (filter_not_perm isPrefill rest).map Prod.fst
  rw [List.map_append] at hexact hrest
  rw [List.append_assoc]
  have hgroups := (groups_flatten s ((rest.filter fun b => isPrefill b).map Prod.fst)).append
    (groups_flatten s ((rest.filter fun b => ¬ isPrefill b).map Prod.fst))
  exact ((hgroups.trans hrest).append_left _).trans hexact

/-- `run_batch` yields one token for each unfinished member of the batch. -/
theorem resultsOf_runBatch (s : Scheduler) (batch : List (SeqId × Bool)) :
    (resultsOf (runBatch cfg s batch)).Perm
      ((batch.filter fun b => ¬ (s.seq b.1).finished).map Prod.fst) := by
  unfold runBatch
  simp only [resultsOf_append]
  generalize (batch.filter fun b => ¬ (s.seq b.1).finished) = live
  refine List.Perm.trans (((List.Perm.of_eq ?_).append ?_).append ?_) (parts_perm s live)
  · simp [resultsOf,List.filterMap_map,Function.comp_def,Op.result]
  · exact resultsOf_flatMap (fun g => .of_eq (@resultsOf_batchPrefill V cfg s g)) _
  · exact resultsOf_flatMap (@resultsOf_batchDecode V cfg s) _

end Results

end Engine

end SglangLite.Paged
