import SglangLite.Hybrid.Engine
import SglangLite.Paged.Plan

set_option autoImplicit false

namespace SglangLite.Hybrid.Engine
open Kv Sched

section Results

def resultsOf (ops : List Op) : List SeqId := ops.filterMap Op.result

theorem resultsOf_append (xs ys : List Op) : resultsOf (xs ++ ys) = resultsOf xs ++ resultsOf ys :=
  List.filterMap_append

theorem resultsOf_eq_nil {ops : List Op} (h : ∀ op ∈ ops, op.result = none) : resultsOf ops = [] :=
  List.filterMap_eq_nil_iff.mpr h

theorem resultsOf_each {α : Type} {f : α → List Op} {g : α → SeqId} (h : ∀ m, resultsOf (f m) = [g m])
    (l : List α) : resultsOf (l.flatMap f) = l.map g := by
  induction l with
  | nil => rfl
  | cons m l ih => rw [List.flatMap_cons,resultsOf_append,h,ih,List.map_cons,List.singleton_append]

theorem resultsOf_rows {f : SeqId × Nat → List Op} (h : ∀ m, resultsOf (f m) = [m.1])
    (group : List SeqId) : resultsOf (group.zipIdx.flatMap f) = group := by
  rw [resultsOf_each h,List.zipIdx_map_fst]

theorem resultsOf_prepare (stage : Bool) (group : List SeqId) : resultsOf (prepare stage group) = [] := by
  refine resultsOf_eq_nil fun op hop => ?_
  obtain ⟨m,_,hm⟩ := List.mem_flatMap.mp hop
  cases stage <;> simp at hm
  · rw [hm]
    rfl
  · rcases hm with rfl | rfl <;> rfl

theorem resultsOf_feedSteps (i : SeqId) (start : Nat) (ts : List Token) :
    resultsOf (feedSteps i start ts) = [] := by
  refine resultsOf_eq_nil fun op hop => ?_
  obtain ⟨m,_,hm⟩ := List.mem_flatMap.mp hop
  simp at hm
  rcases hm with rfl | rfl <;> rfl

theorem resultsOf_prefillOne (s : Scheduler) (i : SeqId) : resultsOf (prefillOne s i) = [i] := by
  unfold prefillOne
  simp only
  split_ifs
  · rfl
  · rw [resultsOf_append,← List.singleton_append,resultsOf_append,resultsOf_feedSteps]
    rfl
  · rfl
  · rfl

theorem resultsOf_batchPrefill (s : Scheduler) (group : List SeqId) :
    resultsOf (batchPrefill s group) = group := by
  cases group with
  | nil => rfl
  | cons i rest =>
    have hones : resultsOf ((i :: rest).flatMap (prefillOne s)) = i :: rest := by
      rw [resultsOf_each (resultsOf_prefillOne s),List.map_id']
    unfold batchPrefill
    simp only
    split_ifs
    · exact resultsOf_rows (fun _ => rfl) _
    · exact hones
    · rw [resultsOf_append,resultsOf_append,resultsOf_prepare,resultsOf_rows fun _ => rfl]
      rfl
    · exact hones

theorem resultsOf_batchDecode (s : Scheduler) (group : List SeqId) :
    (resultsOf (batchDecode s group)).Perm group := by
  refine List.Perm.trans (.of_eq ?_)
    (Paged.Engine.filter_not_perm (fun i => Paged.Engine.fromLogits (s.seq i)) group)
  unfold batchDecode
  simp only
  rw [resultsOf_append]
  congr 1
  · have hrows : resultsOf ((group.zipIdx.filter fun m => Paged.Engine.fromLogits (s.seq m.1)).flatMap
        fun m => [.restore m.1 m.2,.sample m.1]) =
        (group.zipIdx.filter fun m => Paged.Engine.fromLogits (s.seq m.1)).map Prod.fst :=
      resultsOf_each (fun _ => rfl) _
    have hfst : (group.zipIdx.map Prod.fst).filter (fun i => Paged.Engine.fromLogits (s.seq i)) =
        (group.zipIdx.filter fun m => Paged.Engine.fromLogits (s.seq m.1)).map Prod.fst := List.filter_map
    rw [hrows,← hfst,List.zipIdx_map_fst]
  · generalize (group.filter fun i => ¬ Paged.Engine.fromLogits (s.seq i)) = pending
    cases pending with
    | nil => rfl
    | cons i pending =>
      simp only
      rw [resultsOf_append,resultsOf_append,resultsOf_prepare,resultsOf_rows fun _ => rfl]
      rfl

theorem resultsOf_flatMap {f : List SeqId → List Op} (hf : ∀ g, (resultsOf (f g)).Perm g)
    (gs : List (List SeqId)) : (resultsOf (gs.flatMap f)).Perm gs.flatten := by
  induction gs with
  | nil => exact .refl _
  | cons g gs ih =>
    rw [List.flatMap_cons,resultsOf_append,List.flatten_cons]
    exact (hf g).append ih

/-- `run_batch` yields one token for each unfinished member of the batch. -/
theorem resultsOf_runBatch (s : Scheduler) (batch : List (SeqId × Bool)) :
    (resultsOf (runBatch s batch)).Perm
      ((batch.filter fun b => ¬ (s.seq b.1).finished).map Prod.fst) := by
  unfold runBatch
  simp only [resultsOf_append]
  generalize (batch.filter fun b => ¬ (s.seq b.1).finished) = live
  refine List.Perm.trans (((List.Perm.of_eq ?_).append ?_).append ?_)
    (Paged.Engine.parts_perm s live)
  · exact resultsOf_each (fun _ => rfl) _
  · exact resultsOf_flatMap (fun g => .of_eq (resultsOf_batchPrefill s g)) _
  · exact resultsOf_flatMap (resultsOf_batchDecode s) _

end Results

end SglangLite.Hybrid.Engine
