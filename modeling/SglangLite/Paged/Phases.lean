import SglangLite.Paged.Slots
import SglangLite.Sched.Phases

set_option autoImplicit false

namespace SglangLite.Paged
open Kv Sched Text

/-- What a call that yields a token finds. -/
def OpPhase (q : Sequence) : Op → Prop
  | .sample _ => q.outputIds = [] ∧ q.cachedLen = q.inputIds.length
  | .commitPrefill _ => q.outputIds = [] ∧ q.cachedLen ≤ q.inputIds.length
  | .commitDecode _ => Ready q
  | _ => False

def Op.ofBurst : Op → Bool
  | .burst _ _ => true
  | .commitBurst _ => true
  | _ => false

namespace Engine

variable {V : Type} {cfg : Config V}

section Kinds

theorem prefillOne_phase {s : Scheduler} {i : SeqId} {op : Op} (h : op ∈ prefillOne cfg s i)
    (hpos : 0 < Scheduler.remainingPrompt (s.seq i)) (hout : (s.seq i).outputIds = []) :
    op.ofBurst = false ∧ (∀ j, op.result = some j → OpPhase (s.seq j) op) := by
  unfold prefillOne at h
  rw [if_neg (by omega)] at h
  rcases List.mem_append.mp h with h | h
  · obtain rfl := List.mem_singleton.mp (mem_paged h)
    exact ⟨rfl,by simp [Op.result]⟩
  · simp only [List.mem_cons,List.not_mem_nil,or_false] at h
    rcases h with rfl | rfl
    · exact ⟨rfl,by simp [Op.result]⟩
    · refine ⟨rfl,fun j hj => ?_⟩
      obtain rfl := Option.some.inj hj
      have : Scheduler.remainingPrompt (s.seq i) =
        (s.seq i).inputIds.length-(s.seq i).cachedLen := rfl
      exact ⟨hout,by omega⟩

theorem batchPrefill_phase {s : Scheduler} {group : List SeqId} {op : Op}
    (h : op ∈ batchPrefill cfg s group)
    (hg : ∀ i ∈ group, 0 < Scheduler.remainingPrompt (s.seq i) ∧ (s.seq i).outputIds = []) :
    op.ofBurst = false ∧ (∀ j, op.result = some j → OpPhase (s.seq j) op) := by
  unfold batchPrefill at h
  split at h
  · simp at h
  · rename_i n rest heq
    split_ifs at h with hall hn
    · -- no member has an empty remainder
      have hmem : n ∈ group.map fun i => Scheduler.remainingPrompt (s.seq i) := by simp [heq]
      obtain ⟨i,hi,hi'⟩ := List.mem_map.mp hmem
      have := (hg i hi).1
      omega
    · simp only [List.append_assoc,List.mem_append,List.mem_singleton] at h
      rcases h with h | rfl | h
      · obtain ⟨i,_,rfl⟩ := List.mem_map.mp (mem_paged h)
        exact ⟨rfl,by simp [Op.result]⟩
      · exact ⟨rfl,by simp [Op.result]⟩
      · obtain ⟨i,hi,rfl⟩ := List.mem_map.mp h
        refine ⟨rfl,fun j hj => ?_⟩
        obtain rfl := Option.some.inj hj
        obtain ⟨hpos,hout⟩ := hg i hi
        have : Scheduler.remainingPrompt (s.seq i) =
          (s.seq i).inputIds.length-(s.seq i).cachedLen := rfl
        exact ⟨hout,by omega⟩
    · obtain ⟨i,hi,h⟩ := List.mem_flatMap.mp h
      exact prefillOne_phase h (hg i hi).1 (hg i hi).2

theorem batchDecode_phase {s : Scheduler} {group : List SeqId} {op : Op}
    (h : op ∈ batchDecode cfg s group) (hg : ∀ i ∈ group, Ready (s.seq i)) :
    op.ofBurst = false ∧ (∀ j, op.result = some j → OpPhase (s.seq j) op) := by
  unfold batchDecode at h
  rcases List.mem_append.mp h with h | h
  · obtain ⟨i,hi,rfl⟩ := List.mem_map.mp h
    obtain ⟨hi,hl⟩ := List.mem_filter.mp hi
    have := (hg i hi).1
    simp [fromLogits,this] at hl
  · split_ifs at h
    · simp at h
    · simp only [List.append_assoc,List.mem_append,List.mem_singleton] at h
      rcases h with h | rfl | h
      · obtain ⟨i,hi,h⟩ := List.mem_flatMap.mp (mem_paged h)
        simp only [List.mem_cons,List.not_mem_nil,or_false] at h
        rcases h with rfl | rfl <;> exact ⟨rfl,by simp [Op.result]⟩
      · exact ⟨rfl,by simp [Op.result]⟩
      · obtain ⟨i,hi,rfl⟩ := List.mem_map.mp h
        refine ⟨rfl,fun j hj => ?_⟩
        obtain rfl := Option.some.inj hj
        exact hg i (List.mem_filter.mp hi).1

/-- A member that is neither an exact hit nor a prefill is one that decodes. -/
theorem decodes_of_rest {D : Sequence → Prop} {q : Sequence} {pre : Bool}
    (h : pre = false ∧ D q ∨ Fresh q ∧ pre = decide (0 < Scheduler.remainingPrompt q))
    (hx : exactHit q pre = false)
    (hp : ¬ (pre && decide (q.cachedLen < q.inputIds.length)) = true) : D q := by
  rcases h with ⟨_,h⟩ | ⟨⟨hout,hle,hlog⟩,hpre⟩
  · exact h
  · exfalso
    by_cases hlt : q.cachedLen < q.inputIds.length
    · have : 0 < Scheduler.remainingPrompt q := by unfold Scheduler.remainingPrompt; omega
      simp [hpre,this,hlt] at hp
    · have heq : q.cachedLen = q.inputIds.length := by omega
      simp [exactHit,fromLogits,hout,hlog heq,heq] at hx

/-- Every call of `run_batch` finds its sequence in the phase that it is for. -/
theorem runBatch_phase {s : Scheduler} {batch : List (SeqId × Bool)} {op : Op}
    (hb : ∀ i pre, (i,pre) ∈ batch → (s.seq i).finished = false → BatchPhase (s.seq i) pre)
    (h : op ∈ runBatch cfg s batch) :
    op.ofBurst = false ∧ (∀ j, op.result = some j → OpPhase (s.seq j) op) := by
  have hlive : ∀ b : SeqId × Bool, b ∈ (batch.filter fun b => ¬ (s.seq b.1).finished) →
      BatchPhase (s.seq b.1) b.2 := by
    intro b hb'
    obtain ⟨hm,hf⟩ := List.mem_filter.mp hb'
    exact hb b.1 b.2 hm (by simpa using hf)
  unfold runBatch at h
  simp only [List.mem_append] at h
  rcases h with (h | h) | h
  · obtain ⟨b,hb',rfl⟩ := List.mem_map.mp h
    obtain ⟨hl,hx⟩ := List.mem_filter.mp hb'
    refine ⟨rfl,fun j hj => ?_⟩
    obtain rfl := Option.some.inj hj
    simp only [exactHit,fromLogits,Bool.and_eq_true,List.isEmpty_iff] at hx
    refine ⟨hx.1.1,?_⟩
    rcases hlive b hl with ⟨_,hr⟩ | ⟨⟨_,hle,_⟩,_⟩
    · exact absurd hx.1.1 hr.1
    · have h2 := hx.2
      simp only [Bool.or_eq_true,Bool.and_eq_true,decide_eq_true_eq] at h2
      omega
  · obtain ⟨g,hg,h⟩ := List.mem_flatMap.mp h
    refine batchPrefill_phase h (fun i hi => ?_)
    obtain ⟨b,hb',rfl⟩ := List.mem_map.mp (mem_groups hg hi)
    obtain ⟨hrest,hpre⟩ := List.mem_filter.mp hb'
    have hphase := hlive b (List.mem_filter.mp hrest).1
    simp only [Bool.and_eq_true,decide_eq_true_eq] at hpre
    rw [hpre.1] at hphase
    have hf := fresh_flag hphase
    exact ⟨by unfold Scheduler.remainingPrompt; omega,hf.1⟩
  · obtain ⟨g,hg,h⟩ := List.mem_flatMap.mp h
    refine batchDecode_phase h (fun i hi => ?_)
    obtain ⟨b,hb',rfl⟩ := List.mem_map.mp (mem_groups hg hi)
    obtain ⟨hrest,hpre⟩ := List.mem_filter.mp hb'
    obtain ⟨hl,hx⟩ := List.mem_filter.mp hrest
    exact decodes_of_rest (D := Ready) (hlive b hl) (by simpa using hx) (of_decide_eq_true hpre)

end Kinds

section CowFirst

/-- Before a decode commits, its page is alone (`A`) or a copy-on-write comes
first. -/
def CowFirst (A : SeqId → Prop) : List Op → Prop
  | [] => True
  | .cow i :: ops => CowFirst (fun j => j = i ∨ A j) ops
  | .commitDecode i :: ops => A i ∧ CowFirst A ops
  | _ :: ops => CowFirst A ops

theorem CowFirst.mono {A B : SeqId → Prop} {ops : List Op} (h : CowFirst A ops)
    (hab : ∀ i, .commitDecode i ∈ ops → A i → B i) : CowFirst B ops := by
  induction ops generalizing A B with
  | nil => trivial
  | cons op ops ih =>
    have hrest : ∀ i, .commitDecode i ∈ ops → A i → B i :=
      fun i hi => hab i (List.mem_cons_of_mem _ hi)
    cases op with
    | cow i =>
      refine ih h (fun j hj hA => ?_)
      rcases hA with rfl | hA
      · exact .inl rfl
      · exact .inr (hrest j hj hA)
    | commitDecode i => exact ⟨hab i (by simp) h.1,ih h.2 hrest⟩
    | _ => exact ih h hrest

def cows (ops : List Op) : List SeqId :=
  ops.filterMap fun op => match op with
    | .cow i => some i
    | _ => none

theorem CowFirst.append {A : SeqId → Prop} {xs ys : List Op} (hx : CowFirst A xs)
    (hy : CowFirst (fun i => i ∈ cows xs ∨ A i) ys) : CowFirst A (xs ++ ys) := by
  induction xs generalizing A with
  | nil => exact hy.mono fun i _ h => by simpa [cows] using h
  | cons op xs ih =>
    cases op with
    | cow i =>
      refine ih hx (hy.mono fun j _ h => ?_)
      simpa [cows,or_assoc,or_comm,or_left_comm] using h
    | commitDecode i => exact ⟨hx.1,ih hx.2 hy⟩
    | _ => exact ih hx hy

theorem cowFirst_of_noDecode {A : SeqId → Prop} {ops : List Op}
    (h : ∀ i, .commitDecode i ∉ ops) : CowFirst A ops := by
  induction ops generalizing A with
  | nil => trivial
  | cons op ops ih =>
    have hrest : ∀ i, .commitDecode i ∉ ops := fun i hi => h i (List.mem_cons_of_mem _ hi)
    cases op with
    | commitDecode i => exact absurd (List.mem_cons_self) (h i)
    | _ => exact ih hrest

theorem cowFirst_batchDecode {s : Scheduler} {group : List SeqId} {A : SeqId → Prop}
    (hm : cfg.mode ≠ .hfCache) : CowFirst A (batchDecode cfg s group) := by
  unfold batchDecode
  refine CowFirst.append (cowFirst_of_noDecode ?_) ?_
  · intro i hi
    obtain ⟨_,_,h⟩ := List.mem_map.mp hi
    exact absurd h (by simp)
  split_ifs
  · trivial
  simp only [paged,if_neg hm]
  generalize group.filter (fun i => ¬ fromLogits (s.seq i)) = pending
  refine CowFirst.append (CowFirst.append (cowFirst_of_noDecode ?_) trivial) ?_
  · intro i hi
    obtain ⟨_,_,h⟩ := List.mem_flatMap.mp hi
    simp at h
  · -- every pending sequence is among those copied
    have hcows : ∀ (l : List SeqId), ∀ i ∈ l, i ∈ cows (l.flatMap fun i =>
        [Op.ensure i ((s.seq i).cachedLen+1),.cow i]) := by
      intro l i hi
      refine List.mem_filterMap.mpr ⟨.cow i,?_,rfl⟩
      exact List.mem_flatMap.mpr ⟨i,hi,by simp⟩
    have hall : ∀ (l : List SeqId) (B : SeqId → Prop), (∀ i ∈ l, B i) →
        CowFirst B (l.map Op.commitDecode) := by
      intro l
      induction l with
      | nil => intros; trivial
      | cons i l ih => intro B hB; exact ⟨hB i (by simp),ih B fun j hj => hB j (by simp [hj])⟩
    refine hall pending _ (fun i hi => .inl ?_)
    simp only [cows,List.filterMap_append,List.mem_append]
    exact .inl (hcows pending i hi)

theorem CowFirst.flatMap {f : List SeqId → List Op} {A : SeqId → Prop}
    (hf : ∀ (g : List SeqId) (B : SeqId → Prop), CowFirst B (f g)) (gs : List (List SeqId)) :
    CowFirst A (gs.flatMap f) := by
  induction gs generalizing A with
  | nil => trivial
  | cons g gs ih => exact CowFirst.append (hf g A) ih

theorem noDecode_batchPrefill (s : Scheduler) (group : List SeqId) (i : SeqId) :
    .commitDecode i ∉ batchPrefill cfg s group := by
  intro h
  unfold batchPrefill prefillOne paged at h
  split at h
  · simp at h
  · split_ifs at h <;> simp at h <;> obtain ⟨j,_,h⟩ := h <;> split_ifs at h <;> simp at h

theorem cowFirst_runBatch {s : Scheduler} {batch : List (SeqId × Bool)} {A : SeqId → Prop}
    (hm : cfg.mode ≠ .hfCache) : CowFirst A (runBatch cfg s batch) := by
  unfold runBatch
  refine CowFirst.append (CowFirst.append (cowFirst_of_noDecode ?_) (.flatMap ?_ _)) (.flatMap ?_ _)
  · intro i hi
    obtain ⟨_,_,h⟩ := List.mem_map.mp hi
    exact absurd h (by simp)
  · exact fun g B => cowFirst_of_noDecode (noDecode_batchPrefill s g)
  · exact fun g B => cowFirst_batchDecode hm

end CowFirst

end Engine

end SglangLite.Paged
