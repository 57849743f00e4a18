import SglangLite.Sched.Scheduler

set_option autoImplicit false

namespace SglangLite.Sched
open Kv

/-- A sequence that has not run yet: its cached prefix is part of the prompt,
and stored logits come with a full match. -/
def Fresh (q : Sequence) : Prop :=
  q.outputIds = [] ∧ q.cachedLen ≤ q.inputIds.length ∧
    (q.cachedLen = q.inputIds.length → q.lastLogits = true)

/-- A sequence whose last token has no KV yet. -/
def Ready (q : Sequence) : Prop := q.outputIds ≠ [] ∧ q.cachedLen+1 = q.tokens.length

/-- A sequence whose tokens all have their KV. -/
def Done (q : Sequence) : Prop := q.cachedLen = q.tokens.length

def BatchPhase (q : Sequence) (pre : Bool) : Prop :=
  pre = false ∧ Ready q ∨ Fresh q ∧ pre = decide (0 < Scheduler.remainingPrompt q)

theorem fresh_flag {q : Sequence} (h : BatchPhase q true) : Fresh q := by
  rcases h with ⟨h,_⟩ | ⟨h,_⟩
  · exact absurd h (by simp)
  · exact h

namespace Scheduler

variable {s s' : Scheduler}

structure Queued (s : Scheduler) : Prop where
  lt : ∀ i ∈ s.running ++ s.waiting, i < s.seqs.length
  nodup : (s.running ++ s.waiting).Nodup

structure Ended (s s' : Scheduler) : Prop where
  length : s'.seqs.length = s.seqs.length
  live : ∀ i, (s'.seq i).finished = false → s'.seq i = s.seq i
  waiting : s'.waiting.Sublist s.waiting
  running : s'.running.Sublist s.running

def Outside (s : Scheduler) (i : SeqId) : Prop :=
  (i ∈ s.waiting → Fresh (s.seq i)) ∧ (i ∈ s.running → Ready (s.seq i))

/-- The members of the current batch, and everybody else. -/
structure Split (s : Scheduler) (ids : List SeqId) : Prop where
  nodup : ids.Nodup
  notWaiting : ∀ i ∈ ids, i ∉ s.waiting
  outside : ∀ i, (s.seq i).finished = false → i ∉ ids → Outside s i

theorem Split.ended {ids : List SeqId} (h : Split s ids) (hend : Ended s s') : Split s' ids := by
  refine ⟨h.nodup,fun i hi hw => h.notWaiting i hi (hend.waiting.subset hw),fun i hi hn => ?_⟩
  have heq := hend.live i hi
  rw [heq] at hi
  obtain ⟨h1,h2⟩ := h.outside i hi hn
  rw [Outside,heq]
  exact ⟨fun hw => h1 (hend.waiting.subset hw),fun hr => h2 (hend.running.subset hr)⟩

theorem Split.members {ids : List SeqId} (h : Split s ids) (hw : s'.waiting = s.waiting)
    (hr : s'.running = s.running) (hseq : ∀ i, i ∉ ids → s'.seq i = s.seq i) : Split s' ids := by
  refine ⟨h.nodup,fun i hi => by rw [hw]; exact h.notWaiting i hi,fun i hi hn => ?_⟩
  rw [hseq i hn] at hi
  rw [Outside,hseq i hn,hw,hr]
  exact h.outside i hi hn

theorem Split.dissolve {ids : List SeqId} (h : Split s ids)
    (hf : ∀ i ∈ ids, (s.seq i).finished = true) : Split s [] := by
  refine ⟨List.nodup_nil,by simp,fun i hi _ => h.outside i hi fun hmem => ?_⟩
  rw [hf i hmem] at hi
  exact absurd hi (by simp)

/-- The first member is dealt with: it has ended or is ready to decode. -/
theorem Split.posted {i : SeqId} {ids : List SeqId} (h : Split s (i :: ids))
    (hw : s'.waiting.Sublist s.waiting) (hr : s'.running.Sublist s.running)
    (hne : ∀ j, j ≠ i → (s'.seq j).finished = false → s'.seq j = s.seq j)
    (hi : (s'.seq i).finished = false → Ready (s'.seq i)) : Split s' ids := by
  refine ⟨(List.nodup_cons.mp h.nodup).2,
    fun j hj hwj => h.notWaiting j (List.mem_cons_of_mem _ hj) (hw.subset hwj),fun j hl hn => ?_⟩
  by_cases hji : j = i
  · rw [hji] at hl ⊢
    exact ⟨fun hwi => absurd (hw.subset hwi) (h.notWaiting i (by simp)),fun _ => hi hl⟩
  · have heq := hne j hji hl
    rw [heq] at hl
    obtain ⟨h1,h2⟩ := h.outside j hl (by simp [hji,hn])
    rw [Outside,heq]
    exact ⟨fun hwj => h1 (hw.subset hwj),fun hrj => h2 (hr.subset hrj)⟩

theorem Queued.step (h : Queued s) (cfg : SchedConfig) : Queued (s.step cfg).1 := by
  obtain ⟨rs,ws,_,_,hws,hrun⟩ := step_spec cfg s
  have hqueue : ((s.step cfg).1.running ++ (s.step cfg).1.waiting).Sublist (s.running ++ s.waiting) := by
    refine (hrun.append_right _).trans ?_
    rw [List.append_assoc]
    exact hws.append_left _
  exact ⟨fun i hi => h.lt i (hqueue.subset hi),hqueue.nodup h.nodup⟩

theorem Split.step (h : Split s []) (hq : Queued s) (cfg : SchedConfig) :
    Split (s.step cfg).1 ((s.step cfg).2.map Prod.fst) ∧
      ∀ i pre, (i,pre) ∈ (s.step cfg).2 → (s.seq i).finished = false → BatchPhase (s.seq i) pre := by
  obtain ⟨rs,ws,hb,hrs,hws,hrun⟩ := step_spec cfg s
  have hids : (s.step cfg).2.map Prod.fst = rs ++ ws := by
    rw [hb]
    simp [waitFlag,Function.comp_def]
  have hrw : (rs ++ ws ++ (s.step cfg).1.waiting).Sublist (s.running ++ s.waiting) := by
    rw [List.append_assoc]
    exact hrs.append hws
  obtain ⟨hnd,_,hdisj⟩ := List.nodup_append.mp (hrw.nodup hq.nodup)
  refine ⟨?_,fun i pre hi hl => ?_⟩
  · rw [hids]
    refine ⟨hnd,fun i hi hw => hdisj i hi i hw rfl,fun i hi hn => ⟨fun hw => ?_,fun hr => ?_⟩⟩
    · exact (h.outside i hi (by simp)).1 (hws.subset (List.mem_append_right _ hw))
    · rcases List.mem_append.mp (hrun.subset hr) with hr | hw
      · exact (h.outside i hi (by simp)).2 hr
      · exact absurd (List.mem_append_right rs hw) hn
  · rw [hb] at hi
    rcases List.mem_append.mp hi with hi | hi
    · obtain ⟨j,hj,heq⟩ := List.mem_map.mp hi
      obtain ⟨rfl,rfl⟩ := Prod.mk.inj heq
      exact .inl ⟨rfl,(h.outside j hl (by simp)).2 (hrs.subset hj)⟩
    · obtain ⟨j,hj,heq⟩ := List.mem_map.mp hi
      obtain ⟨rfl,rfl⟩ := Prod.mk.inj heq
      exact .inr ⟨(h.outside j hl (by simp)).1 (hws.subset (List.mem_append_left _ hj)),rfl⟩

structure Admits (s : Scheduler) (q : Sequence) (s' : Scheduler) : Prop where
  seqs : s'.seqs = s.seqs ++ [q]
  waiting : s'.waiting = s.waiting ++ [s.seqs.length]
  running : s'.running = s.running

theorem admits_addRequest {cfg : SchedConfig} {q : Sequence} (h : s.addRequest cfg q = some s') :
    Admits s q s' := by
  unfold addRequest at h
  split_ifs at h
  obtain rfl := Option.some.inj h
  exact ⟨rfl,rfl,rfl⟩

theorem Admits.seq_new {q : Sequence} (h : Admits s q s') : s'.seq s.seqs.length = q := by
  simp [seq,h.seqs]

theorem Admits.seq_old {q : Sequence} (h : Admits s q s') {i : SeqId} (hi : i ≠ s.seqs.length) :
    s'.seq i = s.seq i := by
  simp only [seq,h.seqs,List.getD_eq_getElem?_getD]
  rcases Nat.lt_or_gt_of_ne hi with hlt | hgt
  · rw [List.getElem?_append_left hlt]
  · rw [List.getElem?_eq_none (by simp; omega),List.getElem?_eq_none (by omega)]

theorem Split.joined {q : Sequence} (h : Split s []) (hq : Queued s) (ha : Admits s q s')
    (hf : Fresh q) : Split s' [] := by
  have hnot : s.seqs.length ∉ s.running ++ s.waiting := fun hc => Nat.lt_irrefl _ (hq.lt _ hc)
  refine ⟨List.nodup_nil,by simp,fun i hi _ => ?_⟩
  by_cases hnew : i = s.seqs.length
  · rw [Outside,hnew,ha.seq_new,ha.running]
    exact ⟨fun _ => hf,fun hr => absurd (List.mem_append_left _ hr) hnot⟩
  · rw [ha.seq_old hnew] at hi
    obtain ⟨h1,h2⟩ := h.outside i hi (by simp)
    rw [Outside,ha.seq_old hnew,ha.waiting,ha.running]
    refine ⟨fun hw => ?_,h2⟩
    rcases List.mem_append.mp hw with hw | hw
    · exact h1 hw
    · exact absurd (List.mem_singleton.mp hw) hnew

end Scheduler

end SglangLite.Sched
