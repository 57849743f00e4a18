import Mathlib.Tactic
import SglangLite.Sched.Sequence

set_option autoImplicit false

namespace SglangLite.Sched
open Kv

structure SchedConfig where
  maxBatchSize : Nat := 8
  maxTokensPerBatch : Nat := 512
  maxWaiting : Nat := 128
  maxPromptTokens : Nat := 8192

/-- The scheduler's queues over a heap of sequences. A `SeqId` is the index of
the sequence in creation order, so `waiting`, `running`, `_by_request` and a
batch share one object when they hold the same index. -/
structure Scheduler where
  seqs : List Sequence := []
  waiting : List SeqId := []
  running : List SeqId := []
  byRequest : RequestId → Option SeqId := fun _ => none

namespace Scheduler

def seq (s : Scheduler) (i : SeqId) : Sequence := s.seqs.getD i default

def modify (s : Scheduler) (i : SeqId) (f : Sequence → Sequence) : Scheduler :=
  { s with seqs := s.seqs.modify i f }

/-- `add_request` up to its call of `match_prefix`, whose result arrives in
the sequence; `none` is the `RuntimeError` or `ValueError`. -/
def addRequest (cfg : SchedConfig) (s : Scheduler) (q : Sequence) : Option Scheduler :=
  if cfg.maxWaiting ≤ s.waiting.length then none
  else if cfg.maxPromptTokens < q.inputIds.length then none
  else
    some { s with
      seqs := s.seqs ++ [q]
      waiting := s.waiting ++ [s.seqs.length]
      byRequest := Function.update s.byRequest q.requestId (some s.seqs.length) }

/-- `mark_finished`, less the release of the pages of `block_table`, which is
the caller's. -/
def markFinished (s : Scheduler) (i : SeqId) (reason : FinishReason) : Scheduler where
  seqs := s.seqs.modify i fun q =>
    { q with finished := true, finishReason := some reason, blockTable := [], kvState := false }
  waiting := s.waiting.filter (· ≠ i)
  running := s.running.erase i
  byRequest := Function.update s.byRequest (s.seq i).requestId none

/-- The loop of `form_batch` over the running sequences: the batch so far and
the token budget left. -/
def takeRunning (cfg : SchedConfig) (s : Scheduler) :
    List SeqId → List (SeqId × Bool) → Nat → List (SeqId × Bool) × Nat
  | [], batch, budget => (batch,budget)
  | i :: rest, batch, budget =>
      if cfg.maxBatchSize ≤ batch.length ∨ budget = 0 then (batch,budget)
      else if (s.seq i).finished ∨ (s.seq i).cancelled then takeRunning cfg s rest batch budget
      else takeRunning cfg s rest (batch ++ [(i,false)]) (budget-1)

def remainingPrompt (q : Sequence) : Nat := q.inputIds.length-q.cachedLen

/-- The loop of `form_batch` over the waiting queue: the batch and the queue
that is left. -/
def takeWaiting (cfg : SchedConfig) (s : Scheduler) :
    List SeqId → List (SeqId × Bool) → Nat → List (SeqId × Bool) × List SeqId
  | [], batch, _ => (batch,[])
  | i :: rest, batch, budget =>
      if batch.length < cfg.maxBatchSize ∧ 0 < budget then
        if (s.seq i).finished ∨ (s.seq i).cancelled then takeWaiting cfg s rest batch budget
        else
          let remaining := remainingPrompt (s.seq i)
          let cost := if 0 < remaining then max 1 remaining else 1
          if budget < cost ∧ batch ≠ [] then (batch,i :: rest)
          else takeWaiting cfg s rest (batch ++ [(i,decide (0 < remaining))])
            (budget-min cost budget)
      else (batch,i :: rest)

/-- `form_batch`: each member with its `is_prefill` flag, and the waiting
queue afterwards. -/
def formBatch (cfg : SchedConfig) (s : Scheduler) : List (SeqId × Bool) × List SeqId :=
  let r := takeRunning cfg s s.running [] cfg.maxTokensPerBatch
  takeWaiting cfg s s.waiting r.1 r.2

/-- `Scheduler.step`: form a batch and merge it into `running`. -/
def step (cfg : SchedConfig) (s : Scheduler) : Scheduler × List (SeqId × Bool) :=
  let (batch,waiting) := s.formBatch cfg
  let new := (batch.map Prod.fst).filter fun i => i ∉ s.running ∧ ¬ (s.seq i).finished
  ({ s with
      waiting := waiting
      running := (s.running ++ new).filter fun i => ¬ (s.seq i).finished },batch)

/-- `self.scheduler.running = [s for s in self.scheduler.running if not s.finished]`. -/
def dropFinished (s : Scheduler) : Scheduler :=
  { s with running := s.running.filter fun i => ¬ (s.seq i).finished }

section Batch

theorem takeRunning_spec (cfg : SchedConfig) (s : Scheduler) (l : List SeqId)
    (batch : List (SeqId × Bool)) (budget : Nat) :
    ∃ rs : List SeqId, (takeRunning cfg s l batch budget).1 = batch ++ rs.map (·,false) ∧ rs.Sublist l := by
  induction l generalizing batch budget with
  | nil => exact ⟨[],by simp [takeRunning],.refl _⟩
  | cons i l ih =>
    simp only [takeRunning]
    by_cases h1 : cfg.maxBatchSize ≤ batch.length ∨ budget = 0
    · rw [if_pos h1]; exact ⟨[],by simp,by simp⟩
    rw [if_neg h1]
    by_cases h2 : (s.seq i).finished = true ∨ (s.seq i).cancelled = true
    · rw [if_pos h2]
      obtain ⟨rs,hb,hs⟩ := ih batch budget
      exact ⟨rs,hb,hs.cons i⟩
    · rw [if_neg h2]
      obtain ⟨rs,hb,hs⟩ := ih (batch ++ [(i,false)]) (budget-1)
      exact ⟨i :: rs,by rw [hb]; simp,hs.cons_cons i⟩

def waitFlag (s : Scheduler) (i : SeqId) : SeqId × Bool := (i,decide (0 < remainingPrompt (s.seq i)))

theorem takeWaiting_spec (cfg : SchedConfig) (s : Scheduler) (l : List SeqId)
    (batch : List (SeqId × Bool)) (budget : Nat) :
    ∃ ws : List SeqId, (takeWaiting cfg s l batch budget).1 = batch ++ ws.map (waitFlag s) ∧
      (ws ++ (takeWaiting cfg s l batch budget).2).Sublist l := by
  induction l generalizing batch budget with
  | nil => exact ⟨[],by simp [takeWaiting],by simp [takeWaiting]⟩
  | cons i l ih =>
    simp only [takeWaiting]
    by_cases h1 : batch.length < cfg.maxBatchSize ∧ 0 < budget
    · rw [if_pos h1]
      by_cases h2 : (s.seq i).finished = true ∨ (s.seq i).cancelled = true
      · rw [if_pos h2]
        obtain ⟨ws,hb,hs⟩ := ih batch budget
        exact ⟨ws,hb,hs.cons i⟩
      · rw [if_neg h2]
        by_cases h3 : budget < (if 0 < remainingPrompt (s.seq i) then
            max 1 (remainingPrompt (s.seq i)) else 1) ∧ batch ≠ []
        · rw [if_pos h3]; exact ⟨[],by simp,by simp⟩
        · rw [if_neg h3]
          obtain ⟨ws,hb,hs⟩ := ih (batch ++ [waitFlag s i]) (budget-min
            (if 0 < remainingPrompt (s.seq i) then max 1 (remainingPrompt (s.seq i)) else 1) budget)
          exact ⟨i :: ws,by rw [show (i,decide (0 < remainingPrompt (s.seq i))) = waitFlag s i from rfl,hb]; simp,
            hs.cons_cons i⟩
    · rw [if_neg h1]; exact ⟨[],by simp,by simp⟩

/-- `step` takes a batch from the front of both queues and moves what it took
out of `waiting` to `running`. -/
theorem step_spec (cfg : SchedConfig) (s : Scheduler) :
    ∃ rs ws : List SeqId, (s.step cfg).2 = rs.map (·,false) ++ ws.map (waitFlag s) ∧ rs.Sublist s.running ∧
      (ws ++ (s.step cfg).1.waiting).Sublist s.waiting ∧
      (s.step cfg).1.running.Sublist (s.running ++ ws) := by
  obtain ⟨rs,hr,hrs⟩ := takeRunning_spec cfg s s.running [] cfg.maxTokensPerBatch
  obtain ⟨ws,hw,hws⟩ := takeWaiting_spec cfg s s.waiting
    (takeRunning cfg s s.running [] cfg.maxTokensPerBatch).1
    (takeRunning cfg s s.running [] cfg.maxTokensPerBatch).2
  have hbatch : (s.step cfg).2 = rs.map (·,false) ++ ws.map (waitFlag s) := by
    show (s.formBatch cfg).1 = _
    simp only [formBatch]
    rw [hw,hr,List.nil_append]
  refine ⟨rs,ws,hbatch,hrs,hws,?_⟩
  have hfst : ((s.step cfg).2.map Prod.fst) = rs ++ ws := by
    rw [hbatch]
    simp [waitFlag,Function.comp_def]
  show ((s.running ++ (((s.step cfg).2.map Prod.fst).filter
    fun i => i ∉ s.running ∧ ¬ (s.seq i).finished)).filter fun i => ¬ (s.seq i).finished).Sublist _
  refine List.filter_sublist.trans (List.Sublist.append_left ?_ _)
  rw [hfst,List.filter_append]
  have hnil : rs.filter (fun i => i ∉ s.running ∧ ¬ (s.seq i).finished) = [] := by
    rw [List.filter_eq_nil_iff]
    intro i hi
    simp [hrs.subset hi]
  rw [hnil,List.nil_append]
  exact List.filter_sublist

def Runnable (s : Scheduler) (i : SeqId) : Prop :=
  (s.seq i).finished = false ∧ (s.seq i).cancelled = false

theorem runnable_of_not {s : Scheduler} {i : SeqId}
    (h : ¬ ((s.seq i).finished = true ∨ (s.seq i).cancelled = true)) : s.Runnable i := by
  simpa [Runnable] using h

theorem takeRunning_runnable {cfg : SchedConfig} {s : Scheduler} {l : List SeqId}
    {batch : List (SeqId × Bool)} {budget : Nat} (hb : ∀ m ∈ batch, s.Runnable m.1) :
    ∀ m ∈ (takeRunning cfg s l batch budget).1, s.Runnable m.1 := by
  induction l generalizing batch budget with
  | nil => exact hb
  | cons i l ih =>
    simp only [takeRunning]
    by_cases h1 : cfg.maxBatchSize ≤ batch.length ∨ budget = 0
    · rw [if_pos h1]; exact hb
    rw [if_neg h1]
    by_cases h2 : (s.seq i).finished = true ∨ (s.seq i).cancelled = true
    · rw [if_pos h2]; exact ih hb
    · rw [if_neg h2]
      refine ih fun m hm => ?_
      rcases List.mem_append.mp hm with hm | hm
      · exact hb m hm
      · rw [List.mem_singleton.mp hm]; exact runnable_of_not h2

/-- The batch holds runnable sequences, and no runnable one leaves the waiting
queue without joining it. -/
theorem takeWaiting_runnable {cfg : SchedConfig} {s : Scheduler} {l : List SeqId}
    {batch : List (SeqId × Bool)} {budget : Nat} (hb : ∀ m ∈ batch, s.Runnable m.1) :
    (∀ m ∈ (takeWaiting cfg s l batch budget).1, s.Runnable m.1) ∧
      batch ⊆ (takeWaiting cfg s l batch budget).1 ∧
      ∀ i ∈ l, s.Runnable i → i ∈ (takeWaiting cfg s l batch budget).1.map Prod.fst ∨
        i ∈ (takeWaiting cfg s l batch budget).2 := by
  induction l generalizing batch budget with
  | nil => exact ⟨hb,fun _ h => h,by simp⟩
  | cons j l ih =>
    simp only [takeWaiting]
    by_cases h1 : batch.length < cfg.maxBatchSize ∧ 0 < budget
    · rw [if_pos h1]
      by_cases h2 : (s.seq j).finished = true ∨ (s.seq j).cancelled = true
      · rw [if_pos h2]
        obtain ⟨hl,hsub,hkeep⟩ := ih hb
        refine ⟨hl,hsub,fun i hi hr => ?_⟩
        rcases List.mem_cons.mp hi with rfl | hi
        · rcases h2 with h | h
          · rw [hr.1] at h; exact absurd h (by simp)
          · rw [hr.2] at h; exact absurd h (by simp)
        · exact hkeep i hi hr
      · rw [if_neg h2]
        by_cases h3 : budget < (if 0 < remainingPrompt (s.seq j) then
            max 1 (remainingPrompt (s.seq j)) else 1) ∧ batch ≠ []
        · rw [if_pos h3]
          exact ⟨hb,fun _ h => h,fun i hi _ => .inr hi⟩
        · rw [if_neg h3]
          have hb' : ∀ m ∈ batch ++ [(j,decide (0 < remainingPrompt (s.seq j)))], s.Runnable m.1 := by
            intro m hm
            rcases List.mem_append.mp hm with hm | hm
            · exact hb m hm
            · rw [List.mem_singleton.mp hm]; exact runnable_of_not h2
          obtain ⟨hl,hsub,hkeep⟩ := ih hb'
          refine ⟨hl,fun _ h => hsub (List.mem_append_left _ h),fun i hi hr => ?_⟩
          rcases List.mem_cons.mp hi with rfl | hi
          · exact .inl (List.mem_map_of_mem (hsub (List.mem_append_right _ (List.mem_singleton_self _))))
          · exact hkeep i hi hr
    · rw [if_neg h1]
      exact ⟨hb,fun _ h => h,fun i hi _ => .inr hi⟩

theorem step_runnable (cfg : SchedConfig) (s : Scheduler) :
    (∀ m ∈ (s.step cfg).2, s.Runnable m.1) ∧
      ∀ i, s.Runnable i → i ∈ s.waiting ∨ i ∈ s.running →
        i ∈ (s.step cfg).1.waiting ∨ i ∈ (s.step cfg).1.running := by
  have hrun : ∀ m ∈ (takeRunning cfg s s.running [] cfg.maxTokensPerBatch).1, s.Runnable m.1 :=
    takeRunning_runnable (by simp)
  obtain ⟨hl,_,hkeep⟩ := takeWaiting_runnable (l := s.waiting) hrun
  refine ⟨hl,fun i hr hi => ?_⟩
  have hin : i ∈ s.running ∨ i ∈ (s.step cfg).2.map Prod.fst → i ∈ (s.step cfg).1.running := by
    intro h
    by_cases hmem : i ∈ s.running
    · simp [step,hmem,hr.1]
    · have h : i ∈ ((s.step cfg).2.map Prod.fst).filter
          (fun i => i ∉ s.running ∧ ¬ (s.seq i).finished) :=
        List.mem_filter.mpr ⟨h.resolve_left hmem,by simp [hmem,hr.1]⟩
      exact List.mem_filter.mpr ⟨List.mem_append_right _ h,by simp [hr.1]⟩
  rcases hi with hi | hi
  · rcases hkeep i hi hr with h | h
    · exact .inr (hin (.inr h))
    · exact .inl h
  · exact .inr (hin (.inl hi))

end Batch

section Heap

theorem seq_of_ge {s : Scheduler} {i : SeqId} (h : s.seqs.length ≤ i) : s.seq i = default := by
  simp [seq,List.getElem?_eq_none h]

theorem lt_of_unfinished {s : Scheduler} {i : SeqId} (h : (s.seq i).finished = false) :
    i < s.seqs.length := by
  by_contra hge
  rw [seq_of_ge (Nat.le_of_not_lt hge)] at h
  exact absurd h (by decide)

theorem seq_modify (s : Scheduler) (i j : SeqId) (f : Sequence → Sequence) :
    (s.modify i f).seq j = if j = i ∧ i < s.seqs.length then f (s.seq i) else s.seq j := by
  simp only [modify,seq,List.getD_eq_getElem?_getD,List.getElem?_modify]
  by_cases hij : i = j
  · subst hij
    by_cases hi : i < s.seqs.length
    · simp [hi]
    · simp [hi]
  · simp [hij,Ne.symm hij]

theorem seq_modify_self {s : Scheduler} {i : SeqId} (hi : i < s.seqs.length)
    (f : Sequence → Sequence) : (s.modify i f).seq i = f (s.seq i) := by
  simp [seq_modify,hi]

theorem seq_modify_ne {s : Scheduler} {i j : SeqId} (hij : j ≠ i) (f : Sequence → Sequence) :
    (s.modify i f).seq j = s.seq j := by
  simp [seq_modify,hij]

@[simp] theorem length_modify (s : Scheduler) (i : SeqId) (f : Sequence → Sequence) :
    (s.modify i f).seqs.length = s.seqs.length := by simp [modify]

theorem seq_markFinished (s : Scheduler) (i j : SeqId) (reason : FinishReason) :
    (s.markFinished i reason).seq j =
      if j = i ∧ i < s.seqs.length then
        { s.seq i with
          finished := true, finishReason := some reason, blockTable := [], kvState := false }
      else s.seq j :=
  seq_modify s i j _

def held (s : Scheduler) (b : BlockId) : Nat := (s.seqs.map fun q => q.blockTable.count b).sum

theorem sum_map_modify {α : Type} (g : α → Nat) (f : α → α) (l : List α) (d : α) (i : Nat)
    (hi : i < l.length) :
    ((l.modify i f).map g).sum+g (l.getD i d) = (l.map g).sum+g (f (l.getD i d)) := by
  induction l generalizing i with
  | nil => simp at hi
  | cons a l ih =>
    cases i with
    | zero => simp; omega
    | succ i =>
      have := ih i (by simpa using hi)
      simp only [List.modify_succ_cons,List.map_cons,List.sum_cons,List.getD_cons_succ] at this ⊢
      omega

theorem held_modify (s : Scheduler) {i : SeqId} (f : Sequence → Sequence) (b : BlockId)
    (hi : i < s.seqs.length) :
    (s.modify i f).held b+(s.seq i).blockTable.count b =
      s.held b+(f (s.seq i)).blockTable.count b :=
  sum_map_modify (fun q => q.blockTable.count b) f s.seqs default i hi

theorem modify_of_ge {s : Scheduler} {i : SeqId} (h : s.seqs.length ≤ i)
    (f : Sequence → Sequence) : s.modify i f = s := by
  simp [modify,List.modify_eq_self h]

theorem modify_same {s : Scheduler} {i : SeqId} {f : Sequence → Sequence} (hf : ∀ q, f q = q) :
    s.modify i f = s := by
  obtain rfl : f = id := funext hf
  simp [modify]

theorem held_modify_same (s : Scheduler) (i : SeqId) (f : Sequence → Sequence) (b : BlockId)
    (hf : ∀ q, (f q).blockTable = q.blockTable) : (s.modify i f).held b = s.held b := by
  by_cases hi : i < s.seqs.length
  · have := held_modify s f b hi
    rw [hf] at this
    omega
  · rw [modify_of_ge (Nat.le_of_not_lt hi)]

theorem count_le_held (s : Scheduler) (i : SeqId) (b : BlockId) :
    (s.seq i).blockTable.count b ≤ s.held b := by
  by_cases hi : i < s.seqs.length
  · have := held_modify s (fun q => { q with blockTable := [] }) b hi
    simp only [List.count_nil] at this
    omega
  · rw [seq_of_ge (Nat.le_of_not_lt hi)]
    simp [show (default : Sequence).blockTable = [] from rfl]

theorem two_tables {s : Scheduler} {i j : SeqId} (hij : i ≠ j) (b : BlockId) :
    (s.seq i).blockTable.count b+(s.seq j).blockTable.count b ≤ s.held b := by
  by_cases hi : i < s.seqs.length
  · have h := held_modify s (fun q => { q with blockTable := [] }) b hi
    have hj := count_le_held (s.modify i fun q => { q with blockTable := [] }) j b
    rw [seq_modify_ne hij.symm] at hj
    simp only [List.count_nil] at h
    omega
  · rw [seq_of_ge (Nat.le_of_not_lt hi)]
    simpa [show (default : Sequence).blockTable = [] from rfl] using count_le_held s j b

end Heap

end Scheduler

end SglangLite.Sched
