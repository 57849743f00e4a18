import SglangLite.Sched.Scheduler

set_option autoImplicit false

namespace SglangLite.Sched.Scheduler
open Kv

/-- A sequence that `form_batch` does not skip. -/
def live (s : Scheduler) (i : SeqId) : Bool := !((s.seq i).finished || (s.seq i).cancelled)

def cost (s : Scheduler) (m : SeqId × Bool) : Nat := if m.2 then remainingPrompt (s.seq m.1) else 1

def totalCost (s : Scheduler) (batch : List (SeqId × Bool)) : Nat := (batch.map s.cost).sum

/-- What `form_batch` is to return for these queues: `rs` and `ws` are what it
takes from them, and `rest` is the waiting queue afterwards. -/
structure Formed (cfg : SchedConfig) (s : Scheduler) (running waiting : List SeqId)
    (batch : List (SeqId × Bool)) (rest : List SeqId) : Prop where
  size : batch.length ≤ cfg.maxBatchSize
  distinct : (batch.map Prod.fst).Nodup
  runnable : ∀ m ∈ batch, s.Runnable m.1
  order : ∃ rs ws : List SeqId, rs <+: running.filter s.live ∧ ws <+: waiting.filter s.live ∧
    batch = rs.map (·,false) ++
      ws.map (fun i => (i,decide ((s.seq i).cachedLen < (s.seq i).inputIds.length))) ∧
    ∃ skipped, waiting = skipped ++ rest ∧ skipped.filter s.live = ws
  budget : s.totalCost batch ≤ cfg.maxTokensPerBatch ∨
    ∃ i, batch = [(i,true)] ∧ cfg.maxTokensPerBatch < remainingPrompt (s.seq i)
  maximal : ∀ i, (rest.filter s.live).head? = some i → batch.length = cfg.maxBatchSize ∨
    cfg.maxTokensPerBatch < s.totalCost batch+s.cost (waitFlag s i)

section Loops

variable {cfg : SchedConfig} {s : Scheduler} {l : List SeqId} {batch : List (SeqId × Bool)} {budget : Nat}

@[simp] theorem totalCost_append (xs ys : List (SeqId × Bool)) :
    s.totalCost (xs ++ ys) = s.totalCost xs+s.totalCost ys := by
  simp [totalCost]

theorem live_iff {i : SeqId} : s.live i = true ↔ s.Runnable i := by
  simp [live,Runnable]

theorem live_false {i : SeqId} (h : (s.seq i).finished = true ∨ (s.seq i).cancelled = true) :
    s.live i = false := by
  rcases h with h | h
  · simp [live,h]
  · simp [live,h]

theorem cost_waitFlag (i : SeqId) : s.cost (waitFlag s i) =
    if 0 < remainingPrompt (s.seq i) then max 1 (remainingPrompt (s.seq i)) else 1 := by
  simp only [cost,waitFlag,decide_eq_true_eq]
  split_ifs <;> omega

theorem cost_waitFlag_pos (i : SeqId) : 0 < s.cost (waitFlag s i) := by
  rw [cost_waitFlag]
  split_ifs <;> omega

/-- The budget that is left for a batch: what the batch has not taken, or
nothing after an oversized prefill. -/
def Spent (cfg : SchedConfig) (s : Scheduler) (batch : List (SeqId × Bool)) (budget : Nat) : Prop :=
  budget+s.totalCost batch = cfg.maxTokensPerBatch ∨
    budget = 0 ∧ ∃ i, batch = [(i,true)] ∧ cfg.maxTokensPerBatch < remainingPrompt (s.seq i)

theorem takeRunning_formed (hlen : batch.length ≤ cfg.maxBatchSize) :
    ∃ rs : List SeqId, rs <+: l.filter s.live ∧
      (takeRunning cfg s l batch budget).1 = batch ++ rs.map (·,false) ∧
      (takeRunning cfg s l batch budget).1.length ≤ cfg.maxBatchSize ∧
      (takeRunning cfg s l batch budget).2+rs.length = budget := by
  induction l generalizing batch budget with
  | nil => exact ⟨[],by simp,by simp [takeRunning],hlen,rfl⟩
  | cons i l ih =>
    simp only [takeRunning]
    by_cases h1 : cfg.maxBatchSize ≤ batch.length ∨ budget = 0
    · rw [if_pos h1]
      exact ⟨[],List.nil_prefix,by simp,hlen,rfl⟩
    rw [if_neg h1]
    by_cases h2 : (s.seq i).finished = true ∨ (s.seq i).cancelled = true
    · rw [if_pos h2,List.filter_cons_of_neg (by simp [live_false h2])]
      exact ih hlen
    · have hl : s.live i = true := live_iff.mpr (runnable_of_not h2)
      rw [if_neg h2,List.filter_cons_of_pos hl]
      obtain ⟨rs,hp,hb,hle,hsum⟩ := @ih (batch ++ [(i,false)]) (budget-1)
        (by simp; omega)
      exact ⟨i :: rs,by simpa using hp,by simpa using hb,hle,by simp; omega⟩

theorem takeWaiting_formed (hlen : batch.length ≤ cfg.maxBatchSize) (hs : Spent cfg s batch budget) :
    ∃ skipped : List SeqId, l = skipped ++ (takeWaiting cfg s l batch budget).2 ∧
      (takeWaiting cfg s l batch budget).1 = batch ++ (skipped.filter s.live).map (waitFlag s) ∧
      (takeWaiting cfg s l batch budget).1.length ≤ cfg.maxBatchSize ∧
      (∃ left, Spent cfg s (takeWaiting cfg s l batch budget).1 left) ∧
      ∀ i, ((takeWaiting cfg s l batch budget).2.filter s.live).head? = some i →
        (takeWaiting cfg s l batch budget).1.length = cfg.maxBatchSize ∨
          cfg.maxTokensPerBatch < s.totalCost (takeWaiting cfg s l batch budget).1+
            s.cost (waitFlag s i) := by
  induction l generalizing batch budget with
  | nil => exact ⟨[],by simp [takeWaiting],by simp [takeWaiting],hlen,⟨budget,hs⟩,by simp [takeWaiting]⟩
  | cons i l ih =>
    simp only [takeWaiting,← cost_waitFlag]
    by_cases h1 : batch.length < cfg.maxBatchSize ∧ 0 < budget
    · rw [if_pos h1]
      by_cases h2 : (s.seq i).finished = true ∨ (s.seq i).cancelled = true
      · rw [if_pos h2]
        obtain ⟨skipped,hq,hb,hle,hsp,hmax⟩ := ih hlen hs
        refine ⟨i :: skipped,by rw [List.cons_append,← hq],?_,hle,hsp,hmax⟩
        rw [List.filter_cons_of_neg (by simp [live_false h2])]
        exact hb
      · rw [if_neg h2]
        have hl : s.live i = true := live_iff.mpr (runnable_of_not h2)
        have hleft : budget+s.totalCost batch = cfg.maxTokensPerBatch := by
          rcases hs with hs | ⟨h0,_⟩
          · exact hs
          · omega
        by_cases h3 : budget < s.cost (waitFlag s i) ∧ batch ≠ []
        · -- the next one has to wait
          rw [if_pos h3]
          refine ⟨[],rfl,by simp,hlen,⟨budget,hs⟩,fun j hj => .inr ?_⟩
          rw [List.filter_cons_of_pos hl] at hj
          obtain rfl := Option.some.inj hj
          show cfg.maxTokensPerBatch < s.totalCost batch+s.cost (waitFlag s i)
          omega
        · rw [if_neg h3]
          have hflag : (i,decide (0 < remainingPrompt (s.seq i))) = waitFlag s i := rfl
          rw [hflag]
          have hs' : Spent cfg s (batch ++ [waitFlag s i]) (budget-min (s.cost (waitFlag s i)) budget) := by
            have hcost : s.totalCost [waitFlag s i] = s.cost (waitFlag s i) := by simp [totalCost]
            by_cases hfit : s.cost (waitFlag s i) ≤ budget
            · left
              rw [totalCost_append,hcost]
              omega
            · -- an oversized prompt is taken only as the first of its batch
              have hnil : batch = [] := by
                by_contra hne
                exact h3 ⟨by omega,hne⟩
              subst hnil
              rw [cost_waitFlag] at hfit ⊢
              have hzero : s.totalCost [] = 0 := rfl
              split_ifs at hfit ⊢ with hrem
              · exact .inr ⟨by omega,i,by simp [waitFlag,hrem],by omega⟩
              · omega
          obtain ⟨skipped,hq,hb,hle,hsp,hmax⟩ := @ih (batch ++ [waitFlag s i]) _
            (by simp; omega) hs'
          refine ⟨i :: skipped,by rw [List.cons_append,← hq],?_,hle,hsp,hmax⟩
          rw [List.filter_cons_of_pos hl,hb]
          simp
    · rw [if_neg h1]
      refine ⟨[],rfl,by simp,hlen,⟨budget,hs⟩,fun j _ => ?_⟩
      have hpos := cost_waitFlag_pos (s := s) j
      show batch.length = cfg.maxBatchSize ∨ cfg.maxTokensPerBatch < s.totalCost batch+s.cost (waitFlag s j)
      by_cases hfull : batch.length < cfg.maxBatchSize
      · have h0 : budget = 0 := by omega
        right
        rcases hs with hs | ⟨_,k,rfl,hover⟩
        · omega
        · have : s.totalCost [(k,true)] = remainingPrompt (s.seq k) := by simp [totalCost,cost]
          omega
      · exact .inl (by omega)

end Loops

theorem formBatch_formed (cfg : SchedConfig) (s : Scheduler) (hnd : (s.running ++ s.waiting).Nodup) :
    Formed cfg s s.running s.waiting (s.formBatch cfg).1 (s.formBatch cfg).2 := by
  obtain ⟨rs,hrs,hr,hrlen,hbudget⟩ := @takeRunning_formed cfg s s.running [] cfg.maxTokensPerBatch
    (Nat.zero_le _)
  have hspent : Spent cfg s (takeRunning cfg s s.running [] cfg.maxTokensPerBatch).1
      (takeRunning cfg s s.running [] cfg.maxTokensPerBatch).2 := by
    have hone : s.totalCost (rs.map (·,false)) = rs.length := by
      simp [totalCost,cost,Function.comp_def]
    refine .inl ?_
    rw [hr,List.nil_append,hone]
    exact hbudget
  obtain ⟨skipped,hq,hb,hle,⟨left,hsp⟩,hmax⟩ := takeWaiting_formed (l := s.waiting) hrlen hspent
  have hbatch : (s.formBatch cfg).1 = rs.map (·,false) ++ (skipped.filter s.live).map (waitFlag s) := by
    show (takeWaiting cfg s s.waiting _ _).1 = _
    rw [hb,hr,List.nil_append]
  have hws : skipped.filter s.live <+: s.waiting.filter s.live := by
    rw [hq,List.filter_append]
    exact List.prefix_append _ _
  have hfst : (s.formBatch cfg).1.map Prod.fst = rs ++ skipped.filter s.live := by
    rw [hbatch]
    simp [waitFlag,Function.comp_def]
  refine ⟨hle,?_,fun m hm => ?_,⟨rs,skipped.filter s.live,hrs,hws,?_,skipped,hq,rfl⟩,?_,hmax⟩
  · rw [hfst]
    exact ((hrs.sublist.trans List.filter_sublist).append
      (hws.sublist.trans List.filter_sublist)).nodup hnd
  · have hmem : m.1 ∈ rs ++ skipped.filter s.live := hfst ▸ List.mem_map_of_mem hm
    rcases List.mem_append.mp hmem with hmem | hmem
    · exact live_iff.mp (List.mem_filter.mp (hrs.subset hmem)).2
    · exact live_iff.mp (List.mem_filter.mp hmem).2
  · rw [hbatch]
    congr 1
    refine List.map_congr_left fun i _ => ?_
    simp [waitFlag,remainingPrompt]
  · rcases hsp with hsp | ⟨_,i,hi,hover⟩
    · exact .inl (by show s.totalCost (takeWaiting cfg s s.waiting _ _).1 ≤ _; omega)
    · exact .inr ⟨i,hi,hover⟩

def mixedQueues : Scheduler where
  seqs :=
    [{ requestId := "a", inputIds := [1], outputIds := [2], cachedLen := 1 },
      { requestId := "b", inputIds := [1,2], cancelled := true },
      { requestId := "c", inputIds := [1,2,3] },
      { requestId := "d", inputIds := [4,5] }]
  waiting := [1,2,3]
  running := [0]

theorem formBatch_mixed :
    mixedQueues.formBatch { maxTokensPerBatch := 5 } = ([(0,false),(2,true)],[3]) ∧
      Formed { maxTokensPerBatch := 5 } mixedQueues [0] [1,2,3]
        (mixedQueues.formBatch { maxTokensPerBatch := 5 }).1
        (mixedQueues.formBatch { maxTokensPerBatch := 5 }).2 :=
  ⟨by decide,formBatch_formed { maxTokensPerBatch := 5 } mixedQueues (by decide)⟩

end SglangLite.Sched.Scheduler
