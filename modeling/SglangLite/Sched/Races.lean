import SglangLite.Threads
import SglangLite.Sched.Scheduler

set_option autoImplicit false

namespace SglangLite.Sched.Races
open Kv

/-- The thread of the engine loop, and the threads that serve HTTP. -/
inductive Tid where
  | loop
  | http (n : Nat)
  deriving DecidableEq, Repr

/-- A `collections.deque`. An iterator remembers the version and raises
`RuntimeError` when the deque has been mutated since. -/
structure Deque where
  items : List SeqId := []
  version : Nat := 0
  deriving DecidableEq, Repr

/-- The scheduler's attributes. `waiting` is a reference to one of the deques
ever made. `held` records the sequences that `form_batch` has popped and that
are not yet merged into `running`, `batches` the batches it returned. -/
structure Shared where
  seqs : List Sequence := []
  deques : List Deque := [{}]
  waiting : Nat := 0
  running : List SeqId := []
  byRequest : RequestId → Option SeqId := fun _ => none
  held : List SeqId := []
  batches : List (List (SeqId × Bool)) := []

namespace Shared

def seq (s : Shared) (i : SeqId) : Sequence := s.seqs.getD i default

def modify (s : Shared) (i : SeqId) (f : Sequence → Sequence) : Shared :=
  { s with seqs := s.seqs.modify i f }

def deque (s : Shared) (d : Nat) : Deque := s.deques.getD d {}

def mutate (s : Shared) (d : Nat) (f : List SeqId → List SeqId) : Shared :=
  { s with deques := s.deques.modify d fun q => ⟨f q.items,q.version+1⟩ }

def queue (s : Shared) : List SeqId := (s.deque s.waiting).items

def scheduler (s : Shared) : Scheduler where
  seqs := s.seqs
  waiting := s.queue
  running := s.running
  byRequest := s.byRequest

end Shared

/-- The steps of `cancel` and `mark_finished`, of `add_request`, and of `step`
with `form_batch`. Each leads to the next; its arguments are the local
variables. `k` is the index of an iteration over `running` or over a deque. -/
inductive Instr where
  | lookup (r : RequestId)
  | setFinished (i : SeqId) (reason : FinishReason)
  | removeRunning (i : SeqId)
  | readWaiting (i : SeqId)
  | build (i : SeqId) (d version k : Nat) (acc : List SeqId)
  | assignWaiting (i : SeqId) (acc : List SeqId)
  | cleanUp (i : SeqId)
  | checkAdd (r : Request) (cached : Nat)
  | append (r : Request) (cached : Nat)
  | setByRequest (r : RequestId) (i : SeqId)
  | formStart
  | formRunning (d : Nat) (rest : List SeqId) (batch : List (SeqId × Bool)) (budget : Nat)
  | formWaiting (d : Nat) (batch : List (SeqId × Bool)) (budget : Nat)
  | scanIds (batch : List (SeqId × Bool)) (k : Nat) (ids : List SeqId)
  | merge (ids : List SeqId) (todo : List SeqId)
  | scanLive (k : Nat) (acc : List SeqId)
  | setRunning (acc : List SeqId)
  deriving DecidableEq, Repr

inductive Call where
  | cancel (t : Tid) (r : RequestId)
  | finish (i : SeqId) (reason : FinishReason)
  | addRequest (r : Request) (cached : Nat)
  | step
  | dropFinished
  deriving DecidableEq, Repr

def Call.caller : Call → Tid
  | .cancel t _ => t
  | _ => .loop

def Call.body : Call → List Instr
  | .cancel _ r => [.lookup r]
  | .finish i reason => [.setFinished i reason]
  | .addRequest r cached => [.checkAdd r cached]
  | .step => [.formStart]
  | .dropFinished => [.scanLive 0 []]

/-- What the loop of `form_batch` over the waiting queue does next. -/
inductive Next where
  | stop
  | skip
  | take (i : SeqId) (pre : Bool) (cost : Nat)

def next (cfg : SchedConfig) (s : Shared) (d : Nat) (batch : List (SeqId × Bool)) (budget : Nat) :
    Next :=
  match (s.deque d).items with
  | [] => .stop
  | i :: _ =>
      if batch.length < cfg.maxBatchSize ∧ 0 < budget then
        if (s.seq i).finished ∨ (s.seq i).cancelled then .skip
        else
          let remaining := Scheduler.remainingPrompt (s.seq i)
          let cost := if 0 < remaining then max 1 remaining else 1
          if budget < cost ∧ batch ≠ [] then .stop
          else .take i (decide (0 < remaining)) cost
      else .stop

def exec (cfg : SchedConfig) (_ : Tid) (s : Shared) (i : Instr) (rest : List Instr) (_ : Unit) :
    Option (Shared × List Instr) :=
  match i with
  | .lookup r =>
      match s.byRequest r with
      | none => some (s,rest)
      | some i => some (s.modify i fun q => { q with cancelled := true },
          .setFinished i .cancelled :: rest)
  | .setFinished i reason =>
      if i < s.seqs.length then
        some (s.modify i fun q => { q with finished := true, finishReason := some reason },
          .removeRunning i :: rest)
      else none
  | .removeRunning i => some ({ s with running := s.running.erase i },.readWaiting i :: rest)
  | .readWaiting i => some (s,.build i s.waiting (s.deque s.waiting).version 0 [] :: rest)
  | .build i d version k acc =>
      if (s.deque d).version ≠ version then some (s,[])
      else
        match (s.deque d).items[k]? with
        | none => some (s,.assignWaiting i acc :: rest)
        | some j => some (s,.build i d version (k+1) (if j ≠ i then acc ++ [j] else acc) :: rest)
  | .assignWaiting i acc =>
      some ({ s with deques := s.deques ++ [⟨acc,0⟩], waiting := s.deques.length },
        .cleanUp i :: rest)
  | .cleanUp i =>
      some ({ s.modify i (fun q => { q with blockTable := [], kvState := false }) with
        byRequest := Function.update s.byRequest (s.seq i).requestId none },rest)
  | .checkAdd r cached =>
      if cfg.maxWaiting ≤ s.queue.length ∨ cfg.maxPromptTokens < r.inputIds.length then some (s,[])
      else some (s,.append r cached :: rest)
  | .append r cached =>
      some ({ s.mutate s.waiting (· ++ [s.seqs.length]) with
          seqs := s.seqs ++ [{ r.sequence none with cachedLen := cached }] },
        .setByRequest r.requestId s.seqs.length :: rest)
  | .setByRequest r i =>
      some ({ s with byRequest := Function.update s.byRequest r (some i) },rest)
  | .formStart => some (s,.formRunning s.waiting s.running [] cfg.maxTokensPerBatch :: rest)
  | .formRunning d todo batch budget =>
      match todo with
      | [] => some (s,.formWaiting d batch budget :: rest)
      | i :: todo =>
          if cfg.maxBatchSize ≤ batch.length ∨ budget = 0 then
            some (s,.formWaiting d batch budget :: rest)
          else if (s.seq i).finished ∨ (s.seq i).cancelled then
            some (s,.formRunning d todo batch budget :: rest)
          else some (s,.formRunning d todo (batch ++ [(i,false)]) (budget-1) :: rest)
  | .formWaiting d batch budget =>
      match next cfg s d batch budget with
      | .stop => some ({ s with batches := s.batches ++ [batch] },.scanIds batch 0 [] :: rest)
      | .skip => some (s.mutate d List.tail,.formWaiting d batch budget :: rest)
      | .take i pre cost =>
          some ({ s.mutate d List.tail with held := s.held ++ [i] },
            .formWaiting d (batch ++ [(i,pre)]) (budget-min cost budget) :: rest)
  | .scanIds batch k ids =>
      match s.running[k]? with
      | none => some (s,.merge ids (batch.map Prod.fst) :: rest)
      | some j => some (s,.scanIds batch (k+1) (j :: ids) :: rest)
  | .merge ids todo =>
      match todo with
      | [] => some (s,.scanLive 0 [] :: rest)
      | i :: todo =>
          if i ∉ ids ∧ (s.seq i).finished = false then
            some ({ s with running := s.running ++ [i], held := s.held.erase i },
              .merge ids todo :: rest)
          else some (s,.merge ids todo :: rest)
  | .scanLive k acc =>
      match s.running[k]? with
      | none => some (s,.setRunning acc :: rest)
      | some j => some (s,.scanLive (k+1) (if (s.seq j).finished then acc else acc ++ [j]) :: rest)
  | .setRunning acc => some ({ s with running := acc },rest)

def program (cfg : SchedConfig) : Threads.Program Tid Shared Instr Unit Call where
  caller := Call.caller
  body := Call.body
  exec := exec cfg

abbrev Machine := Threads.Machine Tid Shared Instr
abbrev Event := Threads.Event Tid Unit Call

def step (cfg : SchedConfig) : Machine → Event → Option Machine := Threads.step (program cfg)

def init : Machine := ⟨{},fun _ => []⟩

section Alone

variable {cfg : SchedConfig} {t : Tid} {s s' : Shared}

theorem seq_modify (s : Shared) (i j : SeqId) (f : Sequence → Sequence) :
    (s.modify i f).seq j = if j = i ∧ i < s.seqs.length then f (s.seq i) else s.seq j := by
  simp only [Shared.seq,Shared.modify,List.getD_eq_getElem?_getD,List.getElem?_modify]
  by_cases hij : i = j
  · subst hij
    by_cases hi : i < s.seqs.length <;> simp [hi]
  · simp [hij,Ne.symm hij]

theorem deque_mutate (s : Shared) (d e : Nat) (f : List SeqId → List SeqId) :
    (s.mutate d f).deque e = if e = d ∧ d < s.deques.length then
      ⟨f (s.deque d).items,(s.deque d).version+1⟩ else s.deque e := by
  simp only [Shared.deque,Shared.mutate,List.getD_eq_getElem?_getD,List.getElem?_modify]
  by_cases hde : d = e
  · subst hde
    by_cases hd : d < s.deques.length <;> simp [hd]
  · simp [hde,Ne.symm hde]

theorem deque_push (s : Shared) (acc : List SeqId) (d : Nat) :
    ({ s with deques := s.deques ++ [⟨acc,0⟩], waiting := s.deques.length } : Shared).deque d =
      if d = s.deques.length then ⟨acc,0⟩ else s.deque d := by
  simp only [Shared.deque,List.getD_eq_getElem?_getD]
  rcases Nat.lt_trichotomy d s.deques.length with hd | hd | hd
  · rw [List.getElem?_append_left hd,if_neg (by omega)]
  · rw [if_pos hd,hd]
    simp
  · rw [if_neg (by omega),List.getElem?_eq_none (by simp; omega),List.getElem?_eq_none (by omega)]

theorem build_ends {i : SeqId} {d k : Nat} {acc : List SeqId}
    (h : Threads.Ends (program cfg) t () s
      [.assignWaiting i (acc ++ ((s.deque d).items.drop k).filter (· ≠ i))] s') :
    Threads.Ends (program cfg) t () s [.build i d (s.deque d).version k acc] s' := by
  by_cases hk : k < (s.deque d).items.length
  · have hget := List.getElem?_eq_getElem hk
    have hx : (program cfg).exec t s (.build i d (s.deque d).version k acc) [] () =
        some (s,[.build i d (s.deque d).version (k+1)
          (if (s.deque d).items[k] ≠ i then acc ++ [(s.deque d).items[k]] else acc)]) := by
      simp [program,exec,hget]
    refine .step hx (build_ends ?_)
    rw [List.drop_eq_getElem_cons hk,List.filter_cons] at h
    by_cases he : (s.deque d).items[k] = i
    · simpa [he] using h
    · simpa [he] using h
  · have hx : (program cfg).exec t s (.build i d (s.deque d).version k acc) [] () =
        some (s,[.assignWaiting i acc]) := by
      simp [program,exec,List.getElem?_eq_none (Nat.le_of_not_lt hk)]
    refine .step hx ?_
    rwa [List.drop_eq_nil_of_le (Nat.le_of_not_lt hk),List.filter_nil,List.append_nil] at h
termination_by (s.deque d).items.length-k

/-- `mark_finished` that nobody interrupts is the scheduler's. -/
theorem mark_ends {i : SeqId} (hi : i < s.seqs.length) (reason : FinishReason) :
    ∃ s', Threads.Ends (program cfg) t () s [.setFinished i reason] s' ∧
      s'.scheduler = s.scheduler.markFinished i reason := by
  have h₁ : (program cfg).exec t s (.setFinished i reason) [] () =
      some (s.modify i fun q => { q with finished := true, finishReason := some reason },
        [.removeRunning i]) := by
    simp [program,exec,hi]
  refine ⟨_,.step h₁ <| .step rfl <| .step rfl <| build_ends <| .step rfl <| .step rfl <|
    Threads.ends_nil _ _ _ _,?_⟩
  have hid : ((s.modify i fun q => { q with finished := true, finishReason := some reason }).seq
      i).requestId = (s.seq i).requestId := by
    rw [seq_modify,if_pos ⟨rfl,hi⟩]
  simp only [Shared.scheduler,Scheduler.markFinished,Scheduler.mk.injEq]
  refine ⟨?_,?_,rfl,?_⟩
  · simp only [Shared.modify,List.modify_modify_eq]
    rfl
  · change ((s.deques ++ [(⟨[] ++ (s.queue.drop 0).filter (· ≠ i),0⟩ : Deque)]).getD
      s.deques.length {}).items = s.queue.filter (· ≠ i)
    simp
  · exact congrArg (fun r => Function.update s.byRequest r none) hid

theorem formRunning_ends {d : Nat} {todo : List SeqId} {batch : List (SeqId × Bool)} {budget : Nat}
    (h : Threads.Ends (program cfg) t () s [.formWaiting d
      (Scheduler.takeRunning cfg s.scheduler todo batch budget).1
      (Scheduler.takeRunning cfg s.scheduler todo batch budget).2] s') :
    Threads.Ends (program cfg) t () s [.formRunning d todo batch budget] s' := by
  induction todo generalizing batch budget with
  | nil => exact .step rfl h
  | cons i todo ih =>
    have hseq : s.scheduler.seq i = s.seq i := rfl
    simp only [Scheduler.takeRunning,hseq] at h
    split_ifs at h with h1 h2
    · exact .step (by simp only [program,exec,if_pos h1]) h
    · exact .step (by simp only [program,exec,if_neg h1,if_pos h2]) (ih h)
    · exact .step (by simp only [program,exec,if_neg h1,if_neg h2]) (ih h)

def Took (cfg : SchedConfig) (t : Tid) (d : Nat) (s : Shared) (batch : List (SeqId × Bool))
    (budget : Nat) (r : List (SeqId × Bool) × List SeqId) : Prop :=
  ∃ s₁ : Shared, s₁.seqs = s.seqs ∧ s₁.running = s.running ∧ s₁.byRequest = s.byRequest ∧
    s₁.waiting = s.waiting ∧ (s₁.deque d).items = r.2 ∧ s₁.batches = s.batches ++ [r.1] ∧
    ∀ s', Threads.Ends (program cfg) t () s₁ [.scanIds r.1 0 []] s' →
      Threads.Ends (program cfg) t () s [.formWaiting d batch budget] s'

theorem took_stop {d budget : Nat} {batch : List (SeqId × Bool)}
    (h : next cfg s d batch budget = .stop) :
    Took cfg t d s batch budget (batch,(s.deque d).items) :=
  ⟨{ s with batches := s.batches ++ [batch] },rfl,rfl,rfl,rfl,rfl,rfl,
    fun _ h' => .step (by simp only [program,exec,h]) h'⟩

theorem formWaiting_ends (cfg : SchedConfig) (t : Tid) (sc : Scheduler) (hsc : ∀ i, sc.seq i = s.seq i) {d : Nat}
    (hd : d < s.deques.length) {l : List SeqId} (hl : (s.deque d).items = l)
    (batch : List (SeqId × Bool)) (budget : Nat) :
    Took cfg t d s batch budget (sc.takeWaiting cfg l batch budget) := by
  induction l generalizing s batch budget with
  | nil =>
    have hn : next cfg s d batch budget = .stop := by simp [next,hl]
    have hstop := took_stop (t := t) hn
    rwa [hl] at hstop
  | cons i l ih =>
    have htail : ∀ held, (({ s.mutate d List.tail with held := held } : Shared).deque d).items = l := by
      intro held
      change ((s.mutate d List.tail).deque d).items = l
      rw [deque_mutate,if_pos ⟨rfl,hd⟩,hl]
      rfl
    have hlen : ∀ held, d < ({ s.mutate d List.tail with held := held } : Shared).deques.length := by
      intro held
      simpa [Shared.mutate] using hd
    have hstop : next cfg s d batch budget = .stop → Took cfg t d s batch budget (batch,i :: l) :=
      fun hn => hl ▸ took_stop hn
    simp only [Scheduler.takeWaiting,hsc]
    by_cases h1 : batch.length < cfg.maxBatchSize ∧ 0 < budget
    · rw [if_pos h1]
      by_cases h2 : (s.seq i).finished = true ∨ (s.seq i).cancelled = true
      · rw [if_pos h2]
        have hn : next cfg s d batch budget = .skip := by
          simp only [next,hl,if_pos h1,if_pos h2]
        obtain ⟨s₁,e1,e2,e3,e4,e5,e6,hend⟩ := ih (s := s.mutate d List.tail) hsc (hlen s.held)
          (htail s.held) batch budget
        exact ⟨s₁,e1,e2,e3,e4,e5,e6,fun s' h => .step (by simp only [program,exec,hn]) (hend s' h)⟩
      · rw [if_neg h2]
        generalize hcost : (if 0 < Scheduler.remainingPrompt (s.seq i) then
          max 1 (Scheduler.remainingPrompt (s.seq i)) else 1) = cost
        by_cases h3 : budget < cost ∧ batch ≠ []
        · rw [if_pos h3]
          exact hstop (by simp only [next,hl,if_pos h1,if_neg h2,hcost,if_pos h3])
        · rw [if_neg h3]
          have hn : next cfg s d batch budget =
              .take i (decide (0 < Scheduler.remainingPrompt (s.seq i))) cost := by
            simp only [next,hl,if_pos h1,if_neg h2,hcost,if_neg h3]
          obtain ⟨s₁,e1,e2,e3,e4,e5,e6,hend⟩ := ih
            (s := { s.mutate d List.tail with held := s.held ++ [i] }) hsc (hlen _) (htail _)
            (batch ++ [(i,decide (0 < Scheduler.remainingPrompt (s.seq i)))]) (budget-min cost budget)
          exact ⟨s₁,e1,e2,e3,e4,e5,e6,
            fun s' h => .step (by simp only [program,exec,hn]) (hend s' h)⟩
    · rw [if_neg h1]
      exact hstop (by simp only [next,hl,if_neg h1])

theorem scanIds_ends {batch : List (SeqId × Bool)} {k : Nat} {ids : List SeqId}
    (h : Threads.Ends (program cfg) t () s
      [.merge ((s.running.drop k).reverse ++ ids) (batch.map Prod.fst)] s') :
    Threads.Ends (program cfg) t () s [.scanIds batch k ids] s' := by
  by_cases hk : k < s.running.length
  · have hget := List.getElem?_eq_getElem hk
    refine .step (by simp only [program,exec,hget]; rfl) (scanIds_ends ?_)
    rwa [List.drop_eq_getElem_cons hk,List.reverse_cons,List.append_assoc] at h
  · have hnone := List.getElem?_eq_none (Nat.le_of_not_lt hk)
    refine .step (by simp only [program,exec,hnone]; rfl) ?_
    simpa [List.drop_eq_nil_of_le (Nat.le_of_not_lt hk)] using h
termination_by s.running.length-k

theorem scanLive_ends {k : Nat} {acc : List SeqId}
    (h : Threads.Ends (program cfg) t () s
      [.setRunning (acc ++ (s.running.drop k).filter fun j => ¬ (s.seq j).finished)] s') :
    Threads.Ends (program cfg) t () s [.scanLive k acc] s' := by
  by_cases hk : k < s.running.length
  · have hget := List.getElem?_eq_getElem hk
    refine .step (by simp only [program,exec,hget]; rfl) (scanLive_ends ?_)
    rw [List.drop_eq_getElem_cons hk,List.filter_cons] at h
    by_cases hf : (s.seq s.running[k]).finished = true
    · simpa [hf] using h
    · simpa [hf] using h
  · have hnone := List.getElem?_eq_none (Nat.le_of_not_lt hk)
    refine .step (by simp only [program,exec,hnone]; rfl) ?_
    simpa [List.drop_eq_nil_of_le (Nat.le_of_not_lt hk)] using h
termination_by s.running.length-k

theorem merge_ends (cfg : SchedConfig) (t : Tid) (s : Shared) (ids todo : List SeqId) :
    ∃ s₁ : Shared, s₁.seqs = s.seqs ∧ s₁.deques = s.deques ∧ s₁.byRequest = s.byRequest ∧
    s₁.waiting = s.waiting ∧ s₁.batches = s.batches ∧
    s₁.running = s.running ++ todo.filter (fun i => i ∉ ids ∧ ¬ (s.seq i).finished) ∧
    ∀ s', Threads.Ends (program cfg) t () s₁ [.scanLive 0 []] s' →
      Threads.Ends (program cfg) t () s [.merge ids todo] s' := by
  induction todo generalizing s with
  | nil => exact ⟨s,rfl,rfl,rfl,rfl,rfl,by simp,fun s' h => .step rfl h⟩
  | cons i todo ih =>
    by_cases hi : i ∉ ids ∧ (s.seq i).finished = false
    · obtain ⟨s₁,e1,e2,e3,e4,e5,e6,hend⟩ := ih
        { s with running := s.running ++ [i], held := s.held.erase i }
      refine ⟨s₁,e1,e2,e3,e4,e5,?_,fun s' h => .step (by simp only [program,exec,if_pos hi]) (hend s' h)⟩
      rw [e6,List.filter_cons,if_pos (by simpa using hi),List.append_assoc]
      rfl
    · obtain ⟨s₁,e1,e2,e3,e4,e5,e6,hend⟩ := ih s
      refine ⟨s₁,e1,e2,e3,e4,e5,?_,fun s' h => .step (by simp only [program,exec,if_neg hi]) (hend s' h)⟩
      rw [e6,List.filter_cons,if_neg (by simpa using hi)]

/-- `step` that nobody interrupts is the scheduler's. -/
theorem step_ends (hw : s.waiting < s.deques.length) :
    ∃ s', Threads.Ends (program cfg) t () s [.formStart] s' ∧
      s'.scheduler = (s.scheduler.step cfg).1 ∧
      s'.batches = s.batches ++ [(s.scheduler.step cfg).2] := by
  obtain ⟨s₁,e1,e2,e3,e4,e5,e6,hform⟩ := formWaiting_ends cfg t s.scheduler
    (fun _ => rfl) hw rfl (s.scheduler.takeRunning cfg s.running [] cfg.maxTokensPerBatch).1
    (s.scheduler.takeRunning cfg s.running [] cfg.maxTokensPerBatch).2
  obtain ⟨s₂,f1,f2,f3,f4,f5,f6,hmerge⟩ := merge_ends cfg t s₁
    ((s₁.running.drop 0).reverse ++ []) ((s.scheduler.formBatch cfg).1.map Prod.fst)
  refine ⟨{ s₂ with running := [] ++ (s₂.running.drop 0).filter fun j => ¬ (s₂.seq j).finished },
    .step rfl <| formRunning_ends <| hform _ <| scanIds_ends <| hmerge _ <| scanLive_ends <|
      .step rfl <| Threads.ends_nil _ _ _ _,?_,?_⟩
  · have hseq : ∀ j, s₂.seq j = s.seq j := fun j => by unfold Shared.seq; rw [f1,e1]
    have hseq₁ : ∀ j, s₁.seq j = s.seq j := fun j => by unfold Shared.seq; rw [e1]
    have hqueue : s₂.queue = (s.scheduler.formBatch cfg).2 := by
      rw [Shared.queue,Shared.deque,f2,f4,e4]
      exact e5
    simp only [Shared.scheduler,Scheduler.step,Scheduler.mk.injEq]
    refine ⟨f1.trans e1,hqueue,?_,f3.trans e3⟩
    simp only [hseq,f6,e2,hseq₁,List.drop_zero,List.append_nil,List.nil_append,List.mem_reverse]
    rfl
  · exact f5.trans e6

end Alone

end SglangLite.Sched.Races
