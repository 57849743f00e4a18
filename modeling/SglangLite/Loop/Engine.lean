import SglangLite.Sched.Scheduler
import SglangLite.Text.Stream

set_option autoImplicit false

namespace SglangLite.Loop
open Kv Sched Text

abbrev QueueId := Nat
abbrev Time := Nat

/-- A model forward: its sequences, each with its start position and input
tokens. -/
abbrev Forward := List (SeqId × Nat × List Token)

inductive Fault where
  | memory (e : String)
  | other (e : String)
  deriving DecidableEq, Repr

/-- The `error` of a request that could not be admitted. -/
def Fault.admission : Fault → String
  | .memory e => "oom: " ++ e
  | .other e => e

/-- `str(e)`. -/
def Fault.text : Fault → String
  | .memory e => e
  | .other e => e

/-- What a call into the runner leaves behind: the runner, the `cached_len` of
the sequences, the forwards it made, and its result or the exception. `appended`
are the tokens that a burst has put into the output before its exception. -/
structure Ran (R α : Type) where
  runner : R
  cached : SeqId → Nat
  forwards : List Forward
  result : Except Fault α
  appended : List Token := []

/-- The runner with its cache, as the loop uses it. All that the runner keeps in
a sequence besides `cached_len` is part of its state `R`. -/
structure Backend (R : Type) where
  sched : SchedConfig
  hybrid : Bool
  burst : Nat
  eos : Option Token
  tk : Tokenizer
  /-- The prefix match: `cached_len` and `cache_hit_tokens`. -/
  matchPrefix : R → SeqId → Request → R × Except Fault (Nat × Nat)
  runBatch : R → Scheduler → List (SeqId × Bool) → Ran R (List (Option Token))
  decodeBurst : R → Scheduler → SeqId → Nat → Ran R (List Token)
  /-- The insertion of `update_after_prefill`. -/
  insert : R → Scheduler → SeqId → R
  /-- The release of pages in `mark_finished`. -/
  release : R → SeqId → R
  /-- `v4_release_seq`. -/
  close : R → SeqId → R

/-- A request in the submit queue. `paramsOk` tells whether `temperature`,
`top_p` and `top_k` pass the checks of `submit`. -/
structure Pending where
  request : Request
  timeout : Time := 300
  paramsOk : Bool := true
  deriving DecidableEq, Repr

def Pending.requestId (p : Pending) : RequestId := p.request.requestId

/-- `maxsize` of a delta queue. -/
def queueSize : Nat := 256

/-- `EngineLoop`. A delta queue is an index into `queues`, which keeps every
queue ever made. `prevText` reads `_prev_text` with its default, and `prevKeys`
are its keys. `forwards`, `emitted` and `taken` record the forwards of the model,
the calls of `_emit` and the frames that clients have taken from their queues. -/
structure EngineLoop (R : Type) where
  sched : Scheduler := {}
  runner : R
  submitQ : List Pending := []
  queues : List (List Frame) := []
  deltaQs : RequestId → Option QueueId := fun _ => none
  prevText : RequestId → Text := fun _ => []
  deadlines : List (RequestId × Time) := []
  cancelled : List RequestId := []
  draining : Bool := false
  forwards : List Forward := []
  emitted : List (RequestId × Frame) := []
  prevKeys : List RequestId := []
  taken : QueueId → List Frame := fun _ => []

namespace EngineLoop

variable {R : Type}

def seq (s : EngineLoop R) (i : SeqId) : Sequence := s.sched.seq i

def modify (s : EngineLoop R) (i : SeqId) (f : Sequence → Sequence) : EngineLoop R :=
  { s with sched := s.sched.modify i f }

def queue (s : EngineLoop R) (d : QueueId) : List Frame := s.queues.getD d []

/-- A client's `dq.get`, which finds nothing in an empty queue. -/
def read (d : QueueId) (s : EngineLoop R) : EngineLoop R :=
  { s with
    queues := s.queues.modify d List.tail
    taken := Function.update s.taken d (s.taken d ++ (s.queue d).take 1) }

def history (s : EngineLoop R) (d : QueueId) : List Frame := s.taken d ++ s.queue d

def boxes (s : EngineLoop R) : List (List Frame) × (QueueId → List Frame) := (s.queues,s.taken)

/-- Assignment to a key of an insertion-ordered dictionary. -/
def assign (r : RequestId) (t : Time) : List (RequestId × Time) → List (RequestId × Time)
  | [] => [(r,t)]
  | (k,v) :: rest => if k = r then (r,t) :: rest else (k,v) :: assign r t rest

/-- `submit`; `none` is its `RuntimeError` or `ValueError`. -/
def submit (now : Time) (p : Pending) (s : EngineLoop R) : Option (EngineLoop R) :=
  if s.draining then none
  else if p.request.maxTokens = 0 ∨ p.paramsOk = false ∨ p.request.inputIds = [] then none
  else
    some { s with
      queues := s.queues ++ [[]]
      deltaQs := Function.update s.deltaQs p.requestId (some s.queues.length)
      prevText := Function.update s.prevText p.requestId []
      prevKeys := s.prevKeys.insert p.requestId
      deadlines := assign p.requestId (now+p.timeout) s.deadlines
      submitQ := s.submitQ ++ [p] }

section Emit

variable (b : Backend R)

/-- `mark_finished`. -/
def mark (s : EngineLoop R) (i : SeqId) (reason : FinishReason) : EngineLoop R :=
  { s with sched := s.sched.markFinished i reason, runner := b.release s.runner i }

/-- `Scheduler.cancel`. -/
def schedCancel (s : EngineLoop R) (r : RequestId) : EngineLoop R :=
  match s.sched.byRequest r with
  | none => s
  | some i => (s.modify i fun q => { q with cancelled := true }).mark b i .cancelled

/-- `dq.put`: a queue that stays full cancels the request. -/
def put (s : EngineLoop R) (d : QueueId) (r : RequestId) (f : Frame) : EngineLoop R :=
  if (s.queue d).length < queueSize then { s with queues := s.queues.modify d (· ++ [f]) }
  else s.schedCancel b r

/-- The end of a request in `_emit`. -/
def closeQueue (s : EngineLoop R) (r : RequestId) : EngineLoop R :=
  let s' := { s with deltaQs := Function.update s.deltaQs r none }
  if b.hybrid then
    { s' with
      runner :=
        match (s.sched.running ++ s.sched.waiting).find? fun i => (s.seq i).requestId = r with
        | some i => b.close s.runner i
        | none => s.runner
      prevText := Function.update s.prevText r []
      prevKeys := s.prevKeys.filter (· ≠ r)
      deadlines := s.deadlines.filter fun kv => kv.1 ≠ r }
  else s'

def emit (s : EngineLoop R) (r : RequestId) (f : Frame) (final : Bool) : EngineLoop R :=
  let s' := { s with emitted := s.emitted ++ [(r,f)] }
  match s.deltaQs r with
  | none => s'
  | some d => if final then (s'.put b d r f).closeQueue b r else s'.put b d r f

def cancel (s : EngineLoop R) (r : RequestId) : EngineLoop R :=
  let s₁ := { s with cancelled := r :: s.cancelled }
  let s₂ := s₁.schedCancel b r
  if s.deltaQs r ≠ none ∨ s.sched.byRequest r ≠ none then
    s₂.emit b r { finishReason := some .cancelled } true
  else s₂

def errorFrame (e : String) (u : Option Usage) : Frame :=
  { finishReason := some .error, usage := u, error := some e }

end Emit

section Pump

variable (b : Backend R)

/-- `add_request` with the rest of the `try` block of `_admit_pending`. -/
def addRequest (s : EngineLoop R) (r : Request) : EngineLoop R × Except Fault Unit :=
  if b.sched.maxWaiting ≤ s.sched.waiting.length then
    (s,.error (.other ("waiting queue full (max_waiting=" ++ toString b.sched.maxWaiting ++ ")")))
  else if b.sched.maxPromptTokens < r.inputIds.length then
    (s,.error (.other ("prompt length " ++ toString r.inputIds.length ++
      " exceeds max_prompt_tokens=" ++ toString b.sched.maxPromptTokens)))
  else
    match b.matchPrefix s.runner s.sched.seqs.length r with
    | (runner,.error e) => ({ s with runner := runner },.error e)
    | (runner,.ok (cached,hit)) =>
        let q : Sequence := { r.sequence b.eos with cachedLen := cached, cacheHitTokens := hit }
        ({ s with
            runner := runner
            sched := { s.sched with
              seqs := s.sched.seqs ++ [q]
              waiting := s.sched.waiting ++ [s.sched.seqs.length]
              byRequest := Function.update s.sched.byRequest r.requestId
                (some s.sched.seqs.length) } },.ok ())

def admitOne (s : EngineLoop R) (p : Pending) : EngineLoop R :=
  if p.requestId ∈ s.cancelled then
    { s with cancelled := s.cancelled.filter (· ≠ p.requestId) }
  else
    match s.addRequest b p.request with
    | (s',.ok _) => s'
    | (s',.error e) => s'.emit b p.requestId (errorFrame e.admission none) true

/-- The loop of `_admit_pending` over the items of the submit queue. -/
def admitLoop (s : EngineLoop R) : List Pending → EngineLoop R
  | [] => s
  | p :: rest => admitLoop (admitOne b { s with submitQ := rest } p) rest

def admitPending (s : EngineLoop R) : EngineLoop R := s.admitLoop b s.submitQ

def expired (s : EngineLoop R) (now : Time) : List RequestId :=
  (s.deadlines.filter fun kv => decide (kv.2 < now)).map Prod.fst

def checkTimeouts (s : EngineLoop R) (now : Time) : EngineLoop R :=
  (s.expired now).foldl
    (fun s r => (s.schedCancel b r).emit b r { finishReason := some .timeout } true) s

/-- The `except` branch of `pump_once`. -/
def abortBatch (e : Fault) (s : EngineLoop R) (batch : List (SeqId × Bool)) : EngineLoop R :=
  batch.foldl (fun s m =>
    (s.mark b m.1 .error).emit b (s.seq m.1).requestId
      (errorFrame e.text (some (usage (s.seq m.1)))) true) s

/-- Apply what the stop and limit checks decided, and emit the frame. -/
def applyPost (s : EngineLoop R) (i : SeqId) (p : Post) : EngineLoop R :=
  let s₁ := s.modify i fun q => { q with outputIds := p.outputIds }
  let s₂ := match p.reason with
    | some reason => s₁.mark b i reason
    | none => s₁
  let s₃ := { s₂ with prevText := Function.update s₂.prevText (s.seq i).requestId p.prevText }
  s₃.emit b (s.seq i).requestId (p.frame (s₃.seq i)) p.finished

/-- The key that an assignment to `_prev_text` leaves. -/
def noteText (s : EngineLoop R) (r : RequestId) (assigned : Bool) : EngineLoop R :=
  { s with prevKeys := if assigned then s.prevKeys.insert r else s.prevKeys }

@[simp] theorem noteText_seq (s : EngineLoop R) (r : RequestId) (assigned : Bool) (i : SeqId) :
    (s.noteText r assigned).seq i = s.seq i := rfl

def prefilled (s : EngineLoop R) (i : SeqId) : EngineLoop R :=
  let s' := s.modify i fun q => { q with cachedLen := q.inputIds.length }
  if b.hybrid then s' else { s' with runner := b.insert s.runner s.sched i }

def postOne (s : EngineLoop R) (m : (SeqId × Bool) × Option Token) : EngineLoop R :=
  let i := m.1.1
  match m.2 with
  | none => s
  | some t =>
      if (s.seq i).finished then s
      else if (s.seq i).requestId ∈ s.cancelled then
        (s.mark b i .cancelled).emit b (s.seq i).requestId
          { finishReason := some .cancelled, usage := some (usage (s.seq i)) } true
      else
        let s₁ := if m.1.2 then s.prefilled b i else s
        let s₂ := s₁.modify i fun q => { q with outputIds := q.outputIds ++ [t] }
        let p := postToken b.tk (s₂.seq i) t (s.prevText (s.seq i).requestId)
        (s₂.noteText (s.seq i).requestId
          (p.finished || !(s.seq i).skipStreamingText && !p.text.isEmpty)).applyPost b i p

/-- `self.scheduler.running = [s for s in self.scheduler.running if not s.finished]`. -/
def dropFinished (s : EngineLoop R) : EngineLoop R := { s with sched := s.sched.dropFinished }

def absorb {α : Type} (s : EngineLoop R) (batch : List SeqId) (r : Ran R α) : EngineLoop R :=
  { s with
    runner := r.runner
    sched := batch.foldl (fun sc i => sc.modify i fun q => { q with cachedLen := r.cached i }) s.sched
    forwards := s.forwards ++ r.forwards }

/-- How a call of `pump_once` ends. -/
inductive Pumped where
  | noWork
  | worked
  | raised
  deriving DecidableEq, Repr

/-- The burst branch of `pump_once`, with its first token; an exception of
`run_decode_burst` leaves `pump_once`. -/
def burstOne (s : EngineLoop R) (i : SeqId) (first : Token) : EngineLoop R × Pumped :=
  let extra := min ((s.seq i).maxTokens-(s.seq i).outputIds.length-1) (b.burst-1)
  let s₁ := s.modify i fun q => { q with outputIds := q.outputIds ++ [first] }
  let finishUp := fun (s₂ : EngineLoop R) (toks : List Token) =>
    let p := postBurst b.tk b.eos (s₂.seq i) toks (s.prevText (s.seq i).requestId)
    (((s₂.noteText (s.seq i).requestId (p.finished || !(s.seq i).skipStreamingText)).applyPost b i
      p).dropFinished,Pumped.worked)
  if 0 < extra then
    let r := b.decodeBurst s₁.runner s₁.sched i extra
    let s₂ := s₁.absorb [i] r
    match r.result with
    | .error _ => (s₂.modify i fun q => { q with outputIds := q.outputIds ++ r.appended },.raised)
    | .ok more =>
        finishUp (s₂.modify i fun q => { q with outputIds := q.outputIds ++ more }) (first :: more)
  else finishUp s₁ [first]

/-- The post-processing of a batch: the burst branch or the loop. -/
def finishBatch (s : EngineLoop R) (batch : List (SeqId × Bool)) (toks : List (Option Token)) :
    EngineLoop R × Pumped :=
  let posts := (((batch.zip toks).foldl (postOne b) s).dropFinished,Pumped.worked)
  match batch,toks with
  | [(i,false)],some first :: _ =>
      if 1 < b.burst ∧ (s.seq i).finished = false then s.burstOne b i first else posts
  | _,_ => posts

def afterBatch (s : EngineLoop R) (batch : List (SeqId × Bool)) :
    Except Fault (List (Option Token)) → EngineLoop R × Pumped
  | .error e => (s.abortBatch b e batch,.worked)
  | .ok toks => s.finishBatch b batch toks

def runStep (s : EngineLoop R) : EngineLoop R × Pumped :=
  let (sched,batch) := s.sched.step b.sched
  let s₁ := { s with sched := sched }
  if batch = [] then (s₁,.noWork)
  else
    let r := b.runBatch s₁.runner s₁.sched batch
    (s₁.absorb (batch.map Prod.fst) r).afterBatch b batch r.result

def pumpOnce (now : Time) (s : EngineLoop R) : EngineLoop R × Pumped :=
  ((s.admitPending b).checkTimeouts b now).runStep b

inductive Round where
  | again
  | returned
  | raised
  deriving DecidableEq, Repr

def busy (s : EngineLoop R) : Bool :=
  !s.sched.waiting.isEmpty || !s.sched.running.isEmpty || !s.submitQ.isEmpty

/-- One round of `pump_until_idle`; `t` and `now` are the readings of the clock
for its own deadline and in `_check_timeouts`. -/
def round (deadline t now : Time) (s : EngineLoop R) : EngineLoop R × Round :=
  let s₁ := s.admitPending b
  if s₁.busy then
    if deadline < t then (s₁,.raised)
    else
      match s₁.pumpOnce b now with
      | (s₂,.raised) => (s₂,.raised)
      | (s₂,_) => (s₂,.again)
  else (s₁,.returned)

/-- `pump_until_idle` over the clock readings of its rounds; `none` when it
raises or the readings are used up. -/
def pumpUntilIdle (deadline : Time) : List (Time × Time) → EngineLoop R → Option (EngineLoop R)
  | [], _ => none
  | (t,now) :: rest, s =>
      match s.round b deadline t now with
      | (s',.again) => pumpUntilIdle deadline rest s'
      | (s',.returned) => some s'
      | (_,.raised) => none

end Pump

end EngineLoop

end SglangLite.Loop
