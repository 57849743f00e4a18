import SglangLite.Threads
import SglangLite.Loop.Engine

set_option autoImplicit false

namespace SglangLite.Loop
open Kv Sched Text

variable {R : Type}

namespace EngineLoop

/-- The checks of `submit` that come before it touches the loop. -/
def refuses (s : EngineLoop R) (p : Pending) : Bool :=
  s.draining || decide (p.request.maxTokens = 0 ∨ p.paramsOk = false ∨ p.request.inputIds = [])

/-- The entries of a new request in the dictionaries of the loop. -/
def register (now : Time) (p : Pending) (s : EngineLoop R) : EngineLoop R :=
  { s with
    queues := s.queues ++ [[]]
    deltaQs := Function.update s.deltaQs p.requestId (some s.queues.length)
    prevText := Function.update s.prevText p.requestId []
    prevKeys := s.prevKeys.insert p.requestId
    deadlines := assign p.requestId (now+p.timeout) s.deadlines }

variable (b : Backend R)

/-- What `_emit` does for a V4 model after it has removed the queue. -/
def closeSeq (s : EngineLoop R) (r : RequestId) : EngineLoop R :=
  if b.hybrid then
    { s with
      runner :=
        match (s.sched.running ++ s.sched.waiting).find? fun i => (s.seq i).requestId = r with
        | some i => b.close s.runner i
        | none => s.runner
      prevText := Function.update s.prevText r []
      prevKeys := s.prevKeys.filter (· ≠ r)
      deadlines := s.deadlines.filter fun kv => kv.1 ≠ r }
  else s

/-- `applyPost` without its call of `_emit`. -/
def settlePost (s : EngineLoop R) (i : SeqId) (p : Post) : EngineLoop R :=
  let s₁ := s.modify i fun q => { q with outputIds := p.outputIds }
  let s₂ := match p.reason with
    | some reason => s₁.mark b i reason
    | none => s₁
  { s₂ with prevText := Function.update s₂.prevText (s.seq i).requestId p.prevText }

end EngineLoop

namespace Concurrent
open EngineLoop

/-- The thread of `_run` or `pump_once`, and the threads that serve HTTP. -/
inductive Tid where
  | loop
  | http (n : Nat)
  deriving DecidableEq, Repr

/-- The parts of the loop's methods between which another thread may run. A
local variable of the method is an argument of the parts that use it. -/
inductive Instr where
  | acquire
  | release
  | submitCheck (p : Pending)
  | register (p : Pending)
  | enqueue (p : Pending)
  | read (d : QueueId)
  | noteCancel (r : RequestId)
  | cancelRest (r : RequestId) (hadDelta : Bool)
  | lookup (r : RequestId) (f : Frame) (final : Bool)
  | put (d : QueueId) (r : RequestId) (f : Frame) (final : Bool)
  | popQueue (r : RequestId) (d : QueueId)
  | closeSeq (r : RequestId)
  | admitNext
  | admitCheck (p : Pending)
  | addRequest (p : Pending)
  | timeouts
  | expire (r : RequestId)
  | runStep (burst : Bool)
  | abort (e : Fault) (i : SeqId)
  | post (i : SeqId) (pre : Bool) (t : Option Token)
  | postCheck (i : SeqId) (pre : Bool) (t : Token)
  | cancelSeq (i : SeqId)
  | postToken (i : SeqId) (pre : Bool) (t : Token)
  | burst (i : SeqId) (first : Token)
  | dropFinished
  deriving DecidableEq, Repr

/-- A call of one of the loop's methods, or a client that takes a frame from its
delta queue. `_run` is a sequence of iterations that never take the burst branch. -/
inductive Call where
  | submit (n : Nat) (p : Pending)
  | cancel (n : Nat) (r : RequestId)
  | read (n : Nat) (d : QueueId)
  | runIteration
  | pumpOnce
  deriving DecidableEq, Repr

def Call.caller : Call → Tid
  | .submit n _ => .http n
  | .cancel n _ => .http n
  | .read n _ => .http n
  | .runIteration => .loop
  | .pumpOnce => .loop

def Call.body : Call → List Instr
  | .submit _ p => [.submitCheck p]
  | .cancel _ r => [.acquire,.noteCancel r]
  | .read _ d => [.read d]
  | .runIteration => [.admitNext,.timeouts,.runStep false]
  | .pumpOnce => [.admitNext,.timeouts,.runStep true]

/-- The loop's state with the owner of `_lock`. `puts` records every frame that
was put into a delta queue. -/
structure Shared (R : Type) where
  loop : EngineLoop R
  lock : Option Tid := none
  puts : List (QueueId × Frame) := []

/-- `dq.put`. -/
def Shared.put (b : Backend R) (s : Shared R) (d : QueueId) (r : RequestId) (f : Frame) : Shared R :=
  { s with
    loop := s.loop.put b d r f
    puts := if (s.loop.queue d).length < queueSize then s.puts ++ [(d,f)] else s.puts }

def posts (burst : Bool) (b : Backend R) (s : EngineLoop R) (batch : List (SeqId × Bool))
    (toks : List (Option Token)) : List Instr :=
  let all := (batch.zip toks).map (fun m => Instr.post m.1.1 m.1.2 m.2) ++ [.dropFinished]
  match batch,toks with
  | [(i,false)],some first :: _ =>
      if burst ∧ 1 < b.burst ∧ (s.seq i).finished = false then [.burst i first] else all
  | _,_ => all

/-- `scheduler.step` and `run_batch`, and what follows them. -/
def runBatch (b : Backend R) (burst : Bool) (s : EngineLoop R) : EngineLoop R × List Instr :=
  let (sched,batch) := s.sched.step b.sched
  let s₁ := { s with sched := sched }
  if batch = [] then (s₁,[])
  else
    let r := b.runBatch s₁.runner s₁.sched batch
    let s₂ := s₁.absorb (batch.map Prod.fst) r
    match r.result with
    | .error e => (s₂,batch.map fun m => .abort e m.1)
    | .ok toks => (s₂,posts burst b s₂ batch toks)

/-- The burst branch of `pump_once` up to its call of `_emit`; `none` when
`run_decode_burst` raises. -/
def runBurst (b : Backend R) (s : EngineLoop R) (i : SeqId) (first : Token) :
    EngineLoop R × Option Post :=
  let extra := min ((s.seq i).maxTokens-(s.seq i).outputIds.length-1) (b.burst-1)
  let prev := s.prevText (s.seq i).requestId
  let s₁ := s.modify i fun q => { q with outputIds := q.outputIds ++ [first] }
  if 0 < extra then
    let r := b.decodeBurst s₁.runner s₁.sched i extra
    let s₂ := s₁.absorb [i] r
    match r.result with
    | .error _ => (s₂.modify i fun q => { q with outputIds := q.outputIds ++ r.appended },none)
    | .ok more =>
        let s₃ := s₂.modify i fun q => { q with outputIds := q.outputIds ++ more }
        (s₃,some (postBurst b.tk b.eos (s₃.seq i) (first :: more) prev))
  else (s₁,some (postBurst b.tk b.eos (s₁.seq i) [first] prev))

def exec (b : Backend R) (t : Tid) (s : Shared R) (i : Instr) (rest : List Instr) (now : Time) :
    Option (Shared R × List Instr) :=
  let l := s.loop
  match i with
  | .acquire => if s.lock = none then some ({ s with lock := some t },rest) else none
  | .release => some ({ s with lock := none },rest)
  | .submitCheck p =>
      if l.refuses p then some (s,[])
      else some (s,[.acquire,.register p,.release,.enqueue p] ++ rest)
  | .register p => some ({ s with loop := l.register now p },rest)
  | .enqueue p => some ({ s with loop := { l with submitQ := l.submitQ ++ [p] } },rest)
  | .read d => some ({ s with loop := l.read d },rest)
  | .noteCancel r =>
      some ({ s with loop := { l with cancelled := r :: l.cancelled } },
        [.release,.cancelRest r (l.deltaQs r).isSome] ++ rest)
  | .cancelRest r hadDelta =>
      some ({ s with loop := l.schedCancel b r },
        (if hadDelta ∨ (l.sched.byRequest r).isSome then
          [.lookup r { finishReason := some .cancelled } true] else []) ++ rest)
  | .lookup r f final =>
      let s' := { s with loop := { l with emitted := l.emitted ++ [(r,f)] } }
      match l.deltaQs r with
      | none => some (s',rest)
      | some d => some (s',.put d r f final :: rest)
  | .put d r f final =>
      some (s.put b d r f,
        (if final then [.acquire,.popQueue r d,.release,.closeSeq r] else []) ++ rest)
  | .popQueue r _ =>
      some ({ s with loop := { l with deltaQs := Function.update l.deltaQs r none } },rest)
  | .closeSeq r => some ({ s with loop := l.closeSeq b r },rest)
  | .admitNext =>
      match l.submitQ with
      | [] => some (s,rest)
      | p :: q =>
          some ({ s with loop := { l with submitQ := q } },[.acquire,.admitCheck p] ++ rest)
  | .admitCheck p =>
      if p.requestId ∈ l.cancelled then
        some ({ s with loop := { l with cancelled := l.cancelled.filter (· ≠ p.requestId) } },
          [.release,.admitNext] ++ rest)
      else some (s,[.release,.addRequest p,.admitNext] ++ rest)
  | .addRequest p =>
      match l.addRequest b p.request with
      | (l',.ok _) => some ({ s with loop := l' },rest)
      | (l',.error e) => some ({ s with loop := l' },
          .lookup p.requestId (errorFrame e.admission none) true :: rest)
  | .timeouts => some (s,(l.expired now).map .expire ++ rest)
  | .expire r =>
      some ({ s with loop := l.schedCancel b r },
        .lookup r { finishReason := some .timeout } true :: rest)
  | .runStep burst =>
      let r := runBatch b burst l
      some ({ s with loop := r.1 },r.2 ++ rest)
  | .abort e i =>
      some ({ s with loop := l.mark b i .error },
        .lookup (l.seq i).requestId (errorFrame e.text (some (usage (l.seq i)))) true :: rest)
  | .post i pre t =>
      match t with
      | none => some (s,rest)
      | some t => if (l.seq i).finished then some (s,rest)
          else some (s,[.acquire,.postCheck i pre t] ++ rest)
  | .postCheck i pre t =>
      if (l.seq i).requestId ∈ l.cancelled then
        some (s,[.cancelSeq i,.lookup (l.seq i).requestId
          { finishReason := some .cancelled, usage := some (usage (l.seq i)) } true,.release] ++ rest)
      else some (s,[.release,.postToken i pre t] ++ rest)
  | .cancelSeq i => some ({ s with loop := l.mark b i .cancelled },rest)
  | .postToken i pre t =>
      let l₁ := if pre then l.prefilled b i else l
      let l₂ := l₁.modify i fun q => { q with outputIds := q.outputIds ++ [t] }
      let p := Text.postToken b.tk (l₂.seq i) t (l.prevText (l.seq i).requestId)
      let l₃ := (l₂.noteText (l.seq i).requestId
        (p.finished || !(l.seq i).skipStreamingText && !p.text.isEmpty)).settlePost b i p
      some ({ s with loop := l₃ },.lookup (l₂.seq i).requestId (p.frame (l₃.seq i)) p.finished :: rest)
  | .burst i first =>
      match runBurst b l i first with
      | (l₁,none) => some ({ s with loop := l₁ },[])
      | (l₁,some p) =>
          let l₂ := (l₁.noteText (l.seq i).requestId
            (p.finished || !(l.seq i).skipStreamingText)).settlePost b i p
          some ({ s with loop := l₂ },
            [.lookup (l₁.seq i).requestId (p.frame (l₂.seq i)) p.finished,.dropFinished] ++ rest)
  | .dropFinished => some ({ s with loop := l.dropFinished },rest)

def program (b : Backend R) : Threads.Program Tid (Shared R) Instr Time Call where
  caller := Call.caller
  body := Call.body
  exec := exec b

abbrev Machine (R : Type) := Threads.Machine Tid (Shared R) Instr
abbrev Event := Threads.Event Tid Time Call

def step (b : Backend R) : Machine R → Event → Option (Machine R) := Threads.step (program b)

def init (r₀ : R) : Machine R := ⟨{ loop := { runner := r₀ } },fun _ => []⟩

section Alone

variable {b : Backend R} {t : Tid} {s : Shared R} {now : Time}

theorem closeQueue_eq (l : EngineLoop R) (r : RequestId) :
    ({ l with deltaQs := Function.update l.deltaQs r none } : EngineLoop R).closeSeq b r =
      l.closeQueue b r := rfl

theorem applyPost_eq (l : EngineLoop R) (i : SeqId) (p : Post) :
    l.applyPost b i p = (l.settlePost b i p).emit b (l.seq i).requestId
      (p.frame ((l.settlePost b i p).seq i)) p.finished := rfl

/-- A call of `_emit` that nobody interrupts is the `emit` of the loop. -/
theorem alone_emit (hl : s.lock = none) (r : RequestId) (f : Frame) (final : Bool) :
    (Threads.alone (program b) t now 6 s [.lookup r f final]).map (·.loop) =
      some (s.loop.emit b r f final) := by
  cases hd : s.loop.deltaQs r with
  | none => simp [Threads.alone,program,exec,hd,emit]
  | some d =>
    cases final with
    | false => simp [Threads.alone,program,exec,hd,emit,Shared.put]
    | true => simp [Threads.alone,program,exec,hd,emit,Shared.put,hl,closeQueue_eq]

theorem alone_cancel (hl : s.lock = none) (n : Nat) (r : RequestId) :
    (Threads.alone (program b) t now 10 s (Call.cancel n r).body).map (·.loop) =
      some (s.loop.cancel b r) := by
  have hrest : Threads.alone (program b) t now 10 s (Call.cancel n r).body =
      Threads.alone (program b) t now 6
        { s with loop := ({ s.loop with cancelled := r :: s.loop.cancelled } :
          EngineLoop R).schedCancel b r, lock := none }
        (if (s.loop.deltaQs r).isSome ∨ (s.loop.sched.byRequest r).isSome then
          [.lookup r { finishReason := some .cancelled } true] else []) := by
    simp [Threads.alone,program,exec,Call.body,hl]
  rw [hrest]
  unfold cancel
  simp only [Option.isSome_iff_ne_none]
  split_ifs
  · exact alone_emit rfl r _ true
  · simp [Threads.alone]

theorem alone_submit (hl : s.lock = none) (n : Nat) (p : Pending) :
    (Threads.alone (program b) t now 5 s (Call.submit n p).body).map (·.loop) =
      some ((s.loop.submit now p).getD s.loop) := by
  unfold submit
  by_cases h : s.loop.refuses p = true
  · have h' := h
    simp only [refuses,Bool.or_eq_true,decide_eq_true_eq] at h'
    rcases h' with h' | h'
    · simp [Threads.alone,program,exec,Call.body,h,h']
    · simp [Threads.alone,program,exec,Call.body,h,h']
  · have h' := h
    simp only [refuses,Bool.or_eq_true,decide_eq_true_eq,not_or] at h'
    simp [Threads.alone,program,exec,Call.body,h,h',hl,register]

end Alone

end Concurrent

namespace EngineLoop

variable {b : Backend R} {s : EngineLoop R}

/-- The delta queues that a request can find, and how many there are. -/
def face (s : EngineLoop R) : (RequestId → Option QueueId) × Nat := (s.deltaQs,s.queues.length)

section Face

@[simp] theorem face_modify (i : SeqId) (f : Sequence → Sequence) :
    (s.modify i f).face = s.face := rfl

@[simp] theorem face_mark (i : SeqId) (reason : FinishReason) :
    (s.mark b i reason).face = s.face := rfl

@[simp] theorem face_read (d : QueueId) : (s.read d).face = s.face := by
  simp [face,read]

@[simp] theorem face_dropFinished : s.dropFinished.face = s.face := rfl

@[simp] theorem face_absorb {α : Type} (batch : List SeqId) (r : Ran R α) :
    (s.absorb batch r).face = s.face := rfl

@[simp] theorem face_schedCancel (r : RequestId) : (s.schedCancel b r).face = s.face := by
  unfold schedCancel
  split <;> rfl

@[simp] theorem face_put (d : QueueId) (r : RequestId) (f : Frame) :
    (s.put b d r f).face = s.face := by
  unfold put
  split_ifs
  · simp [face]
  · exact face_schedCancel r

@[simp] theorem face_closeSeq (r : RequestId) : (s.closeSeq b r).face = s.face := by
  unfold closeSeq
  split_ifs <;> rfl

@[simp] theorem face_prefilled (i : SeqId) : (s.prefilled b i).face = s.face := by
  unfold prefilled
  split_ifs <;> rfl

@[simp] theorem face_noteText (r : RequestId) (assigned : Bool) :
    (s.noteText r assigned).face = s.face := rfl

@[simp] theorem face_settlePost (i : SeqId) (p : Post) : (s.settlePost b i p).face = s.face := by
  unfold settlePost
  cases p.reason <;> rfl

@[simp] theorem face_addRequest (r : Request) : (s.addRequest b r).1.face = s.face := by
  unfold addRequest
  split_ifs
  · rfl
  · rfl
  · split <;> rfl

end Face

end EngineLoop

namespace Concurrent
open EngineLoop

variable {b : Backend R} {t : Tid} {s s' : Shared R} {i : Instr} {rest code : List Instr}
  {now : Time}

section Exec

@[simp] theorem face_runBatch (burst : Bool) (l : EngineLoop R) :
    (runBatch b burst l).1.face = l.face := by
  unfold runBatch
  simp only
  split_ifs
  · rfl
  · split <;> rfl

@[simp] theorem face_runBurst (l : EngineLoop R) (i : SeqId) (first : Token) :
    (runBurst b l i first).1.face = l.face := by
  unfold runBurst
  simp only
  split_ifs
  · split <;> rfl
  · rfl

/-- Only `submit` and the end of `_emit` change which queue a request finds. -/
theorem exec_face (h : exec b t s i rest now = some (s',code)) (hr : ∀ p, i ≠ .register p)
    (hp : ∀ r d, i ≠ .popQueue r d) : s'.loop.face = s.loop.face := by
  cases i with
  | register p => exact absurd rfl (hr p)
  | popQueue r d => exact absurd rfl (hp r d)
  | addRequest p =>
    have hadd := face_addRequest (b := b) (s := s.loop) p.request
    simp only [exec] at h
    split at h <;> rename_i hx <;> rw [hx] at hadd <;> cases h <;> exact hadd
  | burst i first =>
    have hburst := face_runBurst (b := b) s.loop i first
    simp only [exec] at h
    split at h <;> rename_i hx <;> rw [hx] at hburst <;> cases h
    · exact hburst
    · simpa using hburst
  | postToken i pre tok =>
    simp only [exec,Option.some.injEq,Prod.mk.injEq] at h
    obtain ⟨rfl,_⟩ := h
    cases pre <;> simp
  | acquire | submitCheck p | admitCheck p | postCheck i pre tok =>
    simp only [exec] at h
    split at h <;> cases h <;> rfl
  | lookup r f final | admitNext =>
    simp only [exec] at h
    split at h <;> cases h <;> rfl
  | post i pre tok =>
    simp only [exec] at h
    split at h
    · cases h
      rfl
    · split at h <;> cases h <;> rfl
  | release | enqueue p | noteCancel r | timeouts | dropFinished =>
    cases h
    rfl
  | read d | cancelRest r had | put d r f final | closeSeq r | expire r | runStep burst | abort e i
  | cancelSeq i =>
    cases h
    simp [Shared.put]

theorem exec_lock (h : exec b t s i rest now = some (s',code)) (ha : i ≠ .acquire)
    (hr : i ≠ .release) : s'.lock = s.lock := by
  cases i with
  | acquire => exact absurd rfl ha
  | release => exact absurd rfl hr
  | submitCheck p | admitCheck p | postCheck i pre tok | lookup r f final | admitNext
  | addRequest p | burst i first =>
    simp only [exec] at h
    split at h <;> cases h <;> rfl
  | post i pre tok =>
    simp only [exec] at h
    split at h
    · cases h
      rfl
    · split at h <;> cases h <;> rfl
  | register p | popQueue r d | postToken i pre tok | enqueue p | read d | noteCancel r
  | cancelRest r had | put d r f final | closeSeq r | timeouts | expire r | runStep burst | abort e i | cancelSeq i
  | dropFinished =>
    cases h
    rfl

end Exec

end Concurrent
end SglangLite.Loop
