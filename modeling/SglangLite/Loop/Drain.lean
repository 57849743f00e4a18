import SglangLite.Loop.Answers
import SglangLite.Loop.Serving
import SglangLite.Loop.Worker

set_option autoImplicit false

namespace SglangLite.Loop
open Kv Sched Text Control

namespace Concurrent

def Instr.moves : Instr → Bool
  | .addRequest _ => true
  | .expire _ => true
  | .abort _ _ => true
  | .cancelSeq _ => true
  | .postToken _ _ _ => true
  | .burst _ _ => true
  | .dropFinished => true
  | _ => false

/-- `run_decode_burst` has raised. -/
def Instr.raises : Instr → List Instr → Bool
  | .burst _ _, [] => true
  | _, _ => false

end Concurrent

namespace Drain
open EngineLoop
open Concurrent (Over Poised AllPlain Carries Tended)

variable {R : Type} {b : Backend R}

/-- The event loop, on which all HTTP handlers run, the CUDA thread of rank 0,
and the threads of the executor, in which the handlers call `dq.get`. -/
inductive Tid where
  | http
  | cuda
  | pool (k : Nat)
  deriving DecidableEq, Repr

def Tid.engine : Tid → Concurrent.Tid
  | .cuda => .loop
  | .http => .http 0
  | .pool k => .http (k+1)

/-- The parts of the handlers and of the CUDA thread between which another
thread may run. A handler for `/v1/generate` that answers with an error of its
own has no `inputIds`. After `enter` the CUDA thread is changing the queues of
the scheduler, until its next instruction is done. -/
inductive Instr where
  | generate (r : GenerationRequest) (inputIds : Option (List Token)) (timeout : Time)
  | beginDrain
  | readPending
  | readWaiting (pending : Nat)
  | readRunning (pending waiting : Nat)
  | get
  | broadcast (n : Nat) (p : Pending)
  | check (n : Nat) (p : Pending)
  | register (n : Nat) (p : Pending)
  | put (n : Nat) (p : Pending) (d : QueueId)
  | test (due : Time)
  | enter
  | form
  | work (batch : List (SeqId × Bool))
  | eng (i : Concurrent.Instr)

/-- `POST /v1/generate`, `POST /v1/drain`, `GET /v1/drain`, a cancel, which is a
`POST /v1/cancel` or comes from a generate handler whose client is gone, and a
generate handler's `dq.get`. -/
inductive Call where
  | generate (r : GenerationRequest) (inputIds : Option (List Token)) (timeout : Time)
  | drain
  | drainStatus
  | cancel (r : RequestId)
  | read (k : Nat) (d : QueueId)

def Call.caller : Call → Tid
  | .read k _ => .pool k
  | _ => .http

def Call.body : Call → List Instr
  | .generate r inputIds timeout => [.generate r inputIds timeout]
  | .drain => [.beginDrain,.readPending]
  | .drainStatus => [.readPending]
  | .cancel r => [.eng .acquire,.eng (.noteCancel r)]
  | .read _ d => [.eng (.read d)]

/-- The engine of rank 0 with `_TP_CUDA_Q`, whose jobs are numbered in the order
in which handlers put them. `failed` lists the jobs for which `submit` has raised
and `submitted` those whose `submit` has returned; `inside` says that the CUDA
thread is changing the queues of the scheduler, and `reported` that a
`drain_status` after `begin_drain` has found the engine idle. -/
structure Shared (R : Type) where
  core : Concurrent.Shared R
  jobs : List (Nat × Pending) := []
  count : Nat := 0
  broadcasts : List Nat := []
  failed : List Nat := []
  submitted : List (Nat × Pending × QueueId) := []
  inside : Bool := false
  reported : Bool := false

def Shared.set (s : Shared R) (l : EngineLoop R) : Shared R := { s with core := { s.core with loop := l } }

/-- What `len` gives for a queue of the scheduler: a thread that reads while it
is being changed may see anything. -/
def Shared.look (s : Shared R) (l : List SeqId) (seen : Nat) : Nat :=
  if s.inside then seen else l.length

def lift (t : Tid) (i : Concurrent.Instr) : List Instr :=
  if t = .cuda ∧ i.moves = true then [.enter,.eng i] else [.eng i]

def exec (b : Backend R) (t : Tid) (s : Shared R) (i : Instr) (rest : List Instr) (x : Time × Nat) :
    Option (Shared R × List Instr) :=
  let l := s.core.loop
  match i with
  | .generate r inputIds timeout =>
      match inputIds with
      | some (t :: ts) =>
          if r.errors ≠ [] ∨ l.draining = true then some (s,rest)
          else some ({ s with
            jobs := s.jobs ++
              [(s.count,pendingOf r.requestId (t :: ts) (paramsFromReq r) timeout)]
            count := s.count+1 },rest)
      | _ => some (s,rest)
  | .beginDrain => some (s.set { l with draining := true },rest)
  | .readPending => some (s,.readWaiting l.submitQ.length :: rest)
  | .readWaiting pending => some (s,.readRunning pending (s.look l.sched.waiting x.2) :: rest)
  | .readRunning pending waiting =>
      let idle := decide (pending = 0 ∧ waiting = 0 ∧ s.look l.sched.running x.2 = 0)
      some ({ s with reported := s.reported || (idle && l.draining) },rest)
  | .get =>
      match s.jobs with
      | [] => none
      | (n,p) :: jobs => some ({ s with jobs := jobs },.broadcast n p :: rest)
  | .broadcast n p => some ({ s with broadcasts := s.broadcasts ++ [n] },.check n p :: rest)
  | .check n p =>
      if l.refuses p then some ({ s with failed := s.failed ++ [n] },.get :: rest)
      else some (s,.eng .acquire :: .register n p :: rest)
  | .register n p => some (s.set (l.register x.1 p),.eng .release :: .put n p l.queues.length :: rest)
  | .put n p d =>
      some ({ s.set { l with submitQ := l.submitQ ++ [p] } with submitted := s.submitted ++ [(n,p,d)] },
        .eng .admitNext :: .test (x.1+p.timeout) :: rest)
  | .test due =>
      if l.busy = true ∧ x.1 ≤ due then
        some (s,[.eng .admitNext,.eng .timeouts,.enter,.form,.eng .admitNext,.test due] ++ rest)
      else some (s,.get :: rest)
  | .enter => some ({ s with inside := true },rest)
  | .form =>
      let batch := (l.sched.step b.sched).2
      some ({ s.set (l.formed b) with inside := false },(if batch = [] then [] else [.work batch]) ++ rest)
  | .work batch =>
      let r := Concurrent.ran b true l batch
      some (s.set r.1,r.2.flatMap (lift t) ++ rest)
  | .eng i =>
      (Concurrent.exec b t.engine s.core i [] x.1).map fun r =>
        ({ s with core := r.1, inside := s.inside && decide (t ≠ .cuda) },
          if i.raises r.2 then [.get] else r.2.flatMap (lift t) ++ rest)

def program (b : Backend R) : Threads.Program Tid (Shared R) Instr (Time × Nat) Call where
  caller := Call.caller
  body := Call.body
  exec := exec b

abbrev Machine (R : Type) := Threads.Machine Tid (Shared R) Instr
abbrev Event := Threads.Event Tid (Time × Nat) Call

def step (b : Backend R) : Machine R → Event → Option (Machine R) := Threads.step (program b)

def init (r₀ : R) : Machine R :=
  ⟨{ core := { loop := { runner := r₀ } } },fun t => if t = .cuda then [.get] else []⟩

/-- The job has its error reply or its terminal frame. -/
def Answered (s : Shared R) (n : Nat) : Prop :=
  n ∈ s.failed ∨ ∃ p d, (n,p,d) ∈ s.submitted ∧ Over s.core d

def Instr.Submits (n : Nat) : Instr → Prop
  | .check k _ => k = n
  | .register k _ => k = n
  | .put k _ _ => k = n
  | _ => False

def Submitting (n : Nat) (c : List Instr) : Prop := ∃ i ∈ c, i.Submits n

/-- The instruction carries a job whose `submit` has not looked at `draining`. -/
def Instr.Unchecked : Instr → Prop
  | .broadcast _ _ => True
  | .check _ _ => True
  | _ => False

def Instr.InHand : Instr → Prop
  | .register _ _ => True
  | .put _ _ _ => True
  | .eng i => i.Brings
  | _ => False

def Instr.engine : Instr → Option Concurrent.Instr
  | .put _ p _ => some (.enqueue p)
  | .form => some (.runStep true)
  | .work _ => some (.runStep true)
  | .eng i => some i
  | _ => none

def duties (c : List Instr) : List Concurrent.Instr := c.filterMap Instr.engine

/-- The drain begins when no job is on its way to the checks of `submit`. A read
that finds the submit queue empty does not fall between two places of a request,
one that finds a queue of the scheduler empty finds it as it is, and then no
terminal frame is still to be put. A cancel of a request that the scheduler knows
does not fall into a change of its queues. Besides, `top_k` is not negative, the
open delta queues have room, and an id is used by one request at a time: when its
queue is made, no request has it, no mark of an earlier cancel is left, and no
such cancel is underway. -/
def Orderly (m : Machine R) : Event → Prop
  | .call _ => True
  | .tick t x =>
      let l := m.shared.core.loop
      match m.code t with
      | .generate r _ _ :: _ => ∀ k, r.topK = some k → 0 ≤ k
      | .beginDrain :: _ => m.shared.jobs = [] ∧ ∀ i ∈ m.code .cuda, ¬ i.Unchecked
      | .readPending :: _ => l.draining = true → l.submitQ = [] → ∀ i ∈ m.code .cuda, ¬ i.InHand
      | .readWaiting pending :: _ => l.draining = true → pending = 0 → l.sched.waiting ≠ [] →
          m.shared.look l.sched.waiting x.2 ≠ 0
      | .readRunning pending waiting :: _ => l.draining = true → pending = 0 → waiting = 0 →
          (l.sched.running ≠ [] → m.shared.look l.sched.running x.2 ≠ 0) ∧
          (l.sched.running = [] → ∀ i ∈ duties (m.code .cuda), ¬ i.Last)
      | .register _ p :: _ => Idle p.requestId l ∧ p.requestId ∉ l.cancelled ∧
          ∀ i ∈ duties (m.code .http), ¬ i.Of p.requestId
      | .eng (.put d _ _ _) :: _ => (l.queue d).length < queueSize
      | .eng (.cancelRest r _) :: _ => m.shared.inside = true → l.sched.byRequest r = none
      | _ => True

section Runs

variable {m m' : Machine R} {s s' : Shared R} {c c' o : List Instr} {i : Instr}

def Passes (p : Pending) : Prop :=
  ¬ (p.request.maxTokens = 0 ∨ p.paramsOk = false ∨ p.request.inputIds = [])

/-- The instruction stands in `pump_until_idle`, before the test. -/
def Instr.Pumps : Instr → Prop
  | .enter => True
  | .form => True
  | .work _ => True
  | .eng _ => True
  | _ => False

inductive CudaCode : List Instr → Prop where
  | get : CudaCode [.get]
  | broadcast (n : Nat) (p : Pending) (h : Passes p) : CudaCode [.broadcast n p]
  | check (n : Nat) (p : Pending) (h : Passes p) : CudaCode [.check n p]
  | acquire (n : Nat) (p : Pending) : CudaCode [.eng .acquire,.register n p]
  | register (n : Nat) (p : Pending) : CudaCode [.register n p]
  | release (n : Nat) (p : Pending) (d : QueueId) : CudaCode [.eng .release,.put n p d]
  | put (n : Nat) (p : Pending) (d : QueueId) : CudaCode [.put n p d]
  | pump (c : List Instr) (due : Time) (h : ∀ i ∈ c, i.Pumps) : CudaCode (c ++ [Instr.test due])

def Instr.early : Instr → Option Nat
  | .broadcast n _ => some n
  | .check n _ => some n
  | .register n _ => some n
  | _ => none

def Instr.made : Instr → Option (Nat × Pending × QueueId)
  | .put n p d => some (n,p,d)
  | _ => none

def taken (s : Shared R) (c : List Instr) : List (Nat × Pending × QueueId) :=
  s.submitted ++ c.filterMap Instr.made

def Queued (s : Shared R) (c : List Instr) (r : RequestId) (d : QueueId) : Prop :=
  ∃ n p, (n,p,d) ∈ taken s c ∧ p.requestId = r

/-- Every job is accounted for, when the CUDA thread executes `c` and the event
loop `o`. -/
structure Served (s : Shared R) (c o : List Instr) : Prop where
  code : CudaCode c
  tended : Tended s.core (Queued s c) (duties c) (duties o)
  jobs : ∀ j ∈ s.jobs, Passes j.2
  tickets : ∀ n < s.count, n ∈ s.jobs.map Prod.fst ∨ n ∈ c.filterMap Instr.early ∨
    n ∈ (taken s c).map Prod.fst
  told : ∀ n ∈ s.broadcasts, Submitting n c ∨ n ∈ s.submitted.map Prod.fst
  failed : s.failed = []

def Clear (s : Shared R) (c : List Instr) : Prop := s.jobs = [] ∧ ∀ i ∈ c, ¬ i.Unchecked

/-- Nothing can come into the queues of the scheduler any more. -/
def Quiet (s : Shared R) (c : List Instr) : Prop :=
  Clear s c ∧ s.core.loop.submitQ = [] ∧ ∀ i ∈ c, ¬ i.InHand

/-- What the event loop executes next, and what it has read so far. -/
inductive HttpCode (s : Shared R) (c : List Instr) : List Instr → Prop where
  | generate (r : GenerationRequest) (inputIds : Option (List Token)) (timeout : Time) :
      HttpCode s c [.generate r inputIds timeout]
  | drain : HttpCode s c [.beginDrain,.readPending]
  | pending : HttpCode s c [.readPending]
  | waiting (pending : Nat) (h : s.core.loop.draining = true → pending = 0 → Quiet s c) :
      HttpCode s c [.readWaiting pending]
  | running (pending waiting : Nat) (h : s.core.loop.draining = true → pending = 0 → waiting = 0 →
      Quiet s c ∧ s.core.loop.sched.waiting = []) : HttpCode s c [.readRunning pending waiting]
  | cancel (l : List Concurrent.Instr) (h : ∀ i ∈ l, i.Cancels) : HttpCode s c (l.map .eng)

structure Truthful (m : Machine R) : Prop where
  served : Served m.shared (m.code .cuda) (m.code .http)
  pool : ∀ k, ∀ i ∈ m.code (.pool k), ∃ d, i = .eng (.read d)
  clear : m.shared.core.loop.draining = true → Clear m.shared (m.code .cuda)
  reads : HttpCode m.shared (m.code .cuda) (m.code .http)
  reported : m.shared.reported = true →
    m.shared.core.loop.draining = true ∧ ∀ n < m.shared.count, Answered m.shared n

/-- What a step leaves as the handlers have seen it. -/
structure Still (s : Shared R) (c : List Instr) (s' : Shared R) (c' : List Instr) : Prop where
  draining : s'.core.loop.draining = s.core.loop.draining
  reported : s'.reported = s.reported
  count : s'.count = s.count
  answered : ∀ n, Answered s n → Answered s' n
  clear : Clear s c → Clear s' c'
  quiet : Quiet s c → Quiet s' c' ∧ (s.core.loop.sched.waiting = [] → s'.core.loop.sched.waiting = [])

theorem HttpCode.still {l : List Instr} (h : HttpCode s c l) (hs : Still s c s' c') : HttpCode s' c' l := by
  cases h with
  | generate r ids timeout => exact .generate r ids timeout
  | drain => exact .drain
  | pending => exact .pending
  | waiting p h => exact .waiting p fun hd hp => (hs.quiet (h (hs.draining ▸ hd) hp)).1
  | running p w h =>
    refine .running p w fun hd hp hw => ?_
    obtain ⟨hq,hwait⟩ := h (hs.draining ▸ hd) hp hw
    exact ⟨(hs.quiet hq).1,(hs.quiet hq).2 hwait⟩
  | cancel l h => exact .cancel l h

section Duties

@[simp] theorem submitting_nil (n : Nat) : ¬ Submitting n [] := by simp [Submitting]

@[simp] theorem submitting_cons (n : Nat) : Submitting n (i :: c) ↔ i.Submits n ∨ Submitting n c := by
  simp [Submitting]

@[simp] theorem duties_append : duties (c ++ c') = duties c ++ duties c' := List.filterMap_append

@[simp] theorem duties_lift (t : Tid) (code : List Concurrent.Instr) :
    duties (code.flatMap (lift t)) = code := by
  induction code with
  | nil => rfl
  | cons i code ih =>
    rw [List.flatMap_cons,duties_append,ih]
    unfold lift
    split_ifs <;> rfl

theorem pumps_lift (t : Tid) (code : List Concurrent.Instr) : ∀ i ∈ code.flatMap (lift t), i.Pumps := by
  intro i hi
  obtain ⟨j,_,hj⟩ := List.mem_flatMap.mp hi
  unfold lift at hj
  split_ifs at hj
  · rcases List.mem_pair.mp hj with rfl | rfl <;> trivial
  · rw [List.mem_singleton.mp hj]
    trivial

theorem pumps_plain (h : ∀ i ∈ c, i.Pumps) (due : Time) : (c ++ [Instr.test due]).filterMap Instr.early = [] ∧
    (c ++ [Instr.test due]).filterMap Instr.made = [] ∧ (∀ i ∈ c ++ [Instr.test due], ¬ i.Unchecked) ∧
    ∀ n, ¬ Submitting n (c ++ [Instr.test due]) := by
  have hall : ∀ i ∈ c ++ [Instr.test due], i.early = none ∧ i.made = none ∧ ¬ i.Unchecked ∧ ∀ n, ¬ i.Submits n := by
    intro i hi
    rcases List.mem_append.mp hi with hi | hi
    · have hp := h i hi
      cases i <;> first | exact hp.elim | exact ⟨rfl,rfl,id,fun _ => id⟩
    · rw [List.mem_singleton.mp hi]
      exact ⟨rfl,rfl,id,fun _ => id⟩
  exact ⟨List.filterMap_eq_nil_iff.mpr fun i hi => (hall i hi).1,
    List.filterMap_eq_nil_iff.mpr fun i hi => (hall i hi).2.1,fun i hi => (hall i hi).2.2.1,
    fun n ⟨i,hi,hn⟩ => (hall i hi).2.2.2 n hn⟩

theorem lift_http (code : List Concurrent.Instr) : code.flatMap (lift .http) = code.map .eng := by
  have hl : lift .http = fun i => [.eng i] := by
    funext i
    simp [lift]
  rw [hl]
  exact List.map_eq_flatMap.symm

theorem duties_eng (l : List Concurrent.Instr) : duties (l.map .eng) = l := by
  unfold duties
  rw [List.filterMap_map]
  exact List.filterMap_some

theorem lift_fresh (t : Tid) (code : List Concurrent.Instr) (i : Instr) (hi : i ∈ code.flatMap (lift t)) :
    ¬ i.Unchecked ∧ (i.InHand → ∃ a ∈ code, a.Brings) := by
  obtain ⟨j,hj,hi⟩ := List.mem_flatMap.mp hi
  unfold lift at hi
  split_ifs at hi
  · rcases List.mem_pair.mp hi with rfl | rfl
    · exact ⟨id,fun hin => hin.elim⟩
    · exact ⟨id,fun hin => ⟨j,hj,hin⟩⟩
  · rw [List.mem_singleton.mp hi]
    exact ⟨id,fun hin => ⟨j,hj,hin⟩⟩

theorem engine_brings {j : Concurrent.Instr} (hi : i.engine = some j) (hn : ¬ i.InHand) : ¬ j.Brings := by
  cases i <;> cases hi <;> exact hn

theorem HttpCode.cancels {l : List Instr} (h : HttpCode s c l) : ∀ j ∈ duties l, j.Cancels := by
  cases h with
  | cancel l h => rwa [duties_eng]
  | _ => exact List.forall_mem_nil _

end Duties

section Cuda

theorem Served.next (h : Served s c o) (ht : Tended s'.core (Queued s c) (duties c') (duties o))
    (hcode : CudaCode c') (h1 : s'.jobs = s.jobs) (h2 : s'.count = s.count)
    (h3 : s'.broadcasts = s.broadcasts) (h4 : s'.failed = s.failed)
    (he : c'.filterMap Instr.early = c.filterMap Instr.early) (hm : taken s' c' = taken s c)
    (ht' : ∀ n, Submitting n c ∨ n ∈ s.submitted.map Prod.fst →
      Submitting n c' ∨ n ∈ s'.submitted.map Prod.fst) : Served s' c' o := by
  refine ⟨hcode,?_,fun j hj => h.jobs j (h1 ▸ hj),fun n hn => ?_,fun n hn => ht' n (h.told n (h3 ▸ hn)),
    h4.trans h.failed⟩
  · have hq : Queued s' c' = Queued s c := by
      unfold Queued
      rw [hm]
    rw [hq]
    exact ht
  · rw [h1,he,hm]
    exact h.tickets n (h2 ▸ hn)

theorem Served.pump {due : Time} (h : Served s (c ++ [Instr.test due]) o) (hi : ∀ j ∈ c, j.Pumps)
    (ht : Tended s'.core (Queued s (c ++ [Instr.test due])) (duties (c' ++ [Instr.test due])) (duties o))
    (hc : ∀ j ∈ c', j.Pumps) (h1 : s'.jobs = s.jobs) (h2 : s'.count = s.count)
    (h3 : s'.broadcasts = s.broadcasts) (h4 : s'.failed = s.failed) (h5 : s'.submitted = s.submitted) :
    Served s' (c' ++ [Instr.test due]) o := by
  obtain ⟨he,hm,_,hn⟩ := pumps_plain hi due
  obtain ⟨he',hm',_,_⟩ := pumps_plain hc due
  refine h.next ht (.pump c' due hc) h1 h2 h3 h4 (he'.trans he.symm) ?_ fun n hs => .inr ?_
  · unfold taken
    rw [hm,hm',h5]
  · rw [h5]
    exact hs.resolve_left (hn n)

theorem Served.leave {due : Time} (h : Served s (c ++ [Instr.test due]) o) (hc : ∀ j ∈ c, j.Pumps)
    (hplain : AllPlain s.core (duties (c ++ [Instr.test due]))) : Served s [.get] o := by
  obtain ⟨he,hm,_,hn⟩ := pumps_plain hc due
  refine h.next (h.tended.leave hplain) .get rfl rfl rfl rfl he.symm ?_ fun n hs => .inr (hs.resolve_left (hn n))
  unfold taken
  rw [hm]
  rfl

theorem Served.register {n : Nat} {p : Pending} (h : Served s [.register n p] o) (now : Time)
    (hidle : Idle p.requestId s.core.loop) (hn : p.requestId ∉ s.core.loop.cancelled)
    (ho : ∀ i ∈ duties o, i.Cancels) (hof : ∀ i ∈ duties o, ¬ i.Of p.requestId) :
    Served (s.set (s.core.loop.register now p)) [.eng .release,.put n p s.core.loop.queues.length] o := by
  have hold : ∀ d, Queued s [.register n p] p.requestId d → Over s.core d := by
    intro d hj
    rcases h.tended.pursued _ d hj with ho' | ⟨_,(⟨⟨q,hq,hid⟩,_⟩ | ⟨j,hf,hid⟩) | ⟨i,hi,ha⟩⟩
    · exact ho'
    · exact absurd (List.mem_map.mpr ⟨q,hq,hid⟩) hidle.1
    · exact absurd hid (hidle.2 j ((h.tended.steady.kept.queued j).mpr hf))
    · exact absurd ((ho i hi).of_answers ha) (hof i hi)
  have ht := h.tended.register now hold hn fun i hi hc => hof i hi hc.of
  refine ⟨.release n p _,⟨ht.steady,ht.mine,ht.theirs,fun r d hj => ht.pursued r d ?_⟩,h.jobs,fun k hk => ?_,
    fun k hk => (h.told k hk).imp_left fun ⟨i,hi,hs⟩ => ?_,h.failed⟩
  · obtain ⟨k,q,hmem,hid⟩ := hj
    rcases List.mem_append.mp hmem with hmem | hmem
    · exact .inl ⟨k,q,List.mem_append_left _ hmem,hid⟩
    · cases List.mem_singleton.mp hmem
      exact .inr ⟨hid.symm,rfl⟩
  · rcases h.tickets k hk with hj | he | ht
    · exact .inl hj
    · obtain rfl : k = n := List.mem_singleton.mp he
      exact .inr (.inr (by simp [taken,Instr.made]))
    · refine .inr (.inr ?_)
      obtain ⟨a,ha,hak⟩ := List.mem_map.mp ht
      refine List.mem_map.mpr ⟨a,List.mem_append_left _ ?_,hak⟩
      have hmem : a ∈ s.submitted := by simpa [taken,Instr.made] using ha
      exact hmem
  · rw [List.mem_singleton.mp hi] at hs
    exact ⟨_,List.mem_cons_of_mem _ List.mem_cons_self,hs⟩

theorem Still.of (h1 : s'.core.loop.draining = s.core.loop.draining) (h2 : s'.reported = s.reported)
    (h3 : s'.count = s.count) (h4 : s'.failed = s.failed) (h5 : s.submitted ⊆ s'.submitted)
    (ho : ∀ d, Over s.core d → Over s'.core d) (hc : Clear s c → Clear s' c')
    (hq : Quiet s c → Quiet s' c' ∧ (s.core.loop.sched.waiting = [] → s'.core.loop.sched.waiting = [])) :
    Still s c s' c' :=
  ⟨h1,h2,h3,fun _ ha => ha.imp (fun hf => h4 ▸ hf) fun ⟨p,d,hm,hd⟩ => ⟨p,d,h5 hm,ho d hd⟩,hc,hq⟩

theorem Still.carried {j : Concurrent.Instr} {d code : List Concurrent.Instr} (hi : i.engine = some j)
    (hcar : Carries s.core j d s'.core code) (h1 : s'.jobs = s.jobs) (h2 : s'.reported = s.reported)
    (h3 : s'.count = s.count) (h4 : s'.failed = s.failed) (h5 : s.submitted ⊆ s'.submitted)
    (hc : ∀ k ∈ c', k ∈ c ∨ ¬ k.Unchecked ∧ (k.InHand → ∃ a ∈ code, a.Brings)) : Still s (i :: c) s' c' := by
  have hclear : Clear s (i :: c) → Clear s' c' := fun hcl => ⟨h1.trans hcl.1,fun k hk =>
    (hc k hk).elim (fun hk => hcl.2 k (List.mem_cons_of_mem _ hk)) fun hk => hk.1⟩
  refine .of hcar.advance.draining h2 h3 h4 h5 hcar.advance.got hclear fun hq => ?_
  have hj := engine_brings hi (hq.2.2 i List.mem_cons_self)
  obtain ⟨hsub,hwait⟩ := hcar.empty hq.2.1 hj
  refine ⟨⟨hclear hq.1,hsub,fun k hk hin => ?_⟩,hwait⟩
  rcases hc k hk with hk | ⟨_,hk⟩
  · exact hq.2.2 k (List.mem_cons_of_mem _ hk) hin
  · obtain ⟨a,ha,hb⟩ := hk hin
    exact hcar.brings hq.2.1 hj a ha hb

theorem Served.pumped {due : Time} {j : Concurrent.Instr} {code : List Concurrent.Instr}
    (h : Served s (i :: c ++ [Instr.test due]) o) (hc : ∀ k ∈ i :: c, k.Pumps) (hi : i.engine = some j)
    (hcar : Carries s.core j (duties (c ++ [Instr.test due])) s'.core code) (h1 : s'.jobs = s.jobs)
    (h2 : s'.reported = s.reported) (h3 : s'.count = s.count) (h4 : s'.failed = s.failed)
    (h5 : s'.submitted = s.submitted) (h6 : s'.broadcasts = s.broadcasts) :
    Served s' (code.flatMap (lift .cuda) ++ (c ++ [Instr.test due])) o ∧
      Still s (i :: c ++ [Instr.test due]) s' (code.flatMap (lift .cuda) ++ (c ++ [Instr.test due])) := by
  have htend : Tended s.core (Queued s (i :: c ++ [Instr.test due])) (j :: duties (c ++ [Instr.test due]))
      (duties o) := by
    have ht := h.tended
    rwa [List.cons_append,show duties (i :: (c ++ [Instr.test due])) = j :: duties (c ++ [Instr.test due]) from
      List.filterMap_cons_some hi] at ht
  have hall : ∀ k ∈ code.flatMap (lift .cuda) ++ c, k.Pumps := fun k hk =>
    (List.mem_append.mp hk).elim (pumps_lift _ _ k) fun hk => hc k (List.mem_cons_of_mem _ hk)
  have hd : duties (code.flatMap (lift .cuda) ++ c ++ [Instr.test due]) = code ++ duties (c ++ [Instr.test due]) := by
    simp
  rw [← List.append_assoc]
  refine ⟨h.pump hc ?_ hall h1 h3 h6 h4 h5,.carried hi hcar h1 h2 h3 h4 (by rw [h5]; exact List.Subset.refl _)
    fun k hk => ?_⟩
  · rw [hd]
    exact htend.carry hcar
  · rw [List.append_assoc] at hk
    exact (List.mem_append.mp hk).symm.imp_right (lift_fresh _ _ k)

/-- A step of the engine that raises leaves `pump_until_idle`. -/
theorem Served.raised {due : Time} {j : Concurrent.Instr} (h : Served s (i :: c ++ [Instr.test due]) o)
    (hc : ∀ k ∈ i :: c, k.Pumps) (hi : i.engine = some j)
    (hcar : Carries s.core j (duties (c ++ [Instr.test due])) s'.core [])
    (hplain : AllPlain s'.core (duties (c ++ [Instr.test due]))) (h1 : s'.jobs = s.jobs)
    (h2 : s'.reported = s.reported) (h3 : s'.count = s.count) (h4 : s'.failed = s.failed)
    (h5 : s'.submitted = s.submitted) (h6 : s'.broadcasts = s.broadcasts) :
    Served s' [.get] o ∧ Still s (i :: c ++ [Instr.test due]) s' [.get] := by
  have hstep : Served s' (c ++ [Instr.test due]) o := (h.pumped hc hi hcar h1 h2 h3 h4 h5 h6).1
  refine ⟨hstep.leave (fun k hk => hc k (List.mem_cons_of_mem _ hk)) hplain,
    .carried hi hcar h1 h2 h3 h4 (by rw [h5]; exact List.Subset.refl _) fun k hk => .inr ?_⟩
  rw [List.mem_singleton.mp hk]
  exact ⟨id,fun hin => hin.elim⟩

theorem Still.moved (h1 : s'.core = s.core) (h2 : s'.jobs = s.jobs) (h3 : s'.reported = s.reported)
    (h4 : s'.count = s.count) (h5 : s'.failed = s.failed) (h6 : s'.submitted = s.submitted)
    (hc : ∀ k ∈ c', k ∈ c ∨ ¬ k.Unchecked ∧ ¬ k.InHand) : Still s c s' c' := by
  have hclear : Clear s c → Clear s' c' := fun hcl =>
    ⟨h2.trans hcl.1,fun k hk => (hc k hk).elim (hcl.2 k) And.left⟩
  refine .of (by rw [h1]) h3 h4 h5 (by rw [h6]; exact List.Subset.refl _) (by rw [h1]; exact fun _ => id) hclear
    fun hq => ⟨⟨hclear hq.1,by rw [h1]; exact hq.2.1,fun k hk => (hc k hk).elim (hq.2.2 k) And.right⟩,?_⟩
  rw [h1]
  exact id

/-- The test of `pump_until_idle`: another round, or the next job. -/
theorem Served.exec_test {x : Time × Nat} {due : Time} (h : Served s [.test due] o)
    (hx : exec b .cuda s (.test due) [] x = some (s',c')) : Served s' c' o ∧ Still s [.test due] s' c' := by
  have hc : ∀ k ∈ ([] : List Instr), k.Pumps := List.forall_mem_nil _
  simp only [Drain.exec] at hx
  split_ifs at hx <;> cases hx
  · have hplain : AllPlain s.core [.admitNext,.timeouts,.runStep true,.admitNext] := by
      intro i hi
      fin_cases hi <;> trivial
    have hround : Served s ([.eng .admitNext,.eng .timeouts,.enter,.form,.eng .admitNext] ++ [.test due]) o :=
      Served.pump (c := []) h hc (h.tended.enter hplain) (by simp [Instr.Pumps]) rfl rfl rfl rfl rfl
    refine ⟨hround,.moved rfl rfl rfl rfl rfl rfl ?_⟩
    simp [Instr.Unchecked,Instr.InHand,Concurrent.Instr.Brings]
  · refine ⟨Served.leave (c := []) h hc (List.forall_mem_nil _),.moved rfl rfl rfl rfl rfl rfl ?_⟩
    simp [Instr.Unchecked,Instr.InHand]

/-- An instruction in `pump_until_idle`. -/
theorem Served.exec_pump {x : Time × Nat} {due : Time} (h : Served s (i :: c ++ [Instr.test due]) o)
    (hc : ∀ k ∈ i :: c, k.Pumps)
    (hroom : ∀ d r f final, i = .eng (.put d r f final) → (s.core.loop.queue d).length < queueSize)
    (hx : exec b .cuda s i (c ++ [Instr.test due]) x = some (s',c')) :
    Served s' c' o ∧ Still s (i :: c ++ [Instr.test due]) s' c' := by
  have hrest : ∀ j ∈ c, j.Pumps := fun j hj => hc j (List.mem_cons_of_mem _ hj)
  have hpump := hc i List.mem_cons_self
  have htend := h.tended
  cases i with
  | enter =>
    cases hx
    exact ⟨h.pump hc htend hrest rfl rfl rfl rfl rfl,
      .moved rfl rfl rfl rfl rfl rfl fun k hk => .inl (List.mem_cons_of_mem _ hk)⟩
  | form =>
    have hplain : AllPlain s.core (.runStep true :: duties (c ++ [Instr.test due])) := by
      cases htend.mine with
      | plain hp => exact hp
    by_cases hb : (s.core.loop.sched.step b.sched).2 = []
    · have hnil : ∀ k ∈ ([] : List Concurrent.Instr), ∀ n, k.Plain n := List.forall_mem_nil _
      have hcar := Carries.formed (b := b) htend.steady hplain hnil
      simp only [Drain.exec,hb,if_true] at hx
      cases hx
      exact ⟨h.pump hc (htend.carry hcar) hrest rfl rfl rfl rfl rfl,
        .carried rfl hcar rfl rfl rfl rfl (List.Subset.refl _) fun k hk => .inl hk⟩
    · have hone : ∀ k ∈ [Concurrent.Instr.runStep true], ∀ n, k.Plain n :=
        List.forall_mem_singleton.mpr fun _ => trivial
      have hcar := Carries.formed (b := b) htend.steady hplain hone
      simp only [Drain.exec,hb,if_false] at hx
      cases hx
      have hall : ∀ k ∈ .work (s.core.loop.sched.step b.sched).2 :: c, k.Pumps :=
        List.forall_mem_cons.mpr ⟨trivial,hrest⟩
      refine ⟨h.pump hc (htend.carry hcar) hall rfl rfl rfl rfl rfl,
        .carried rfl hcar rfl rfl rfl rfl (List.Subset.refl _) fun k hk => ?_⟩
      refine (List.mem_cons.mp hk).symm.imp_right fun hk => ?_
      rw [hk]
      exact ⟨id,fun hin => hin.elim⟩
  | work batch =>
    have hplain : AllPlain s.core (.runStep true :: duties (c ++ [Instr.test due])) := by
      cases htend.mine with
      | plain hp => exact hp
    have hcar := Carries.ran (b := b) htend.steady true batch hplain
    cases hx
    exact h.pumped hc rfl hcar rfl rfl rfl rfl rfl rfl
  | eng j =>
    simp only [Drain.exec] at hx
    obtain ⟨⟨core,code⟩,hr,hx⟩ := Option.map_eq_some_iff.mp hx
    have hcar := Concurrent.exec_carries x.1 htend.steady htend.mine hr fun d r f final hj =>
      hroom d r f final (hj ▸ rfl)
    by_cases hraise : j.raises code = true
    · obtain ⟨k,first,rfl,rfl⟩ : ∃ k first, j = .burst k first ∧ code = [] := by
        unfold Concurrent.Instr.raises at hraise
        split at hraise
        · exact ⟨_,_,rfl,rfl⟩
        · cases hraise
      have hplain : AllPlain core (duties (c ++ [Instr.test due])) := by
        cases htend.mine with
        | plain hp => exact hp.tail.mono hcar.advance.length
      cases hx
      exact h.raised hc rfl hcar hplain rfl rfl rfl rfl rfl rfl
    · simp only [hraise] at hx
      cases hx
      exact h.pumped hc rfl hcar rfl rfl rfl rfl rfl rfl
  | _ => exact hpump.elim

theorem Served.exec {x : Time × Nat} (h : Served s (i :: c) o) (hcancel : ∀ j ∈ duties o, j.Cancels)
    (hclear : s.core.loop.draining = true → Clear s (i :: c))
    (hreg : ∀ n p, i = .register n p → Idle p.requestId s.core.loop ∧ p.requestId ∉ s.core.loop.cancelled ∧
      ∀ j ∈ duties o, ¬ j.Of p.requestId)
    (hroom : ∀ d r f final, i = .eng (.put d r f final) → (s.core.loop.queue d).length < queueSize)
    (hx : exec b .cuda s i c x = some (s',c')) : Served s' c' o ∧ Still s (i :: c) s' c' := by
  have hsame : ∀ d, Over s.core d → Over s.core d := fun _ ho => ho
  have hcode := h.code
  generalize hall : i :: c = all at h hclear hcode ⊢
  cases hcode with
  | get =>
    obtain ⟨rfl,rfl⟩ := List.cons.inj hall
    simp only [Drain.exec] at hx
    split at hx
    · cases hx
    · rename_i n p jobs hj
      cases hx
      refine ⟨⟨.broadcast n p (h.jobs (n,p) (by rw [hj]; simp)),h.tended,fun j hm => h.jobs j ?_,fun k hk => ?_,
        fun k hk => .inr ((h.told k hk).resolve_left (by simp [Instr.Submits])),h.failed⟩,
        .of rfl rfl rfl rfl (List.Subset.refl _) hsame (fun hc => ?_) fun hq => ?_⟩
      · rw [hj]
        exact List.mem_cons_of_mem _ hm
      · rcases h.tickets k hk with hm | hm | hm
        · rw [hj] at hm
          exact (List.mem_cons.mp hm).elim (fun hk => .inr (.inl (by simp [Instr.early,hk]))) .inl
        · cases hm
        · exact .inr (.inr hm)
      · exact absurd (hj.symm.trans hc.1) (by simp)
      · exact absurd (hj.symm.trans hq.1.1) (by simp)
  | broadcast n p hp =>
    obtain ⟨rfl,rfl⟩ := List.cons.inj hall
    cases hx
    have hun : ¬ Clear s [.broadcast n p] := fun hc => hc.2 _ List.mem_cons_self trivial
    refine ⟨⟨.check n p hp,h.tended,h.jobs,h.tickets,fun k hk => ?_,h.failed⟩,
      .of rfl rfl rfl rfl (List.Subset.refl _) hsame (fun hc => absurd hc hun) fun hq => absurd hq.1 hun⟩
    rcases List.mem_append.mp hk with hk | hk
    · exact .inr ((h.told k hk).resolve_left (by simp [Instr.Submits]))
    · exact .inl ⟨_,List.mem_cons_self,(List.mem_singleton.mp hk).symm⟩
  | check n p hp =>
    obtain ⟨rfl,rfl⟩ := List.cons.inj hall
    have hun : ¬ Clear s [.check n p] := fun hc => hc.2 _ List.mem_cons_self trivial
    have hd : s.core.loop.draining = false := by
      rw [← Bool.not_eq_true]
      exact fun hd => hun (hclear hd)
    have hacc : s.core.loop.refuses p = false := by simpa [EngineLoop.refuses,hd,Passes] using hp
    simp only [Drain.exec,hacc,Bool.false_eq_true,if_false] at hx
    cases hx
    have hone : AllPlain s.core (duties [.eng .acquire,.register n p]) := List.forall_mem_singleton.mpr trivial
    refine ⟨h.next (h.tended.enter hone) (.acquire n p) rfl rfl rfl rfl rfl
      rfl fun k hk => hk.imp_left ?_,
      .of rfl rfl rfl rfl (List.Subset.refl _) hsame (fun hc => absurd hc hun) fun hq => absurd hq.1 hun⟩
    simp [Instr.Submits]
  | acquire n p =>
    obtain ⟨rfl,rfl⟩ := List.cons.inj hall
    simp only [Drain.exec] at hx
    obtain ⟨⟨core,code⟩,hr,hx⟩ := Option.map_eq_some_iff.mp hx
    have hcar := Concurrent.exec_carries x.1 h.tended.steady h.tended.mine hr (by simp)
    obtain rfl : code = [] := by
      simp only [Concurrent.exec] at hr
      split_ifs at hr
      cases hr
      rfl
    cases hx
    refine ⟨h.next (h.tended.carry hcar) (.register n p) rfl rfl rfl rfl rfl rfl fun k hk => hk.imp_left ?_,
      .carried rfl hcar rfl rfl rfl rfl (List.Subset.refl _) fun k hk => .inl hk⟩
    simp [Instr.Submits,Concurrent.Instr.raises]
  | register n p =>
    obtain ⟨rfl,rfl⟩ := List.cons.inj hall
    obtain ⟨hidle,hn,hof⟩ := hreg n p rfl
    cases hx
    have hin : ¬ Quiet s [.register n p] := fun hq => hq.2.2 _ List.mem_cons_self trivial
    refine ⟨h.register x.1 hidle hn hcancel hof,.of rfl rfl rfl rfl (List.Subset.refl _) hsame
      (fun hc => ⟨hc.1,?_⟩) fun hq => absurd hq hin⟩
    simp [Instr.Unchecked]
  | release n p d =>
    obtain ⟨rfl,rfl⟩ := List.cons.inj hall
    have hcar := Concurrent.exec_carries (b := b) (t := .loop) x.1 h.tended.steady h.tended.mine rfl
      (by simp)
    cases hx
    refine ⟨h.next (h.tended.carry hcar) (.put n p d) rfl rfl rfl rfl rfl rfl fun k hk => hk.imp_left ?_,
      .carried rfl hcar rfl rfl rfl rfl (List.Subset.refl _) fun k hk => .inl hk⟩
    simp [Instr.Submits,Concurrent.Instr.raises]
  | put n p d =>
    obtain ⟨rfl,rfl⟩ := List.cons.inj hall
    have hcar := Carries.enqueued (p := p) (c := []) h.tended.steady (List.forall_mem_nil _)
    cases hx
    refine ⟨h.next ((h.tended.carry hcar).enter ?_) (.pump [.eng .admitNext] _ ?_) rfl rfl rfl rfl rfl ?_
      fun k hk => ?_,
      .carried rfl hcar rfl rfl rfl rfl (List.subset_append_left _ _) ?_⟩
    · simp [AllPlain,duties,Instr.engine,Concurrent.Instr.Plain]
    · simp [Instr.Pumps]
    · simp [taken,Instr.made]
    · refine .inr ?_
      rcases hk with ⟨i,hi,hk⟩ | hk
      · rw [List.mem_singleton.mp hi] at hk
        simp [← show n = k from hk]
      · rw [List.map_append]
        exact List.mem_append_left _ hk
    · simp [Instr.Unchecked,Instr.InHand,Concurrent.Instr.Brings]
  | pump c₀ due hc =>
    cases c₀ with
    | nil =>
      obtain ⟨rfl,rfl⟩ := List.cons.inj hall
      exact h.exec_test hx
    | cons i₀ c₁ =>
      obtain ⟨rfl,rfl⟩ := List.cons.inj hall
      exact h.exec_pump hc hroom hx

theorem Truthful.cuda_step (h : Truthful m) (hs : Served s' c' (m.code .http))
    (hst : Still m.shared (m.code .cuda) s' c') :
    Truthful { shared := s', code := Function.update m.code .cuda c' } := by
  have hcuda : Function.update m.code Tid.cuda c' .cuda = c' := Function.update_self ..
  have hhttp : Function.update m.code Tid.cuda c' .http = m.code .http := Function.update_of_ne (by simp) ..
  refine ⟨?_,fun k i hi => ?_,?_,?_,fun hr => ?_⟩
  · simpa [hcuda,hhttp] using hs
  · have hpool : Function.update m.code Tid.cuda c' (.pool k) = m.code (.pool k) :=
      Function.update_of_ne (by simp) ..
    exact h.pool k i (hpool ▸ hi)
  · simpa [hcuda] using fun hd => hst.clear (h.clear (hst.draining ▸ hd))
  · simpa [hcuda,hhttp] using h.reads.still hst
  · obtain ⟨hd,ha⟩ := h.reported (hst.reported ▸ hr)
    exact ⟨hst.draining.trans hd,fun n hn => hst.answered n (ha n (hst.count ▸ hn))⟩

theorem Truthful.cuda_tick {x : Time × Nat} (h : Truthful m) (hg : Orderly m (.tick .cuda x))
    (hs : step b m (.tick .cuda x) = some m') : Truthful m' := by
  obtain ⟨i,rest,s',code,hcode,hx,rfl⟩ := Threads.step_tick hs
  have hserved := h.served
  have hclear := h.clear
  simp only [Orderly,hcode] at hg
  rw [hcode] at hserved hclear
  obtain ⟨hnext,hstill⟩ := hserved.exec h.reads.cancels hclear (fun n p hi => by subst hi; exact hg)
    (fun d r f final hi => by subst hi; exact hg) hx
  exact h.cuda_step hnext (by rw [hcode]; exact hstill)

end Cuda

section Http

theorem Truthful.http_step (h : Truthful m) (hs : Served s' (m.code .cuda) c')
    (hclear : s'.core.loop.draining = true → Clear s' (m.code .cuda)) (hreads : HttpCode s' (m.code .cuda) c')
    (hrep : s'.reported = true → s'.core.loop.draining = true ∧ ∀ n < s'.count, Answered s' n) :
    Truthful { shared := s', code := Function.update m.code .http c' } := by
  have hcuda : Function.update m.code Tid.http c' .cuda = m.code .cuda := Function.update_of_ne (by simp) ..
  have hhttp : Function.update m.code Tid.http c' .http = c' := Function.update_self ..
  refine ⟨?_,fun k i hi => ?_,?_,?_,hrep⟩
  · simpa [hcuda,hhttp] using hs
  · have hpool : Function.update m.code Tid.http c' (.pool k) = m.code (.pool k) :=
      Function.update_of_ne (by simp) ..
    exact h.pool k i (hpool ▸ hi)
  · simpa [hcuda] using hclear
  · simpa [hcuda,hhttp] using hreads

/-- The validators and the handler check all that `submit` does, but for `top_k`. -/
theorem passes_pendingOf {r : GenerationRequest} {inputIds : List Token} {timeout : Time}
    (hv : r.errors = []) (hi : inputIds ≠ []) (hk : ∀ k, r.topK = some k → 0 ≤ k) :
    Passes (pendingOf r.requestId inputIds (paramsFromReq r) timeout) := by
  have hs : ({ runner := () } : EngineLoop Unit).submit 0
      (pendingOf r.requestId inputIds (paramsFromReq r) timeout) ≠ none :=
    (Worker.submit_valid 0 timeout rfl hv hi).mpr hk
  intro hc
  exact hs (by simp only [EngineLoop.submit,if_pos hc]; rfl)

theorem Served.accept {p : Pending} (h : Served s c o) (hp : Passes p) :
    Served { s with jobs := s.jobs ++ [(s.count,p)], count := s.count+1 } c o := by
  refine ⟨h.code,h.tended,fun j hj => ?_,fun n hn => ?_,h.told,h.failed⟩
  · rcases List.mem_append.mp hj with hj | hj
    · exact h.jobs j hj
    · rw [List.mem_singleton.mp hj]
      exact hp
  · rcases Nat.lt_or_eq_of_le (Nat.le_of_lt_succ hn) with hlt | rfl
    · refine (h.tickets n hlt).imp_left fun hj => ?_
      rw [List.map_append]
      exact List.mem_append_left _ hj
    · exact .inl (by simp)

theorem Served.turn (h : Served s c o) (ho : duties c' = duties o) : Served s c c' :=
  ⟨h.code,ho ▸ h.tended,h.jobs,h.tickets,h.told,h.failed⟩

theorem Served.engine (h : Served s c o) (ht : Tended s'.core (Queued s c) (duties c) (duties c'))
    (h1 : s'.jobs = s.jobs) (h2 : s'.count = s.count) (h3 : s'.broadcasts = s.broadcasts)
    (h4 : s'.failed = s.failed) (h5 : s'.submitted = s.submitted) : Served s' c c' := by
  have hm : taken s' c = taken s c := by
    unfold taken
    rw [h5]
  have hq : Queued s' c = Queued s c := by
    unfold Queued
    rw [hm]
  refine ⟨h.code,hq ▸ ht,fun j hj => h.jobs j (h1 ▸ hj),fun n hn => ?_,fun n hn => ?_,h4.trans h.failed⟩
  · rw [h1,hm]
    exact h.tickets n (h2 ▸ hn)
  · rw [h5]
    exact h.told n (h3 ▸ hn)

theorem look_eq_zero {l : List SeqId} {seen : Nat} (hin : l ≠ [] → s.look l seen ≠ 0)
    (h : s.look l seen = 0) : l = [] := by
  by_contra hl
  exact hin hl h

theorem Answered.mono {n : Nat} (h : Answered s n) (h1 : s.failed = s'.failed) (h2 : s.submitted = s'.submitted)
    (ho : ∀ d, Over s.core d → Over s'.core d) : Answered s' n :=
  h.imp (fun hf => h1 ▸ hf) fun ⟨p,d,hm,hd⟩ => ⟨p,d,h2 ▸ hm,ho d hd⟩

theorem Served.answered (h : Served s c o) (ho : duties o = []) (hq : Quiet s c)
    (hw : s.core.loop.sched.waiting = []) (hr : s.core.loop.sched.running = [])
    (hl : ∀ i ∈ duties c, ¬ i.Last) (n : Nat) (hn : n < s.count) : Answered s n := by
  have htend := h.tended
  rw [ho] at htend
  have hbrings : ∀ i ∈ duties c, ¬ i.Brings := by
    intro j hj
    obtain ⟨i,hi,he⟩ := List.mem_filterMap.mp hj
    exact engine_brings he (hq.2.2 i hi)
  obtain ⟨k,p,d,hmem,rfl⟩ : ∃ k p d, (k,p,d) ∈ s.submitted ∧ k = n := by
    have hin : ∀ i ∈ c, i.early = none ∧ i.made = none := by
      intro i hi
      have h1 := hq.1.2 i hi
      have h2 := hq.2.2 i hi
      cases i <;> first | exact ⟨rfl,rfl⟩ | exact absurd trivial h1 | exact absurd trivial h2
    have he : c.filterMap Instr.early = [] := List.filterMap_eq_nil_iff.mpr fun i hi => (hin i hi).1
    have hm : c.filterMap Instr.made = [] := List.filterMap_eq_nil_iff.mpr fun i hi => (hin i hi).2
    rcases h.tickets n hn with hj | hj | hj
    · rw [hq.1.1] at hj
      cases hj
    · rw [he] at hj
      cases hj
    · rw [taken,hm,List.append_nil] at hj
      obtain ⟨⟨k,p,d⟩,ha,hk⟩ := List.mem_map.mp hj
      exact ⟨k,p,d,ha,hk⟩
  exact .inr ⟨p,d,hmem,htend.over hq.2.1 hw hr hbrings hl ⟨k,p,List.mem_append_left _ hmem,rfl⟩⟩

theorem Truthful.http_tick {x : Time × Nat} (h : Truthful m) (hg : Orderly m (.tick .http x))
    (hs : step b m (.tick .http x) = some m') : Truthful m' := by
  obtain ⟨i,rest,s',code,hcode,hx,rfl⟩ := Threads.step_tick hs
  have hx' : exec b .http m.shared i rest x = some (s',code) := hx
  have hserved := h.served
  have hshape := h.reads
  simp only [Orderly,hcode] at hg
  rw [hcode] at hserved hshape
  have hnone : HttpCode m.shared (m.code .cuda) [] := .cancel [] (List.forall_mem_nil _)
  generalize hall : i :: rest = all at hserved hshape
  cases hshape with
  | generate r ids timeout =>
    obtain ⟨rfl,rfl⟩ := List.cons.inj hall
    simp only [exec] at hx'
    split at hx'
    · rename_i tok toks
      split_ifs at hx' with hc <;> cases hx'
      · exact h.http_step (hserved.turn rfl) h.clear hnone h.reported
      · obtain ⟨hv,hd⟩ : r.errors = [] ∧ m.shared.core.loop.draining ≠ true := by
          simpa [not_or] using hc
        have hpass : Passes (pendingOf r.requestId (tok :: toks) (paramsFromReq r) timeout) :=
          passes_pendingOf hv (List.cons_ne_nil _ _) hg
        exact h.http_step ((hserved.accept hpass).turn rfl) (fun hd' => absurd hd' hd)
          (.cancel [] (List.forall_mem_nil _)) fun hrep => absurd (h.reported hrep).1 hd
    · cases hx'
      exact h.http_step (hserved.turn rfl) h.clear hnone h.reported
  | drain =>
    obtain ⟨rfl,rfl⟩ := List.cons.inj hall
    cases hx'
    exact h.http_step (hserved.engine hserved.tended.drain rfl rfl rfl rfl rfl) (fun _ => hg) .pending
      fun hrep => ⟨rfl,fun n hn => ((h.reported hrep).2 n hn).mono rfl rfl fun _ ho => ho⟩
  | pending =>
    obtain ⟨rfl,rfl⟩ := List.cons.inj hall
    cases hx'
    refine h.http_step (hserved.turn rfl) h.clear (.waiting _ fun hd hp => ?_) h.reported
    have hq := List.length_eq_zero_iff.mp hp
    exact ⟨h.clear hd,hq,hg hd hq⟩
  | waiting p hquiet =>
    obtain ⟨rfl,rfl⟩ := List.cons.inj hall
    cases hx'
    exact h.http_step (hserved.turn rfl) h.clear
      (.running _ _ fun hd hp hw => ⟨hquiet hd hp,look_eq_zero (hg hd hp) hw⟩) h.reported
  | running p w hquiet =>
    obtain ⟨rfl,rfl⟩ := List.cons.inj hall
    cases hx'
    refine h.http_step (hserved.engine hserved.tended rfl rfl rfl rfl rfl) h.clear
      (.cancel [] (List.forall_mem_nil _)) fun hrep => ?_
    simp only [Bool.or_eq_true,Bool.and_eq_true,decide_eq_true_eq] at hrep
    rcases hrep with hrep | ⟨⟨hp,hw,hr⟩,hd⟩
    · obtain ⟨hd,ha⟩ := h.reported hrep
      exact ⟨hd,fun n hn => (ha n hn).mono rfl rfl fun _ ho => ho⟩
    · obtain ⟨hq,hwait⟩ := hquiet hd hp hw
      obtain ⟨hlook,hlast⟩ := hg hd hp hw
      have hrun := look_eq_zero hlook hr
      have hans := hserved.answered rfl hq hwait hrun (hlast hrun)
      exact ⟨hd,fun n hn => (hans n hn).mono rfl rfl fun _ ho => ho⟩
  | cancel l hl =>
    cases l with
    | nil => cases hall
    | cons j l =>
      obtain ⟨rfl,rfl⟩ := List.cons.inj hall
      simp only [exec] at hx'
      obtain ⟨⟨core,code⟩,hr,hx'⟩ := Option.map_eq_some_iff.mp hx'
      have htend := hserved.tended.swap
      rw [duties_eng] at htend
      have hcar := Concurrent.exec_carries x.1 htend.steady htend.mine hr fun d r f final hj => by subst hj; exact hg
      have hj := hl j List.mem_cons_self
      have hraise : j.raises code = false := by
        cases j <;> first | rfl | exact hj.elim
      have hcode' := Concurrent.exec_cancels hr hj
      simp only [hraise,Bool.false_eq_true,if_false,lift_http,← List.map_append] at hx'
      cases hx'
      refine h.http_step (hserved.engine ?_ rfl rfl rfl rfl rfl) (fun hd => h.clear (hcar.advance.draining ▸ hd))
        (.cancel _ fun k hk => (List.mem_append.mp hk).elim (hcode' k) fun hk => hl k (List.mem_cons_of_mem _ hk))
        fun hrep => ?_
      · rw [duties_eng]
        exact (htend.carry hcar).swap
      · obtain ⟨hd,ha⟩ := h.reported hrep
        exact ⟨hcar.advance.draining.trans hd,fun n hn => (ha n hn).mono rfl rfl hcar.advance.got⟩

theorem Truthful.pooled {k : Nat} (h : Truthful { m with shared := s' })
    (hc : ∀ i ∈ c', ∃ d, i = .eng (.read d)) :
    Truthful { shared := s', code := Function.update m.code (.pool k) c' } := by
  have hcuda : Function.update m.code (Tid.pool k) c' .cuda = m.code .cuda := Function.update_of_ne (by simp) ..
  have hhttp : Function.update m.code (Tid.pool k) c' .http = m.code .http := Function.update_of_ne (by simp) ..
  refine ⟨?_,fun u i hi => ?_,?_,?_,h.reported⟩
  · simpa [hcuda,hhttp] using h.served
  · by_cases hu : u = k
    · subst hu
      exact hc i (by simpa using hi)
    · exact h.pool u i (by simpa [hu] using hi)
  · simpa [hcuda] using h.clear
  · simpa [hcuda,hhttp] using h.reads

theorem Truthful.aside {j : Concurrent.Instr} (h : Truthful m) (hcar : Carries m.shared.core j [] s'.core [])
    (hj : ¬ j.Brings) (h1 : s'.jobs = m.shared.jobs) (h2 : s'.count = m.shared.count)
    (h3 : s'.broadcasts = m.shared.broadcasts) (h4 : s'.failed = m.shared.failed)
    (h5 : s'.submitted = m.shared.submitted) (h6 : s'.reported = m.shared.reported) :
    Truthful { m with shared := s' } := by
  have hclear : Clear m.shared (m.code .cuda) → Clear s' (m.code .cuda) := fun hcl => ⟨h1.trans hcl.1,hcl.2⟩
  have hstill : Still m.shared (m.code .cuda) s' (m.code .cuda) := by
    refine .of hcar.advance.draining h6 h2 h4 (by rw [h5]; exact List.Subset.refl _) hcar.advance.got hclear
      fun hq => ?_
    obtain ⟨hsub,hwait⟩ := hcar.empty hq.2.1 hj
    exact ⟨⟨hclear hq.1,hsub,hq.2.2⟩,hwait⟩
  refine ⟨h.served.engine (h.served.tended.aside hcar) h1 h2 h3 h4 h5,h.pool,
    fun hd => hclear (h.clear (hstill.draining ▸ hd)),h.reads.still hstill,fun hrep => ?_⟩
  obtain ⟨hd,ha⟩ := h.reported (h6 ▸ hrep)
  exact ⟨hstill.draining.trans hd,fun n hn => hstill.answered n (ha n (h2 ▸ hn))⟩

theorem Truthful.pool_tick {k : Nat} {x : Time × Nat} (h : Truthful m)
    (hs : step b m (.tick (.pool k) x) = some m') : Truthful m' := by
  obtain ⟨i,rest,s',code,hcode,hx,rfl⟩ := Threads.step_tick hs
  obtain ⟨d,rfl⟩ := h.pool k i (by rw [hcode]; exact List.mem_cons_self)
  have hall : AllPlain m.shared.core [.read d] := List.forall_mem_singleton.mpr trivial
  have hcar := Concurrent.exec_carries (b := b) (t := .http (k+1)) x.1 h.served.tended.steady (.plain hall) rfl
    (by simp)
  cases hx
  have hread : ¬ (Concurrent.Instr.read d).Brings := id
  refine .pooled (h.aside hcar hread rfl rfl rfl rfl rfl rfl) fun i hi => ?_
  exact h.pool k i (by rw [hcode]; exact List.mem_cons_of_mem _ hi)

theorem Truthful.call {e : Call} (h : Truthful m) (hs : step b m (.call e) = some m') : Truthful m' := by
  obtain ⟨hidle,rfl⟩ := Threads.step_call hs
  have hidle' : m.code e.caller = [] := hidle
  have hserved := h.served
  cases e with
  | read k d => exact Truthful.pooled h (List.forall_mem_singleton.mpr ⟨d,rfl⟩)
  | cancel r =>
    change m.code .http = [] at hidle'
    rw [hidle'] at hserved
    have hall : AllPlain m.shared.core [.acquire,.noteCancel r] := by
      intro i hi
      fin_cases hi <;> trivial
    exact h.http_step (hserved.engine (hserved.tended.swap.enter hall).swap rfl rfl rfl rfl rfl) h.clear
      (.cancel [.acquire,.noteCancel r] fun i hi => by fin_cases hi <;> trivial) h.reported
  | generate r ids timeout =>
    change m.code .http = [] at hidle'
    rw [hidle'] at hserved
    exact h.http_step (hserved.turn rfl) h.clear (.generate r ids timeout) h.reported
  | drain =>
    change m.code .http = [] at hidle'
    rw [hidle'] at hserved
    exact h.http_step (hserved.turn rfl) h.clear .drain h.reported
  | drainStatus =>
    change m.code .http = [] at hidle'
    rw [hidle'] at hserved
    exact h.http_step (hserved.turn rfl) h.clear .pending h.reported

end Http

theorem truthful_init (r₀ : R) : Truthful (init r₀) := by
  have hcuda : (init r₀).code .cuda = [.get] := rfl
  have hhttp : (init r₀).code .http = [] := rfl
  have hnil : ∀ s : Concurrent.Shared R, AllPlain s [] := fun _ => .nil
  refine ⟨?_,by simp [init],by simp [init],?_,by simp [init]⟩
  · rw [hcuda,hhttp]
    have htend : Tended (init r₀).shared.core (Queued (init r₀).shared [.get]) [] [] :=
      ⟨steady_init r₀,.plain (hnil _),.plain (hnil _),by simp [Queued,taken,init,Instr.made]⟩
    exact ⟨.get,htend,by simp [init],by simp [init],by simp [init],rfl⟩
  · rw [hhttp]
    exact .cancel [] (by simp)

/-- When `drain_status` reports idle, every job has its answer; and what is
broadcast is submitted. -/
theorem drain_truthful (b : Backend R) (r₀ : R) (es : List Event) (m : Machine R)
    (hg : Transition.Guarded (step b) Orderly (init r₀) es)
    (h : Transition.exec (step b) (init r₀) es = some m) :
    (m.shared.reported = true → ∀ n < m.shared.count, Answered m.shared n) ∧
    ∀ n ∈ m.shared.broadcasts, n ∉ m.shared.failed ∧
      (Submitting n (m.code .cuda) ∨ ∃ p d, (n,p,d) ∈ m.shared.submitted) := by
  have ht : Truthful m := by
    refine Transition.exec_invariant (fun m e m' hm he hs => ?_) (truthful_init r₀) hg h
    cases e with
    | call c => exact hm.call hs
    | tick t x =>
      cases t with
      | http => exact hm.http_tick he hs
      | cuda => exact hm.cuda_tick he hs
      | pool k => exact hm.pool_tick hs
  refine ⟨fun hrep => (ht.reported hrep).2,fun n hn => ⟨by simp [ht.served.failed],?_⟩⟩
  refine (ht.served.told n hn).imp_right fun hmem => ?_
  obtain ⟨⟨k,p,d⟩,ha,rfl⟩ := List.mem_map.mp hmem
  exact ⟨p,d,ha⟩

def waitsForJob : List Instr → Bool
  | [.get] => true
  | _ => false

/-- Evaluates `Orderly` for handlers that read while the CUDA thread waits, and
cancels outside of its changes. -/
def orderly (m : Machine R) : Event → Bool
  | .call _ => true
  | .tick t _ =>
      let l := m.shared.core.loop
      match m.code t with
      | .generate r _ _ :: _ => !r.topK.any (· < 0)
      | .beginDrain :: _ => m.shared.jobs.isEmpty && waitsForJob (m.code .cuda)
      | .readPending :: _ => waitsForJob (m.code .cuda)
      | .readWaiting _ :: _ => !m.shared.inside
      | .readRunning _ _ :: _ => !m.shared.inside && waitsForJob (m.code .cuda)
      | .register _ p :: _ =>
          decide (p.requestId ∉ l.submitQ.map Pending.requestId) &&
          (l.sched.waiting ++ l.sched.running).all (fun i => decide ((l.seq i).requestId ≠ p.requestId)) &&
          decide (p.requestId ∉ l.cancelled) && (m.code .http).isEmpty
      | .eng (.put d _ _ _) :: _ => decide ((l.queue d).length < queueSize)
      | .eng (.cancelRest _ _) :: _ => !m.shared.inside
      | _ => true

theorem waitsForJob_code (h : waitsForJob c = true) : c = [.get] := by
  unfold waitsForJob at h
  split at h
  · rfl
  · cases h

theorem Orderly.of_test {e : Event} (h : orderly m e = true) : Orderly m e := by
  cases e with
  | call c => trivial
  | tick t x =>
    simp only [orderly] at h
    simp only [Orderly]
    generalize m.code t = code at h ⊢
    split at h
    · intro k hk
      simpa [hk] using h
    · simp only [Bool.and_eq_true,List.isEmpty_iff] at h
      exact ⟨h.1,by simp [waitsForJob_code h.2,Instr.Unchecked]⟩
    · exact fun _ _ => by simp [waitsForJob_code h,Instr.InHand]
    · have hin : m.shared.inside = false := by simpa using h
      exact fun _ _ hw => by simpa [Shared.look,hin] using hw
    · simp only [Bool.and_eq_true,Bool.not_eq_true'] at h
      refine fun _ _ _ => ⟨fun hr => by simpa [Shared.look,h.1] using hr,fun _ => ?_⟩
      simp [waitsForJob_code h.2,duties,Instr.engine]
    · simp only [Bool.and_eq_true,List.all_eq_true,decide_eq_true_eq,List.isEmpty_iff] at h
      exact ⟨⟨h.1.1.1,h.1.1.2⟩,h.1.2,by simp [h.2,duties]⟩
    · simpa using h
    · have hin : m.shared.inside = false := by simpa using h
      simp [hin]
    · trivial

def wants (r : RequestId) (n : Nat) : Call := .generate { requestId := r, maxTokens := n } (some [1]) 300

/-- A request is served to its end and its client reads the frame, the client of a
second one leaves after its first token, and then the drain begins. -/
def servedThenDrained : List Event :=
  List.flatten [
    [.call (wants "a" 1),.tick .http (0,0)],
    .replicate 36 (.tick .cuda (1,0)),
    [.call (.read 0 0),.tick (.pool 0) (1,0),.call (wants "b" 3),.tick .http (1,0)],
    .replicate 30 (.tick .cuda (2,0)),
    [.call (.cancel "b")],
    .replicate 10 (.tick .http (2,0)),
    .replicate 2 (.tick .cuda (2,0)),
    [.call .drain],
    .replicate 4 (.tick .http (3,0))]

theorem drain_truthful_served : ∃ m, Transition.exec (step fives) (init ()) servedThenDrained = some m ∧
    m.shared.reported = true ∧ m.shared.count = 2 ∧ m.shared.broadcasts = [0,1] ∧ Answered m.shared 0 ∧
    Answered m.shared 1 := by
  have hrun : ((Transition.exec (step fives) (init ()) servedThenDrained).map fun m =>
        (m.shared.reported,m.shared.count,m.shared.broadcasts)) = some (true,2,[0,1]) ∧
      Transition.checks (step fives) orderly (init ()) servedThenDrained := by
    decide +kernel
  obtain ⟨m,hm,hv⟩ := Option.map_eq_some_iff.mp hrun.1
  simp only [Prod.mk.injEq] at hv
  obtain ⟨hrep,hcount,hcast⟩ := hv
  have hans := (drain_truthful fives () _ m (.of_checks (fun _ _ => Orderly.of_test) hrun.2) hm).1 hrep
  exact ⟨m,hm,hrep,hcount,hcast,hans 0 (by omega),hans 1 (by omega)⟩

/-- The job is put when the CUDA thread is idle, and the drain begins before the
thread takes it. -/
def drainedBeforeTaken : List Event :=
  [.call (wants "a" 1),.tick .http (0,0),.call .drain] ++ List.replicate 4 (.tick .http (1,0))

/-- The engine is reported idle, and then the job is broadcast and rank 0 refuses
it. -/
theorem drain_forgets_job : ∃ m m', Transition.exec (step fives) (init ()) drainedBeforeTaken = some m ∧
    m.shared.reported = true ∧ 0 < m.shared.count ∧ ¬ Answered m.shared 0 ∧
    Transition.exec (step fives) m (List.replicate 3 (.tick .cuda (2,0))) = some m' ∧
    0 ∈ m'.shared.broadcasts ∧ 0 ∈ m'.shared.failed := by
  have hrun : ((Transition.exec (step fives) (init ()) drainedBeforeTaken).map fun m =>
        (m.shared.reported,m.shared.count,m.shared.failed.length,m.shared.submitted.length)) =
          some (true,1,0,0) ∧
      (((Transition.exec (step fives) (init ()) drainedBeforeTaken).bind fun m =>
          Transition.exec (step fives) m (List.replicate 3 (.tick .cuda (2,0)))).map fun m' =>
            (m'.shared.broadcasts,m'.shared.failed)) = some ([0],[0]) := by
    decide +kernel
  obtain ⟨m,hm,hv⟩ := Option.map_eq_some_iff.mp hrun.1
  obtain ⟨m',hm',hv'⟩ := Option.map_eq_some_iff.mp hrun.2
  rw [hm] at hm'
  simp only [Prod.mk.injEq,List.length_eq_zero_iff] at hv hv'
  obtain ⟨hrep,hcount,hfail,hsub⟩ := hv
  refine ⟨m,m',hm,hrep,by omega,?_,hm',by simp [hv'.1],by simp [hv'.2]⟩
  simp [Answered,hfail,hsub]

end Runs

end Drain

end SglangLite.Loop
