import Mathlib.Data.List.ReduceOption
import SglangLite.Loop.Serving
import SglangLite.Loop.Concurrent

set_option autoImplicit false

namespace SglangLite.Loop
open Kv Sched Text

namespace Shutdown
open EngineLoop

variable {R : Type} {b : Backend R}

inductive Tid where
  | loop
  | user (n : Nat)
  deriving DecidableEq, Repr

/-- The parts of `submit`, of `stop` and of an iteration of `_run`, and a client's
`dq.get`. -/
inductive Instr where
  | check (p : Pending)
  | register (p : Pending)
  | put (p : Pending) (d : QueueId)
  | read (d : QueueId)
  | drain
  | halt
  | sentinel
  | test
  | get
  | timeouts
  | work
  deriving DecidableEq, Repr

inductive Call where
  | submit (n : Nat) (p : Pending)
  | read (n : Nat) (d : QueueId)
  | stop (n : Nat)
  deriving DecidableEq, Repr

def Call.caller : Call → Tid
  | .submit n _ => .user n
  | .read n _ => .user n
  | .stop n => .user n

def Call.body : Call → List Instr
  | .submit _ p => [.check p]
  | .read _ d => [.read d]
  | .stop _ => [.drain,.halt,.sentinel]

/-- The engine with `_stopping` and the order of `_submit_q`, in which `none` is
the sentinel of `stop`; `loop.submitQ` lists its requests. The last field
records the requests whose `submit` has returned, with their queues. -/
structure Shared (R : Type) where
  loop : EngineLoop R
  inbox : List (Option Pending) := []
  stopping : Bool := false
  accepted : List (Pending × QueueId) := []

def plain (b : Backend R) : Backend R := { b with burst := 1 }

def exec (b : Backend R) (_ : Tid) (s : Shared R) (i : Instr) (rest : List Instr) (now : Time) :
    Option (Shared R × List Instr) :=
  match i with
  | .check p => some (s,if s.stopping || s.loop.refuses p then rest else .register p :: rest)
  | .register p =>
      some ({ s with loop := s.loop.register now p },.put p s.loop.queues.length :: rest)
  | .put p d =>
      some ({ s with
        loop := { s.loop with submitQ := s.loop.submitQ ++ [p] }
        inbox := s.inbox ++ [some p]
        accepted := s.accepted ++ [(p,d)] },rest)
  | .read d => some ({ s with loop := s.loop.read d },rest)
  | .drain => some ({ s with loop := { s.loop with draining := true } },rest)
  | .halt => some ({ s with stopping := true },rest)
  | .sentinel => some ({ s with inbox := s.inbox ++ [none] },rest)
  | .test =>
      if s.stopping ∧ s.loop.sched.waiting = [] ∧ s.loop.sched.running = [] then some (s,rest)
      else some (s,.get :: rest)
  | .get =>
      match s.inbox with
      | [] => some (s,.timeouts :: rest)
      | none :: inbox => some ({ s with inbox := inbox, stopping := true },.timeouts :: rest)
      | some p :: inbox =>
          some ({ s with
            loop := ({ s.loop with submitQ := s.loop.submitQ.tail } : EngineLoop R).admitOne b p
            inbox := inbox },.get :: rest)
  | .timeouts => some ({ s with loop := s.loop.checkTimeouts b now },.work :: rest)
  | .work =>
      let s' := { s with loop := (s.loop.runStep (plain b)).1 }
      if (s.loop.sched.step b.sched).2 = [] ∧ s.stopping then some (s',rest)
      else some (s',.test :: rest)

def program (b : Backend R) : Threads.Program Tid (Shared R) Instr Time Call where
  caller := Call.caller
  body := Call.body
  exec := exec b

abbrev Machine (R : Type) := Threads.Machine Tid (Shared R) Instr
abbrev Event := Threads.Event Tid Time Call

def step (b : Backend R) : Machine R → Event → Option (Machine R) := Threads.step (program b)

def init (r₀ : R) : Machine R :=
  ⟨{ loop := { runner := r₀ } },fun t => if t = .loop then [.test] else []⟩

variable {m m' : Machine R} {s s' : Shared R}

/-- A `submit` that has passed its checks and has not yet put its request. -/
def Underway : List Instr → Prop
  | .register _ :: _ => True
  | .put _ _ :: _ => True
  | _ => False

def Leaves (b : Backend R) (m : Machine R) : Prop :=
  match m.code .loop with
  | .test :: _ => m.shared.stopping = true ∧ m.shared.loop.sched.waiting = [] ∧
      m.shared.loop.sched.running = []
  | .work :: _ => (m.shared.loop.sched.step b.sched).2 = [] ∧ m.shared.stopping = true
  | _ => False

def Unused (r : RequestId) (m : Machine R) : Prop :=
  Idle r m.shared.loop ∧ ∀ k p d, m.code (.user k) = [.put p d] → p.requestId ≠ r

/-- The loop thread leaves with an empty submit queue and no `submit` underway.
Besides, ids are used by one request at a time, and the open delta queues have
room. -/
def Orderly (b : Backend R) (m : Machine R) : Event → Prop
  | .call _ => True
  | .tick (.user k) _ => ∀ p, m.code (.user k) = [.register p] → Unused p.requestId m
  | .tick .loop _ => Roomy m.shared.loop ∧
      (Leaves b m → m.shared.loop.submitQ = [] ∧ ∀ k, ¬ Underway (m.code (.user k)))

section Requests

def Held (r : RequestId) (d : QueueId) (x : Nat) (l : EngineLoop R) : Prop :=
  ∃ t n, Served r d t n x l

variable {l l' : EngineLoop R} {r : RequestId} {d : QueueId} {x : Nat}

theorem Held.room {P : Prop} (h : Held r d x l) (hroom : Roomy l)
    (hp : ∀ t n, Served r d t n x l → n < queueSize → P) : P := by
  obtain ⟨t,n,h⟩ := h
  rcases h with h | h
  · exact hp t (l.queue d).length (.inl { h with size := Nat.le_refl _ }) (hroom r d h.queue)
  · exact hp t 0 (.inr h) (by simp [queueSize])

structure Onward (l l' : EngineLoop R) : Prop where
  sound : Sound l'
  cancelled : l'.cancelled = l.cancelled
  held : ∀ r d x, Held r d x l → Held r d x l'
  closed : ∀ d, Closed d l → Closed d l'

theorem onward_admitOne {p : Pending} {rest : List Pending} (hs : Sound l) (hroom : Roomy l)
    (hc : l.cancelled = []) (hq : l.submitQ = p :: rest) :
    Onward l (({ l with submitQ := rest } : EngineLoop R).admitOne b p) := by
  have hs₀ : Sound { l with submitQ := rest } := hs.congr rfl rfl rfl
  refine ⟨hs₀.admitOne p,?_,fun r d x h => ?_,fun d h => ?_⟩
  · rcases admitOne_cases b { l with submitQ := rest } p with
      ⟨hm,_⟩ | ⟨_,runner,q,_,_,_,_,_,heq⟩ | ⟨_,runner,e,heq⟩
    · exact absurd (show p.requestId ∈ l.cancelled from hm) (by simp [hc])
    · rw [heq]; rfl
    · rw [heq,(emit_emitted _ _ _ _).cancelled]
  · exact h.room hroom fun t n h hn => ⟨t,n,h.admitOne hs hq hn⟩
  · exact (h.congr rfl rfl : Closed d { l with submitQ := rest }).admitOne p

theorem onward_checkTimeouts (hs : Sound l) (hroom : Roomy l) (now : Time) :
    Onward l (l.checkTimeouts b now) :=
  ⟨hs.checkTimeouts now,(checkTimeouts_flags l now).1,
    fun _ _ _ h => h.room hroom fun t n h hn => ⟨t,n,(h.checkTimeouts hs hn now).1⟩,
    fun _ h => h.checkTimeouts now⟩

theorem onward_runStep (hs : Sound l) (hroom : Roomy l) : Onward l (l.runStep b).1 := by
  refine ⟨hs.runStep,(runStep_flags hs).1,fun r d x h => ?_,fun _ h => h.runStep hs⟩
  refine h.room hroom fun t n h hn => ?_
  obtain ⟨m,hm⟩ := h.runStep (b := b) hs hn
  exact ⟨t,m,hm⟩

theorem registered_register (now : Time) (p : Pending) (l : EngineLoop R) :
    Registered l now p (l.register now p) := ⟨rfl,rfl,rfl,rfl,rfl,rfl,rfl⟩

theorem held_register {now : Time} {p : Pending} (hs : Sound l) (hc : l.cancelled = [])
    (hi : Idle p.requestId l) : Held p.requestId l.queues.length 1 (l.register now p) := by
  have ha := registered_register now p l
  refine ⟨now+p.timeout,0,.inl ⟨⟨?_,by rw [ha.history_new hs]; simp,by rw [ha.queue_new]; simp,mem_assign_self _ _ _,
    .inl ⟨?_,fun i hir => ?_⟩⟩,?_⟩⟩
  · exact Function.update_self ..
  · show (l.submitQ.map Pending.requestId).count p.requestId+1 = 1
    rw [List.count_eq_zero.mpr hi.1]
  · rw [ha.seq] at hir ⊢
    by_contra hl
    have hlive : (l.seq i).finished = false := by simpa using hl
    exact hi.2 i ((hs.kept.queued i).mpr hlive) hir
  · show p.requestId ∉ l.cancelled
    simp [hc]

theorem Held.register {now : Time} {p : Pending} (h : Held r d x l) (hs : Sound l)
    (hr : r ≠ p.requestId) : Held r d x (l.register now p) := by
  obtain ⟨t,n,h⟩ := h
  have ha := registered_register now p l
  refine ⟨t,n,?_⟩
  rcases h with h | h
  · exact .inl (h.registered hs ha hr (h.place.congr rfl rfl (fun _ => rfl) fun _ => rfl))
  · exact .inr (h.registered ha)

theorem Held.put {p : Pending} (h : Held p.requestId d 1 l) :
    Held p.requestId d 0 { l with submitQ := l.submitQ ++ [p] } := by
  obtain ⟨t,n,h⟩ := h
  refine ⟨t,n,?_⟩
  rcases h with h | h
  · refine .inl (h.congr rfl rfl rfl rfl ?_)
    rcases h.place with ⟨hc,hfin⟩ | ⟨_,hx,_⟩
    · refine .inl ⟨?_,hfin⟩
      show ((l.submitQ ++ [p]).map Pending.requestId).count p.requestId+0 = 1
      simp only [List.map_append,List.map_cons,List.map_nil,List.count_append,List.count_singleton_self]
      omega
    · exact absurd hx (by simp)
  · exact .inr (h.congr rfl rfl)

theorem Held.put_other {p : Pending} (h : Held r d x l) (hr : r ≠ p.requestId) :
    Held r d x { l with submitQ := l.submitQ ++ [p] } := by
  obtain ⟨t,n,h⟩ := h
  refine ⟨t,n,?_⟩
  rcases h with h | h
  · exact .inl (h.congr rfl rfl rfl rfl (h.place.append_other rfl rfl hr))
  · exact .inr (h.congr rfl rfl)

theorem Held.drain (h : Held r d x l) : Held r d x { l with draining := true } := by
  obtain ⟨t,n,h⟩ := h
  refine ⟨t,n,?_⟩
  rcases h with h | h
  · exact .inl (h.congr rfl rfl rfl rfl (h.place.congr rfl rfl (fun _ => rfl) fun _ => rfl))
  · exact .inr (h.congr rfl rfl)

theorem onward_read (hs : Sound l) (d : QueueId) : Onward l (l.read d) :=
  ⟨hs.read d,rfl,fun _ _ _ ⟨t,n,h⟩ => ⟨t,n,h.read d⟩,fun _ h => h.read d⟩

theorem Held.closed (h : Held r d 0 l) (hs : Sound l) (hi : Idle r l) : Closed d l := by
  obtain ⟨t,n,h⟩ := h
  exact h.closed hs hi

end Requests

section Runs

def UserCode : List Instr → Prop
  | [] => True
  | [.check _] => True
  | [.register _] => True
  | [.put _ _] => True
  | [.read _] => True
  | [.drain,.halt,.sentinel] => True
  | [.halt,.sentinel] => True
  | [.sentinel] => True
  | _ => False

def LoopCode (c : List Instr) : Prop :=
  c = [] ∨ c = [.test] ∨ c = [.get] ∨ c = [.timeouts] ∨ c = [.work]

def Settled (s : Shared R) (m : Machine R) : Prop :=
  s.stopping = true ∧ (∀ k, ¬ Underway (m.code (.user k))) ∧ ∀ a ∈ s.accepted, Closed a.2 s.loop

/-- Every request that `submit` has taken is served or has got its frames; a
request on its way shares its id with none that is served. -/
structure Shut (m : Machine R) : Prop where
  sound : Sound m.shared.loop
  calm : m.shared.loop.cancelled = []
  sync : m.shared.loop.submitQ = m.shared.inbox.reduceOption
  users : ∀ k, UserCode (m.code (.user k))
  looping : LoopCode (m.code .loop)
  taken : ∀ a ∈ m.shared.accepted, Held a.1.requestId a.2 0 m.shared.loop
  flying : ∀ k p d, m.code (.user k) = [.put p d] → Held p.requestId d 1 m.shared.loop
  others : ∀ k p d, m.code (.user k) = [.put p d] →
    ∀ a ∈ m.shared.accepted, a.1.requestId = p.requestId → Closed a.2 m.shared.loop
  alone : ∀ k p d, m.code (.user k) = [.put p d] →
    ∀ k' p' d', m.code (.user k') = [.put p' d'] → p'.requestId = p.requestId → k' = k
  ended : m.code .loop = [] → Settled m.shared m

theorem step_nonempty {cfg : SchedConfig} {sc : Scheduler} (hk : sc.Kept) (hb : 0 < cfg.maxBatchSize)
    (ht : 0 < cfg.maxTokensPerBatch) (h : (sc.step cfg).2 = []) : sc.waiting = [] ∧ sc.running = [] := by
  have hb' : (Scheduler.takeWaiting cfg sc sc.waiting
      (Scheduler.takeRunning cfg sc sc.running [] cfg.maxTokensPerBatch).1
      (Scheduler.takeRunning cfg sc sc.running [] cfg.maxTokensPerBatch).2).1 = [] := h
  have hfree : ∀ i ∈ sc.waiting ++ sc.running,
      ¬ ((sc.seq i).finished = true ∨ (sc.seq i).cancelled = true) := by
    intro i hi
    obtain ⟨h1,h2⟩ := hk.runnable hi
    simp [h1,h2]
  have hrun : sc.running = [] := by
    cases hr : sc.running with
    | nil => rfl
    | cons i rest =>
      have hi := hfree i (by simp [hr])
      obtain ⟨ws,hw,_⟩ := Scheduler.takeWaiting_spec cfg sc sc.waiting
        (Scheduler.takeRunning cfg sc sc.running [] cfg.maxTokensPerBatch).1
        (Scheduler.takeRunning cfg sc sc.running [] cfg.maxTokensPerBatch).2
      rw [hb',hr] at hw
      have hnot : ¬ (cfg.maxBatchSize ≤ ([] : List (SeqId × Bool)).length ∨ cfg.maxTokensPerBatch = 0) := by
        simp only [List.length_nil]
        omega
      obtain ⟨rs,hrs,_⟩ := Scheduler.takeRunning_spec cfg sc rest ([] ++ [(i,false)])
        (cfg.maxTokensPerBatch-1)
      simp only [Scheduler.takeRunning,if_neg hnot,if_neg hi,hrs] at hw
      exact absurd hw (by simp)
  refine ⟨?_,hrun⟩
  cases hw : sc.waiting with
  | nil => rfl
  | cons i rest =>
    have hi := hfree i (by simp [hw])
    rw [hrun,hw] at hb'
    have hlt : ([] : List (SeqId × Bool)).length < cfg.maxBatchSize ∧ 0 < cfg.maxTokensPerBatch := ⟨hb,ht⟩
    rw [show Scheduler.takeRunning cfg sc [] [] cfg.maxTokensPerBatch = ([],cfg.maxTokensPerBatch) from rfl,
      Scheduler.takeWaiting,if_pos hlt,if_neg hi] at hb'
    simp only at hb'
    rw [if_neg (fun hc => hc.2 rfl)] at hb'
    obtain ⟨ws,hws,_⟩ := Scheduler.takeWaiting_spec cfg sc rest
      ([] ++ [(i,decide (0 < Scheduler.remainingPrompt (sc.seq i)))]) (cfg.maxTokensPerBatch-min
        (if 0 < Scheduler.remainingPrompt (sc.seq i) then
          max 1 (Scheduler.remainingPrompt (sc.seq i)) else 1) cfg.maxTokensPerBatch)
    rw [hws] at hb'
    exact absurd hb' (by simp)

theorem Shut.iterate {s' : Shared R} {c : List Instr} (h : Shut m)
    (ho : Onward m.shared.loop s'.loop) (hacc : s'.accepted = m.shared.accepted)
    (hsync : s'.loop.submitQ = s'.inbox.reduceOption) (hc : LoopCode c)
    (hover : c = [] → Settled s' m) :
    Shut { shared := s', code := Function.update m.code .loop c } := by
  have huser : ∀ k, ({ shared := s', code := Function.update m.code .loop c } : Machine R).code (.user k) =
      m.code (.user k) := by
    intro k
    show Function.update m.code Tid.loop c (.user k) = _
    rw [Function.update_of_ne (by simp)]
  refine ⟨ho.sound,ho.cancelled.trans h.calm,hsync,fun k => ?_,?_,fun a ha => ?_,fun k p d hp => ?_,
    fun k p d hp a ha hid => ?_,fun k p d hp k' p' d' hp' => ?_,fun hl => ?_⟩
  · rw [huser]; exact h.users k
  · simpa using hc
  · rw [hacc] at ha
    exact ho.held _ _ _ (h.taken a ha)
  · rw [huser] at hp
    exact ho.held _ _ _ (h.flying k p d hp)
  · rw [huser] at hp
    rw [hacc] at ha
    exact ho.closed _ (h.others k p d hp a ha hid)
  · rw [huser] at hp hp'
    exact h.alone k p d hp k' p' d' hp'
  · obtain ⟨h1,h2,h3⟩ := hover (by simpa using hl)
    exact ⟨h1,fun k => by rw [huser]; exact h2 k,h3⟩

theorem Shut.settled (h : Shut m) (hw : m.shared.loop.sched.waiting = [])
    (hr : m.shared.loop.sched.running = []) (hq : m.shared.loop.submitQ = []) :
    ∀ a ∈ m.shared.accepted, Closed a.2 m.shared.loop := by
  intro a ha
  refine (h.taken a ha).closed h.sound ⟨?_,?_⟩
  · simp [hq]
  · simp [hw,hr]

theorem onward_refl {l : EngineLoop R} (h : Sound l) : Onward l l :=
  ⟨h,rfl,fun _ _ _ h => h,fun _ h => h⟩

theorem Shut.loop_tick {now : Time} (hb : 0 < b.sched.maxBatchSize) (ht : 0 < b.sched.maxTokensPerBatch)
    (h : Shut m) (hg : Orderly b m (.tick .loop now)) (hs : step b m (.tick .loop now) = some m') :
    Shut m' := by
  obtain ⟨i,rest,s',code,hcode,hx,rfl⟩ := Threads.step_tick hs
  have hx' : exec b .loop m.shared i rest now = some (s',code) := hx
  obtain ⟨hroom,hleave⟩ := hg
  unfold Leaves at hleave
  rw [hcode] at hleave
  have hlook := h.looping
  rw [hcode] at hlook
  rcases hlook with hl | hl | hl | hl | hl
  · exact absurd hl (by simp)
  · obtain ⟨rfl,rfl⟩ := List.cons.inj hl
    simp only [exec] at hx'
    split_ifs at hx' with hstop
    · obtain ⟨rfl,rfl⟩ := Prod.mk.inj (Option.some.inj hx')
      obtain ⟨hq,hway⟩ := hleave hstop
      exact h.iterate (onward_refl h.sound) rfl h.sync (.inl rfl)
        fun _ => ⟨hstop.1,hway,h.settled hstop.2.1 hstop.2.2 hq⟩
    · obtain ⟨rfl,rfl⟩ := Prod.mk.inj (Option.some.inj hx')
      exact h.iterate (onward_refl h.sound) rfl h.sync (by simp [LoopCode]) (by simp)
  · obtain ⟨rfl,rfl⟩ := List.cons.inj hl
    have hsync := h.sync
    simp only [exec] at hx'
    split at hx'
    · obtain ⟨rfl,rfl⟩ := Prod.mk.inj (Option.some.inj hx')
      exact h.iterate (onward_refl h.sound) rfl h.sync (by simp [LoopCode]) (by simp)
    · rename_i inbox hin
      obtain ⟨rfl,rfl⟩ := Prod.mk.inj (Option.some.inj hx')
      rw [hin,List.reduceOption_cons_of_none] at hsync
      exact h.iterate (onward_refl h.sound) rfl hsync (by simp [LoopCode]) (by simp)
    · rename_i p inbox hin
      obtain ⟨rfl,rfl⟩ := Prod.mk.inj (Option.some.inj hx')
      rw [hin,List.reduceOption_cons_of_some] at hsync
      rw [hsync,List.tail_cons]
      refine h.iterate (onward_admitOne h.sound hroom h.calm hsync) rfl ?_ (by simp [LoopCode]) (by simp)
      exact admitOne_submitQ b _ p
  · obtain ⟨rfl,rfl⟩ := List.cons.inj hl
    obtain ⟨rfl,rfl⟩ := Prod.mk.inj (Option.some.inj hx')
    refine h.iterate (onward_checkTimeouts h.sound hroom now) rfl ?_ (by simp [LoopCode]) (by simp)
    exact (stays_checkTimeouts m.shared.loop now).submitQ.trans h.sync
  · obtain ⟨rfl,rfl⟩ := List.cons.inj hl
    have ho := onward_runStep (b := plain b) h.sound hroom
    have hq := (stays_runStep (b := plain b) h.sound).submitQ.trans h.sync
    simp only [exec] at hx'
    split_ifs at hx' with hstop
    · obtain ⟨rfl,rfl⟩ := Prod.mk.inj (Option.some.inj hx')
      obtain ⟨hempty,hway⟩ := hleave hstop
      obtain ⟨hw,hr⟩ := step_nonempty h.sound.kept hb ht hstop.1
      refine h.iterate ho rfl hq (.inl rfl) fun _ => ⟨hstop.2,hway,fun a ha => ?_⟩
      exact ho.closed _ (h.settled hw hr hempty a ha)
    · obtain ⟨rfl,rfl⟩ := Prod.mk.inj (Option.some.inj hx')
      exact h.iterate ho rfl hq (by simp [LoopCode]) (by simp)

section Users

variable {k : Nat} {c : List Instr}

theorem code_self (s' : Shared R) :
    ({ shared := s', code := Function.update m.code (.user k) c } : Machine R).code (.user k) = c :=
  Function.update_self ..

theorem code_loop (s' : Shared R) :
    ({ shared := s', code := Function.update m.code (.user k) c } : Machine R).code .loop = m.code .loop := by
  show Function.update m.code (Tid.user k) c .loop = _
  rw [Function.update_of_ne (by simp)]

theorem code_other (s' : Shared R) {k' : Nat} (hk : k' ≠ k) :
    ({ shared := s', code := Function.update m.code (.user k) c } : Machine R).code (.user k') =
      m.code (.user k') := by
  show Function.update m.code (Tid.user k) c (.user k') = _
  rw [Function.update_of_ne (fun hc => hk (Tid.user.inj hc))]

theorem Shut.user_step (h : Shut m) (k : Nat) (ho : Onward m.shared.loop s'.loop)
    (hacc : s'.accepted = m.shared.accepted) (hsync : s'.loop.submitQ = s'.inbox.reduceOption)
    (hstop : m.shared.stopping = true → s'.stopping = true) (hc : UserCode c)
    (hput : ∀ p d, c ≠ [.put p d]) (hway : m.code .loop = [] → ¬ Underway c) :
    Shut { shared := s', code := Function.update m.code (.user k) c } := by
  have hcode : ∀ k' p d,
      ({ shared := s', code := Function.update m.code (.user k) c } : Machine R).code (.user k') = [.put p d] →
      m.code (.user k') = [.put p d] := by
    intro k' p d hp
    by_cases hk : k' = k
    · rw [hk,code_self] at hp
      exact absurd hp (hput p d)
    · rwa [code_other s' hk] at hp
  refine ⟨ho.sound,ho.cancelled.trans h.calm,hsync,fun k' => ?_,by rw [code_loop]; exact h.looping,
    fun a ha => ?_,fun k' p d hp => ?_,fun k' p d hp a ha hid => ?_,fun k₁ p d hp k₂ p' d' hp' => ?_,
    fun hl => ?_⟩
  · by_cases hk : k' = k
    · rw [hk,code_self]; exact hc
    · rw [code_other s' hk]; exact h.users k'
  · rw [hacc] at ha
    exact ho.held _ _ _ (h.taken a ha)
  · exact ho.held _ _ _ (h.flying k' p d (hcode k' p d hp))
  · rw [hacc] at ha
    exact ho.closed _ (h.others k' p d (hcode k' p d hp) a ha hid)
  · exact h.alone k₁ p d (hcode k₁ p d hp) k₂ p' d' (hcode k₂ p' d' hp')
  · rw [code_loop] at hl
    obtain ⟨h1,h2,h3⟩ := h.ended hl
    refine ⟨hstop h1,fun k' => ?_,fun a ha => ho.closed _ (h3 a (hacc ▸ ha))⟩
    by_cases hk : k' = k
    · rw [hk,code_self]; exact hway hl
    · rw [code_other s' hk]; exact h2 k'

theorem Shut.registered {p : Pending} {now : Time} (h : Shut m)
    (hc : m.code (.user k) = [.register p]) (hu : Unused p.requestId m) :
    Shut { shared := { m.shared with loop := m.shared.loop.register now p }
           code := Function.update m.code (.user k) [.put p m.shared.loop.queues.length] } := by
  have ha := registered_register now p m.shared.loop
  have hrun : m.code .loop ≠ [] := fun hl => (h.ended hl).2.1 k (by rw [hc]; trivial)
  -- a request of the same id that was taken before is over
  have hold : ∀ a ∈ m.shared.accepted, a.1.requestId = p.requestId → Closed a.2 m.shared.loop :=
    fun a hmem hid => (h.taken a hmem).closed h.sound (hid ▸ hu.1)
  refine ⟨h.sound.registered ha,h.calm,h.sync,fun k' => ?_,by rw [code_loop]; exact h.looping,
    fun a hmem => ?_,fun k' p' d hp => ?_,fun k' p' d hp a hmem hid => ?_,
    fun k₁ p₁ d₁ hp₁ k₂ p₂ d₂ hp₂ hid => ?_,fun hl => ?_⟩
  · by_cases hk : k' = k
    · rw [hk,code_self]; trivial
    · rw [code_other _ hk]; exact h.users k'
  · by_cases hid : a.1.requestId = p.requestId
    · exact ⟨0,0,.inr ((hold a hmem hid).registered ha)⟩
    · exact (h.taken a hmem).register h.sound hid
  · by_cases hk : k' = k
    · rw [hk,code_self] at hp
      simp only [List.cons.injEq,Instr.put.injEq,and_true] at hp
      obtain ⟨rfl,rfl⟩ := hp
      exact held_register h.sound h.calm hu.1
    · rw [code_other _ hk] at hp
      exact (h.flying k' p' d hp).register h.sound (hu.2 k' p' d hp)
  · refine Closed.registered ?_ ha
    by_cases hk : k' = k
    · rw [hk,code_self] at hp
      simp only [List.cons.injEq,Instr.put.injEq,and_true] at hp
      exact hold a hmem (by rw [hid,hp.1])
    · rw [code_other _ hk] at hp
      exact h.others k' p' d hp a hmem hid
  · by_cases hk₁ : k₁ = k
    · by_cases hk₂ : k₂ = k
      · rw [hk₁,hk₂]
      · rw [hk₁,code_self] at hp₁
        simp only [List.cons.injEq,Instr.put.injEq,and_true] at hp₁
        rw [code_other _ hk₂] at hp₂
        exact absurd (hid.trans (by rw [hp₁.1])) (hu.2 k₂ p₂ d₂ hp₂)
    · rw [code_other _ hk₁] at hp₁
      by_cases hk₂ : k₂ = k
      · rw [hk₂,code_self] at hp₂
        simp only [List.cons.injEq,Instr.put.injEq,and_true] at hp₂
        exact absurd (hid.symm.trans (by rw [hp₂.1])) (hu.2 k₁ p₁ d₁ hp₁)
      · rw [code_other _ hk₂] at hp₂
        exact h.alone k₁ p₁ d₁ hp₁ k₂ p₂ d₂ hp₂ hid
  · rw [code_loop] at hl
    exact absurd hl hrun

theorem Shut.accepts {p : Pending} {d : QueueId} (h : Shut m) (hc : m.code (.user k) = [.put p d]) :
    Shut { shared := { m.shared with
             loop := { m.shared.loop with submitQ := m.shared.loop.submitQ ++ [p] }
             inbox := m.shared.inbox ++ [some p]
             accepted := m.shared.accepted ++ [(p,d)] }
           code := Function.update m.code (.user k) [] } := by
  have hrun : m.code .loop ≠ [] := fun hl => (h.ended hl).2.1 k (by rw [hc]; trivial)
  have hcode : ∀ k' p' d' (s' : Shared R),
      ({ shared := s', code := Function.update m.code (.user k) [] } : Machine R).code (.user k') = [.put p' d'] →
      m.code (.user k') = [.put p' d'] ∧ k' ≠ k := by
    intro k' p' d' s' hp
    by_cases hk : k' = k
    · rw [hk,code_self] at hp
      exact absurd hp (by simp)
    · rw [code_other s' hk] at hp
      exact ⟨hp,hk⟩
  have hclosed : ∀ {e : QueueId}, Closed e m.shared.loop →
      Closed e ({ m.shared.loop with submitQ := m.shared.loop.submitQ ++ [p] } : EngineLoop R) :=
    fun hcl => hcl.congr rfl rfl
  refine ⟨h.sound.congr rfl rfl rfl,h.calm,?_,fun k' => ?_,by rw [code_loop]; exact h.looping,
    fun a hmem => ?_,fun k' p' d' hp => ?_,fun k' p' d' hp a hmem hid => ?_,
    fun k₁ p₁ d₁ hp₁ k₂ p₂ d₂ hp₂ => ?_,fun hl => ?_⟩
  · show m.shared.loop.submitQ ++ [p] = (m.shared.inbox ++ [some p]).reduceOption
    rw [List.reduceOption_append,h.sync]
    rfl
  · by_cases hk : k' = k
    · rw [hk,code_self]; trivial
    · rw [code_other _ hk]; exact h.users k'
  · rcases List.mem_append.mp hmem with hmem | hmem
    · by_cases hid : a.1.requestId = p.requestId
      · exact ⟨0,0,.inr (hclosed (h.others k p d hc a hmem hid))⟩
      · exact (h.taken a hmem).put_other hid
    · rw [List.mem_singleton.mp hmem]
      exact (h.flying k p d hc).put
  · obtain ⟨hp,hk⟩ := hcode k' p' d' _ hp
    refine (h.flying k' p' d' hp).put_other fun hid => hk ?_
    exact h.alone k p d hc k' p' d' hp hid
  · obtain ⟨hp,hk⟩ := hcode k' p' d' _ hp
    rcases List.mem_append.mp hmem with hmem | hmem
    · exact hclosed (h.others k' p' d' hp a hmem hid)
    · rw [List.mem_singleton.mp hmem] at hid
      exact absurd (h.alone k' p' d' hp k p d hc hid) (Ne.symm hk)
  · exact h.alone k₁ p₁ d₁ (hcode k₁ p₁ d₁ _ hp₁).1 k₂ p₂ d₂ (hcode k₂ p₂ d₂ _ hp₂).1
  · rw [code_loop] at hl
    exact absurd hl hrun

theorem Shut.user_tick {now : Time} (h : Shut m) (hg : Orderly b m (.tick (.user k) now))
    (hs : step b m (.tick (.user k) now) = some m') : Shut m' := by
  obtain ⟨i,rest,s',code,hcode,hx,rfl⟩ := Threads.step_tick hs
  have hx' : exec b (.user k) m.shared i rest now = some (s',code) := hx
  have huser := h.users k
  rw [hcode] at huser
  unfold UserCode at huser
  split at huser
  · rename_i heq
    exact absurd heq (by simp)
  · rename_i p heq
    obtain ⟨rfl,rfl⟩ := List.cons.inj heq
    obtain ⟨rfl,rfl⟩ := Prod.mk.inj (Option.some.inj hx')
    refine h.user_step k (onward_refl h.sound) rfl h.sync id ?_ ?_ fun hl => ?_
    · split_ifs <;> trivial
    · intro p' d'
      split_ifs <;> simp
    · rw [(h.ended hl).1]
      simp [Underway]
  · rename_i p heq
    obtain ⟨rfl,rfl⟩ := List.cons.inj heq
    obtain ⟨rfl,rfl⟩ := Prod.mk.inj (Option.some.inj hx')
    exact h.registered hcode (hg p hcode)
  · rename_i p d heq
    obtain ⟨rfl,rfl⟩ := List.cons.inj heq
    obtain ⟨rfl,rfl⟩ := Prod.mk.inj (Option.some.inj hx')
    exact h.accepts hcode
  · rename_i d heq
    obtain ⟨rfl,rfl⟩ := List.cons.inj heq
    obtain ⟨rfl,rfl⟩ := Prod.mk.inj (Option.some.inj hx')
    exact h.user_step k (onward_read h.sound d) rfl h.sync id trivial (by simp) fun _ => by simp [Underway]
  · rename_i heq
    obtain ⟨rfl,rfl⟩ := List.cons.inj heq
    obtain ⟨rfl,rfl⟩ := Prod.mk.inj (Option.some.inj hx')
    refine h.user_step k ⟨h.sound.congr rfl rfl rfl,rfl,fun _ _ _ hh => hh.drain,fun _ hh => hh.congr rfl rfl⟩
      rfl h.sync id trivial (by simp) fun _ => by simp [Underway]
  · rename_i heq
    obtain ⟨rfl,rfl⟩ := List.cons.inj heq
    obtain ⟨rfl,rfl⟩ := Prod.mk.inj (Option.some.inj hx')
    exact h.user_step k (onward_refl h.sound) rfl h.sync (fun _ => rfl) trivial (by simp)
      fun _ => by simp [Underway]
  · rename_i heq
    obtain ⟨rfl,rfl⟩ := List.cons.inj heq
    obtain ⟨rfl,rfl⟩ := Prod.mk.inj (Option.some.inj hx')
    refine h.user_step k (onward_refl h.sound) rfl ?_ id trivial (by simp) fun _ => by simp [Underway]
    show m.shared.loop.submitQ = (m.shared.inbox ++ [none]).reduceOption
    rw [List.reduceOption_append,h.sync]
    simp
  · exact huser.elim

theorem Shut.call {c : Call} (h : Shut m) (hs : step b m (.call c) = some m') : Shut m' := by
  obtain ⟨_,rfl⟩ := Threads.step_call hs
  cases c with
  | submit n p =>
    exact h.user_step n (onward_refl h.sound) rfl h.sync id trivial (by intro p' d'; simp [program,Call.body])
      fun _ => by simp [program,Call.body,Underway]
  | read n d =>
    exact h.user_step n (onward_refl h.sound) rfl h.sync id trivial (by intro p' d'; simp [program,Call.body])
      fun _ => by simp [program,Call.body,Underway]
  | stop n =>
    exact h.user_step n (onward_refl h.sound) rfl h.sync id trivial (by intro p' d'; simp [program,Call.body])
      fun _ => by simp [program,Call.body,Underway]

end Users

theorem shut_init (r₀ : R) : Shut (init r₀) := by
  have hcode : ∀ k, (init r₀).code (.user k) = [] := fun k => by simp [init]
  refine ⟨sound_init r₀,rfl,rfl,fun k => by rw [hcode]; trivial,.inr (.inl rfl),by simp [init],
    fun k p d hp => ?_,fun k p d hp => ?_,fun k p d hp => ?_,by simp [init]⟩
  · rw [hcode] at hp
    exact absurd hp (by simp)
  · rw [hcode] at hp
    exact absurd hp (by simp)
  · rw [hcode] at hp
    exact absurd hp (by simp)

theorem none_lost (b : Backend R) (hb : 0 < b.sched.maxBatchSize) (ht : 0 < b.sched.maxTokensPerBatch)
    (r₀ : R) (es : List Event) (m : Machine R)
    (hg : Transition.Guarded (step b) (Orderly b) (init r₀) es)
    (h : Transition.exec (step b) (init r₀) es = some m) (hexit : m.code .loop = []) :
    ∀ a ∈ m.shared.accepted, Terminated (m.shared.loop.history a.2) := by
  have hshut : Shut m := by
    refine Transition.exec_invariant (fun m e m' hm he hs => ?_) (shut_init r₀) hg h
    cases e with
    | call c => exact hm.call hs
    | tick t now =>
      cases t with
      | loop => exact hm.loop_tick hb ht he hs
      | user k => exact hm.user_tick he hs
  intro a ha
  exact ((hshut.ended hexit).2.2 a ha).terminated

def underway : List Instr → Bool
  | .register _ :: _ => true
  | .put _ _ :: _ => true
  | _ => false

def orderly (ks : List Nat) (m : Machine R) : Event → Bool
  | .call c => decide (c.caller ∈ ks.map Tid.user)
  | .tick (.user k) _ =>
      match m.code (.user k) with
      | [.register p] =>
          decide (p.requestId ∉ m.shared.loop.submitQ.map Pending.requestId) &&
          ((m.shared.loop.sched.waiting ++ m.shared.loop.sched.running).all fun i =>
            decide ((m.shared.loop.seq i).requestId ≠ p.requestId)) &&
          ks.all fun k' =>
            match m.code (.user k') with
            | [.put p' _] => decide (p'.requestId ≠ p.requestId)
            | _ => true
      | _ => true
  | .tick .loop _ =>
      (m.shared.loop.queues.all fun q => decide (q.length < queueSize)) &&
      (decide (m.shared.loop.submitQ = []) && (ks.all fun k => !underway (m.code (.user k))) ||
        match m.code .loop with
        | .test :: _ => !m.shared.stopping
        | .work :: _ => !m.shared.stopping
        | _ => true)

theorem Orderly.of_test {ks : List Nat} {e : Event}
    (hi : Threads.IdleOutside (.loop :: ks.map Tid.user) m) (h : orderly ks m e = true) :
    Orderly b m e := by
  have hidle : ∀ k, k ∉ ks → m.code (.user k) = [] := fun k hk => hi _ (by simpa using hk)
  cases e with
  | call c => trivial
  | tick t now =>
    cases t with
    | user k =>
      intro p hp
      simp only [orderly,hp,Bool.and_eq_true,decide_eq_true_eq,List.all_eq_true] at h
      refine ⟨⟨h.1.1,h.1.2⟩,fun k' p' d hp' => ?_⟩
      by_cases hk : k' ∈ ks
      · have := h.2 k' hk
        simpa [hp'] using this
      · rw [hidle k' hk] at hp'
        exact absurd hp' (by simp)
    | loop =>
      simp only [orderly,Bool.and_eq_true,Bool.or_eq_true,decide_eq_true_eq,List.all_eq_true] at h
      refine ⟨roomy_of_all h.1,fun hl => ?_⟩
      rcases h.2 with ⟨hq,hway⟩ | hstay
      · refine ⟨hq,fun k hk => ?_⟩
        by_cases hmem : k ∈ ks
        · have := hway k hmem
          revert this hk
          cases m.code (.user k) with
          | nil => simp [Underway]
          | cons i rest => cases i <;> simp [Underway,underway]
        · rw [hidle k hmem] at hk
          exact hk
      · unfold Leaves at hl
        revert hstay hl
        split <;> simp_all

def servedThenStopped : List Event :=
  List.flatten [
    .call (.submit 0 (ask "a" 1).2) :: .replicate 3 (.tick (.user 0) 0),
    .replicate 5 (.tick .loop 1),
    [.call (.read 0 0),.tick (.user 0) 1],
    .call (.stop 1) :: .replicate 3 (.tick (.user 1) 0),
    [.tick .loop 2]]

theorem none_lost_served : ∃ m, Transition.exec (step fives) (init ()) servedThenStopped = some m ∧
    m.code .loop = [] ∧ m.shared.accepted = [((ask "a" 1).2,0)] ∧
    ∀ a ∈ m.shared.accepted, Terminated (m.shared.loop.history a.2) := by
  have hrun : ((Transition.exec (step fives) (init ()) servedThenStopped).map fun m =>
        (decide (m.code .loop = []),decide (m.shared.accepted = [((ask "a" 1).2,0)]))) = some (true,true) ∧
      Transition.checks (step fives) (orderly [0,1]) (init ()) servedThenStopped := by
    decide +kernel
  obtain ⟨m,hm,hv⟩ := Option.map_eq_some_iff.mp hrun.1
  simp only [Prod.mk.injEq,decide_eq_true_eq] at hv
  refine ⟨m,hm,hv.1,hv.2,none_lost fives (by decide) (by decide) () servedThenStopped m ?_ hm hv.1⟩
  refine .of_checks_invariant (P := Threads.IdleOutside (.loop :: [0,1].map Tid.user)) ?_
    (fun _ _ hi hok => .of_test hi hok) (fun u hu => ?_) hrun.2
  · intro _ _ _ hi hok hs
    refine hi.step (fun c hc => ?_) hs
    subst hc
    exact List.mem_cons_of_mem _ (of_decide_eq_true hok)
  · exact if_neg fun hc => hu (by simp [hc])

/-- `stop` comes before the loop has admitted the request: `_run` finds nothing
waiting or running and leaves. -/
theorem pending_lost_at_stop : ∃ m, Transition.exec (step fives) (init ())
      (.call (.submit 0 (ask "a" 1).2) :: List.replicate 3 (.tick (.user 0) 0) ++
        .call (.stop 1) :: List.replicate 3 (.tick (.user 1) 0) ++ [.tick .loop 1]) = some m ∧
    m.code .loop = [] ∧ ((ask "a" 1).2,0) ∈ m.shared.accepted ∧ m.shared.loop.history 0 = [] ∧
    ¬ ∀ a ∈ m.shared.accepted, Terminated (m.shared.loop.history a.2) := by
  have hrun : ((Transition.exec (step fives) (init ())
      (.call (.submit 0 (ask "a" 1).2) :: List.replicate 3 (.tick (.user 0) 0) ++
        .call (.stop 1) :: List.replicate 3 (.tick (.user 1) 0) ++ [.tick .loop 1])).map fun m =>
        (decide (m.code .loop = []),decide (((ask "a" 1).2,0) ∈ m.shared.accepted),
          decide (m.shared.loop.history 0 = []))) = some (true,true,true) := by
    decide +kernel
  obtain ⟨m,hm,hv⟩ := Option.map_eq_some_iff.mp hrun
  simp only [Prod.mk.injEq,decide_eq_true_eq] at hv
  obtain ⟨hexit,hmem,hempty⟩ := hv
  refine ⟨m,hm,hexit,hmem,hempty,fun hall => ?_⟩
  obtain ⟨fs,f,hq,_⟩ := hall _ hmem
  rw [hempty] at hq
  exact absurd hq (by simp)

end Runs

end Shutdown

end SglangLite.Loop
