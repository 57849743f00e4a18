import SglangLite.Transition
import SglangLite.Loop.Lockstep

set_option autoImplicit false

namespace SglangLite.Loop
open Kv Sched Text EngineLoop

/-- What the thread that drives a rank is doing. A worker whose thread was
ended by an exception is dead. -/
inductive Phase where
  | ready
  | pumping (deadline : Time)
  | dead
  deriving DecidableEq, Repr

/-- A rank. `inbox` holds the broadcast messages that a worker has not yet
received; on rank 0 it is the queue of jobs of the CUDA thread. -/
structure Rank (R : Type) where
  loop : EngineLoop R
  phase : Phase := .ready
  inbox : List Pending := []

structure Group (R : Type) where
  lead : Rank R
  workers : List (Rank R)

inductive Event where
  /-- `POST /v1/generate` puts a job into the queue. -/
  | accept (p : Pending)
  /-- The CUDA thread takes a job: broadcast and `submit`. The second reading of
  the clock is that of `pump_until_idle`. -/
  | start (now began : Time)
  /-- A round of `pump_until_idle` on rank 0. -/
  | pump (t now : Time)
  /-- `POST /v1/cancel`, or a client that disconnects. -/
  | cancel (r : RequestId)
  /-- `POST /v1/drain`. -/
  | drain
  /-- The client takes a frame from its queue. -/
  | read (d : QueueId)
  /-- A worker receives the next message. -/
  | receive (w : Nat) (now began : Time)
  /-- A round of `pump_until_idle` on a worker. -/
  | work (w : Nat) (t now : Time)
  deriving DecidableEq, Repr

namespace Rank

variable {R : Type} (b : Backend R)

/-- `_apply_generate_msg`, with `failed` for the thread it leaves with an
exception. -/
def apply (failed : Phase) (now began : Time) (p : Pending) (x : Rank R) : Rank R :=
  match x.loop.submit now p with
  | some s => { x with loop := s, phase := .pumping (began+p.timeout) }
  | none => { x with phase := failed }

def pump (failed : Phase) (deadline t now : Time) (x : Rank R) : Rank R :=
  match x.loop.round b deadline t now with
  | (s,.again) => { x with loop := s }
  | (s,.returned) => { x with loop := s, phase := .ready }
  | (s,.raised) => { x with loop := s, phase := failed }

end Rank

namespace Group

variable {R : Type}

/-- `broadcast_obj`. -/
def broadcast (p : Pending) (ws : List (Rank R)) : List (Rank R) :=
  ws.map fun w => { w with inbox := w.inbox ++ [p] }

def modifyLoop (g : Group R) (f : EngineLoop R → EngineLoop R) : Group R :=
  { g with lead := { g.lead with loop := f g.lead.loop } }

section Step

variable (b : Backend R)

/-- One event. The CUDA thread of rank 0 catches every exception; a worker does
not. -/
def step (g : Group R) : Event → Option (Group R)
  | .accept p =>
      if g.lead.loop.draining then some g
      else some { g with lead := { g.lead with inbox := g.lead.inbox ++ [p] } }
  | .start now began =>
      match g.lead.phase,g.lead.inbox with
      | .ready,p :: rest =>
          some
            { lead := { g.lead with inbox := rest }.apply .ready now began p
              workers := broadcast p g.workers }
      | _,_ => none
  | .pump t now =>
      match g.lead.phase with
      | .pumping deadline => some { g with lead := g.lead.pump b .ready deadline t now }
      | _ => none
  | .cancel r => some (g.modifyLoop fun s => s.cancel b r)
  | .drain => some (g.modifyLoop fun s => { s with draining := true })
  | .read d => some (g.modifyLoop fun s => s.read d)
  | .receive w now began =>
      match g.workers[w]? with
      | some ⟨s,.ready,p :: rest⟩ =>
          some { g with
            workers := g.workers.set w ((⟨s,.ready,rest⟩ : Rank R).apply .dead now began p) }
      | _ => none
  | .work w t now =>
      match g.workers[w]? with
      | some ⟨s,.pumping deadline,inbox⟩ =>
          some { g with
            workers := g.workers.set w
              ((⟨s,.pumping deadline,inbox⟩ : Rank R).pump b .dead deadline t now) }
      | _ => none

end Step

def init (r₀ : R) (n : Nat) : Group R where
  lead := { loop := { runner := r₀ } }
  workers := List.replicate n { loop := { runner := r₀ } }

def Resting (w : Rank R) : Prop := w.phase = .dead ∨ w.phase = .ready ∧ w.inbox = []

/-- The forwards of one rank never contradict those of another, and they are the
same as soon as both have come to rest. -/
structure Lockstep (g : Group R) : Prop where
  comparable : ∀ x ∈ g.lead :: g.workers, ∀ y ∈ g.lead :: g.workers,
    x.loop.forwards <+: y.loop.forwards ∨ y.loop.forwards <+: x.loop.forwards
  rest : ∀ w ∈ g.workers, g.lead.phase = .ready → Resting w →
    w.loop.forwards = g.lead.loop.forwards

end Group

/-- The course that all ranks follow: a loop of its own that takes the messages
one after the other, with no reader, clock or cancel. -/
structure Course (R : Type) where
  loop : EngineLoop R
  pumping : Bool := false
  seen : Nat := 0

namespace EngineLoop

variable {R : Type}

/-- Forget what only matters to readers, clocks and cancels. -/
def tidy (s : EngineLoop R) : EngineLoop R :=
  { s with
    queues := s.queues.map fun _ => []
    taken := fun _ => []
    deadlines := []
    cancelled := []
    draining := false
    emitted := [] }

theorem sim_tidy (s : EngineLoop R) : Sim s s.tidy := { Sim.refl s with }

theorem quiet_tidy (s : EngineLoop R) : Quiet s.tidy 0 where
  roomy := by
    intro r d _
    have hq : s.tidy.queue d = [] := by
      simp only [queue,tidy,List.getD_eq_getElem?_getD,List.getElem?_map]
      cases s.queues[d]? <;> rfl
    rw [hq]
    decide
  uncancelled := ⟨fun p _ => by simp [tidy],fun i _ => by simp [tidy]⟩
  timely := by
    intro r hr
    simp [expired,tidy] at hr

end EngineLoop

namespace Course

variable {R : Type} {b : Backend R} {r₀ : R} {ms : List Pending} {x y : Course R}

section Defs

variable (b : Backend R) (r₀ : R) (ms : List Pending)

def next (x : Course R) : Option (Course R) :=
  if x.pumping then
    match x.loop.tidy.round b 0 0 0 with
    | (s,.again) => some { x with loop := s }
    | (s,.returned) => some { x with loop := s, pumping := false }
    | (_,.raised) => none
  else
    ms[x.seen]?.bind fun p =>
      (x.loop.tidy.submit 0 p).map fun s => { loop := s, pumping := true, seen := x.seen+1 }

def course : Nat → Option (Course R)
  | 0 => some { loop := { runner := r₀ } }
  | n+1 => (course n).bind (next b ms)

end Defs

theorem next_cases (h : x.next b ms = some y) :
    (x.pumping = true ∧ (x.loop.tidy.round b 0 0 0).2 ≠ .raised ∧
      y = ⟨(x.loop.tidy.round b 0 0 0).1,decide ((x.loop.tidy.round b 0 0 0).2 = .again),x.seen⟩) ∨
    (x.pumping = false ∧ ∃ p s, ms[x.seen]? = some p ∧ x.loop.tidy.submit 0 p = some s ∧
      y = ⟨s,true,x.seen+1⟩) := by
  unfold next at h
  cases hp : x.pumping with
  | true =>
    rw [hp,if_pos rfl] at h
    refine .inl ⟨rfl,?_⟩
    cases hr : x.loop.tidy.round b 0 0 0 with
    | mk s o =>
      rw [hr] at h
      cases o with
      | again => exact ⟨by simp,by simpa [hp] using h.symm⟩
      | returned => exact ⟨by simp,by simpa using h.symm⟩
      | raised => exact absurd h (by simp)
  | false =>
    rw [hp,if_neg (by simp)] at h
    obtain ⟨p,hm,h⟩ := Option.bind_eq_some_iff.mp h
    obtain ⟨s,hs,rfl⟩ := Option.map_eq_some_iff.mp h
    exact .inr ⟨rfl,p,s,hm,hs,rfl⟩

theorem next_append (h : x.next b ms = some y) (p : Pending) :
    x.next b (ms ++ [p]) = some y := by
  unfold next at h ⊢
  split_ifs at h ⊢ with hp
  · exact h
  · obtain ⟨q,hm,h⟩ := Option.bind_eq_some_iff.mp h
    have hlt := (List.getElem?_eq_some_iff.mp hm).1
    rw [List.getElem?_append_left hlt,hm]
    exact h

theorem course_append {n : Nat} (h : course b r₀ ms n = some y) (p : Pending) :
    course b r₀ (ms ++ [p]) n = some y := by
  induction n generalizing y with
  | zero => exact h
  | succ n ih =>
    obtain ⟨x,hx,hy⟩ := Option.bind_eq_some_iff.mp h
    rw [course,ih hx]
    exact next_append hy p

structure Settled (x : Course R) : Prop where
  single : Single x.loop
  idle : x.pumping = false → x.loop.busy = false

theorem submit_single {s s' : EngineLoop R} {now : Time} {p : Pending} (hb : s.busy = false)
    (h : s.submit now p = some s') : Single s' := by
  obtain ⟨h1,h2,h3⟩ := busy_eq_false.mp hb
  unfold submit at h
  split_ifs at h
  injection h with h
  subst h
  simp [Single,h1,h2,h3]

theorem Settled.next (h : Settled x) (hn : x.next b ms = some y) : Settled y := by
  obtain ⟨_,_,rfl⟩ | ⟨hp,p,s,_,hs,rfl⟩ := next_cases hn
  · have hsingle : Single x.loop.tidy := h.single
    refine ⟨hsingle.round x.loop.quiet_tidy,fun hr => round_returned ?_⟩
    cases ho : (x.loop.tidy.round b 0 0 0).2 with
    | returned => rfl
    | again => simp [ho] at hr
    | raised => contradiction
  · exact ⟨submit_single (s := x.loop.tidy) (h.idle hp) hs,fun hr => absurd hr (by simp)⟩

theorem settled {n : Nat} (h : course b r₀ ms n = some y) : Settled y := by
  induction n generalizing y with
  | zero =>
    injection h with h
    subst h
    exact ⟨by simp [Single],fun _ => rfl⟩
  | succ n ih =>
    obtain ⟨x,hx,hy⟩ := Option.bind_eq_some_iff.mp h
    exact (ih hx).next hy

theorem seen_le {n : Nat} (h : course b r₀ ms n = some y) : y.seen ≤ ms.length := by
  induction n generalizing y with
  | zero =>
    injection h with h
    subst h
    exact Nat.zero_le _
  | succ n ih =>
    obtain ⟨x,hx,hy⟩ := Option.bind_eq_some_iff.mp h
    obtain ⟨_,_,rfl⟩ | ⟨_,p,s,hm,_,rfl⟩ := next_cases hy
    · exact (ih hx : x.seen ≤ ms.length)
    · exact (List.getElem?_eq_some_iff.mp hm).1

structure Before (x y : Course R) : Prop where
  forwards : x.loop.forwards <+: y.loop.forwards
  seen : x.seen ≤ y.seen

theorem next_before (h : x.next b ms = some y) : Before x y := by
  obtain ⟨_,_,rfl⟩ | ⟨_,p,s,_,hs,rfl⟩ := next_cases h
  · exact ⟨(logged_round (b := b) 0 0 0 x.loop.tidy).forwards,le_refl _⟩
  · refine ⟨?_,Nat.le_succ _⟩
    unfold submit at hs
    split_ifs at hs
    injection hs with hs
    subst hs
    exact List.prefix_rfl

theorem course_before {n k : Nat} (hx : course b r₀ ms n = some x)
    (hy : course b r₀ ms (n+k) = some y) : Before x y := by
  induction k generalizing y with
  | zero =>
    obtain rfl : x = y := Option.some.inj (hx.symm.trans hy)
    exact ⟨List.prefix_rfl,le_refl _⟩
  | succ k ih =>
    obtain ⟨z,hz,hzy⟩ := Option.bind_eq_some_iff.mp hy
    have h1 := ih hz
    have h2 := next_before hzy
    exact ⟨h1.forwards.trans h2.forwards,h1.seen.trans h2.seen⟩

theorem course_total {n m : Nat} (hx : course b r₀ ms n = some x) (hy : course b r₀ ms m = some y) :
    Before x y ∨ Before y x := by
  rcases Nat.le_total n m with h | h
  · obtain ⟨k,rfl⟩ := Nat.exists_eq_add_of_le h
    exact .inl (course_before hx hy)
  · obtain ⟨k,rfl⟩ := Nat.exists_eq_add_of_le h
    exact .inr (course_before hy hx)

theorem course_ready {n m : Nat} (hx : course b r₀ ms n = some x) (hy : course b r₀ ms m = some y)
    (hxr : x.pumping = false) (hyr : y.pumping = false) (hs : x.seen = y.seen) : x = y := by
  have key : ∀ {n k : Nat} {x y : Course R}, course b r₀ ms n = some x →
      course b r₀ ms (n+(k+1)) = some y → x.pumping = false → x.seen < y.seen := by
    intro n k x y hx hy hr
    have hk : n+(k+1) = (n+1)+k := by omega
    rw [hk] at hy
    obtain ⟨z,hz⟩ : ∃ z, course b r₀ ms (n+1) = some z := by
      cases hc : course b r₀ ms (n+1) with
      | some z => exact ⟨z,rfl⟩
      | none =>
        exfalso
        have hnone : ∀ j, course b r₀ ms (n+1+j) = none := by
          intro j
          induction j with
          | zero => exact hc
          | succ j ih => rw [← Nat.add_assoc,course,ih]; rfl
        rw [hnone k] at hy
        cases hy
    have hnext : x.next b ms = some z := by
      rw [course,hx] at hz
      exact hz
    obtain ⟨hp,_⟩ | ⟨_,_,_,_,_,rfl⟩ := next_cases hnext
    · rw [hr] at hp
      cases hp
    · exact (course_before hz hy).seen
  rcases Nat.lt_trichotomy n m with h | rfl | h
  · obtain ⟨k,rfl⟩ := Nat.exists_eq_add_of_lt h
    have := key hx hy hxr
    omega
  · exact Option.some.inj (hx.symm.trans hy)
  · obtain ⟨k,rfl⟩ := Nat.exists_eq_add_of_lt h
    have := key hy hx hyr
    omega

end Course

def Pending.Valid (p : Pending) : Prop :=
  ¬ (p.request.maxTokens = 0 ∨ p.paramsOk = false ∨ p.request.inputIds = [])

namespace Rank

variable {R : Type} {b : Backend R} {r₀ : R} {ms : List Pending} {k : Nat} {x : Rank R}

/-- A rank that is on the course and has taken `k` messages. -/
def Follows (b : Backend R) (r₀ : R) (ms : List Pending) (k : Nat) (x : Rank R) : Prop :=
  ∃ n y, Course.course b r₀ ms n = some y ∧ Sim x.loop y.loop ∧ y.seen = k ∧
    (x.phase = .ready ∧ y.pumping = false ∨ (∃ d, x.phase = .pumping d) ∧ y.pumping = true)

/-- A round that no reader, cancel, time limit or exception disturbs. -/
structure Steady (b : Backend R) (s : EngineLoop R) (deadline t now : Time) : Prop where
  quiet : Quiet s now
  intime : ¬ deadline < t
  unraised : (s.round b deadline t now).2 ≠ .raised

theorem Follows.append (h : Follows b r₀ ms k x) (p : Pending) :
    Follows b r₀ (ms ++ [p]) k x := by
  obtain ⟨n,y,hy,hrest⟩ := h
  exact ⟨n,y,Course.course_append hy p,hrest⟩

theorem Follows.sim {s : EngineLoop R} {l : List Pending} (h : Follows b r₀ ms k x)
    (hs : Sim s x.loop) : Follows b r₀ ms k ⟨s,x.phase,l⟩ := by
  obtain ⟨n,y,hy,hsim,hrest⟩ := h
  exact ⟨n,y,hy,hs.trans hsim,hrest⟩

theorem Follows.pump {failed : Phase} {deadline t now : Time} (h : Follows b r₀ ms k x)
    (hp : x.phase = .pumping deadline) (hs : Steady b x.loop deadline t now) :
    Follows b r₀ ms k (x.pump b failed deadline t now) := by
  obtain ⟨n,y,hy,hsim,hseen,hphase⟩ := h
  have hpump : y.pumping = true := by
    rcases hphase with ⟨hr,_⟩ | ⟨_,h⟩
    · rw [hp] at hr
      cases hr
    · exact h
  have hsingle : Single y.loop.tidy := (Course.settled hy).single
  obtain ⟨hres,hround⟩ := (hsim.trans (sim_tidy y.loop)).round (b := b) hsingle hs.quiet
    y.loop.quiet_tidy hs.intime (Nat.lt_irrefl 0)
  have hraise := hs.unraised
  have hnext : Course.course b r₀ ms (n+1) = y.next b ms := by
    rw [Course.course,hy]
    rfl
  unfold Course.next at hnext
  rw [hpump,if_pos rfl] at hnext
  unfold Rank.pump
  cases hc : x.loop.round b deadline t now with
  | mk s o =>
    cases hc' : y.loop.tidy.round b 0 0 0 with
    | mk s' o' =>
      rw [hc] at hres hround hraise
      rw [hc'] at hres hround hnext
      simp only at hres hround hraise
      subst hres
      cases o with
      | again => exact ⟨n+1,_,hnext,hround,hseen,.inr ⟨⟨deadline,hp⟩,rfl⟩⟩
      | returned => exact ⟨n+1,_,hnext,hround,hseen,.inl ⟨rfl,rfl⟩⟩
      | raised => exact absurd rfl hraise

theorem submit_some {s : EngineLoop R} (now : Time) {p : Pending} (hd : s.draining = false)
    (hv : p.Valid) : ∃ s', s.submit now p = some s' ∧ s'.draining = false := by
  unfold submit
  rw [if_neg (by simp [hd]),if_neg hv]
  exact ⟨_,rfl,hd⟩

theorem Follows.apply (failed : Phase) (now began : Time) {p : Pending} (h : Follows b r₀ ms k x)
    (hp : x.phase = .ready) (hm : ms[k]? = some p) (hd : x.loop.draining = false) (hv : p.Valid) :
    Follows b r₀ ms (k+1) (x.apply failed now began p) := by
  obtain ⟨n,y,hy,hsim,rfl,hphase⟩ := h
  have hready : y.pumping = false := by
    rcases hphase with ⟨_,h⟩ | ⟨⟨d,hd⟩,_⟩
    · exact h
    · rw [hp] at hd
      cases hd
  obtain ⟨s,hs,_⟩ := submit_some now hd hv
  obtain ⟨s',hs',hsim'⟩ := (hsim.trans (sim_tidy y.loop)).submit 0 hs rfl
  have hnext : Course.course b r₀ ms (n+1) = some ⟨s',true,y.seen+1⟩ := by
    rw [Course.course,hy]
    show y.next b ms = _
    unfold Course.next
    rw [hready,if_neg (by simp),hm]
    simp [hs']
  unfold Rank.apply
  rw [hs]
  exact ⟨n+1,_,hnext,hsim',rfl,.inr ⟨⟨_,rfl⟩,rfl⟩⟩

end Rank

namespace Group

variable {R : Type} {b : Backend R} {r₀ : R} {g g' : Group R}

def Undisturbed (b : Backend R) (g : Group R) : Event → Prop
  | .accept _ | .drain | .read _ | .receive _ _ _ => True
  | .start _ _ => g.lead.loop.draining = false ∧ ∀ p ∈ g.lead.inbox.head?, p.Valid
  | .pump t now => ∀ d, g.lead.phase = .pumping d → Rank.Steady b g.lead.loop d t now
  | .cancel r => g.lead.loop.sched.byRequest r = none ∧ g.lead.loop.deltaQs r = none
  | .work w t now => ∀ s d inbox, g.workers[w]? = some ⟨s,.pumping d,inbox⟩ →
      Rank.Steady b s d t now

structure InStep (b : Backend R) (r₀ : R) (ms : List Pending) (g : Group R) : Prop where
  valid : ∀ p ∈ ms, p.Valid
  lead : g.lead.Follows b r₀ ms ms.length
  workers : ∀ w ∈ g.workers, w.loop.draining = false ∧
    ∃ k, w.Follows b r₀ ms k ∧ w.inbox = ms.drop k

theorem InStep.modifyLoop {ms : List Pending} {f : EngineLoop R → EngineLoop R}
    (h : InStep b r₀ ms g) (hf : Sim (f g.lead.loop) g.lead.loop) : InStep b r₀ ms (g.modifyLoop f) :=
  { h with lead := h.lead.sim hf }

theorem InStep.set {ms : List Pending} {i k : Nat} {w : Rank R} (h : InStep b r₀ ms g)
    (hd : w.loop.draining = false) (hw : w.Follows b r₀ ms k) (hi : w.inbox = ms.drop k) :
    InStep b r₀ ms { g with workers := g.workers.set i w } := by
  refine { h with workers := fun v hv => ?_ }
  rcases List.mem_or_eq_of_mem_set hv with hv | rfl
  · exact h.workers v hv
  · exact ⟨hd,k,hw,hi⟩

theorem InStep.start {ms : List Pending} {now began : Time} {p : Pending} {rest : List Pending}
    (h : InStep b r₀ ms g) (hr : g.lead.phase = .ready) (hd : g.lead.loop.draining = false)
    (hv : p.Valid) :
    InStep b r₀ (ms ++ [p])
      ⟨({ g.lead with inbox := rest } : Rank R).apply .ready now began p,broadcast p g.workers⟩ := by
  refine ⟨?_,?_,?_⟩
  · intro q hq
    rcases List.mem_append.mp hq with hq | hq
    · exact h.valid q hq
    · rw [List.mem_singleton.mp hq]
      exact hv
  · have hl := (h.lead.append p).sim (l := rest) (Sim.refl g.lead.loop)
    have := hl.apply .ready now began hr (by simp) hd hv
    simpa using this
  · intro w hw
    obtain ⟨v,hv',rfl⟩ := List.mem_map.mp hw
    obtain ⟨hvd,k,hk,hin⟩ := h.workers v hv'
    refine ⟨hvd,k,(hk.append p).sim (Sim.refl v.loop),?_⟩
    obtain ⟨n,y,hy,_,hseen,_⟩ := hk
    rw [List.drop_append_of_le_length (hseen ▸ Course.seen_le hy),hin]

theorem InStep.receive {ms : List Pending} {i : Nat} {now began : Time} {s : EngineLoop R}
    {p : Pending} {rest : List Pending} (h : InStep b r₀ ms g)
    (hi : g.workers[i]? = some ⟨s,.ready,p :: rest⟩) :
    InStep b r₀ ms { g with
      workers := g.workers.set i ((⟨s,.ready,rest⟩ : Rank R).apply .dead now began p) } := by
  obtain ⟨hd,k,hk,hin⟩ := h.workers _ (List.mem_of_getElem? hi)
  simp only at hd hin
  have hm : ms[k]? = some p := by
    rw [← List.head?_drop,← hin]
    rfl
  have hv := h.valid p (List.mem_of_getElem? hm)
  obtain ⟨s',hs,hd'⟩ := Rank.submit_some now hd hv
  have hk' := (hk.sim (l := rest) (Sim.refl s)).apply .dead now began rfl hm hd hv
  refine h.set ?_ hk' ?_
  · simp only [Rank.apply,hs]
    exact hd'
  · have hrest : rest = ms.drop (k+1) := by
      rw [← List.tail_drop,← hin]
      rfl
    simp only [Rank.apply,hs]
    exact hrest

theorem InStep.work {ms : List Pending} {i : Nat} {t now deadline : Time} {s : EngineLoop R}
    {inbox : List Pending} (h : InStep b r₀ ms g)
    (hi : g.workers[i]? = some ⟨s,.pumping deadline,inbox⟩) (hs : Rank.Steady b s deadline t now) :
    InStep b r₀ ms { g with
      workers := g.workers.set i
        ((⟨s,.pumping deadline,inbox⟩ : Rank R).pump b .dead deadline t now) } := by
  obtain ⟨hd,k,hk,hin⟩ := h.workers _ (List.mem_of_getElem? hi)
  have hlog := (logged_round (b := b) deadline t now s).draining
  have hd' : (s.round b deadline t now).1.draining = false := hlog.trans hd
  refine h.set ?_ (hk.pump rfl hs) ?_
  · unfold Rank.pump
    split <;> rename_i heq <;> simp only [heq] at hd' <;> exact hd'
  · unfold Rank.pump
    split <;> exact hin

theorem cancel_over {s : EngineLoop R} {r : RequestId} (hb : s.sched.byRequest r = none)
    (hd : s.deltaQs r = none) : s.cancel b r = { s with cancelled := r :: s.cancelled } := by
  simp [EngineLoop.cancel,schedCancel,hb,hd]

theorem InStep.step {ms : List Pending} {e : Event} (h : InStep b r₀ ms g)
    (hu : Undisturbed b g e) (hs : g.step b e = some g') : ∃ ms', InStep b r₀ ms' g' := by
  cases e with
  | accept p =>
    simp only [Group.step] at hs
    split_ifs at hs <;> obtain rfl := Option.some.inj hs
    · exact ⟨ms,h⟩
    · exact ⟨ms,{ h with lead := h.lead.sim (Sim.refl _) }⟩
  | start now began =>
    obtain ⟨hd,hv⟩ := hu
    simp only [Group.step] at hs
    split at hs
    · rename_i p rest hready hin
      obtain rfl := Option.some.inj hs
      exact ⟨ms ++ [p],h.start hready hd (hv p (by rw [hin]; rfl))⟩
    · cases hs
  | pump t now =>
    simp only [Group.step] at hs
    split at hs
    · rename_i d hd
      obtain rfl := Option.some.inj hs
      exact ⟨ms,{ h with lead := h.lead.pump hd (hu d hd) }⟩
    · cases hs
  | cancel r =>
    obtain rfl := Option.some.inj hs
    refine ⟨ms,h.modifyLoop ?_⟩
    rw [cancel_over hu.1 hu.2]
    exact { Sim.refl _ with }
  | drain =>
    obtain rfl := Option.some.inj hs
    exact ⟨ms,h.modifyLoop { Sim.refl _ with }⟩
  | read d =>
    obtain rfl := Option.some.inj hs
    exact ⟨ms,h.modifyLoop { Sim.refl _ with }⟩
  | receive w now began =>
    simp only [Group.step] at hs
    split at hs
    · rename_i s p rest hw
      obtain rfl := Option.some.inj hs
      exact ⟨ms,h.receive hw⟩
    · cases hs
  | work w t now =>
    simp only [Group.step] at hs
    split at hs
    · rename_i s d inbox hw
      obtain rfl := Option.some.inj hs
      exact ⟨ms,h.work hw (hu s d inbox hw)⟩
    · cases hs

theorem inStep_init (n : Nat) : InStep b r₀ [] (init r₀ n) := by
  have hfollows : ({ loop := { runner := r₀ } } : Rank R).Follows b r₀ [] 0 :=
    ⟨0,_,rfl,Sim.refl _,rfl,.inl ⟨rfl,rfl⟩⟩
  refine ⟨by simp,hfollows,fun w hw => ?_⟩
  rw [List.eq_of_mem_replicate hw]
  exact ⟨rfl,0,hfollows,rfl⟩

theorem InStep.lockstep {ms : List Pending} (h : InStep b r₀ ms g) : Lockstep g := by
  have hall : ∀ x ∈ g.lead :: g.workers, ∃ k, x.Follows b r₀ ms k := by
    intro x hx
    rcases List.mem_cons.mp hx with rfl | hx
    · exact ⟨_,h.lead⟩
    · obtain ⟨_,k,hk,_⟩ := h.workers x hx
      exact ⟨k,hk⟩
  refine ⟨fun x hx y hy => ?_,fun w hw hr hrest => ?_⟩
  · obtain ⟨_,n,u,hu,hsx,_⟩ := hall x hx
    obtain ⟨_,m,v,hv,hsy,_⟩ := hall y hy
    rw [hsx.forwards,hsy.forwards]
    exact (Course.course_total hu hv).imp Course.Before.forwards Course.Before.forwards
  · obtain ⟨_,k,⟨n,u,hu,hsw,hk,hphase⟩,hin⟩ := h.workers w hw
    obtain ⟨m,v,hv,hsl,hseen,hlead⟩ := h.lead
    have hvr : v.pumping = false := by
      rcases hlead with ⟨_,hv⟩ | ⟨⟨d,hd⟩,_⟩
      · exact hv
      · rw [hr] at hd
        cases hd
    obtain ⟨hur,hnil⟩ : u.pumping = false ∧ w.inbox = [] := by
      rcases hphase with ⟨hready,hu⟩ | ⟨⟨d,hd⟩,_⟩
      · refine ⟨hu,?_⟩
        rcases hrest with hdead | ⟨_,hnil⟩
        · rw [hready] at hdead
          cases hdead
        · exact hnil
      · rcases hrest with hdead | ⟨hready,_⟩
        · rw [hd] at hdead
          cases hdead
        · rw [hd] at hready
          cases hready
    have hle := Course.seen_le hu
    have hge : ms.length ≤ k := List.drop_eq_nil_iff.mp (hin.symm.trans hnil)
    have huv : u = v := Course.course_ready hu hv hur hvr (by omega)
    rw [hsw.forwards,hsl.forwards,huv]

/-- In a run without disturbances all ranks make the same forwards. -/
theorem lockstep_run (b : Backend R) (r₀ : R) (n : Nat) (es : List Event) (g : Group R)
    (hu : Transition.Guarded (step b) (Undisturbed b) (init r₀ n) es)
    (h : Transition.exec (step b) (init r₀ n) es = some g) : Lockstep g := by
  have hinv : ∃ ms, InStep b r₀ ms g :=
    Transition.exec_invariant (P := fun g => ∃ ms, InStep b r₀ ms g)
      (fun _ _ _ ⟨_,hi⟩ hg hs => hi.step hg hs) ⟨[],inStep_init n⟩ hu h
  obtain ⟨ms,hms⟩ := hinv
  exact hms.lockstep

def steadyTest (b : Backend R) (s : EngineLoop R) (deadline t now : Time) : Bool :=
  s.queues.all (fun q => decide (q.length < queueSize)) &&
  s.submitQ.all (fun p => decide (p.requestId ∉ s.cancelled)) &&
  (s.sched.waiting ++ s.sched.running).all (fun i => decide ((s.seq i).requestId ∉ s.cancelled)) &&
  (s.expired now).isEmpty && !decide (deadline < t) &&
  decide ((s.round b deadline t now).2 ≠ .raised)

theorem steady_of_test {s : EngineLoop R} {deadline t now : Time}
    (h : steadyTest b s deadline t now = true) : Rank.Steady b s deadline t now := by
  simp only [steadyTest,Bool.and_eq_true,List.all_eq_true,decide_eq_true_eq,List.isEmpty_iff,
    Bool.not_eq_true',decide_eq_false_iff_not] at h
  obtain ⟨⟨⟨⟨⟨hroom,hpend⟩,hrun⟩,hexp⟩,ht⟩,hr⟩ := h
  refine ⟨⟨roomy_of_all hroom,⟨hpend,fun i hi => hrun i ?_⟩,fun r hr => ?_⟩,ht,hr⟩
  · rcases hi with hi | hi <;> simp [hi]
  · simp [hexp] at hr

/-- One worker. Rank 0 is one round ahead, its client reads, and a late cancel
and a drain come in before the worker is done. -/
def calmRun : List Event :=
  [.accept (ask "a" 2).2,.start 0 0,.pump 1 1,.receive 0 0 0,.read 0,.work 0 1 1,.pump 1 1,.pump 1 1,
    .cancel "a",.drain,.work 0 1 1,.work 0 1 1]

def calmTest (g : Group Unit) : Event → Bool
  | .start _ _ => !g.lead.loop.draining && (g.lead.inbox.all fun p =>
      !decide (p.request.maxTokens = 0 ∨ p.paramsOk = false ∨ p.request.inputIds = []))
  | .pump t now => match g.lead.phase with
    | .pumping d => steadyTest fives g.lead.loop d t now
    | _ => true
  | .cancel r => (g.lead.loop.sched.byRequest r).isNone && (g.lead.loop.deltaQs r).isNone
  | .work w t now => match g.workers[w]? with
    | some ⟨s,.pumping d,_⟩ => steadyTest fives s d t now
    | _ => true
  | _ => true

theorem lockstep_calmRun : ∃ g, Transition.exec (step fives) (init () 1) calmRun = some g ∧
    Lockstep g ∧ g.lead.loop.forwards = [[(0,0,[1])],[(0,1,[5])]] := by
  have hchecks : Transition.checks (step fives) calmTest (init () 1) calmRun = true := by
    decide +kernel
  have hrun : (Transition.exec (step fives) (init () 1) calmRun).map (·.lead.loop.forwards) =
      some [[(0,0,[1])],[(0,1,[5])]] := by
    decide +kernel
  obtain ⟨g,hg,hf⟩ := Option.map_eq_some_iff.mp hrun
  refine ⟨g,hg,lockstep_run fives () 1 calmRun g (.of_checks (fun g e hok => ?_) hchecks) hg,hf⟩
  cases e with
  | accept p => trivial
  | drain => trivial
  | read d => trivial
  | receive w now began => trivial
  | start now began =>
    simp only [calmTest,Bool.and_eq_true,Bool.not_eq_true',List.all_eq_true,decide_eq_false_iff_not] at hok
    exact ⟨hok.1,fun p hp => hok.2 p (List.mem_of_mem_head? hp)⟩
  | pump t now =>
    intro d hd
    simp only [calmTest,hd] at hok
    exact steady_of_test hok
  | cancel r => simpa [Undisturbed,calmTest] using hok
  | work w t now =>
    intro s d inbox hw
    simp only [calmTest,hw] at hok
    exact steady_of_test hok

/-- A cancel reaches rank 0 only: it stops after one forward while the worker
makes all three. -/
theorem cancel_separates : ∃ g, Transition.exec (step fives) (init () 1)
    ([.accept (ask "a" 3).2,.start 0 0,.pump 1 1,.cancel "a",.pump 1 1,.receive 0 0 0] ++
      List.replicate 4 (.work 0 1 1)) = some g ∧ ¬ Lockstep g := by
  have hrun : ((Transition.exec (step fives) (init () 1)
      ([.accept (ask "a" 3).2,.start 0 0,.pump 1 1,.cancel "a",.pump 1 1,.receive 0 0 0] ++
        List.replicate 4 (.work 0 1 1))).map fun g =>
          (g.lead.phase,g.lead.loop.forwards.length,
            g.workers.map fun w => (w.phase,w.inbox.isEmpty,w.loop.forwards.length))) =
      some (.ready,1,[(.ready,true,3)]) := by
    decide +kernel
  obtain ⟨g,hg,hv⟩ := Option.map_eq_some_iff.mp hrun
  obtain ⟨hphase,hlead,hworkers⟩ : g.lead.phase = .ready ∧ g.lead.loop.forwards.length = 1 ∧
      g.workers.map (fun w => (w.phase,w.inbox.isEmpty,w.loop.forwards.length)) =
        [(.ready,true,3)] := by
    simpa using hv
  refine ⟨g,hg,fun hl => ?_⟩
  obtain ⟨w,hw,hwv⟩ := List.mem_map.mp (hworkers ▸ List.mem_singleton_self _)
  simp only [Prod.mk.injEq] at hwv
  have hsame := hl.rest w hw hphase (.inr ⟨hwv.1,List.isEmpty_iff.mp hwv.2.1⟩)
  rw [← hsame,hwv.2.2] at hlead
  cases hlead

end Group

end SglangLite.Loop
