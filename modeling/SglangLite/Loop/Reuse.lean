import SglangLite.Loop.Serving

set_option autoImplicit false

namespace SglangLite.Loop
open Kv Sched Text

namespace EngineLoop

variable {R : Type} {b : Backend R} {s s' : EngineLoop R} {r : RequestId} {d : QueueId} {t : Time}

/-- The request has come to the scheduler: it waits there, or the scheduler has
refused it and its queue has got the error frame. -/
def Handed (d : QueueId) (p : Pending) (s : EngineLoop R) : Prop :=
  (∃ i ∈ s.sched.waiting, (s.seq i).requestId = p.requestId ∧ (s.seq i).finished = false ∧
      (s.seq i).inputIds = p.request.inputIds ∧ (s.seq i).maxTokens = p.request.maxTokens) ∨
    ∃ e, s.queue d = [errorFrame e none]

/-- The id is not submitted again before the request is over, and its queue has
room when a frame may come. -/
def Fair (r : RequestId) (d : QueueId) (s : EngineLoop R) : Turn → Prop
  | .submit _ p => p.requestId = r → s.deltaQs r ≠ some d
  | .cancel r' => r' = r → s.deltaQs r = some d → (s.queue d).length < queueSize
  | .pump _ => s.deltaQs r = some d → (s.queue d).length < queueSize
  | .read _ => True

section Admission

structure Ahead (r : RequestId) (d : QueueId) (t : Time) (marked : Prop) (s : EngineLoop R) : Prop where
  sound : Sound s
  holding : Holding r d t 0 0 s
  mark : r ∈ s.cancelled ↔ marked

theorem Ahead.admitOne {marked : Prop} {p : Pending} {rest : List Pending} (h : Ahead r d t marked s)
    (hq : s.submitQ = p :: rest) (hp : p.requestId ≠ r) :
    Ahead r d t marked (({ s with submitQ := rest } : EngineLoop R).admitOne b p) :=
  ⟨(h.sound.congr rfl rfl rfl : Sound { s with submitQ := rest }).admitOne p,
    h.holding.admitOne_other h.sound hq hp,
    (admitOne_cancelled (s := { s with submitQ := rest }) hp).trans h.mark⟩

theorem Ahead.handed {marked : Prop} {l : List Pending} {p : Pending} (h : Ahead p.requestId d t marked s)
    (hq : s.submitQ = l ++ [p]) (hl : p.requestId ∉ l.map Pending.requestId) :
    Handed d p (s.admitLoop b (l ++ [p])) ↔ ¬ marked := by
  induction l generalizing s with
  | nil =>
    rw [← h.mark]
    have hempty : s.queue d = [] := List.length_eq_zero_iff.mp (Nat.le_zero.mp h.holding.size)
    show Handed d p (({ s with submitQ := [] } : EngineLoop R).admitOne b p) ↔ _
    by_cases hc : p.requestId ∈ s.cancelled
    · have heq : ({ s with submitQ := [] } : EngineLoop R).admitOne b p =
          { s with submitQ := [], cancelled := s.cancelled.filter (· ≠ p.requestId) } := by
        rw [EngineLoop.admitOne,if_pos hc]
      rw [heq]
      refine ⟨fun hh => ?_,fun hn => absurd hc hn⟩
      rcases hh with ⟨i,_,hir,hlive,_⟩ | ⟨e,he⟩
      · have hplace := h.holding.place
        rcases hplace with ⟨_,hfin⟩ | ⟨hn,_⟩
        · exact absurd ((hfin i hir).symm.trans hlive) (by simp)
        · rw [hq] at hn
          exact absurd (by simp) hn
      · rw [show ({ s with submitQ := [], cancelled := s.cancelled.filter (· ≠ p.requestId) } :
          EngineLoop R).queue d = s.queue d from rfl,hempty] at he
        exact absurd he (by simp)
    · refine ⟨fun _ => hc,fun _ => ?_⟩
      have hserv : Serving p.requestId d t 0 0 s := ⟨h.holding,hc⟩
      rcases hserv.admitOne_own (b := b) h.sound hq rfl (by simp [queueSize]) with
        ⟨runner,q,hid,hin,hmax,hfin,heq,_⟩ | ⟨_,e,he⟩
      · rw [heq]
        refine .inl ⟨s.sched.seqs.length,by simp [joined],?_⟩
        rw [seq_joined,if_pos rfl]
        exact ⟨hid,hfin,hin,hmax⟩
      · rw [hempty] at he
        exact .inr ⟨e,he⟩
  | cons p' l ih =>
    rw [List.map_cons,List.mem_cons,not_or] at hl
    exact ih (h.admitOne hq (Ne.symm hl.1)) (admitOne_submitQ b _ p') hl.2

end Admission

theorem Served.turn {n : Nat} {e : Turn} (h : Served r d t n 0 s) (hs : Sound s) (hf : Fair r d s e)
    (ht : s.turn b e = some s') :
    (∃ m, Served r d t m 0 s') ∧ ∀ now, e = .pump now → t < now → Closed d s' := by
  have hroom : ∀ {P : Prop}, (s.deltaQs r = some d → (s.queue d).length < queueSize) →
      (∀ m, Served r d t m 0 s → m < queueSize → P) → P := by
    intro P hq hp
    rcases h with h | h
    · exact hp (s.queue d).length (.inl { h with size := Nat.le_refl _ }) (hq h.queue)
    · exact hp 0 (.inr h) (by simp [queueSize])
  cases e with
  | submit now p => exact ⟨⟨n,h.submit hs ht hf⟩,by simp⟩
  | cancel r' =>
    obtain rfl := Option.some.inj ht
    refine ⟨?_,by simp⟩
    by_cases hr : r' = r
    · exact hroom (hf hr) fun m hm hlt => ⟨m,hm.cancel hs fun _ => hlt⟩
    · exact ⟨n,h.cancel hs fun hc => absurd hc hr⟩
  | pump now =>
    obtain rfl := Option.some.inj ht
    refine hroom hf fun m hm hlt => ?_
    obtain ⟨h₁,hc⟩ := hm.pumpOnce (b := b) hs hlt now
    refine ⟨h₁,fun now' he hlt' => ?_⟩
    obtain rfl : now = now' := Turn.pump.inj he
    exact hc hlt'
  | read e =>
    obtain rfl := Option.some.inj ht
    exact ⟨⟨n,h.read e⟩,by simp⟩

theorem Closed.turn {e : Turn} (h : Closed d s) (hs : Sound s) (ht : s.turn b e = some s') :
    Closed d s' := by
  cases e with
  | submit now p => exact h.registered (accepted_submit ht).toRegistered
  | cancel r =>
    obtain rfl := Option.some.inj ht
    exact h.cancel r
  | pump now =>
    obtain rfl := Option.some.inj ht
    exact h.pumpOnce hs now
  | read e =>
    obtain rfl := Option.some.inj ht
    exact h.read e

/-- The request is served along the whole run, and it is over once its deadline
has passed at a turn of the pump. -/
theorem Served.run {n : Nat} {es : List Turn} (h : Served r d t n 0 s) (hs : Sound s)
    (hf : Transition.Guarded (EngineLoop.turn b) (Fair r d) s es)
    (hrun : Transition.exec (EngineLoop.turn b) s es = some s') :
    Sound s' ∧ (∃ m, Served r d t m 0 s') ∧ ∀ now, Turn.pump now ∈ es → t < now → Closed d s' := by
  induction es generalizing s n with
  | nil =>
    obtain rfl := Option.some.inj hrun
    exact ⟨hs,⟨n,h⟩,by simp⟩
  | cons e es ih =>
    obtain ⟨s₁,h₁,hr₁⟩ := Option.bind_eq_some_iff.mp hrun
    obtain ⟨⟨m,hm⟩,hpump⟩ := h.turn hs hf.1 h₁
    have hs₁ := hs.turn h₁
    obtain ⟨hs',hserved,hlater⟩ := ih hm hs₁ (hf.2 s₁ h₁) hr₁
    refine ⟨hs',hserved,fun now hmem hlt => ?_⟩
    rcases List.mem_cons.mp hmem with he | hmem
    · have hc := hpump now he.symm hlt
      exact (Transition.exec_always (P := fun s : EngineLoop R => Sound s ∧ Closed d s)
        (fun _ _ _ hp ht => ⟨hp.1.turn ht,hp.2.turn hp.1 ht⟩) ⟨hs₁,hc⟩ hr₁).2
    · exact hlater now hmem hlt

theorem id_reusable (b : Backend R) (r₀ : R) (es : List Turn) (s s' : EngineLoop R) (now : Time)
    (p : Pending) (hrun : Transition.exec (EngineLoop.turn b) { runner := r₀ } es = some s)
    (hidle : Idle p.requestId s) (hsub : s.submit now p = some s') :
    (Handed s.queues.length p (s'.admitPending b) ↔ p.requestId ∉ s.cancelled) ∧
    (p.requestId ∉ s.cancelled → ∀ es' s'', Transition.exec (EngineLoop.turn b) s' es' = some s'' →
      Transition.Guarded (EngineLoop.turn b) (Fair p.requestId s.queues.length) s' es' →
      (Idle p.requestId s'' ∨ ∃ now', .pump now' ∈ es' ∧ now+p.timeout < now') →
      Terminated (s''.history s.queues.length)) := by
  have hs := sound_run hrun
  have hs' := hs.submit hsub
  have ha := accepted_submit hsub
  have hhold := holding_submit hs hidle hsub
  constructor
  · have hahead : Ahead p.requestId s.queues.length (now+p.timeout) (p.requestId ∈ s.cancelled) s' :=
      ⟨hs',hhold,by rw [ha.cancelled]⟩
    rw [EngineLoop.admitPending,ha.submitQ]
    exact hahead.handed ha.submitQ hidle.1
  · intro hc es' s'' hrun' hfair hend
    have hserv : Serving p.requestId s.queues.length (now+p.timeout) 0 0 s' :=
      ⟨hhold,by rw [ha.cancelled]; exact hc⟩
    obtain ⟨hs'',⟨m,hm⟩,hlate⟩ := Served.run (.inl hserv) hs' hfair hrun'
    rcases hend with hi | ⟨now',hmem,hlt⟩
    · exact (hm.closed hs'' hi).terminated
    · exact (hlate now' hmem hlt).terminated

def fair (r : RequestId) (d : QueueId) (s : EngineLoop R) : Turn → Bool
  | .submit _ p => decide (p.requestId ≠ r) || decide (s.deltaQs r ≠ some d)
  | .cancel _ => decide ((s.queue d).length < queueSize)
  | .pump _ => decide ((s.queue d).length < queueSize)
  | .read _ => true

theorem Fair.of_test {e : Turn} (h : fair r d s e = true) : Fair r d s e := by
  cases e with
  | submit now p =>
    simp only [fair,Bool.or_eq_true,decide_eq_true_eq] at h
    exact fun hp => h.resolve_left fun hne => hne hp
  | cancel r' => exact fun _ _ => of_decide_eq_true h
  | pump now => exact fun _ => of_decide_eq_true h
  | read e => trivial

def idle (r : RequestId) (s : EngineLoop R) : Bool :=
  decide (r ∉ s.submitQ.map Pending.requestId) &&
    (s.sched.waiting ++ s.sched.running).all fun i => decide ((s.seq i).requestId ≠ r)

theorem Idle.of_test (h : idle r s = true) : Idle r s := by
  simp only [idle,Bool.and_eq_true,decide_eq_true_eq,List.all_eq_true] at h
  exact h

theorem id_reusable_length : ∃ s s' s'', Transition.exec (EngineLoop.turn fives) { runner := () }
      [.submit 0 (ask "a" 1).2,.pump 1] = some s ∧ s.submit 2 (ask "a" 2).2 = some s' ∧
    Transition.exec (EngineLoop.turn fives) s' [.pump 3,.read 1,.pump 4] = some s'' ∧
    Handed 1 (ask "a" 2).2 (s'.admitPending fives) ∧ Terminated (s''.history 1) := by
  have hrun : ((Transition.exec (EngineLoop.turn fives) { runner := () }
      [.submit 0 (ask "a" 1).2,.pump 1]).map fun s =>
        (s.submit 2 (ask "a" 2).2).map fun s' =>
          (Transition.exec (EngineLoop.turn fives) s' [.pump 3,.read 1,.pump 4]).map fun s'' =>
            decide (s.queues.length = 1) && (idle "a" s && (decide ("a" ∉ s.cancelled) &&
              (Transition.checks (EngineLoop.turn fives) (fair "a" 1) s' [.pump 3,.read 1,.pump 4] &&
                idle "a" s'')))) = some (some (some true)) := by
    decide +kernel
  obtain ⟨s,hs,hv⟩ := Option.map_eq_some_iff.mp hrun
  obtain ⟨s',hs',hv'⟩ := Option.map_eq_some_iff.mp hv
  obtain ⟨s'',hs'',hv''⟩ := Option.map_eq_some_iff.mp hv'
  simp only [Bool.and_eq_true,decide_eq_true_eq] at hv''
  obtain ⟨hlen,hidle,hc,hfair,hidle''⟩ := hv''
  have h := id_reusable fives () _ s s' 2 (ask "a" 2).2 hs (.of_test hidle) hs'
  rw [hlen] at h
  exact ⟨s,s',s'',hs,hs',hs'',h.1.mpr hc,h.2 hc _ s'' hs'' (.of_checks (fun _ _ => Fair.of_test) hfair)
    (.inl (.of_test hidle''))⟩

/-- A `cancel` of an unknown id drops the next request with that id. -/
theorem cancelled_id_dropped : ∃ s s', Transition.exec (EngineLoop.turn fives) { runner := () }
      [.cancel "a"] = some s ∧ Idle "a" s ∧ s.submit 2 (ask "a" 2).2 = some s' ∧
    ¬ Handed s.queues.length (ask "a" 2).2 (s'.admitPending fives) := by
  have hrun : ((Transition.exec (EngineLoop.turn fives) { runner := () } [.cancel "a"]).map fun s =>
        (s.submit 2 (ask "a" 2).2).map fun s' =>
          (idle "a" s,decide ((s'.admitPending fives).sched.waiting = []),
            decide ((s'.admitPending fives).queue s.queues.length = []))) =
      some (some (true,true,true)) := by
    decide +kernel
  obtain ⟨s,hs,hv⟩ := Option.map_eq_some_iff.mp hrun
  obtain ⟨s',hs',hv'⟩ := Option.map_eq_some_iff.mp hv
  simp only [Prod.mk.injEq,decide_eq_true_eq] at hv'
  obtain ⟨hidle,hwait,hqueue⟩ := hv'
  refine ⟨s,s',hs,.of_test hidle,hs',?_⟩
  rintro (⟨i,hi,_⟩ | ⟨e,he⟩)
  · rw [hwait] at hi
    exact absurd hi (by simp)
  · rw [hqueue] at he
    exact absurd he (by simp)

end EngineLoop

end SglangLite.Loop
