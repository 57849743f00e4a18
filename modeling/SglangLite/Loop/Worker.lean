import SglangLite.Control.Params
import SglangLite.Loop.Faults
import SglangLite.Loop.Lockstep

set_option autoImplicit false

namespace SglangLite.Loop
open Kv Sched Text Control

variable {R : Type} {b : Backend R}

/-- A broadcast message; `"warmup"` is handled like `"generate"`. The clock of
the loop counts `timeout` for `timeout_s`. -/
inductive Msg where
  | generate (r : GenerationRequest) (inputIds : List Token) (timeout : Time)
  | cancel (r : RequestId)
  | unknown

/-- Where `_tp_worker_loop` is: it waits for the next broadcast, it is in
`pump_until_idle` for a request with its queue and a deadline, it has left the
loop, or an exception has left it. -/
inductive Worker (R : Type) where
  | waiting (s : EngineLoop R)
  | pumping (p : Pending) (q : QueueId) (due : Time) (s : EngineLoop R)
  | stopped (s : EngineLoop R)
  | dead

namespace Worker

/-- The next broadcast, with what the clock gives for the deadline of the pump, or
the next round of the pump with its two readings of the clock. -/
inductive Event where
  | receive (now due : Time) (m : Option Msg)
  | round (t now : Time)

def step (b : Backend R) : Worker R → Event → Option (Worker R)
  | .waiting s, .receive _ _ none => some (.stopped s)
  | .waiting s, .receive now due (some (.generate r inputIds timeout)) =>
      let p := pendingOf r.requestId inputIds (paramsFromReq r) timeout
      match s.submit now p with
      | none => some .dead
      | some s' => some (.pumping p s.queues.length due s')
  | .waiting s, .receive _ _ (some (.cancel r)) => some (.waiting (s.cancel b r))
  | .waiting s, .receive _ _ (some .unknown) => some (.waiting s)
  | .pumping p q due s, .round t now =>
      match s.round b due t now with
      | (s',.again) => some (.pumping p q due s')
      | (s',.returned) => some (.waiting s')
      | (_,.raised) => some .dead
  | _, _ => none

def Valid : Event → Prop
  | .receive _ _ (some (.generate r inputIds _)) => r.errors = [] ∧ inputIds ≠ []
  | _ => True

/-- `top_k` is not negative. While there is work, a round of the pump begins before
its deadline, and the burst that the step makes does not raise. -/
def Safe (b : Backend R) : Worker R → Event → Prop
  | .waiting _, .receive _ _ (some (.generate r _ _)) => ∀ k, r.topK = some k → 0 ≤ k
  | .pumping _ _ due s, .round t now => (s.admitPending b).busy = true →
      t ≤ due ∧ ∀ c, EngineLoop.ranBurst b ((s.admitPending b).beforeStep b now) = some c →
        ∀ e, c.result ≠ .error e
  | _, _ => True

end Worker

namespace EngineLoop

variable {s s' : EngineLoop R} {r : RequestId} {q : QueueId} {i : SeqId} {p : Pending}

structure Alive (r : RequestId) (q : QueueId) (i : SeqId) (s : EngineLoop R) : Prop where
  live : (s.seq i).finished = false
  name : (s.seq i).requestId = r
  only : ∀ j, (s.seq j).finished = false → j = i
  found : s.sched.byRequest r = some i
  queue : s.deltaQs r = some q
  empty : s.submitQ = []

def Done (s : EngineLoop R) : Prop := s.submitQ = [] ∧ ∀ j, (s.seq j).finished = true

structure Queued (p : Pending) (q : QueueId) (s : EngineLoop R) : Prop where
  submitQ : s.submitQ = [p]
  ended : ∀ j, (s.seq j).finished = true
  queue : s.deltaQs p.requestId = some q
  fresh : s.queue q = []

def Engaged (p : Pending) (q : QueueId) (s : EngineLoop R) : Prop :=
  Queued p q s ∨ (∃ i, Alive p.requestId q i s) ∨ Done s

section Phases

theorem busy_iff (hs : Sound s) : s.busy = false ↔ Done s := by
  rw [busy_eq_false]
  have hq : (s.sched.waiting = [] ∧ s.sched.running = []) ↔ ∀ j, (s.seq j).finished = true := by
    constructor
    · rintro ⟨hw,hr⟩ j
      by_contra hl
      have hlive : (s.seq j).finished = false := by simpa using hl
      have := (hs.kept.queued j).mpr hlive
      rw [hw,hr] at this
      exact absurd this (by simp)
    · intro hall
      refine List.append_eq_nil_iff.mp (List.eq_nil_iff_forall_not_mem.mpr fun j hj => ?_)
      have := (hs.kept.queued j).mp hj
      rw [show (s.sched.seq j).finished = true from hall j] at this
      exact absurd this (by simp)
  rw [hq]
  rfl

theorem Done.stays (h : Done s) (hst : Stays s s') : Done s' := by
  refine ⟨hst.submitQ.trans h.1,fun j => ?_⟩
  by_contra hl
  exact absurd ((h.2 j).symm.trans (hst.live j (by simpa using hl))) (by simp)

theorem Alive.done (h : Alive r q i s) (hst : Stays s s') (hend : (s'.seq i).finished = true) : Done s' := by
  refine ⟨hst.submitQ.trans h.empty,fun j => ?_⟩
  by_contra hl
  have hj := h.only j (hst.live j (by simpa using hl))
  exact hl (hj ▸ hend)

theorem Alive.congr (h : Alive r q i s) (hst : Stays s s') (hl : (s'.seq i).finished = false)
    (h1 : s'.sched.byRequest r = s.sched.byRequest r) (h2 : s'.deltaQs r = s.deltaQs r) : Alive r q i s' :=
  ⟨hl,(hst.requestId i).trans h.name,fun j hj => h.only j (hst.live j hj),h1.trans h.found,h2.trans h.queue,
    hst.submitQ.trans h.empty⟩

theorem finished_schedCancel (hi : s.sched.byRequest r = some i) (hl : (s.seq i).finished = false) :
    ((s.schedCancel b r).seq i).finished = true := by
  have hlt : i < s.sched.seqs.length := Scheduler.lt_of_unfinished hl
  simp only [EngineLoop.schedCancel,hi]
  show (((s.sched.modify i _).markFinished i .cancelled).seq i).finished = true
  rw [Scheduler.seq_end,if_pos ⟨rfl,hlt⟩]

theorem Alive.schedCancel_other {r' : RequestId} (h : Alive r q i s) (hs : Sound s) (hr : r' ≠ r) :
    s.schedCancel b r' = s := by
  unfold EngineLoop.schedCancel
  cases hb : s.sched.byRequest r' with
  | none => rfl
  | some j =>
    obtain ⟨hj,hl⟩ := hs.kept.byRequest r' j hb
    have hji := h.only j hl
    subst hji
    exact absurd (hj.symm.trans h.name) hr

theorem Alive.emit_other {r' : RequestId} {f : Frame} {final : Bool} (h : Alive r q i s) (hs : Sound s)
    (hr : r' ≠ r) : Alive r q i (s.emit b r' f final) := by
  have he := emit_emitted (b := b) s r' f final
  have hsched : (s.emit b r' f final).sched = s.sched := by
    rcases he.sched with hsc | ⟨hsc,_⟩
    · exact hsc
    · rw [hsc,h.schedCancel_other hs hr]
  refine h.congr (stays_emit s r' f final) (by rw [EngineLoop.seq,hsched]; exact h.live) (by rw [hsched]) ?_
  rw [he.deltaQs]
  cases final with
  | false => rfl
  | true =>
    simp only [if_true]
    rw [Function.update_of_ne (Ne.symm hr)]

theorem Alive.act {x : Option SeqId} (h : Alive r q i s) (ha : Act b s x s') :
    Alive r q i s' ∨ Done s' := by
  have hst := ha.stays
  cases ha with
  | quiet => exact .inl (h.congr hst h.live rfl rfl)
  | note => exact .inl (h.congr hst h.live rfl rfl)
  | touch j f hf =>
    refine .inl (h.congr hst ?_ rfl rfl)
    rw [seq_modify]
    split_ifs with hj
    · rw [hf.finished,← hj.1]
      exact h.live
    · exact h.live
  | drop => exact .inl (h.congr hst h.live rfl rfl)
  | more j f fr prevText hj hf hfr =>
    obtain rfl := h.only j hj
    by_cases hl : ((({ s.modify j f with prevText := prevText } : EngineLoop R).emit b
        (s.seq j).requestId fr false).seq j).finished = false
    · refine .inl (h.congr hst hl ?_ ?_)
      · have he := emit_emitted (b := b) ({ s.modify j f with prevText := prevText } : EngineLoop R)
          (s.seq j).requestId fr false
        rcases he.sched with hsc | ⟨hsc,_⟩
        · rw [hsc]
          rfl
        · have hend : ((({ s.modify j f with prevText := prevText } : EngineLoop R).schedCancel b
              (s.seq j).requestId).seq j).finished = true := by
            refine finished_schedCancel (by rw [h.name]; exact h.found) ?_
            show ((s.modify j f).seq j).finished = false
            rw [seq_modify]
            split_ifs
            · rw [hf.finished]; exact hj
            · exact hj
          rw [EngineLoop.seq,hsc] at hl
          exact absurd (hend.symm.trans hl) (by simp)
      · rw [(emit_emitted (b := b) ({ s.modify j f with prevText := prevText } : EngineLoop R)
          (s.seq j).requestId fr false).deltaQs]
        rfl
    · exact .inr (h.done hst (by simpa using hl))
  | last j f reason fr prevText hj hf hfr =>
    obtain rfl := h.only j hj
    refine .inr (h.done hst ?_)
    have hlt : j < s.sched.seqs.length := Scheduler.lt_of_unfinished hj
    rw [EngineLoop.seq,last_sched hf,Scheduler.seq_end,if_pos ⟨rfl,hlt⟩]

theorem Alive.work {l : List SeqId} (h : Alive r q i s ∨ Done s) (hw : Work b s l s') :
    Alive r q i s' ∨ Done s' := by
  have hact : ∀ {x : Option SeqId} {s s' : EngineLoop R}, Act b s x s' → Alive r q i s ∨ Done s →
      Alive r q i s' ∨ Done s' := by
    rintro x s s' ha (h | h)
    · exact h.act ha
    · exact .inr (h.stays ha.stays)
  induction hw with
  | nil s => exact h
  | calm ha _ ih => exact ih (hact ha h)
  | sends ha _ ih => exact ih (hact ha h)

theorem Alive.checkTimeouts (h : Alive r q i s) (hs : Sound s) (now : Time) :
    Alive r q i (s.checkTimeouts b now) ∨ Done (s.checkTimeouts b now) := by
  have key : ∀ (l : List RequestId) (s : EngineLoop R), Sound s → Alive r q i s ∨ Done s →
      let s' := l.foldl (fun s r => (s.schedCancel b r).emit b r { finishReason := some .timeout } true) s
      Alive r q i s' ∨ Done s' := by
    intro l
    induction l with
    | nil => exact fun s _ h => h
    | cons r' l ih =>
      intro s hs h
      refine ih _ ((hs.schedCancel r').emit r' _ true) ?_
      have hst := (stays_schedCancel (b := b) s r').trans
        (stays_emit (b := b) _ r' { finishReason := some .timeout } true)
      rcases h with h | h
      · by_cases hr : r' = r
        · subst hr
          have hend := finished_schedCancel (b := b) h.found h.live
          exact .inr ((h.done (stays_schedCancel s r') hend).stays (stays_emit _ r' _ true))
        · beta_reduce
          rw [h.schedCancel_other hs hr]
          exact .inl (h.emit_other hs hr)
      · exact .inr (h.stays hst)
  exact key (s.expired now) s hs (.inl h)

theorem Alive.runStep (h : Alive r q i s) (hs : Sound s) :
    Alive r q i (s.runStep b).1 ∨ Done (s.runStep b).1 := by
  obtain ⟨l,_,hw⟩ := work_runStep (b := b) hs
  have hf : Alive r q i (s.formed b) := h.congr (.of_same rfl rfl rfl rfl) h.live rfl rfl
  exact Alive.work (.inl hf) hw

end Phases

section Rounds

def Refused (b : Backend R) (p : Pending) (e : Fault) (s : EngineLoop R) : Prop :=
  s.submitQ = [p] ∧ p.requestId ∉ s.cancelled ∧
    (({ s with submitQ := [] } : EngineLoop R).addRequest b p.request).2 = .error e

theorem addRequest_error {x : Request} {e : Fault} (h : (s.addRequest b x).2 = .error e) :
    ∃ runner, (s.addRequest b x).1 = { s with runner := runner } := by
  unfold EngineLoop.addRequest at h ⊢
  split_ifs at h ⊢
  · exact ⟨s.runner,rfl⟩
  · exact ⟨s.runner,rfl⟩
  · rcases hm : b.matchPrefix s.runner s.sched.seqs.length x with ⟨runner,res⟩
    rw [hm] at h
    cases res with
    | error e' => exact ⟨runner,rfl⟩
    | ok ch => cases h

theorem Queued.admitPending (h : Queued p q s) :
    (∃ i, Alive p.requestId q i (s.admitPending b)) ∨ Done (s.admitPending b) := by
  have hdone : Done { s with submitQ := [] } := ⟨rfl,h.ended⟩
  unfold EngineLoop.admitPending
  rw [h.submitQ]
  show (∃ i, Alive p.requestId q i (({ s with submitQ := [] } : EngineLoop R).admitOne b p)) ∨
    Done (({ s with submitQ := [] } : EngineLoop R).admitOne b p)
  rcases admitOne_cases b { s with submitQ := [] } p with
    ⟨_,heq⟩ | ⟨_,runner,x,hid,_,_,hfin,_,heq⟩ | ⟨_,runner,e,heq⟩
  · rw [heq]
    exact .inr hdone
  · rw [heq]
    have hnew : ∀ j, ((({ s with submitQ := [] } : EngineLoop R).joined runner x).seq j).finished = false →
        j = s.sched.seqs.length := by
      intro j hj
      by_contra hne
      have hold : (({ s with submitQ := [] } : EngineLoop R).joined runner x).seq j = s.seq j :=
        (seq_joined _ runner x j).trans (if_neg hne)
      rw [hold,h.ended j] at hj
      exact absurd hj (by simp)
    have hown : (({ s with submitQ := [] } : EngineLoop R).joined runner x).seq s.sched.seqs.length = x :=
      (seq_joined _ runner x _).trans (if_pos rfl)
    refine .inl ⟨s.sched.seqs.length,by rw [hown]; exact hfin,by rw [hown]; exact hid,hnew,?_,h.queue,rfl⟩
    show Function.update s.sched.byRequest x.requestId (some s.sched.seqs.length) p.requestId = _
    rw [hid,Function.update_self]
  · rw [heq]
    have hst : Stays { s with submitQ := [] } { s with submitQ := [], runner := runner } :=
      .of_same rfl rfl rfl rfl
    exact .inr (hdone.stays (hst.trans (stays_emit _ _ _ true)))

theorem Queued.refused {e : Fault} (h : Queued p q s) (hs : Sound s) (hr : Refused b p e s) :
    Done (s.admitPending b) ∧ (s.admitPending b).queue q = [errorFrame e.admission none] := by
  obtain ⟨_,hc,herr⟩ := hr
  obtain ⟨runner,heq⟩ := addRequest_error herr
  have hadd : (({ s with submitQ := [] } : EngineLoop R).addRequest b p.request) =
      ({ s with submitQ := [], runner := runner },.error e) := Prod.ext heq herr
  have htaken : s.admitPending b = ({ s with submitQ := [], runner := runner } : EngineLoop R).emit b
      p.requestId (errorFrame e.admission none) true := by
    unfold EngineLoop.admitPending
    rw [h.submitQ]
    show (({ s with submitQ := [] } : EngineLoop R).admitOne b p) = _
    rw [EngineLoop.admitOne,if_neg (by exact hc),hadd]
  have hdone : Done { s with submitQ := [], runner := runner } := ⟨rfl,h.ended⟩
  rw [htaken]
  refine ⟨hdone.stays (stays_emit _ _ _ true),?_⟩
  have hq : ({ s with submitQ := [], runner := runner } : EngineLoop R).queue q = [] := h.fresh
  have hown := (emit_emitted (b := b) ({ s with submitQ := [], runner := runner } : EngineLoop R) p.requestId
    (errorFrame e.admission none) true).own q h.queue (hs.made _ q h.queue) (by rw [hq]; simp [queueSize])
  rw [hown.2,hq]
  rfl

theorem admitPending_nil (h : s.submitQ = []) : s.admitPending b = s := by
  rw [EngineLoop.admitPending,h]
  rfl

theorem Engaged.admitPending (h : Engaged p q s) :
    (∃ i, Alive p.requestId q i (s.admitPending b)) ∨ Done (s.admitPending b) := by
  rcases h with h | ⟨i,h⟩ | h
  · exact h.admitPending
  · rw [admitPending_nil h.empty]
    exact .inl ⟨i,h⟩
  · rw [admitPending_nil h.1]
    exact .inr h

theorem Alive.beforeStep (h : Alive r q i s) (hs : Sound s) (now : Time) :
    Alive r q i (s.beforeStep b now) ∨ Done (s.beforeStep b now) := by
  rw [EngineLoop.beforeStep,admitPending_nil h.empty]
  exact h.checkTimeouts hs now

theorem Alive.pumpOnce (h : Alive r q i s) (hs : Sound s) (now : Time) :
    Alive r q i (s.pumpOnce b now).1 ∨ Done (s.pumpOnce b now).1 := by
  have hs' : Sound (s.beforeStep b now) := hs.admitPending.checkTimeouts now
  rcases h.beforeStep (b := b) hs now with h | h
  · exact h.runStep hs'
  · exact .inr (h.stays (stays_runStep hs'))

theorem Alive.batchFails {e : Fault} (h : Alive r q i s) (hs : Sound s) (hf : BatchFails b s e) :
    (s.runStep b).2 = .worked ∧ Done (s.runStep b).1 ∧ ((s.queue q).length < queueSize →
      ∃ u, (s.runStep b).1.queue q = s.queue q ++ [errorFrame e.text u]) := by
  obtain ⟨hform,hbform⟩ := hs.formed (b := b)
  have hw := work_absorb (b := b) (s.formed b) ((batchOf b s).map Prod.fst) (ranBatch b s)
  have hs₁ : Sound (afterRun b s) := hform.work hw
  have hb : Batch (afterRun b s) ((batchOf b s).map Prod.fst) := hw.batch rfl hbform
  obtain ⟨m,hm⟩ : ∃ m, batchOf b s = [m] ∧ m.1 = i := by
    have hone : ∀ m ∈ batchOf b s, m.1 = i := fun m hm =>
      h.only m.1 (hbform.live m.1 (List.mem_map_of_mem hm))
    have hnd := hb.nodup
    revert hone hnd
    cases hbatch : batchOf b s with
    | nil => exact absurd hbatch hf.1
    | cons m rest =>
      intro hone hnd
      cases rest with
      | nil => exact ⟨m,rfl,hone m (by simp)⟩
      | cons m' rest =>
        exfalso
        rw [List.map_cons,List.map_cons,List.nodup_cons,hone m (by simp),hone m' (by simp)] at hnd
        exact hnd.1 (by simp)
  have hid : ((afterRun b s).seq i).requestId = r :=
    (hw.stays.requestId i).trans h.name
  have hd : (afterRun b s).deltaQs ((afterRun b s).seq i).requestId = some q := by
    rw [hid]
    exact h.queue
  rw [runStep_fails hf]
  refine ⟨rfl,?_,fun hroom => ?_⟩
  · have hab := work_abortBatch (b := b) (e := e) hb
    have hend := (aborted_abortBatch (b := b) (e := e) hs₁ hb).ended i
      (by rw [hm.1,← hm.2]; simp)
    have hst : Stays s ((afterRun b s).abortBatch b e (batchOf b s)) :=
      ((Stays.of_same rfl rfl rfl rfl : Stays s (s.formed b)).trans hw.stays).trans hab.stays
    exact h.done hst hend.1
  · have hone : Batch (afterRun b s) (([] ++ m :: []).map Prod.fst) := by
      rw [List.nil_append,← hm.1]
      exact hb
    have hq := abortBatch_first (b := b) (e := e) hs₁ hone (by rw [hm.2]; exact hd) (by simp)
    rw [if_pos (by exact hroom)] at hq
    rw [hm.1]
    exact ⟨_,hq⟩

/-- Only the burst lets an exception leave the step. -/
theorem runStep_raised : (s.runStep b).2 = .raised ↔
    ∃ c, ranBurst b s = some c ∧ ∃ e, c.result = .error e := by
  constructor
  · intro h
    have hne : (s.sched.step b.sched).2 ≠ [] := by
      intro hnil
      rw [EngineLoop.runStep] at h
      simp only [if_pos hnil] at h
      exact absurd h (by simp)
    rw [runStep_eq s hne] at h
    have hres : (b.runBatch s.runner (s.sched.step b.sched).1 (s.sched.step b.sched).2).result =
        (ranBatch b s).result := rfl
    rw [hres] at h
    cases hr : (ranBatch b s).result with
    | error e =>
      rw [hr] at h
      exact absurd h (by simp [EngineLoop.afterBatch])
    | ok toks =>
      rw [hr] at h
      have hfin : ((afterRun b s).finishBatch b (batchOf b s) toks).2 = .raised := h
      unfold EngineLoop.finishBatch at hfin
      simp only at hfin
      split at hfin
      · rename_i i first rest hbatch
        split_ifs at hfin with hcond
        · unfold EngineLoop.burstOne at hfin
          simp only at hfin
          split_ifs at hfin with hextra
          · have hburst : ranBurst b s = some (b.decodeBurst
                ((afterRun b s).modify i fun q => { q with outputIds := q.outputIds ++ [first] }).runner
                ((afterRun b s).modify i fun q => { q with outputIds := q.outputIds ++ [first] }).sched i
                (min (((afterRun b s).seq i).maxTokens-((afterRun b s).seq i).outputIds.length-1)
                  (b.burst-1))) := by
              unfold ranBurst
              rw [hbatch,hr]
              simp only
              rw [if_pos ⟨hcond.1,hcond.2,hextra⟩]
            refine ⟨_,hburst,?_⟩
            split at hfin
            · rename_i e he
              exact ⟨e,he⟩
            · exact absurd hfin (by simp)
      · exact absurd hfin (by simp)
  · rintro ⟨c,hc,e,he⟩
    exact runStep_burst hc he

theorem round_raised (due t now : Time) : (s.round b due t now).2 = .raised ↔
    ¬ ((s.admitPending b).busy = true → t ≤ due ∧
      ∀ c, ranBurst b ((s.admitPending b).beforeStep b now) = some c → ∀ e, c.result ≠ .error e) := by
  have hstep : ((s.admitPending b).pumpOnce b now).2 = .raised ↔
      ∃ c, ranBurst b ((s.admitPending b).beforeStep b now) = some c ∧ ∃ e, c.result = .error e :=
    runStep_raised
  unfold EngineLoop.round
  simp only
  split_ifs with hb ht
  · simp only [true_iff]
    intro h
    exact absurd (h hb).1 (Nat.not_le.mpr ht)
  · rcases hp : (s.admitPending b).pumpOnce b now with ⟨s₂,res⟩
    rw [hp] at hstep
    simp only at hstep
    refine Iff.trans ?_ (hstep.trans ?_)
    · cases res <;> simp
    · simp [hb,Nat.not_lt.mp ht]
  · simp [hb]

theorem admitOne_draining (p : Pending) : (s.admitOne b p).draining = s.draining := by
  rcases admitOne_cases b s p with ⟨_,heq⟩ | ⟨_,runner,q,_,_,_,_,_,heq⟩ | ⟨_,runner,e,heq⟩
  · rw [heq]
  · rw [heq]; rfl
  · rw [heq,(emit_emitted _ _ _ _).draining]

theorem admitLoop_draining (l : List Pending) (s : EngineLoop R) :
    (s.admitLoop b l).draining = s.draining := by
  induction l generalizing s with
  | nil => rfl
  | cons p l ih => exact (ih _).trans (admitOne_draining p)

theorem pumpOnce_draining (hs : Sound s) (now : Time) : (s.pumpOnce b now).1.draining = s.draining := by
  have h₁ : (s.admitPending b).draining = s.draining := admitLoop_draining s.submitQ s
  have hs' : Sound (s.beforeStep b now) := hs.admitPending.checkTimeouts now
  exact (runStep_flags hs').2.trans ((checkTimeouts_flags _ now).2.trans h₁)

theorem cancel_draining (r : RequestId) : (s.cancel b r).draining = s.draining := by
  obtain ⟨_,_,_,_,h5,_⟩ := schedCancel_mail (b := b) { s with cancelled := r :: s.cancelled } r
  unfold EngineLoop.cancel
  simp only
  split_ifs
  · rw [(emit_emitted _ _ _ _).draining]
    exact h5
  · exact h5

/-- What one round makes of an engaged engine, if it does not raise. -/
theorem Engaged.round (h : Engaged p q s) (hs : Sound s) (due t now : Time) :
    Sound (s.round b due t now).1 ∧ (s.round b due t now).1.draining = s.draining ∧
    ((s.round b due t now).2 = .again → Engaged p q (s.round b due t now).1) ∧
    ((s.round b due t now).2 = .returned → Done (s.round b due t now).1) := by
  have ha := h.admitPending (b := b)
  have hsa : Sound (s.admitPending b) := hs.admitPending
  have hda : (s.admitPending b).draining = s.draining := admitLoop_draining s.submitQ s
  unfold EngineLoop.round
  simp only
  split_ifs with hb ht
  · exact ⟨hsa,hda,by simp,by simp⟩
  · obtain ⟨i,ha⟩ : ∃ i, Alive p.requestId q i (s.admitPending b) := by
      rcases ha with ha | ha
      · exact ha
      · rw [(busy_iff hsa).mpr ha] at hb
        exact absurd hb (by simp)
    have hp := ha.pumpOnce (b := b) hsa now
    have hsp : Sound ((s.admitPending b).pumpOnce b now).1 := hsa.pumpOnce now
    have hdp := (pumpOnce_draining (b := b) hsa now).trans hda
    have hnext : Engaged p q ((s.admitPending b).pumpOnce b now).1 := .inr (hp.imp (fun h => ⟨i,h⟩) id)
    rcases hpump : (s.admitPending b).pumpOnce b now with ⟨s₂,res⟩
    rw [hpump] at hsp hdp hnext
    cases res <;> exact ⟨hsp,hdp,by simp [hnext],by simp⟩
  · exact ⟨hsa,hda,by simp,fun _ => (busy_iff hsa).mp (by simpa using hb)⟩

end Rounds

end EngineLoop

namespace Worker

open EngineLoop

variable {w w' : Worker R} {e : Event}

/-- Between broadcasts nothing is left to do, and in the pump there is one request
at most. -/
def Fit : Worker R → Prop
  | .waiting s => Sound s ∧ Done s ∧ s.draining = false
  | .pumping p q _ s => Sound s ∧ Engaged p q s ∧ s.draining = false
  | .stopped _ => True
  | .dead => True

theorem fit_init (r₀ : R) : Fit (.waiting { runner := r₀ } : Worker R) :=
  ⟨sound_init r₀,⟨rfl,fun _ => rfl⟩,rfl⟩

theorem fit_generate {s s' : EngineLoop R} {now : Time} {p : Pending} (hs : Sound s) (hd : Done s)
    (hf : s.draining = false) (h : s.submit now p = some s') (due : Time) :
    Fit (.pumping p s.queues.length due s') := by
  have ha := accepted_submit h
  refine ⟨hs.submit h,.inl ⟨?_,fun j => ?_,?_,ha.queue_new⟩,ha.draining.trans hf⟩
  · rw [ha.submitQ,hd.1]
    rfl
  · rw [ha.seq]
    exact hd.2 j
  · rw [ha.deltaQs,Function.update_self]

theorem Fit.step (h : Fit w) (hs : Worker.step b w e = some w') : Fit w' := by
  cases w with
  | stopped s => cases e <;> cases hs
  | dead => cases e <;> cases hs
  | waiting s =>
    cases e with
    | round t now => cases hs
    | receive now due m =>
      cases m with
      | none => obtain rfl := Option.some.inj hs; trivial
      | some m =>
        cases m with
        | unknown => obtain rfl := Option.some.inj hs; exact h
        | cancel r =>
          obtain rfl := Option.some.inj hs
          exact ⟨h.1.cancel r,h.2.1.stays (stays_cancel s r),(cancel_draining r).trans h.2.2⟩
        | generate r inputIds timeout =>
          simp only [Worker.step] at hs
          split at hs
          · obtain rfl := Option.some.inj hs; trivial
          · rename_i s' hsub
            obtain rfl := Option.some.inj hs
            exact fit_generate h.1 h.2.1 h.2.2 hsub due
  | pumping p q due s =>
    cases e with
    | receive now due' m => cases hs
    | round t now =>
      obtain ⟨h1,h2,h3,h4⟩ := h.2.1.round (b := b) h.1 due t now
      simp only [Worker.step] at hs
      split at hs <;> obtain rfl := Option.some.inj hs
      · rename_i s' heq
        rw [heq] at h1 h2 h3
        exact ⟨h1,h3 rfl,h2.trans h.2.2⟩
      · rename_i s' heq
        rw [heq] at h1 h2 h4
        exact ⟨h1,h4 rfl,h2.trans h.2.2⟩
      · trivial

/-- The checks of `submit` that the validators do not make. -/
theorem submit_valid {s : EngineLoop R} {r : GenerationRequest} {inputIds : List Token} (now timeout : Time)
    (hd : s.draining = false) (hv : r.errors = []) (hi : inputIds ≠ []) :
    s.submit now (pendingOf r.requestId inputIds (paramsFromReq r) timeout) ≠ none ↔
      ∀ k, r.topK = some k → 0 ≤ k := by
  have hsub : s.submit now (pendingOf r.requestId inputIds (paramsFromReq r) timeout) ≠ none ↔
      s.refuses (pendingOf r.requestId inputIds (paramsFromReq r) timeout) = false := by
    unfold EngineLoop.submit EngineLoop.refuses
    rw [hd]
    simp only [Bool.false_eq_true,if_false,Bool.false_or]
    split_ifs with hc
    · simp [hc]
    · simp [hc]
  obtain ⟨hmax,htemp,htop⟩ := GenerationRequest.errors_eq_nil.mp hv
  rw [hsub,refuses_pendingOf,hd,submitChecks_ok]
  cases hk : r.topK with
  | none => simp [paramsFromReq,GenParams.samplingOk,hmax,htemp,htop,hk,hi]
  | some k => simp [paramsFromReq,GenParams.samplingOk,hmax,htemp,htop,hk,hi]

theorem Fit.survives (h : Fit w) (hv : Valid e) (hs : Worker.step b w e = some w') :
    w' ≠ .dead ↔ Safe b w e := by
  cases w with
  | stopped s => cases e <;> cases hs
  | dead => cases e <;> cases hs
  | waiting s =>
    cases e with
    | round t now => cases hs
    | receive now due m =>
      cases m with
      | none => obtain rfl := Option.some.inj hs; simp [Safe]
      | some m =>
        cases m with
        | unknown => obtain rfl := Option.some.inj hs; simp [Safe]
        | cancel r => obtain rfl := Option.some.inj hs; simp [Safe]
        | generate r inputIds timeout =>
          have hsub := submit_valid now timeout h.2.2 hv.1 hv.2
          rw [Safe,← hsub]
          simp only [Worker.step] at hs
          split at hs
          · rename_i hnone
            obtain rfl := Option.some.inj hs
            simp [hnone]
          · rename_i s' hsome
            obtain rfl := Option.some.inj hs
            simp [hsome]
  | pumping p q due s =>
    cases e with
    | receive now due' m => cases hs
    | round t now =>
      have hr := round_raised (b := b) (s := s) due t now
      rw [Safe,← not_iff_not,← hr]
      simp only [Worker.step] at hs
      split at hs <;> rename_i heq <;> obtain rfl := Option.some.inj hs <;> simp [heq]

theorem Fit.run {es : List Event} (h : Fit w) (ha : w ≠ .dead) (hv : ∀ e ∈ es, Valid e)
    (hr : Transition.exec (Worker.step b) w es = some w') :
    Fit w' ∧ (w' ≠ .dead ↔ Transition.Guarded (Worker.step b) (Safe b) w es) := by
  induction es generalizing w with
  | nil =>
    obtain rfl := Option.some.inj hr
    exact ⟨h,by simp [ha,Transition.Guarded]⟩
  | cons e es ih =>
    obtain ⟨w₁,h₁,hr₁⟩ := Option.bind_eq_some_iff.mp hr
    have hsafe := h.survives (hv e (by simp)) h₁
    have hfit := h.step h₁
    by_cases hd : w₁ = .dead
    · -- nothing follows the exception
      have hes : es = [] := by
        cases es with
        | nil => rfl
        | cons e' es' =>
          rw [hd] at hr₁
          cases e' <;> cases hr₁
      subst hes
      obtain rfl := Option.some.inj hr₁
      refine ⟨hfit,⟨fun hne => absurd hd hne,fun hg => ?_⟩⟩
      exact absurd hd (hsafe.mpr hg.1)
    · obtain ⟨hf,hiff⟩ := ih hfit hd (fun e' he' => hv e' (by simp [he'])) hr₁
      refine ⟨hf,hiff.trans ⟨fun hg => ⟨hsafe.mp hd,fun w₂ h₂ => ?_⟩,fun hg => hg.2 w₁ h₁⟩⟩
      rw [h₁] at h₂
      exact Option.some.inj h₂ ▸ hg

/-- The request in the pump, when the scheduler refuses it or `run_batch` raises:
it ends with an error frame, and the next round of the pump returns. -/
structure Reported (b : Backend R) (p : Pending) (q : QueueId) (due : Time) (s : EngineLoop R) : Prop where
  refused : ∀ e t now, Refused b p e s → (s.round b due t now).2 = .returned ∧
    (s.round b due t now).1.queue q = [errorFrame e.admission none]
  failed : ∀ e t now, t ≤ due → BatchFails b ((s.admitPending b).beforeStep b now) e →
    (s.round b due t now).2 = .again ∧ (s.round b due t now).1.busy = false ∧
      ((((s.admitPending b).beforeStep b now).queue q).length < queueSize →
        ∃ u, (s.round b due t now).1.queue q =
          ((s.admitPending b).beforeStep b now).queue q ++ [errorFrame e.text u])

theorem Fit.reported {p : Pending} {q : QueueId} {due : Time} {s : EngineLoop R}
    (h : Fit (.pumping p q due s)) : Reported b p q due s := by
  obtain ⟨hs,he,_⟩ := h
  have hsa : Sound (s.admitPending b) := hs.admitPending
  refine ⟨fun e t now hr => ?_,fun e t now ht hf => ?_⟩
  · have hq : Queued p q s := by
      rcases he with h | ⟨i,h⟩ | h
      · exact h
      · exact absurd (h.empty.symm.trans hr.1) (by simp)
      · exact absurd (h.1.symm.trans hr.1) (by simp)
    obtain ⟨hd,hqueue⟩ := hq.refused hs hr
    have hidle := (busy_iff hsa).mpr hd
    simp only [EngineLoop.round,hidle]
    exact ⟨rfl,hqueue⟩
  · have hsb : Sound ((s.admitPending b).beforeStep b now) := hsa.admitPending.checkTimeouts now
    obtain ⟨i,ha⟩ : ∃ i, Alive p.requestId q i ((s.admitPending b).beforeStep b now) := by
      have hnot : ¬ Done ((s.admitPending b).beforeStep b now) := by
        intro hd
        obtain ⟨m,hm⟩ := List.exists_mem_of_ne_nil _ hf.1
        have hlive := (hsb.formed (b := b)).2.live m.1 (List.mem_map_of_mem hm)
        exact absurd ((hd.2 m.1).symm.trans hlive) (by simp)
      rcases he.admitPending (b := b) with ⟨i,ha⟩ | hd
      · exact ⟨i,(ha.beforeStep hsa now).resolve_right hnot⟩
      · refine absurd ?_ hnot
        rw [EngineLoop.beforeStep,admitPending_nil hd.1]
        exact hd.stays (stays_checkTimeouts _ now)
    have hbusy : (s.admitPending b).busy = true := by
      by_contra hb
      have hd := (busy_iff hsa).mp (by simpa using hb)
      have hst : Stays (s.admitPending b) ((s.admitPending b).beforeStep b now) := by
        rw [EngineLoop.beforeStep,admitPending_nil hd.1]
        exact stays_checkTimeouts _ now
      exact absurd (((hd.stays hst).2 i).symm.trans ha.live) (by simp)
    obtain ⟨hw,hd,hq⟩ := ha.batchFails hsb hf
    have hround : s.round b due t now = ((((s.admitPending b).beforeStep b now).runStep b).1,.again) := by
      unfold EngineLoop.round
      simp only
      rw [if_pos hbusy,if_neg (Nat.not_lt.mpr ht)]
      rcases hp : (s.admitPending b).pumpOnce b now with ⟨s₂,res⟩
      have hp' : ((s.admitPending b).beforeStep b now).runStep b = (s₂,res) := hp
      rw [hp'] at hw ⊢
      simp only at hw
      rw [hw]
    rw [hround]
    exact ⟨rfl,(busy_iff (hsb.runStep)).mpr hd,hq⟩

/-- No exception escapes in a run exactly when all its steps are safe, and what
goes wrong with a request inside the loop is told in an error frame. -/
theorem worker_survives (b : Backend R) (r₀ : R) (es : List Event) (w : Worker R)
    (hv : ∀ e ∈ es, Valid e)
    (h : Transition.exec (Worker.step b) (.waiting { runner := r₀ }) es = some w) :
    (w ≠ .dead ↔ Transition.Guarded (Worker.step b) (Safe b) (.waiting { runner := r₀ }) es) ∧
    ∀ p q due s, w = .pumping p q due s → Reported b p q due s := by
  obtain ⟨hf,hiff⟩ := (fit_init r₀).run (by simp) hv h
  refine ⟨hiff,?_⟩
  rintro p q due s rfl
  exact hf.reported

def safe (b : Backend R) : Worker R → Event → Bool
  | .waiting _, .receive _ _ (some (.generate r _ _)) => !r.topK.any (· < 0)
  | .pumping _ _ due s, .round t now => !(s.admitPending b).busy || decide (t ≤ due) &&
      match ranBurst b ((s.admitPending b).beforeStep b now) with
      | none => true
      | some c => c.result.toOption.isSome
  | _, _ => true

theorem Safe.of_test (h : safe b w e = true) : Safe b w e := by
  unfold safe at h
  split at h
  · rename_i r _ _
    intro k hk
    simpa [hk] using h
  · intro hb
    simp only [hb,Bool.not_true,Bool.false_or,Bool.and_eq_true,decide_eq_true_eq] at h
    refine ⟨h.1,fun c hc e he => ?_⟩
    rw [hc] at h
    simp [he,Except.toOption] at h
  · rename_i hn₁ hn₂
    unfold Safe
    split
    · exact absurd rfl (hn₁ _ _ _ _ _ _ rfl)
    · exact absurd rfl (hn₂ _ _ _ _ _ _ rfl)
    · trivial

def threeTokens (topK : Option Int) : Msg := .generate { requestId := "a", maxTokens := 3, topK := topK } [1] 300

theorem worker_survives_topK : ∃ w, Transition.exec (Worker.step fives) (.waiting { runner := () })
      (.receive 0 300 (some (threeTokens (some 40))) :: List.replicate 4 (.round 1 1)) = some w ∧
    w ≠ .dead := by
  have hrun : (Transition.exec (Worker.step fives) (.waiting { runner := () })
      (.receive 0 300 (some (threeTokens (some 40))) :: List.replicate 4 (.round 1 1))).isSome = true ∧
    Transition.checks (Worker.step fives) (safe fives) (.waiting { runner := () })
      (.receive 0 300 (some (threeTokens (some 40))) :: List.replicate 4 (.round 1 1)) = true := by
    decide +kernel
  obtain ⟨w,hw⟩ := Option.isSome_iff_exists.mp hrun.1
  refine ⟨w,hw,(worker_survives fives () _ w ?_ hw).1.mpr (.of_checks (fun _ _ => Safe.of_test) hrun.2)⟩
  intro e he
  rcases List.mem_cons.mp he with rfl | he
  · exact ⟨by decide +kernel,by simp⟩
  · rw [List.eq_of_mem_replicate he]
    trivial

/-- The validators let a `top_k` of -1 pass, and `submit` raises in the worker. -/
theorem negative_topK_kills : (GenerationRequest.errors { requestId := "a", maxTokens := 3, topK := some (-1) } = []) ∧
    Transition.exec (Worker.step fives) (.waiting { runner := () })
      [.receive 0 300 (some (threeTokens (some (-1))))] = some .dead := by
  refine ⟨by decide +kernel,?_⟩
  have hnone : ({ runner := () } : EngineLoop Unit).submit 0 (pendingOf "a" [1]
      (paramsFromReq { requestId := "a", maxTokens := 3, topK := some (-1) }) 300) = none := by
    rw [EngineLoop.submit,if_neg (by simp),if_pos (.inr (.inl (by decide +kernel)))]
  simp [Transition.exec,Worker.step,threeTokens,hnone]

end Worker

end SglangLite.Loop
