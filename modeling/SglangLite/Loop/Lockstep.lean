import SglangLite.Loop.Delivery

set_option autoImplicit false

namespace SglangLite.Loop
open Kv Sched Text

namespace EngineLoop

variable {R : Type} {b : Backend R} {s s₁ s₂ : EngineLoop R}

/-- Two loops that differ only in what a reader, a clock, a drain and cancels
of requests that are over can change. -/
structure Sim (s₁ s₂ : EngineLoop R) : Prop where
  sched : s₁.sched = s₂.sched
  runner : s₁.runner = s₂.runner
  submitQ : s₁.submitQ = s₂.submitQ
  prevText : s₁.prevText = s₂.prevText
  opens : ∀ r, s₁.deltaQs r = none ↔ s₂.deltaQs r = none
  forwards : s₁.forwards = s₂.forwards

namespace Sim

theorem refl (s : EngineLoop R) : Sim s s := ⟨rfl,rfl,rfl,rfl,fun _ => Iff.rfl,rfl⟩

theorem trans {s₃ : EngineLoop R} (h : Sim s₁ s₂) (h' : Sim s₂ s₃) : Sim s₁ s₃ :=
  ⟨h.sched.trans h'.sched,h.runner.trans h'.runner,h.submitQ.trans h'.submitQ,
    h.prevText.trans h'.prevText,fun r => (h.opens r).trans (h'.opens r),
    h.forwards.trans h'.forwards⟩

theorem seq (h : Sim s₁ s₂) (i : SeqId) : s₁.seq i = s₂.seq i := by
  unfold EngineLoop.seq
  rw [h.sched]

theorem busy (h : Sim s₁ s₂) : s₁.busy = s₂.busy := by
  unfold EngineLoop.busy
  rw [h.sched,h.submitQ]

theorem modify (h : Sim s₁ s₂) (i : SeqId) (f : Sequence → Sequence) :
    Sim (s₁.modify i f) (s₂.modify i f) :=
  { h with sched := by simp only [EngineLoop.modify,h.sched] }

theorem mark (h : Sim s₁ s₂) (i : SeqId) (reason : FinishReason) :
    Sim (s₁.mark b i reason) (s₂.mark b i reason) :=
  { h with
    sched := by simp only [EngineLoop.mark,h.sched]
    runner := by simp only [EngineLoop.mark,h.runner] }

theorem dropFinished (h : Sim s₁ s₂) : Sim s₁.dropFinished s₂.dropFinished :=
  { h with sched := by simp only [EngineLoop.dropFinished,h.sched] }

theorem absorb {α : Type} (h : Sim s₁ s₂) (batch : List SeqId) (r : Ran R α) :
    Sim (s₁.absorb batch r) (s₂.absorb batch r) :=
  { h with
    sched := by simp only [EngineLoop.absorb,h.sched]
    runner := rfl
    forwards := by simp only [EngineLoop.absorb,h.forwards] }

theorem prefilled (h : Sim s₁ s₂) (i : SeqId) : Sim (s₁.prefilled b i) (s₂.prefilled b i) := by
  have hm := h.modify i fun q => { q with cachedLen := q.inputIds.length }
  unfold EngineLoop.prefilled
  simp only
  split_ifs
  · exact hm
  · exact { hm with runner := by simp only [h.sched,h.runner] }

theorem closeQueue (h : Sim s₁ s₂) (r : RequestId) :
    Sim (s₁.closeQueue b r) (s₂.closeQueue b r) := by
  have hopens : ∀ r', Function.update s₁.deltaQs r none r' = none ↔
      Function.update s₂.deltaQs r none r' = none := by
    intro r'
    by_cases hr : r' = r
    · simp [hr]
    · simp only [Function.update_of_ne hr]
      exact h.opens r'
  unfold EngineLoop.closeQueue
  simp only
  split_ifs
  · refine ⟨h.sched,?_,h.submitQ,by simp only [h.prevText],hopens,h.forwards⟩
    simp only [h.sched,h.runner,h.seq]
  · exact ⟨h.sched,h.runner,h.submitQ,h.prevText,hopens,h.forwards⟩

theorem emit {r : RequestId} {f f' : Frame} {final : Bool} (h : Sim s₁ s₂) (h₁ : Room s₁ r)
    (h₂ : Room s₂ r) : Sim (s₁.emit b r f final) (s₂.emit b r f' final) := by
  cases hd₁ : s₁.deltaQs r with
  | none =>
    have hd₂ := (h.opens r).mp hd₁
    rw [emit_none hd₁,emit_none hd₂]
    exact { h with }
  | some d₁ =>
    obtain ⟨d₂,hd₂⟩ := Option.ne_none_iff_exists'.mp
      (fun hn => absurd ((h.opens r).mpr hn) (by simp [hd₁]))
    have hput : ∀ (s : EngineLoop R) (d : QueueId) (f : Frame), (s.queue d).length < queueSize →
        ({ s with emitted := s.emitted ++ [(r,f)] } : EngineLoop R).put b d r f =
          { s with emitted := s.emitted ++ [(r,f)], queues := s.queues.modify d (· ++ [f]) } := by
      intro s d f hroom
      rw [put,if_pos (by exact hroom)]
    have hs : Sim
        { s₁ with emitted := s₁.emitted ++ [(r,f)], queues := s₁.queues.modify d₁ (· ++ [f]) }
        { s₂ with emitted := s₂.emitted ++ [(r,f')], queues := s₂.queues.modify d₂ (· ++ [f']) } :=
      { h with }
    rw [EngineLoop.emit,EngineLoop.emit]
    simp only [hd₁,hd₂,hput s₁ d₁ f (h₁ d₁ hd₁),hput s₂ d₂ f' (h₂ d₂ hd₂)]
    split_ifs
    · exact hs.closeQueue r
    · exact hs

theorem applyPost {i : SeqId} {p : Post} (h : Sim s₁ s₂) (h₁ : Room s₁ (s₁.seq i).requestId)
    (h₂ : Room s₂ (s₂.seq i).requestId) : Sim (s₁.applyPost b i p) (s₂.applyPost b i p) := by
  have hm := h.modify i fun q => { q with outputIds := p.outputIds }
  have hrid : (s₁.seq i).requestId = (s₂.seq i).requestId := by rw [h.seq]
  unfold EngineLoop.applyPost
  simp only
  rw [hrid] at h₁ ⊢
  cases p.reason with
  | none => exact emit { hm with prevText := by simp only [hm.prevText] } h₁ h₂
  | some reason =>
    have hk := hm.mark (b := b) i reason
    exact emit { hk with prevText := by simp only [hk.prevText] } h₁ h₂

theorem noteText (h : Sim s₁ s₂) (r : RequestId) (a : Bool) :
    Sim (s₁.noteText r a) (s₂.noteText r a) := { h with }

theorem postOne {m : (SeqId × Bool) × Option Token} (h : Sim s₁ s₂)
    (h₁ : Room s₁ (s₁.seq m.1.1).requestId) (h₂ : Room s₂ (s₂.seq m.1.1).requestId)
    (hc₁ : (s₁.seq m.1.1).requestId ∉ s₁.cancelled) (hc₂ : (s₂.seq m.1.1).requestId ∉ s₂.cancelled) :
    Sim (s₁.postOne b m) (s₂.postOne b m) := by
  obtain ⟨⟨i,pre⟩,tok⟩ := m
  unfold EngineLoop.postOne
  cases tok with
  | none => exact h
  | some t =>
    simp only at h₁ h₂ hc₁ hc₂ ⊢
    rw [if_neg hc₁,if_neg hc₂]
    have hs := h.seq i
    rw [hs]
    by_cases hf : (s₂.seq i).finished = true
    · rw [if_pos hf,if_pos hf]
      exact h
    rw [if_neg hf,if_neg hf,h.prevText]
    have hpre : Sim (if pre then s₁.prefilled b i else s₁) (if pre then s₂.prefilled b i else s₂) := by
      split_ifs
      · exact h.prefilled i
      · exact h
    have ht₁ : Touched s₁ i (if pre then s₁.prefilled b i else s₁) := by
      split_ifs
      · exact touched_prefilled s₁ i
      · exact .refl s₁ i
    have ht₂ : Touched s₂ i (if pre then s₂.prefilled b i else s₂) := by
      split_ifs
      · exact touched_prefilled s₂ i
      · exact .refl s₂ i
    generalize (if pre then s₁.prefilled b i else s₁) = a₁ at hpre ht₁ ⊢
    generalize (if pre then s₂.prefilled b i else s₂) = a₂ at hpre ht₂ ⊢
    have hm := hpre.modify i fun q => { q with outputIds := q.outputIds ++ [t] }
    have hu₁ := ht₁.trans (touched_modify a₁ i (f := fun q => { q with outputIds := q.outputIds ++ [t] })
      (fun _ => rfl) (fun _ => rfl) (fun _ => rfl))
    have hu₂ := ht₂.trans (touched_modify a₂ i (f := fun q => { q with outputIds := q.outputIds ++ [t] })
      (fun _ => rfl) (fun _ => rfl) (fun _ => rfl))
    rw [hm.seq i]
    refine (hm.noteText _ _).applyPost ?_ ?_
    · rw [noteText_seq,hu₁.requestId]
      exact room_of_same hu₁.queues hu₁.deltaQs h₁
    · rw [noteText_seq,hu₂.requestId]
      exact room_of_same hu₂.queues hu₂.deltaQs h₂

theorem burstOne {i : SeqId} {first : Token} (h : Sim s₁ s₂) (h₁ : Room s₁ (s₁.seq i).requestId)
    (h₂ : Room s₂ (s₂.seq i).requestId) :
    (s₁.burstOne b i first).2 = (s₂.burstOne b i first).2 ∧
      Sim (s₁.burstOne b i first).1 (s₂.burstOne b i first).1 := by
  have happ : ∀ (s : EngineLoop R) (toks : List Token),
      Touched s i (s.modify i fun q => { q with outputIds := q.outputIds ++ toks }) := fun s toks =>
    touched_modify s i (f := fun q => { q with outputIds := q.outputIds ++ toks })
      (fun _ => rfl) (fun _ => rfl) (fun _ => rfl)
  have hend : ∀ (a₁ a₂ : EngineLoop R) (toks : List Token) (prev : Text) (r : RequestId)
      (g : Post → Bool), Sim a₁ a₂ → Touched s₁ i a₁ → Touched s₂ i a₂ →
      Sim ((a₁.noteText r (g (postBurst b.tk b.eos (a₁.seq i) toks prev))).applyPost b i
          (postBurst b.tk b.eos (a₁.seq i) toks prev)).dropFinished
        ((a₂.noteText r (g (postBurst b.tk b.eos (a₂.seq i) toks prev))).applyPost b i
          (postBurst b.tk b.eos (a₂.seq i) toks prev)).dropFinished := by
    intro a₁ a₂ toks prev r g ha ht₁ ht₂
    rw [ha.seq i]
    refine ((ha.noteText r _).applyPost ?_ ?_).dropFinished
    · rw [noteText_seq,ht₁.requestId]
      exact room_of_same ht₁.queues ht₁.deltaQs h₁
    · rw [noteText_seq,ht₂.requestId]
      exact room_of_same ht₂.queues ht₂.deltaQs h₂
  have hm := h.modify i fun q => { q with outputIds := q.outputIds ++ [first] }
  have ht₁ := happ s₁ [first]
  have ht₂ := happ s₂ [first]
  unfold EngineLoop.burstOne
  simp only [h.seq i,h.prevText,hm.runner,hm.sched]
  generalize s₁.modify i (fun q => { q with outputIds := q.outputIds ++ [first] }) = a₁ at hm ht₁ ⊢
  generalize s₂.modify i (fun q => { q with outputIds := q.outputIds ++ [first] }) = a₂ at hm ht₂ ⊢
  by_cases hextra : 0 < min ((s₂.seq i).maxTokens-(s₂.seq i).outputIds.length-1) (b.burst-1)
  · rw [if_pos hextra,if_pos hextra]
    generalize b.decodeBurst a₂.runner a₂.sched i _ = r
    have hab := hm.absorb [i] r
    have hta : ∀ a : EngineLoop R, Touched a i (a.absorb [i] r) := by
      intro a
      have ht := touched_modify a i (f := fun q => { q with cachedLen := r.cached i })
        (fun _ => rfl) (fun _ => rfl) (fun _ => rfl)
      exact ⟨rfl,rfl,ht.other,ht.requestId,ht.finished,ht.cancelled⟩
    cases r.result with
    | error e => exact ⟨rfl,hab.modify i _⟩
    | ok more =>
      exact ⟨rfl,hend _ _ _ _ _ (fun p => p.finished || !(s₂.seq i).skipStreamingText)
        (hab.modify i fun q => { q with outputIds := q.outputIds ++ more })
        ((ht₁.trans (hta a₁)).trans (happ _ more)) ((ht₂.trans (hta a₂)).trans (happ _ more))⟩
  · rw [if_neg hextra,if_neg hextra]
    exact ⟨rfl,hend _ _ _ _ _ (fun p => p.finished || !(s₂.seq i).skipStreamingText) hm ht₁ ht₂⟩

end Sim

def Single (s : EngineLoop R) : Prop :=
  s.submitQ.length+s.sched.waiting.length+s.sched.running.length ≤ 1

structure Uncancelled (s : EngineLoop R) : Prop where
  pending : ∀ p ∈ s.submitQ, p.requestId ∉ s.cancelled
  running : ∀ i, i ∈ s.sched.waiting ∨ i ∈ s.sched.running → (s.seq i).requestId ∉ s.cancelled

theorem absorb_requestId {α : Type} (s : EngineLoop R) (batch : List SeqId) (r : Ran R α)
    (i : SeqId) : ((s.absorb batch r).seq i).requestId = (s.seq i).requestId := by
  have key : ∀ (batch : List SeqId) (sc : Scheduler), ((batch.foldl (fun sc i =>
      sc.modify i fun q => { q with cachedLen := r.cached i }) sc).seq i).requestId =
        (sc.seq i).requestId := by
    intro batch
    induction batch with
    | nil => exact fun _ => rfl
    | cons j batch ih =>
      intro sc
      rw [List.foldl_cons,ih,Scheduler.seq_modify]
      split_ifs with hj
      · rw [hj.1]
      · rfl
  exact key batch s.sched

/-- With a single request, a batch has one member, from one of the queues. -/
theorem Single.batch (h : Single s) (cfg : SchedConfig) :
    (s.sched.step cfg).2.length ≤ 1 ∧
      (∀ m ∈ (s.sched.step cfg).2, m.1 ∈ s.sched.waiting ∨ m.1 ∈ s.sched.running) ∧
      (s.sched.step cfg).1.waiting.length+(s.sched.step cfg).1.running.length ≤
        s.sched.waiting.length+s.sched.running.length := by
  obtain ⟨rs,ws,hbatch,hrs,hws,hrun⟩ := Scheduler.step_spec cfg s.sched
  have h1 := hrs.length_le
  have h2 := hws.length_le
  have h3 := hrun.length_le
  unfold Single at h
  simp only [List.length_append] at h2 h3
  refine ⟨?_,fun m hm => ?_,by omega⟩
  · rw [hbatch]
    simp only [List.length_append,List.length_map]
    omega
  · rw [hbatch] at hm
    rcases List.mem_append.mp hm with hm | hm
    · obtain ⟨i,hi,rfl⟩ := List.mem_map.mp hm
      exact .inr (hrs.subset hi)
    · obtain ⟨i,hi,rfl⟩ := List.mem_map.mp hm
      exact .inl (hws.subset (List.mem_append_left _ hi))

theorem Sim.afterBatch {m : SeqId × Bool} {res : Except Fault (List (Option Token))} (h : Sim s₁ s₂)
    (h₁ : Roomy s₁) (h₂ : Roomy s₂) (hc₁ : (s₁.seq m.1).requestId ∉ s₁.cancelled)
    (hc₂ : (s₂.seq m.1).requestId ∉ s₂.cancelled) :
    (s₁.afterBatch b [m] res).2 = (s₂.afterBatch b [m] res).2 ∧
      Sim (s₁.afterBatch b [m] res).1 (s₂.afterBatch b [m] res).1 := by
  cases res with
  | error e =>
    refine ⟨rfl,?_⟩
    simp only [EngineLoop.afterBatch,abortBatch,List.foldl_cons,List.foldl_nil,h.seq]
    exact (h.mark m.1 .error).emit (h₁ _) (h₂ _)
  | ok toks =>
    have hposts : Sim (([m].zip toks).foldl (EngineLoop.postOne b) s₁).dropFinished
        (([m].zip toks).foldl (EngineLoop.postOne b) s₂).dropFinished := by
      cases toks with
      | nil => exact h.dropFinished
      | cons t toks => exact (h.postOne (m := (m,t)) (h₁ _) (h₂ _) hc₁ hc₂).dropFinished
    simp only [EngineLoop.afterBatch,finishBatch,h.seq]
    split
    · split_ifs
      · exact h.burstOne (h₁ _) (h₂ _)
      · exact ⟨rfl,hposts⟩
    · exact ⟨rfl,hposts⟩

theorem Sim.runStep (h : Sim s₁ s₂) (hs : Single s₂) (h₁ : Roomy s₁) (h₂ : Roomy s₂)
    (hc₁ : Uncancelled s₁) (hc₂ : Uncancelled s₂) :
    (s₁.runStep b).2 = (s₂.runStep b).2 ∧ Sim (s₁.runStep b).1 (s₂.runStep b).1 := by
  obtain ⟨hlen,hmem,_⟩ := hs.batch b.sched
  obtain ⟨sched,runner,submitQ,_,_,prevText,_,_,_,forwards,_,_⟩ := s₁
  obtain ⟨sched',runner',submitQ',_,_,prevText',_,_,_,forwards',_,_⟩ := s₂
  obtain ⟨rfl,rfl,rfl,rfl,hopens,rfl⟩ := h
  simp only [EngineLoop.runStep] at hlen hmem ⊢
  by_cases hnil : (sched.step b.sched).2 = []
  · rw [if_pos hnil,if_pos hnil]
    exact ⟨rfl,⟨rfl,rfl,rfl,rfl,hopens,rfl⟩⟩
  rw [if_neg hnil,if_neg hnil]
  obtain ⟨m,hm⟩ : ∃ m, (sched.step b.sched).2 = [m] :=
    List.length_eq_one_iff.mp (by have := List.length_pos_iff.mpr hnil; omega)
  have hin := hmem m (by rw [hm]; simp)
  rw [hm]
  refine Sim.afterBatch ?_ h₁ h₂ ?_ ?_
  · refine Sim.absorb ?_ _ _
    exact ⟨rfl,rfl,rfl,rfl,hopens,rfl⟩
  · rw [absorb_requestId]
    exact hc₁.running m.1 hin
  · rw [absorb_requestId]
    exact hc₂.running m.1 hin

def Over (s : EngineLoop R) (r : RequestId) : Prop :=
  s.deltaQs r = none ∧ s.sched.byRequest r = none ∧ ∀ p ∈ s.submitQ, p.requestId ≠ r

/-- What disturbs a round only as far as `Sim` allows. -/
structure Quiet (s : EngineLoop R) (now : Time) : Prop where
  roomy : Roomy s
  uncancelled : Uncancelled s
  timely : ∀ r ∈ s.expired now, Over s r

theorem checkTimeouts_quiet {now : Time} (h : ∀ r ∈ s.expired now, Over s r) :
    ∃ log, s.checkTimeouts b now = { s with emitted := log } := by
  have key : ∀ (l : List RequestId) (s : EngineLoop R), (∀ r ∈ l, Over s r) →
      ∃ log, l.foldl (fun s r => (s.schedCancel b r).emit b r
        { finishReason := some .timeout } true) s = { s with emitted := log } := by
    intro l
    induction l with
    | nil => exact fun s _ => ⟨s.emitted,rfl⟩
    | cons r l ih =>
      intro s hl
      obtain ⟨hd,hb,_⟩ := hl r (by simp)
      have hstep : (s.schedCancel b r).emit b r { finishReason := some .timeout } true =
          { s with emitted := s.emitted ++ [(r,{ finishReason := some .timeout })] } := by
        rw [schedCancel,hb]
        exact emit_none hd _ _
      rw [List.foldl_cons,hstep]
      obtain ⟨log,hlog⟩ := ih { s with
        emitted := s.emitted ++ [(r,{ finishReason := some .timeout })] }
        (fun r' hr' => hl r' (List.mem_cons_of_mem r hr'))
      exact ⟨log,hlog⟩
  exact key _ s h

theorem Single.submitQ_cases (h : Single s) :
    s.submitQ = [] ∨ ∃ p, s.submitQ = [p] ∧ s.sched.waiting = [] ∧ s.sched.running = [] := by
  unfold Single at h
  cases hq : s.submitQ with
  | nil => exact .inl rfl
  | cons p rest =>
    rw [hq,List.length_cons] at h
    exact .inr ⟨p,by rw [List.eq_nil_of_length_eq_zero (l := rest) (by omega)],
      List.eq_nil_of_length_eq_zero (by omega),List.eq_nil_of_length_eq_zero (by omega)⟩

theorem Sim.admitOne {p : Pending} (h : Sim s₁ s₂) (h₁ : Roomy s₁) (h₂ : Roomy s₂)
    (hc₁ : p.requestId ∉ s₁.cancelled) (hc₂ : p.requestId ∉ s₂.cancelled) :
    Sim (s₁.admitOne b p) (s₂.admitOne b p) := by
  rw [EngineLoop.admitOne,EngineLoop.admitOne,if_neg hc₁,if_neg hc₂]
  obtain ⟨sched,runner,submitQ,_,_,prevText,_,_,_,forwards,_,_⟩ := s₁
  obtain ⟨sched',runner',submitQ',_,_,prevText',_,_,_,forwards',_,_⟩ := s₂
  obtain ⟨rfl,rfl,rfl,rfl,hopens,rfl⟩ := h
  simp only [addRequest]
  by_cases hw : b.sched.maxWaiting ≤ sched.waiting.length
  · simp only [if_pos hw]
    exact Sim.emit ⟨rfl,rfl,rfl,rfl,hopens,rfl⟩ (h₁ _) (h₂ _)
  simp only [if_neg hw]
  by_cases hl : b.sched.maxPromptTokens < p.request.inputIds.length
  · simp only [if_pos hl]
    exact Sim.emit ⟨rfl,rfl,rfl,rfl,hopens,rfl⟩ (h₁ _) (h₂ _)
  simp only [if_neg hl]
  cases b.matchPrefix runner sched.seqs.length p.request with
  | mk runner' res =>
    cases res with
    | error e => exact Sim.emit ⟨rfl,rfl,rfl,rfl,hopens,rfl⟩ (h₁ _) (h₂ _)
    | ok w => exact ⟨rfl,rfl,rfl,rfl,hopens,rfl⟩

theorem Sim.admitPending (h : Sim s₁ s₂) (hs : Single s₂) (h₁ : Roomy s₁) (h₂ : Roomy s₂)
    (hc₁ : Uncancelled s₁) (hc₂ : Uncancelled s₂) :
    Sim (s₁.admitPending b) (s₂.admitPending b) := by
  unfold EngineLoop.admitPending
  rcases hs.submitQ_cases with hq | ⟨p,hq,_⟩
  · rw [h.submitQ,hq]
    exact h
  · have hp₁ := hc₁.pending p (by rw [h.submitQ,hq]; simp)
    have hp₂ := hc₂.pending p (by rw [hq]; simp)
    rw [h.submitQ,hq]
    exact Sim.admitOne { h with submitQ := rfl } h₁ h₂ hp₁ hp₂

/-- After the admission of at most one request there is nothing left to do, or
nothing was emitted and the request waits. -/
theorem Quiet.admitPending {now : Time} (h : Quiet s now) (hs : Single s) :
    (s.admitPending b).busy = false ∨
      Quiet (s.admitPending b) now ∧ Single (s.admitPending b) ∧ (s.admitPending b).submitQ = [] := by
  have hemit : ∀ (p : Pending) (runner : R) (e : String), s.sched.waiting = [] → s.sched.running = [] →
      (({ s with submitQ := [], runner := runner } : EngineLoop R).emit b p.requestId
        (errorFrame e none) true).busy = false := by
    intro p runner e hw hr
    have hroom : Room ({ s with submitQ := [], runner := runner } : EngineLoop R) p.requestId :=
      h.roomy _
    obtain ⟨hsched,hsub⟩ := @emit_sched R b _ p.requestId (errorFrame e none) true hroom
    simp [EngineLoop.busy,hsched,hsub,hw,hr]
  unfold EngineLoop.admitPending
  rcases hs.submitQ_cases with hq | ⟨p,hq,hw,hr⟩
  · rw [hq]
    exact .inr ⟨h,hs,hq⟩
  · have hp := h.uncancelled.pending p (by rw [hq]; simp)
    rw [hq]
    simp only [admitLoop]
    rw [EngineLoop.admitOne,if_neg (by exact hp),addRequest]
    by_cases h1 : b.sched.maxWaiting ≤ s.sched.waiting.length
    · rw [if_pos h1]
      exact .inl (hemit p s.runner _ hw hr)
    rw [if_neg h1]
    by_cases h2 : b.sched.maxPromptTokens < p.request.inputIds.length
    · rw [if_pos h2]
      exact .inl (hemit p s.runner _ hw hr)
    rw [if_neg h2]
    cases b.matchPrefix s.runner s.sched.seqs.length p.request with
    | mk runner res =>
      cases res with
      | error e => exact .inl (hemit p runner _ hw hr)
      | ok w =>
        refine .inr ⟨⟨h.roomy,⟨by simp,fun i hi => ?_⟩,fun r hr' => ?_⟩,?_,rfl⟩
        · simp only [hw,hr,List.nil_append,List.mem_singleton,List.not_mem_nil,or_false] at hi
          subst hi
          have hnew : ∀ q : Sequence, (s.sched.seqs ++ [q]).getD s.sched.seqs.length default = q := by
            intro q; simp
          simp only [seq,Scheduler.seq,hnew]
          exact hp
        · obtain ⟨hd,hb,hn⟩ := h.timely r hr'
          refine ⟨hd,?_,by simp⟩
          have hne : r ≠ p.request.requestId := fun he => hn p (by rw [hq]; simp) he.symm
          simp only
          rw [Function.update_of_ne hne]
          exact hb
        · simp [Single,hw,hr]

theorem Sim.round {d₁ t₁ n₁ d₂ t₂ n₂ : Time} (h : Sim s₁ s₂) (hs : Single s₂) (h₁ : Quiet s₁ n₁)
    (h₂ : Quiet s₂ n₂) (ht₁ : ¬ d₁ < t₁) (ht₂ : ¬ d₂ < t₂) :
    (s₁.round b d₁ t₁ n₁).2 = (s₂.round b d₂ t₂ n₂).2 ∧
      Sim (s₁.round b d₁ t₁ n₁).1 (s₂.round b d₂ t₂ n₂).1 := by
  have hs₁ : Single s₁ := by
    unfold Single
    rw [h.sched,h.submitQ]
    exact hs
  have ha := h.admitPending (b := b) hs h₁.roomy h₂.roomy h₁.uncancelled h₂.uncancelled
  have hq₁ := h₁.admitPending (b := b) hs₁
  have hq₂ := h₂.admitPending (b := b) hs
  unfold EngineLoop.round
  simp only [ha.busy]
  generalize s₁.admitPending b = a₁ at ha hq₁ ⊢
  generalize s₂.admitPending b = a₂ at ha hq₂ ⊢
  cases hbusy : a₂.busy with
  | false => exact ⟨rfl,ha⟩
  | true =>
    rw [if_pos rfl,if_pos rfl,if_neg ht₁,if_neg ht₂]
    obtain ⟨hu₁,_,hn₁⟩ := hq₁.resolve_left (by rw [ha.busy,hbusy]; simp)
    obtain ⟨hu₂,hsa,hn₂⟩ := hq₂.resolve_left (by rw [hbusy]; simp)
    obtain ⟨log₁,hc₁⟩ := checkTimeouts_quiet (b := b) hu₁.timely
    obtain ⟨log₂,hc₂⟩ := checkTimeouts_quiet (b := b) hu₂.timely
    have hagain : ∀ a : EngineLoop R, a.submitQ = [] → a.admitPending b = a := by
      intro a hq
      rw [EngineLoop.admitPending,hq]
      rfl
    simp only [pumpOnce,hagain a₁ hn₁,hagain a₂ hn₂,hc₁,hc₂]
    have hsim : Sim ({ a₁ with emitted := log₁ } : EngineLoop R) { a₂ with emitted := log₂ } :=
      { ha with }
    obtain ⟨hres,hstep⟩ := hsim.runStep (b := b) hsa hu₁.roomy hu₂.roomy
      ⟨hu₁.uncancelled.pending,hu₁.uncancelled.running⟩
      ⟨hu₂.uncancelled.pending,hu₂.uncancelled.running⟩
    generalize ({ a₁ with emitted := log₁ } : EngineLoop R).runStep b = w₁ at hres hstep ⊢
    generalize ({ a₂ with emitted := log₂ } : EngineLoop R).runStep b = w₂ at hres hstep ⊢
    obtain ⟨x₁,p₁⟩ := w₁
    obtain ⟨x₂,p₂⟩ := w₂
    simp only at hres hstep
    subst hres
    cases p₁ with
    | raised => exact ⟨rfl,hstep⟩
    | noWork => exact ⟨rfl,hstep⟩
    | worked => exact ⟨rfl,hstep⟩

/-- What the work on the requests at hand cannot do: take up a new request,
undo a forward, or start or end a drain. -/
structure Onward (s s' : EngineLoop R) : Prop where
  submitQ : s'.submitQ = s.submitQ
  waiting : s'.sched.waiting.Sublist s.sched.waiting
  running : s'.sched.running.Sublist s.sched.running
  forwards : s.forwards <+: s'.forwards
  draining : s'.draining = s.draining

namespace Onward

variable {s' : EngineLoop R}

theorem refl (s : EngineLoop R) : Onward s s :=
  ⟨rfl,.refl _,.refl _,List.prefix_rfl,rfl⟩

theorem trans {s'' : EngineLoop R} (h : Onward s s') (h' : Onward s' s'') : Onward s s'' :=
  ⟨h'.submitQ.trans h.submitQ,h'.waiting.trans h.waiting,h'.running.trans h.running,
    h.forwards.trans h'.forwards,h'.draining.trans h.draining⟩

theorem modify (s : EngineLoop R) (i : SeqId) (f : Sequence → Sequence) :
    Onward s (s.modify i f) := { refl s with }

theorem mark (s : EngineLoop R) (i : SeqId) (reason : FinishReason) :
    Onward s (s.mark b i reason) :=
  { refl s with
    waiting := List.filter_sublist
    running := List.erase_sublist }

theorem schedCancel (s : EngineLoop R) (r : RequestId) : Onward s (s.schedCancel b r) := by
  unfold EngineLoop.schedCancel
  split
  · exact refl s
  · exact (modify s _ _).trans (mark _ _ _)

theorem emit (s : EngineLoop R) (r : RequestId) (f : Frame) (final : Bool) :
    Onward s (s.emit b r f final) := by
  have hput : ∀ (s : EngineLoop R) (d : QueueId), Onward s (s.put b d r f) := by
    intro s d
    unfold put
    split_ifs
    · exact { refl s with }
    · exact schedCancel s r
  have hclose : ∀ s : EngineLoop R, Onward s (s.closeQueue b r) := by
    intro s
    unfold closeQueue
    simp only
    split_ifs <;> exact { refl s with }
  have hlog : Onward s { s with emitted := s.emitted ++ [(r,f)] } := { refl s with }
  unfold EngineLoop.emit
  simp only
  split
  · exact hlog
  · split_ifs
    · exact (hlog.trans (hput _ _)).trans (hclose _)
    · exact hlog.trans (hput _ _)

theorem dropFinished (s : EngineLoop R) : Onward s s.dropFinished :=
  { refl s with running := List.filter_sublist }

theorem foldl {α : Type} {f : EngineLoop R → α → EngineLoop R} (hf : ∀ s a, Onward s (f s a))
    (l : List α) (s : EngineLoop R) : Onward s (l.foldl f s) := by
  induction l generalizing s with
  | nil => exact refl s
  | cons a l ih => exact (hf s a).trans (ih (f s a))

theorem absorb {α : Type} (s : EngineLoop R) (batch : List SeqId) (r : Ran R α) :
    Onward s (s.absorb batch r) := by
  have hsame : ∀ (batch : List SeqId) (sc : Scheduler),
      (batch.foldl (fun sc i => sc.modify i fun q => { q with cachedLen := r.cached i }) sc).waiting =
        sc.waiting ∧
      (batch.foldl (fun sc i => sc.modify i fun q => { q with cachedLen := r.cached i }) sc).running =
        sc.running := by
    intro batch
    induction batch with
    | nil => exact fun _ => ⟨rfl,rfl⟩
    | cons j batch ih => exact fun sc => ih _
  obtain ⟨hw,hr⟩ := hsame batch s.sched
  refine ⟨rfl,?_,?_,List.prefix_append _ _,rfl⟩
  · rw [EngineLoop.absorb,hw]
  · rw [EngineLoop.absorb,hr]

theorem applyPost (s : EngineLoop R) (i : SeqId) (p : Post) : Onward s (s.applyPost b i p) := by
  unfold EngineLoop.applyPost
  simp only
  refine Onward.trans ?_ (emit _ _ _ _)
  have hm := modify s i fun q => { q with outputIds := p.outputIds }
  cases p.reason with
  | none => exact { hm with }
  | some reason =>
    have hk := hm.trans (mark (b := b) _ i reason)
    exact { hk with }

theorem noteText (s : EngineLoop R) (r : RequestId) (a : Bool) : Onward s (s.noteText r a) :=
  { refl s with }

theorem postOne (s : EngineLoop R) (m : (SeqId × Bool) × Option Token) :
    Onward s (s.postOne b m) := by
  have hpre : ∀ i, Onward s (s.prefilled b i) := by
    intro i
    unfold prefilled
    simp only
    split_ifs <;> exact { refl s with }
  unfold EngineLoop.postOne
  simp only
  split
  · exact refl s
  · split_ifs
    · exact refl s
    · exact (mark s _ _).trans (emit _ _ _ _)
    · exact (((hpre _).trans (modify _ _ _)).trans (noteText _ _ _)).trans (applyPost _ _ _)
    · exact ((modify _ _ _).trans (noteText _ _ _)).trans (applyPost _ _ _)

theorem burstOne (s : EngineLoop R) (i : SeqId) (first : Token) :
    Onward s (s.burstOne b i first).1 := by
  have hm := modify s i fun q => { q with outputIds := q.outputIds ++ [first] }
  unfold EngineLoop.burstOne
  simp only
  split_ifs
  · split
    · exact (hm.trans (absorb _ _ _)).trans (modify _ _ _)
    · exact ((((hm.trans (absorb _ _ _)).trans (modify _ _ _)).trans (noteText _ _ _)).trans
        (applyPost _ _ _)).trans (dropFinished _)
  · exact ((hm.trans (noteText _ _ _)).trans (applyPost _ _ _)).trans (dropFinished _)

theorem afterBatch (s : EngineLoop R) (batch : List (SeqId × Bool))
    (res : Except Fault (List (Option Token))) : Onward s (s.afterBatch b batch res).1 := by
  have hposts : ∀ toks : List (Option Token),
      Onward s ((batch.zip toks).foldl (EngineLoop.postOne b) s).dropFinished := fun toks =>
    (foldl postOne _ s).trans (dropFinished _)
  cases res with
  | error e => exact foldl (fun s m => (mark s _ _).trans (emit _ _ _ _)) batch s
  | ok toks =>
    simp only [EngineLoop.afterBatch,finishBatch]
    split
    · split_ifs
      · exact burstOne _ _ _
      · exact hposts _
    · exact hposts _

theorem checkTimeouts (s : EngineLoop R) (now : Time) : Onward s (s.checkTimeouts b now) :=
  foldl (fun s _ => (schedCancel s _).trans (emit _ _ _ _)) _ s

end Onward

structure Logged (s s' : EngineLoop R) : Prop where
  forwards : s.forwards <+: s'.forwards
  draining : s'.draining = s.draining

theorem Onward.logged {s' : EngineLoop R} (h : Onward s s') : Logged s s' :=
  ⟨h.forwards,h.draining⟩

theorem Logged.trans {s' s'' : EngineLoop R} (h : Logged s s') (h' : Logged s' s'') :
    Logged s s'' :=
  ⟨h.forwards.trans h'.forwards,h'.draining.trans h.draining⟩

theorem logged_admitPending (s : EngineLoop R) : Logged s (s.admitPending b) := by
  have hadd : ∀ (s : EngineLoop R) (r : Request), Logged s (s.addRequest b r).1 := by
    intro s r
    unfold addRequest
    split_ifs
    · exact ⟨List.prefix_rfl,rfl⟩
    · exact ⟨List.prefix_rfl,rfl⟩
    · split <;> exact ⟨List.prefix_rfl,rfl⟩
  have hone : ∀ (s : EngineLoop R) (p : Pending), Logged s (s.admitOne b p) := by
    intro s p
    unfold admitOne
    split_ifs
    · exact ⟨List.prefix_rfl,rfl⟩
    · have ha := hadd s p.request
      split
      · rename_i s' _ heq
        rwa [heq] at ha
      · rename_i s' e heq
        rw [heq] at ha
        exact ha.trans (Onward.emit _ _ _ _).logged
  have hloop : ∀ (l : List Pending) (s : EngineLoop R), Logged s (s.admitLoop b l) := by
    intro l
    induction l with
    | nil => exact fun s => ⟨List.prefix_rfl,rfl⟩
    | cons p l ih =>
      intro s
      have h0 : Logged s { s with submitQ := l } := ⟨List.prefix_rfl,rfl⟩
      exact (h0.trans (hone _ p)).trans (ih _)
  exact hloop s.submitQ s

theorem logged_runStep (s : EngineLoop R) : Logged s (s.runStep b).1 := by
  have h0 : Logged s { s with sched := (s.sched.step b.sched).1 } := ⟨List.prefix_rfl,rfl⟩
  simp only [runStep]
  split_ifs
  · exact h0
  · exact h0.trans ((Onward.absorb _ _ _).trans (Onward.afterBatch _ _ _)).logged

theorem logged_round (deadline t now : Time) (s : EngineLoop R) :
    Logged s (s.round b deadline t now).1 := by
  have ha := logged_admitPending (b := b) s
  have hp : ∀ s : EngineLoop R, Logged s (s.pumpOnce b now).1 := fun s =>
    ((logged_admitPending s).trans (Onward.checkTimeouts _ now).logged).trans (logged_runStep _)
  unfold EngineLoop.round
  simp only
  split_ifs
  · exact ha
  · have hp' := ha.trans (hp (s.admitPending b))
    split <;> rename_i heq <;> rwa [heq] at hp'
  · exact ha

theorem busy_eq_false : s.busy = false ↔
    s.submitQ = [] ∧ s.sched.waiting = [] ∧ s.sched.running = [] := by
  simp only [busy,Bool.or_eq_false_iff,Bool.not_eq_false',List.isEmpty_iff]
  tauto

theorem round_returned {deadline t now : Time} (h : (s.round b deadline t now).2 = .returned) :
    (s.round b deadline t now).1.busy = false := by
  unfold EngineLoop.round at h ⊢
  simp only at h ⊢
  revert h
  split_ifs with hb ht
  · exact fun h => absurd h (by simp)
  · split <;> exact fun h => absurd h (by simp)
  · exact fun _ => by simpa using hb

theorem Single.runStep (h : Single s) : Single (s.runStep b).1 := by
  obtain ⟨_,_,hlen⟩ := h.batch b.sched
  have h0 : Single ({ s with sched := (s.sched.step b.sched).1 } : EngineLoop R) := by
    unfold Single at h ⊢
    simp only
    omega
  simp only [EngineLoop.runStep]
  split_ifs
  · exact h0
  · have ho := (Onward.absorb ({ s with sched := (s.sched.step b.sched).1 } : EngineLoop R)
      ((s.sched.step b.sched).2.map Prod.fst)
      (b.runBatch s.runner (s.sched.step b.sched).1 (s.sched.step b.sched).2)).trans
        (Onward.afterBatch (b := b) _ (s.sched.step b.sched).2
          (b.runBatch s.runner (s.sched.step b.sched).1 (s.sched.step b.sched).2).result)
    have hw := ho.waiting.length_le
    have hr := ho.running.length_le
    unfold Single at h0 ⊢
    rw [ho.submitQ]
    omega

theorem Single.round {deadline t now : Time} (h : Single s) (hq : Quiet s now) :
    Single (s.round b deadline t now).1 := by
  have ha := hq.admitPending (b := b) h
  unfold EngineLoop.round
  simp only
  generalize s.admitPending b = a at ha ⊢
  have hidle : a.busy = false → Single a := by
    intro hb
    obtain ⟨h1,h2,h3⟩ := busy_eq_false.mp hb
    simp [Single,h1,h2,h3]
  split_ifs with hb ht
  · exact (ha.resolve_left (by simp [hb])).2.1
  · obtain ⟨hu,hs,hn⟩ := ha.resolve_left (by simp [hb])
    obtain ⟨log,hc⟩ := checkTimeouts_quiet (b := b) hu.timely
    have hs' : Single ({ a with emitted := log } : EngineLoop R) := hs
    have hrun := hs'.runStep (b := b)
    have hagain : a.admitPending b = a := by
      rw [EngineLoop.admitPending,hn]
      rfl
    simp only [pumpOnce,hagain,hc]
    split <;> rename_i heq <;> rwa [heq] at hrun
  · exact hidle (by simpa using hb)

theorem Sim.submit {n₁ : Time} (n₂ : Time) {p : Pending} {s₁' : EngineLoop R} (h : Sim s₁ s₂)
    (hs : s₁.submit n₁ p = some s₁') (hd : s₂.draining = false) :
    ∃ s₂', s₂.submit n₂ p = some s₂' ∧ Sim s₁' s₂' := by
  unfold EngineLoop.submit at hs ⊢
  rw [hd]
  split_ifs at hs with h1 h2
  rw [if_neg (by simp),if_neg h2]
  injection hs with hs
  subst hs
  refine ⟨_,rfl,h.sched,h.runner,by rw [h.submitQ],by simp only [h.prevText],fun r => ?_,h.forwards⟩
  by_cases hr : r = p.requestId
  · simp [hr]
  · simp only [Function.update_of_ne hr]
    exact h.opens r

end EngineLoop

end SglangLite.Loop
