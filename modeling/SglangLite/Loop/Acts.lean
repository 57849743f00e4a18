import SglangLite.Loop.Delivery
import SglangLite.Sched.Lifecycle

set_option autoImplicit false

namespace SglangLite.Loop
open Kv Sched Text

namespace EngineLoop

variable {R : Type} {b : Backend R} {s s' : EngineLoop R}

/-- What every state of the loop satisfies between two calls of its parts: the
queues of the scheduler are in order, no two requests share a delta queue, and
nothing was taken from a queue that is not made yet. -/
structure Sound (s : EngineLoop R) : Prop where
  kept : s.sched.Kept
  made : ∀ r d, s.deltaQs r = some d → d < s.queues.length
  inj : ∀ r r' d, s.deltaQs r = some d → s.deltaQs r' = some d → r = r'
  untaken : ∀ d, s.queues.length ≤ d → s.taken d = []

def Unfinished (s : EngineLoop R) (r : RequestId) : Prop :=
  ∃ i, (s.seq i).finished = false ∧ (s.seq i).requestId = r

def Awaited (s : EngineLoop R) (r : RequestId) : Prop := ∃ p ∈ s.submitQ, p.requestId = r

theorem sound_init (r₀ : R) : Sound ({ runner := r₀ } : EngineLoop R) :=
  ⟨Scheduler.kept_empty,by simp,by simp,by simp⟩

theorem Sound.congr (h : Sound s) (h1 : s'.sched = s.sched) (h2 : s'.boxes = s.boxes)
    (h3 : s'.deltaQs = s.deltaQs) : Sound s' := by
  obtain ⟨hq,ht⟩ := Prod.mk.inj h2
  exact ⟨by rw [h1]; exact h.kept,by rw [hq,h3]; exact h.made,by rw [h3]; exact h.inj,
    by rw [hq,ht]; exact h.untaken⟩

theorem Sound.modify (h : Sound s) (i : SeqId) {f : Sequence → Sequence}
    (hr : ∀ q, (f q).requestId = q.requestId) (hf : ∀ q, (f q).finished = q.finished)
    (hc : ∀ q, (f q).cancelled = q.cancelled) : Sound (s.modify i f) :=
  ⟨h.kept.modify i hr hf hc,h.made,h.inj,h.untaken⟩

theorem Sound.mark (h : Sound s) (i : SeqId) {f : Sequence → Sequence}
    (hr : ∀ q, (f q).requestId = q.requestId) (reason : FinishReason) :
    Sound ((s.modify i f).mark b i reason) :=
  ⟨h.kept.markFinished i hr reason,h.made,h.inj,h.untaken⟩

theorem Sound.schedCancel (h : Sound s) (r : RequestId) : Sound (s.schedCancel b r) := by
  unfold EngineLoop.schedCancel
  cases s.sched.byRequest r with
  | none => exact h
  | some i => exact h.mark i (f := fun q => { q with cancelled := true }) (fun _ => rfl) .cancelled

/-- What `_emit` does to the rest of the engine: it closes the queue of its
request, and a full queue cancels the request. -/
structure Emitted (b : Backend R) (s : EngineLoop R) (r : RequestId) (f : Frame) (final : Bool)
    (s' : EngineLoop R) : Prop where
  sched : s'.sched = s.sched ∨ s'.sched = (s.schedCancel b r).sched ∧
    ∃ d, s.deltaQs r = some d ∧ queueSize ≤ (s.queue d).length
  length : s'.queues.length = s.queues.length
  queue : ∀ e, s.deltaQs r ≠ some e → s'.queue e = s.queue e
  own : ∀ d, s.deltaQs r = some d → d < s.queues.length → (s.queue d).length < queueSize →
    s'.sched = s.sched ∧ s'.queue d = s.queue d ++ [f]
  full : ∀ d, s.deltaQs r = some d → queueSize ≤ (s.queue d).length → s'.queue d = s.queue d
  deltaQs : s'.deltaQs = if final then Function.update s.deltaQs r none else s.deltaQs
  submitQ : s'.submitQ = s.submitQ
  cancelled : s'.cancelled = s.cancelled
  draining : s'.draining = s.draining
  deadlines : ∀ kv ∈ s.deadlines, kv.1 ≠ r ∨ final = false → kv ∈ s'.deadlines

theorem schedCancel_mail (s : EngineLoop R) (r : RequestId) :
    (s.schedCancel b r).queues = s.queues ∧ (s.schedCancel b r).deltaQs = s.deltaQs ∧
      (s.schedCancel b r).submitQ = s.submitQ ∧ (s.schedCancel b r).cancelled = s.cancelled ∧
      (s.schedCancel b r).draining = s.draining ∧ (s.schedCancel b r).deadlines = s.deadlines := by
  unfold EngineLoop.schedCancel
  cases s.sched.byRequest r with
  | none => exact ⟨rfl,rfl,rfl,rfl,rfl,rfl⟩
  | some i => exact ⟨rfl,rfl,rfl,rfl,rfl,rfl⟩

theorem put_emitted {r : RequestId} {d : QueueId} {f : Frame} (hd : s.deltaQs r = some d) :
    Emitted b s r f false (s.put b d r f) := by
  unfold EngineLoop.put
  split_ifs with hroom
  · refine ⟨.inl rfl,by simp,fun e he => ?_,fun e he hlt _ => ?_,fun e he hfull => ?_,rfl,rfl,rfl,rfl,
      fun _ h _ => h⟩
    · have hed : e ≠ d := fun heq => he (heq ▸ hd)
      exact (getD_modify s.queues d e _).trans (if_neg fun hc => hed hc.1)
    · obtain rfl : d = e := Option.some.inj (hd.symm.trans he)
      exact ⟨rfl,(getD_modify s.queues d d _).trans (if_pos ⟨rfl,hlt⟩)⟩
    · obtain rfl : d = e := Option.some.inj (hd.symm.trans he)
      exact absurd hroom (Nat.not_lt.mpr hfull)
  · obtain ⟨h1,h2,h3,h4,h5,h6⟩ := schedCancel_mail (b := b) s r
    have hqueue : ∀ e, (s.schedCancel b r).queue e = s.queue e := fun e => by rw [queue,h1]; rfl
    refine ⟨.inr ⟨rfl,d,hd,Nat.le_of_not_lt hroom⟩,by rw [h1],fun e _ => hqueue e,
      fun e he _ hlt => ?_,fun e _ _ => hqueue e,h2,h3,h4,h5,fun kv hkv _ => by rw [h6]; exact hkv⟩
    obtain rfl : d = e := Option.some.inj (hd.symm.trans he)
    exact absurd hlt hroom

theorem closeQueue_mail (s : EngineLoop R) (r : RequestId) :
    (s.closeQueue b r).sched = s.sched ∧ (s.closeQueue b r).queues = s.queues ∧
      (s.closeQueue b r).deltaQs = Function.update s.deltaQs r none ∧
      (s.closeQueue b r).submitQ = s.submitQ ∧ (s.closeQueue b r).cancelled = s.cancelled ∧
      (s.closeQueue b r).draining = s.draining ∧
      ∀ kv ∈ s.deadlines, kv.1 ≠ r → kv ∈ (s.closeQueue b r).deadlines := by
  unfold EngineLoop.closeQueue
  simp only
  split_ifs
  · exact ⟨rfl,rfl,rfl,rfl,rfl,rfl,fun kv hkv hr => List.mem_filter.mpr ⟨hkv,by simpa using hr⟩⟩
  · exact ⟨rfl,rfl,rfl,rfl,rfl,rfl,fun kv hkv _ => hkv⟩

theorem emit_emitted (s : EngineLoop R) (r : RequestId) (f : Frame) (final : Bool) :
    Emitted b s r f final (s.emit b r f final) := by
  unfold EngineLoop.emit
  simp only
  cases hd : s.deltaQs r with
  | none =>
    refine ⟨.inl rfl,rfl,fun _ _ => rfl,fun d hd' => by rw [hd] at hd'; exact absurd hd' (by simp),
      fun d hd' => by rw [hd] at hd'; exact absurd hd' (by simp),?_,rfl,rfl,rfl,fun _ h _ => h⟩
    cases final with
    | false => rfl
    | true =>
      simp only [if_true]
      exact (Function.update_eq_self_iff.mpr hd.symm).symm
  | some d =>
    have hput := put_emitted (b := b) (f := f)
      (s := { s with emitted := s.emitted ++ [(r,f)] }) (r := r) hd
    have hcancel : (schedCancel b { s with emitted := s.emitted ++ [(r,f)] } r).sched =
        (s.schedCancel b r).sched := by
      unfold EngineLoop.schedCancel
      cases s.sched.byRequest r <;> rfl
    have hsched := hput.sched
    rw [hcancel] at hsched
    simp only
    cases final with
    | false => exact { hput with sched := hsched }
    | true =>
      simp only [if_true]
      obtain ⟨h1,h2,h3,h4,h5,h6,h7⟩ := closeQueue_mail (b := b)
        (({ s with emitted := s.emitted ++ [(r,f)] } : EngineLoop R).put b d r f) r
      have hqueue : ∀ e, ((({ s with emitted := s.emitted ++ [(r,f)] } : EngineLoop R).put b d r f).closeQueue
          b r).queue e = (({ s with emitted := s.emitted ++ [(r,f)] } : EngineLoop R).put b d r f).queue e :=
        fun e => by rw [queue,h2]; rfl
      refine ⟨by rw [h1]; exact hsched,by rw [h2]; exact hput.length,
        fun e he => (hqueue e).trans (hput.queue e he),fun e he hlt hroom => ?_,
        fun e he hfull => (hqueue e).trans (hput.full e he hfull),?_,h4.trans hput.submitQ,
        h5.trans hput.cancelled,h6.trans hput.draining,fun kv hkv hr => ?_⟩
      · rw [h1,hqueue]
        exact hput.own e he hlt hroom
      · rw [h3,hput.deltaQs]
        rfl
      · exact h7 kv (hput.deadlines kv hkv (.inr rfl)) (hr.resolve_right (by simp))

section History

theorem boxes_schedCancel (s : EngineLoop R) (r : RequestId) : (s.schedCancel b r).boxes = s.boxes := by
  unfold EngineLoop.schedCancel
  split <;> rfl

theorem queue_congr (h : s'.boxes = s.boxes) (d : QueueId) : s'.queue d = s.queue d := by
  rw [queue,(Prod.mk.inj h).1]
  rfl

theorem history_congr (h : s'.boxes = s.boxes) (d : QueueId) : s'.history d = s.history d := by
  rw [history,queue_congr h,(Prod.mk.inj h).2]
  rfl

theorem taken_emit (s : EngineLoop R) (r : RequestId) (f : Frame) (final : Bool) :
    (s.emit b r f final).taken = s.taken := by
  have hput : ∀ d, (EngineLoop.put b { s with emitted := s.emitted ++ [(r,f)] } d r f).taken = s.taken := by
    intro d
    unfold EngineLoop.put
    split_ifs
    · rfl
    · exact congrArg Prod.snd (boxes_schedCancel (b := b) { s with emitted := s.emitted ++ [(r,f)] } r)
  have hclose : ∀ s : EngineLoop R, (s.closeQueue b r).taken = s.taken := by
    intro s
    unfold EngineLoop.closeQueue
    simp only
    split_ifs <;> rfl
  unfold EngineLoop.emit
  cases s.deltaQs r with
  | none => rfl
  | some d =>
    cases final with
    | false => exact hput d
    | true => exact (hclose _).trans (hput d)

theorem history_emit {r : RequestId} {d : QueueId} (f : Frame) (final : Bool) (hd : s.deltaQs r ≠ some d) :
    (s.emit b r f final).history d = s.history d := by
  rw [history,taken_emit,(emit_emitted s r f final).queue d hd]
  rfl

theorem history_emit_own {r : RequestId} {d : QueueId} (f : Frame) (final : Bool)
    (hd : s.deltaQs r = some d) (hlt : d < s.queues.length) (hroom : (s.queue d).length < queueSize) :
    (s.emit b r f final).history d = s.history d ++ [f] := by
  rw [history,taken_emit,((emit_emitted s r f final).own d hd hlt hroom).2,← List.append_assoc]
  rfl

theorem queue_none {d : QueueId} (hd : s.queues.length ≤ d) : s.queue d = [] := by
  simp [queue,List.getD_eq_getElem?_getD,List.getElem?_eq_none hd]

/-- A reader takes the frames in the order in which they were put, and loses none. -/
theorem history_read (s : EngineLoop R) (d e : QueueId) : (s.read d).history e = s.history e := by
  have hq : (s.read d).queue e = if e = d ∧ d < s.queues.length then (s.queue d).tail else s.queue e :=
    getD_modify s.queues d e List.tail
  have ht : (s.read d).taken e = if e = d then s.taken d ++ (s.queue d).take 1 else s.taken e := by
    simp only [EngineLoop.read,Function.update_apply]
  rw [history,hq,ht]
  by_cases he : e = d
  · subst he
    by_cases hlt : e < s.queues.length
    · rw [if_pos rfl,if_pos ⟨rfl,hlt⟩,List.append_assoc,← List.drop_one,List.take_append_drop]
      rfl
    · simp [hlt,queue_none (Nat.le_of_not_lt hlt),history]
  · simp [he,history]

theorem length_queue_read (s : EngineLoop R) (d e : QueueId) :
    ((s.read d).queue e).length ≤ (s.queue e).length := by
  have hq : (s.read d).queue e = if e = d ∧ d < s.queues.length then (s.queue d).tail else s.queue e :=
    getD_modify s.queues d e List.tail
  rw [hq]
  split_ifs with h
  · rw [h.1]
    simp
  · exact Nat.le_refl _

@[simp] theorem length_queues_read (s : EngineLoop R) (d : QueueId) :
    (s.read d).queues.length = s.queues.length := by
  simp [EngineLoop.read]

theorem Sound.read (h : Sound s) (d : QueueId) : Sound (s.read d) := by
  refine ⟨h.kept,fun r e he => by rw [length_queues_read]; exact h.made r e he,h.inj,fun e he => ?_⟩
  rw [length_queues_read] at he
  by_cases hed : e = d
  · subst hed
    simp [EngineLoop.read,h.untaken e he,queue_none he]
  · simpa [EngineLoop.read,hed] using h.untaken e he

end History

theorem Sound.emit (h : Sound s) (r : RequestId) (f : Frame) (final : Bool) :
    Sound (s.emit b r f final) := by
  have he := emit_emitted (b := b) s r f final
  have hqs : ∀ r' d, (s.emit b r f final).deltaQs r' = some d → s.deltaQs r' = some d := by
    intro r' d hd
    rw [he.deltaQs] at hd
    cases final with
    | false => exact hd
    | true =>
      simp only [if_true] at hd
      by_cases hr : r' = r
      · rw [hr,Function.update_self] at hd
        exact absurd hd (by simp)
      · rwa [Function.update_of_ne hr] at hd
  refine ⟨?_,fun r' d hd => by rw [he.length]; exact h.made r' d (hqs r' d hd),
    fun r' r'' d hd hd' => h.inj r' r'' d (hqs r' d hd) (hqs r'' d hd'),
    fun d hd => by rw [taken_emit]; exact h.untaken d (he.length ▸ hd)⟩
  rcases he.sched with hs | ⟨hs,_⟩
  · rw [hs]; exact h.kept
  · rw [hs]; exact (h.schedCancel r).kept

section Acts

structure Mild (f : Sequence → Sequence) : Prop where
  requestId : ∀ q, (f q).requestId = q.requestId
  finished : ∀ q, (f q).finished = q.finished
  cancelled : ∀ q, (f q).cancelled = q.cancelled

/-- One move of the loop after it has formed a batch. A move with an index
puts a frame for that sequence. -/
inductive Act (b : Backend R) (s : EngineLoop R) : Option SeqId → EngineLoop R → Prop where
  | quiet (runner : R) (forwards : List Forward) :
      Act b s none { s with runner := runner, forwards := forwards }
  | note (i : SeqId) (assigned : Bool) (hi : (s.seq i).finished = false) :
      Act b s none (s.noteText (s.seq i).requestId assigned)
  | touch (i : SeqId) (f : Sequence → Sequence) (hf : Mild f) : Act b s none (s.modify i f)
  | drop : Act b s none s.dropFinished
  | more (i : SeqId) (f : Sequence → Sequence) (fr : Frame) (prevText : RequestId → Text)
      (hi : (s.seq i).finished = false) (hf : Mild f) (hfr : fr.finishReason = none) :
      Act b s (some i)
        (({ s.modify i f with prevText := prevText } : EngineLoop R).emit b (s.seq i).requestId fr false)
  | last (i : SeqId) (f : Sequence → Sequence) (reason : FinishReason) (fr : Frame)
      (prevText : RequestId → Text) (hi : (s.seq i).finished = false)
      (hf : ∀ q, (f q).requestId = q.requestId) (hfr : fr.finishReason ≠ none) :
      Act b s (some i)
        (({ (s.modify i f).mark b i reason with prevText := prevText } : EngineLoop R).emit b
          (s.seq i).requestId fr true)

inductive Work (b : Backend R) : EngineLoop R → List SeqId → EngineLoop R → Prop where
  | nil (s : EngineLoop R) : Work b s [] s
  | calm {s s₁ s₂ : EngineLoop R} {l : List SeqId} (h : Act b s none s₁) (hw : Work b s₁ l s₂) :
      Work b s l s₂
  | sends {s s₁ s₂ : EngineLoop R} {i : SeqId} {l : List SeqId} (h : Act b s (some i) s₁)
      (hw : Work b s₁ l s₂) : Work b s (i :: l) s₂

theorem Sound.act {x : Option SeqId} (h : Sound s) (ha : Act b s x s') : Sound s' := by
  cases ha with
  | quiet => exact h.congr rfl rfl rfl
  | note => exact h.congr rfl rfl rfl
  | touch i f hf => exact h.modify i hf.requestId hf.finished hf.cancelled
  | drop => exact ⟨h.kept.dropFinished,h.made,h.inj,h.untaken⟩
  | more i f fr prevText hi hf hfr =>
    have hm := h.modify i hf.requestId hf.finished hf.cancelled
    exact (hm.congr rfl rfl rfl : Sound { s.modify i f with prevText := prevText }).emit _ fr false
  | last i f reason fr prevText hi hf hfr =>
    have hm := h.mark (b := b) i hf reason
    exact (hm.congr rfl rfl rfl :
      Sound { (s.modify i f).mark b i reason with prevText := prevText }).emit _ fr true

theorem Sound.work {l : List SeqId} (h : Sound s) (hw : Work b s l s') : Sound s' := by
  induction hw with
  | nil s => exact h
  | calm ha _ ih => exact ih (h.act ha)
  | sends ha _ ih => exact ih (h.act ha)

theorem Work.trans {s'' : EngineLoop R} {l l' : List SeqId} (h : Work b s l s')
    (h' : Work b s' l' s'') : Work b s (l ++ l') s'' := by
  induction h with
  | nil s => exact h'
  | calm ha _ ih => exact .calm ha (ih h')
  | sends ha _ ih => exact .sends ha (ih h')

theorem Work.of_calm (h : Act b s none s') : Work b s [] s' := .calm h (.nil s')

theorem Work.of_sends {i : SeqId} (h : Act b s (some i) s') : Work b s [i] s' := .sends h (.nil s')

def names (s : EngineLoop R) : List RequestId := s.sched.seqs.map (·.requestId)

structure Stays (s s' : EngineLoop R) : Prop where
  names : s'.names = s.names
  deltaQs : ∀ r d, s'.deltaQs r = some d → s.deltaQs r = some d
  length : s'.queues.length = s.queues.length
  submitQ : s'.submitQ = s.submitQ
  live : ∀ i, (s'.seq i).finished = false → (s.seq i).finished = false

theorem Stays.refl (s : EngineLoop R) : Stays s s := ⟨rfl,fun _ _ h => h,rfl,rfl,fun _ h => h⟩

theorem Stays.trans {s'' : EngineLoop R} (h : Stays s s') (h' : Stays s' s'') : Stays s s'' :=
  ⟨h'.names.trans h.names,fun r d hd => h.deltaQs r d (h'.deltaQs r d hd),h'.length.trans h.length,
    h'.submitQ.trans h.submitQ,fun i hi => h.live i (h'.live i hi)⟩

theorem Stays.of_same (h1 : s'.sched.seqs = s.sched.seqs) (h2 : s'.deltaQs = s.deltaQs)
    (h3 : s'.queues = s.queues) (h4 : s'.submitQ = s.submitQ) : Stays s s' :=
  ⟨by rw [EngineLoop.names,h1]; rfl,fun r d hd => by rw [← h2]; exact hd,by rw [h3],h4,
    fun i hi => by rw [EngineLoop.seq,Scheduler.seq,h1] at hi; exact hi⟩

theorem Stays.requestId (h : Stays s s') (i : SeqId) :
    (s'.seq i).requestId = (s.seq i).requestId := by
  have key : ∀ s : EngineLoop R, (s.seq i).requestId = (s.names[i]?).getD "" := by
    intro s
    simp only [EngineLoop.names,EngineLoop.seq,Scheduler.seq,List.getElem?_map,List.getD_eq_getElem?_getD]
    cases s.sched.seqs[i]? <;> rfl
  rw [key,key,h.names]

theorem stays_modify (s : EngineLoop R) (i : SeqId) {f : Sequence → Sequence}
    (hf : ∀ q, (f q).requestId = q.requestId) (hl : ∀ q, (f q).finished = false → q.finished = false) :
    Stays s (s.modify i f) := by
  refine ⟨map_requestId_modify _ i hf,fun _ _ h => h,rfl,rfl,fun j hj => ?_⟩
  rw [seq_modify] at hj
  split_ifs at hj with hji
  · rw [hji.1]
    exact hl _ hj
  · exact hj

theorem stays_end (s : EngineLoop R) (i : SeqId) {f : Sequence → Sequence}
    (hf : ∀ q, (f q).requestId = q.requestId) (reason : FinishReason) :
    Stays s ((s.modify i f).mark b i reason) := by
  refine ⟨?_,fun _ _ h => h,rfl,rfl,fun j hj => ?_⟩
  · refine Eq.trans ?_ (map_requestId_modify s.sched.seqs i hf)
    exact map_requestId_modify (s.modify i f).sched.seqs i (f := fun q =>
      { q with finished := true, finishReason := some reason, blockTable := [], kvState := false }) fun _ => rfl
  · have hj' : (((s.sched.modify i f).markFinished i reason).seq j).finished = false := hj
    rw [Scheduler.seq_end] at hj'
    split_ifs at hj' with hji
    exact hj'

theorem stays_schedCancel (s : EngineLoop R) (r : RequestId) : Stays s (s.schedCancel b r) := by
  unfold EngineLoop.schedCancel
  cases s.sched.byRequest r with
  | none => exact .refl s
  | some i => exact stays_end s i (f := fun q => { q with cancelled := true }) (fun _ => rfl) .cancelled

theorem stays_emit (s : EngineLoop R) (r : RequestId) (f : Frame) (final : Bool) :
    Stays s (s.emit b r f final) := by
  have he := emit_emitted (b := b) s r f final
  refine ⟨?_,fun r' d hd => ?_,he.length,he.submitQ,fun i hi => ?_⟩
  · rcases he.sched with hs | ⟨hs,_⟩
    · rw [EngineLoop.names,hs]; rfl
    · rw [EngineLoop.names,hs]
      exact (stays_schedCancel (b := b) s r).names
  · rw [he.deltaQs] at hd
    cases final with
    | false => exact hd
    | true =>
      simp only [if_true] at hd
      by_cases hr : r' = r
      · rw [hr,Function.update_self] at hd
        exact absurd hd (by simp)
      · rwa [Function.update_of_ne hr] at hd
  · rcases he.sched with hs | ⟨hs,_⟩
    · rw [EngineLoop.seq,hs] at hi
      exact hi
    · rw [EngineLoop.seq,hs] at hi
      exact (stays_schedCancel (b := b) s r).live i hi

theorem Act.stays {x : Option SeqId} (h : Act b s x s') : Stays s s' := by
  cases h with
  | quiet => exact .of_same rfl rfl rfl rfl
  | note => exact .of_same rfl rfl rfl rfl
  | touch i f hf => exact stays_modify s i hf.requestId fun q hq => by rw [← hf.finished]; exact hq
  | drop => exact .of_same rfl rfl rfl rfl
  | more i f fr prevText hi hf hfr =>
    have hm := stays_modify s i hf.requestId fun q hq => by rw [← hf.finished]; exact hq
    have hp : Stays (s.modify i f) { s.modify i f with prevText := prevText } := .of_same rfl rfl rfl rfl
    exact (hm.trans hp).trans (stays_emit _ _ fr false)
  | last i f reason fr prevText hi hf hfr =>
    have hm := stays_end (b := b) s i hf reason
    have hp : Stays ((s.modify i f).mark b i reason)
      { (s.modify i f).mark b i reason with prevText := prevText } := .of_same rfl rfl rfl rfl
    exact (hm.trans hp).trans (stays_emit _ _ fr true)

theorem Work.stays {l : List SeqId} (h : Work b s l s') : Stays s s' := by
  induction h with
  | nil s => exact .refl s
  | calm ha _ ih => exact ha.stays.trans ih
  | sends ha _ ih => exact ha.stays.trans ih

theorem work_absorb {α : Type} (s : EngineLoop R) (batch : List SeqId) (r : Ran R α) :
    Work b s [] (s.absorb batch r) := by
  have key : ∀ (batch : List SeqId) (s : EngineLoop R),
      Work b s [] { s with sched := batch.foldl (fun sc i =>
        sc.modify i fun q => { q with cachedLen := r.cached i }) s.sched } := by
    intro batch
    induction batch with
    | nil => exact fun s => .nil s
    | cons i batch ih =>
      intro s
      exact .calm (.touch i (fun q => { q with cachedLen := r.cached i })
        ⟨fun _ => rfl,fun _ => rfl,fun _ => rfl⟩) (ih _)
  exact (key batch s).trans (.of_calm (.quiet r.runner (s.forwards ++ r.forwards)))

theorem act_applyPost {i : SeqId} {p : Post} (hi : (s.seq i).finished = false)
    (hp : p.finished = p.reason.isSome) : Act b s (some i) (s.applyPost b i p) := by
  unfold EngineLoop.applyPost
  cases hr : p.reason with
  | none =>
    have hfin : p.finished = false := by rw [hp,hr]; rfl
    simp only [hfin]
    exact .more i (fun q => { q with outputIds := p.outputIds }) _
      (Function.update s.prevText (s.seq i).requestId p.prevText) hi
      ⟨fun _ => rfl,fun _ => rfl,fun _ => rfl⟩ (by simp [Post.frame,hfin])
  | some reason =>
    have hfin : p.finished = true := by rw [hp,hr]; rfl
    simp only [hfin]
    refine .last i (fun q => { q with outputIds := p.outputIds }) reason _
      (Function.update s.prevText (s.seq i).requestId p.prevText) hi (fun _ => rfl) ?_
    simp only [Post.frame,hfin,if_true]
    show (Scheduler.seq (Scheduler.markFinished _ i reason) i).finishReason ≠ none
    have hlt : i < s.sched.seqs.length := Scheduler.lt_of_unfinished hi
    show (((s.sched.modify i _).markFinished i reason).seq i).finishReason ≠ none
    rw [Scheduler.seq_end,if_pos ⟨rfl,hlt⟩]
    simp

/-- One round of the post-processing loop: nothing for a sequence that is over
or got no token, else one frame. -/
theorem work_postOne (h : Sound s) (m : (SeqId × Bool) × Option Token) :
    Work b s [] (s.postOne b m) ∨ Work b s [m.1.1] (s.postOne b m) := by
  obtain ⟨⟨i,pre⟩,tok⟩ := m
  unfold EngineLoop.postOne
  cases tok with
  | none => exact .inl (.nil s)
  | some t =>
    simp only
    by_cases hfin : (s.seq i).finished = true
    · rw [if_pos hfin]
      exact .inl (.nil s)
    have hlive : (s.seq i).finished = false := by simpa using hfin
    rw [if_neg hfin]
    by_cases hc : (s.seq i).requestId ∈ s.cancelled
    · rw [if_pos hc]
      have ha : Act b s (some i) _ := .last i (fun q => q) .cancelled
        { finishReason := some .cancelled, usage := some (usage (s.seq i)) } s.prevText hlive
        (fun _ => rfl) (by simp)
      rw [modify_id] at ha
      exact .inr (.of_sends ha)
    rw [if_neg hc]
    right
    have hpre : Work b s [] (if pre then s.prefilled b i else s) ∧
        Touched s i (if pre then s.prefilled b i else s) := by
      split_ifs
      · refine ⟨?_,touched_prefilled s i⟩
        have ht : Act b s none (s.modify i fun q => { q with cachedLen := q.inputIds.length }) :=
          .touch i _ ⟨fun _ => rfl,fun _ => rfl,fun _ => rfl⟩
        unfold EngineLoop.prefilled
        simp only
        split_ifs
        · exact .of_calm ht
        · exact .calm ht (.of_calm (.quiet (b.insert s.runner s.sched i) s.forwards))
      · exact ⟨.nil s,.refl s i⟩
    generalize (if pre then s.prefilled b i else s) = s₁ at hpre ⊢
    have ht := hpre.2.trans (touched_modify s₁ i
      (f := fun q => { q with outputIds := q.outputIds ++ [t] })
      (fun _ => rfl) (fun _ => rfl) (fun _ => rfl))
    have hw := hpre.1.trans (.of_calm (.touch (b := b) i
      (fun q => { q with outputIds := q.outputIds ++ [t] }) ⟨fun _ => rfl,fun _ => rfl,fun _ => rfl⟩))
    generalize (s₁.modify i fun q => { q with outputIds := q.outputIds ++ [t] }) = s₂ at ht hw ⊢
    have hlive₂ : (s₂.seq i).finished = false := ht.finished.trans hlive
    have hflag : (s₂.seq i).cancelled = false := ht.cancelled.trans (h.kept.flag i hlive)
    rw [← ht.requestId]
    exact hw.trans (.calm (.note i _ hlive₂)
      (.of_sends (act_applyPost hlive₂ (postToken_finished b.tk t _ hflag))))

theorem work_posts (h : Sound s) (ms : List ((SeqId × Bool) × Option Token)) :
    ∃ l, l.Sublist (ms.map fun m => m.1.1) ∧ Work b s l (ms.foldl (EngineLoop.postOne b) s) := by
  induction ms generalizing s with
  | nil => exact ⟨[],.refl _,.nil s⟩
  | cons m ms ih =>
    rcases work_postOne (b := b) h m with hw | hw
    · obtain ⟨l,hl,hrest⟩ := ih (h.work hw)
      exact ⟨l,hl.cons _,hw.trans hrest⟩
    · obtain ⟨l,hl,hrest⟩ := ih (h.work hw)
      exact ⟨m.1.1 :: l,hl.cons_cons _,hw.trans hrest⟩

/-- The last frame of a sequence leaves the scheduler as `mark_finished` left
it: `_by_request` has forgotten the request, so a full queue cancels nothing. -/
theorem last_sched {i : SeqId} {f : Sequence → Sequence} (hf : ∀ q, (f q).requestId = q.requestId)
    (reason : FinishReason) (fr : Frame) (prevText : RequestId → Text) :
    (({ (s.modify i f).mark b i reason with prevText := prevText } : EngineLoop R).emit b
      (s.seq i).requestId fr true).sched = (s.sched.modify i f).markFinished i reason := by
  have hid : ((s.sched.modify i f).seq i).requestId = (s.seq i).requestId := by
    rw [Scheduler.seq_modify]
    split_ifs
    · exact hf _
    · rfl
  have hnone : ((s.sched.modify i f).markFinished i reason).byRequest (s.seq i).requestId = none := by
    show Function.update s.sched.byRequest ((s.sched.modify i f).seq i).requestId none
      (s.seq i).requestId = none
    rw [hid,Function.update_self]
  rcases (emit_emitted (b := b) ({ (s.modify i f).mark b i reason with prevText := prevText } : EngineLoop R)
    (s.seq i).requestId fr true).sched with hs | ⟨hs,_⟩
  · exact hs
  · rw [hs,EngineLoop.schedCancel]
    have hnone' : ((s.modify i f).mark b i reason).sched.byRequest (s.seq i).requestId = none := hnone
    simp only [hnone']
    rfl

theorem last_other {i : SeqId} {f : Sequence → Sequence} (hf : ∀ q, (f q).requestId = q.requestId)
    (reason : FinishReason) (fr : Frame) (prevText : RequestId → Text) {j : SeqId} (hj : j ≠ i) :
    (({ (s.modify i f).mark b i reason with prevText := prevText } : EngineLoop R).emit b
      (s.seq i).requestId fr true).seq j = s.seq j := by
  rw [seq,last_sched hf,Scheduler.seq_end,if_neg (fun hc => hj hc.1)]
  rfl

theorem work_abortBatch {e : Fault} {batch : List (SeqId × Bool)} (hb : Batch s (batch.map Prod.fst)) :
    Work b s (batch.map Prod.fst) (s.abortBatch b e batch) := by
  unfold EngineLoop.abortBatch
  induction batch generalizing s with
  | nil => exact .nil s
  | cons m batch ih =>
    have hn : m.1 ∉ batch.map Prod.fst ∧ (batch.map Prod.fst).Nodup := List.nodup_cons.mp hb.nodup
    have ha : Act b s (some m.1) _ := .last m.1 (fun q => q) .error
      (errorFrame e.text (some (usage (s.seq m.1)))) s.prevText (hb.live m.1 (by simp)) (fun _ => rfl)
      (by simp [errorFrame])
    have hother := fun j hj => last_other (b := b) (s := s) (i := m.1) (f := fun q => q) (fun _ => rfl)
      .error (errorFrame e.text (some (usage (s.seq m.1)))) s.prevText (j := j) hj
    rw [modify_id] at ha hother
    refine .sends ha (ih ⟨fun j hj => ?_,hn.2⟩)
    rw [hother j (fun he => hn.1 (he ▸ hj))]
    exact hb.live j (by simp only [List.map_cons]; exact List.mem_cons_of_mem _ hj)

theorem Work.batch {l ids : List SeqId} (hw : Work b s l s') (hl : l = []) (hb : Batch s ids) :
    Batch s' ids := by
  induction hw with
  | nil s => exact hb
  | sends => exact absurd hl (by simp)
  | calm ha _ ih =>
    refine ih hl ⟨fun i hi => ?_,hb.nodup⟩
    have hlive := hb.live i hi
    cases ha with
    | quiet => exact hlive
    | note => exact hlive
    | drop => exact hlive
    | touch j f hf =>
      rw [seq_modify]
      split_ifs with hj
      · rw [hf.finished,← hj.1]
        exact hlive
      · exact hlive

theorem work_burstOne {i : SeqId} {first : Token} (h : Sound s) (hi : (s.seq i).finished = false) :
    Work b s [] (s.burstOne b i first).1 ∨ Work b s [i] (s.burstOne b i first).1 := by
  have happ : ∀ (s₁ : EngineLoop R) (toks : List Token), Work b s [] s₁ → (s₁.seq i).finished = false →
      Work b s [] (s₁.modify i fun q => { q with outputIds := q.outputIds ++ toks }) ∧
        ((s₁.modify i fun q => { q with outputIds := q.outputIds ++ toks }).seq i).finished = false := by
    intro s₁ toks hw hl
    have ht := touched_modify s₁ i (f := fun q => { q with outputIds := q.outputIds ++ toks })
      (fun _ => rfl) (fun _ => rfl) (fun _ => rfl)
    exact ⟨hw.trans (.of_calm (.touch i _ ⟨fun _ => rfl,fun _ => rfl,fun _ => rfl⟩)),ht.finished.trans hl⟩
  have hend : ∀ (s₂ : EngineLoop R) (toks : List Token) (prev : Text) (a : Bool), Work b s [] s₂ →
      (s₂.seq i).finished = false →
      Work b s [i] ((s₂.noteText (s.seq i).requestId a).applyPost b i
        (postBurst b.tk b.eos (s₂.seq i) toks prev)).dropFinished := by
    intro s₂ toks prev a hw hl
    rw [← hw.stays.requestId i]
    exact hw.trans (.calm (.note i a hl)
      (.sends (act_applyPost hl (burstLoop_finished ((h.work hw).kept.flag i hl))) (.of_calm .drop)))
  obtain ⟨h₁,hl₁⟩ := happ s [first] (.nil s) hi
  unfold EngineLoop.burstOne
  simp only
  split_ifs with hextra
  · have hw := work_absorb (b := b) (s.modify i fun q => { q with outputIds := q.outputIds ++ [first] })
      [i] (b.decodeBurst (s.modify i fun q => { q with outputIds := q.outputIds ++ [first] }).runner
        (s.modify i fun q => { q with outputIds := q.outputIds ++ [first] }).sched i
        (min ((s.seq i).maxTokens-(s.seq i).outputIds.length-1) (b.burst-1)))
    have hw₂ := h₁.trans hw
    have hone : Batch (s.modify i fun q => { q with outputIds := q.outputIds ++ [first] }) [i] :=
      ⟨fun j hj => by rw [List.mem_singleton.mp hj]; exact hl₁,by simp⟩
    have hl₂ := (hw.batch rfl hone).live i (by simp)
    split
    · exact .inl (happ _ _ hw₂ hl₂).1
    · rename_i more _
      obtain ⟨h₃,hl₃⟩ := happ _ more hw₂ hl₂
      exact .inr (hend _ _ _ _ h₃ hl₃)
  · exact .inr (hend _ _ _ _ h₁ hl₁)

theorem work_afterBatch {batch : List (SeqId × Bool)} (h : Sound s)
    (res : Except Fault (List (Option Token))) (hb : Batch s (batch.map Prod.fst)) :
    ∃ l, (l.Nodup ∧ l ⊆ batch.map Prod.fst) ∧ Work b s l (s.afterBatch b batch res).1 := by
  cases res with
  | error e => exact ⟨batch.map Prod.fst,⟨hb.nodup,fun _ hi => hi⟩,work_abortBatch hb⟩
  | ok toks =>
    have hsub : ((batch.zip toks).map fun m => m.1.1).Sublist (batch.map Prod.fst) := by
      simpa [Function.comp_def] using (zip_fst_sublist batch toks).map Prod.fst
    have hposts : ∃ l, (l.Nodup ∧ l ⊆ batch.map Prod.fst) ∧
        Work b s l ((batch.zip toks).foldl (EngineLoop.postOne b) s).dropFinished := by
      obtain ⟨l,hl,hw⟩ := work_posts (b := b) h (batch.zip toks)
      have := hw.trans (.of_calm .drop)
      rw [List.append_nil] at this
      exact ⟨l,⟨(hb.nodup.sublist hsub).sublist hl,(hl.trans hsub).subset⟩,this⟩
    simp only [EngineLoop.afterBatch,finishBatch]
    split
    · split_ifs with hburst
      · rcases work_burstOne (b := b) h hburst.2 with hw | hw
        · exact ⟨[],⟨List.nodup_nil,by simp⟩,hw⟩
        · exact ⟨_,⟨by simp,by simp⟩,hw⟩
      · exact hposts
    · exact hposts

def formed (b : Backend R) (s : EngineLoop R) : EngineLoop R :=
  { s with sched := (s.sched.step b.sched).1 }

theorem Sound.formed (h : Sound s) :
    Sound (s.formed b) ∧ Batch (s.formed b) ((s.sched.step b.sched).2.map Prod.fst) := by
  obtain ⟨hk,hnd,hmem,_⟩ := h.kept.step b.sched
  refine ⟨⟨hk,h.made,h.inj,h.untaken⟩,fun i hi => ?_,hnd⟩
  obtain ⟨m,hm,rfl⟩ := List.mem_map.mp hi
  exact (hmem m hm).2.1

theorem runStep_eq (s : EngineLoop R) (hne : (s.sched.step b.sched).2 ≠ []) :
    s.runStep b = (((s.formed b).absorb ((s.sched.step b.sched).2.map Prod.fst)
      (b.runBatch s.runner (s.sched.step b.sched).1 (s.sched.step b.sched).2)).afterBatch b
      (s.sched.step b.sched).2
      (b.runBatch s.runner (s.sched.step b.sched).1 (s.sched.step b.sched).2).result) := by
  rw [runStep]
  simp only [if_neg hne]
  rfl

theorem work_runStep (h : Sound s) :
    ∃ l, (l.Nodup ∧ l ⊆ (s.sched.step b.sched).2.map Prod.fst) ∧
      Work b (s.formed b) l (s.runStep b).1 := by
  obtain ⟨hs,hb⟩ := h.formed (b := b)
  by_cases hne : (s.sched.step b.sched).2 = []
  · refine ⟨[],⟨List.nodup_nil,by simp⟩,?_⟩
    rw [runStep]
    simp only [if_pos hne]
    exact .nil _
  · rw [runStep_eq s hne]
    have hw := work_absorb (b := b) (s.formed b) ((s.sched.step b.sched).2.map Prod.fst)
      (b.runBatch s.runner (s.sched.step b.sched).1 (s.sched.step b.sched).2)
    obtain ⟨l,hl,hw'⟩ := work_afterBatch (b := b) (hs.work hw)
      (b.runBatch s.runner (s.sched.step b.sched).1 (s.sched.step b.sched).2).result (hw.batch rfl hb)
    exact ⟨l,hl,hw.trans hw'⟩

end Acts

section Stays

theorem stays_checkTimeouts (s : EngineLoop R) (now : Time) : Stays s (s.checkTimeouts b now) := by
  have key : ∀ (l : List RequestId) (s : EngineLoop R), Stays s (l.foldl
      (fun s r => (s.schedCancel b r).emit b r { finishReason := some .timeout } true) s) := by
    intro l
    induction l with
    | nil => exact fun s => .refl s
    | cons r l ih =>
      exact fun s => ((stays_schedCancel s r).trans (stays_emit _ r _ true)).trans (ih _)
  exact key (s.expired now) s

theorem stays_runStep (h : Sound s) : Stays s (s.runStep b).1 := by
  obtain ⟨l,_,hw⟩ := work_runStep (b := b) h
  have hf : Stays s (s.formed b) := .of_same rfl rfl rfl rfl
  exact hf.trans hw.stays

theorem stays_read (s : EngineLoop R) (d : QueueId) : Stays s (s.read d) :=
  ⟨rfl,fun _ _ h => h,length_queues_read s d,rfl,fun _ h => h⟩

theorem stays_cancel (s : EngineLoop R) (r : RequestId) : Stays s (s.cancel b r) := by
  have h₁ : Stays s { s with cancelled := r :: s.cancelled } := .of_same rfl rfl rfl rfl
  have h₂ := h₁.trans (stays_schedCancel (b := b) _ r)
  unfold EngineLoop.cancel
  simp only
  split_ifs
  · exact h₂.trans (stays_emit _ r _ true)
  · exact h₂

theorem Act.flags {x : Option SeqId} (h : Act b s x s') :
    s'.cancelled = s.cancelled ∧ s'.draining = s.draining := by
  cases h with
  | quiet => exact ⟨rfl,rfl⟩
  | note => exact ⟨rfl,rfl⟩
  | touch => exact ⟨rfl,rfl⟩
  | drop => exact ⟨rfl,rfl⟩
  | more i f fr prevText =>
    have he := emit_emitted (b := b) { s.modify i f with prevText := prevText } (s.seq i).requestId fr false
    exact ⟨he.cancelled,he.draining⟩
  | last i f reason fr prevText =>
    have he := emit_emitted (b := b) { (s.modify i f).mark b i reason with prevText := prevText }
      (s.seq i).requestId fr true
    exact ⟨he.cancelled,he.draining⟩

theorem Work.flags {l : List SeqId} (h : Work b s l s') :
    s'.cancelled = s.cancelled ∧ s'.draining = s.draining := by
  induction h with
  | nil s => exact ⟨rfl,rfl⟩
  | calm ha _ ih => exact ⟨ih.1.trans ha.flags.1,ih.2.trans ha.flags.2⟩
  | sends ha _ ih => exact ⟨ih.1.trans ha.flags.1,ih.2.trans ha.flags.2⟩

theorem runStep_flags (h : Sound s) :
    (s.runStep b).1.cancelled = s.cancelled ∧ (s.runStep b).1.draining = s.draining := by
  obtain ⟨l,_,hw⟩ := work_runStep (b := b) h
  exact hw.flags

theorem checkTimeouts_flags (s : EngineLoop R) (now : Time) :
    (s.checkTimeouts b now).cancelled = s.cancelled ∧ (s.checkTimeouts b now).draining = s.draining := by
  have key : ∀ (l : List RequestId) (s : EngineLoop R),
      let s' := l.foldl (fun s r => (s.schedCancel b r).emit b r { finishReason := some .timeout } true) s
      s'.cancelled = s.cancelled ∧ s'.draining = s.draining := by
    intro l
    induction l with
    | nil => exact fun s => ⟨rfl,rfl⟩
    | cons r l ih =>
      intro s
      obtain ⟨_,_,_,h4,h5,_⟩ := schedCancel_mail (b := b) s r
      have he := emit_emitted (b := b) (s.schedCancel b r) r { finishReason := some .timeout } true
      obtain ⟨h1,h2⟩ := ih ((s.schedCancel b r).emit b r { finishReason := some .timeout } true)
      exact ⟨h1.trans (he.cancelled.trans h4),h2.trans (he.draining.trans h5)⟩
  exact key (s.expired now) s

end Stays

section Steps

def joined (s : EngineLoop R) (runner : R) (q : Sequence) : EngineLoop R :=
  { s with
    runner := runner
    sched := { s.sched with
      seqs := s.sched.seqs ++ [q]
      waiting := s.sched.waiting ++ [s.sched.seqs.length]
      byRequest := Function.update s.sched.byRequest q.requestId (some s.sched.seqs.length) } }

theorem seq_joined (s : EngineLoop R) (runner : R) (q : Sequence) (i : SeqId) :
    (s.joined runner q).seq i = if i = s.sched.seqs.length then q else s.seq i := by
  show (s.sched.seqs ++ [q]).getD i default = _
  split_ifs with hi
  · simp [hi]
  · simp only [EngineLoop.seq,Scheduler.seq,List.getD_eq_getElem?_getD]
    rcases Nat.lt_or_gt_of_ne hi with hlt | hgt
    · rw [List.getElem?_append_left hlt]
    · rw [List.getElem?_eq_none (by simp; omega),List.getElem?_eq_none (by omega)]

/-- `add_request` puts a new sequence at the end of the waiting queue, or raises. -/
theorem addRequest_cases (b : Backend R) (s : EngineLoop R) (r : Request) :
    (∃ runner q, q.requestId = r.requestId ∧ q.inputIds = r.inputIds ∧ q.maxTokens = r.maxTokens ∧
      q.finished = false ∧ q.cancelled = false ∧ s.addRequest b r = (s.joined runner q,.ok ())) ∨
    ∃ runner e, s.addRequest b r = ({ s with runner := runner },.error e) := by
  unfold addRequest
  split_ifs
  · exact .inr ⟨s.runner,_,rfl⟩
  · exact .inr ⟨s.runner,_,rfl⟩
  · rcases hm : b.matchPrefix s.runner s.sched.seqs.length r with ⟨runner,res⟩
    cases res with
    | error e => exact .inr ⟨runner,e,rfl⟩
    | ok ch => exact .inl ⟨runner,_,rfl,rfl,rfl,rfl,rfl,rfl⟩

/-- The three ways of an item of the submit queue: a mark of `cancel` drops it,
the scheduler takes it, or it ends with an error frame. -/
theorem admitOne_cases (b : Backend R) (s : EngineLoop R) (p : Pending) :
    (p.requestId ∈ s.cancelled ∧
      s.admitOne b p = { s with cancelled := s.cancelled.filter (· ≠ p.requestId) }) ∨
    (p.requestId ∉ s.cancelled ∧ ∃ runner q, q.requestId = p.requestId ∧
      q.inputIds = p.request.inputIds ∧ q.maxTokens = p.request.maxTokens ∧ q.finished = false ∧
      q.cancelled = false ∧ s.admitOne b p = s.joined runner q) ∨
    (p.requestId ∉ s.cancelled ∧ ∃ runner e,
      s.admitOne b p = ({ s with runner := runner } : EngineLoop R).emit b p.requestId
        (errorFrame e none) true) := by
  by_cases hc : p.requestId ∈ s.cancelled
  · exact .inl ⟨hc,by rw [admitOne,if_pos hc]⟩
  right
  rw [admitOne,if_neg hc]
  rcases addRequest_cases b s p.request with ⟨runner,q,h1,h2,h3,h4,h5,heq⟩ | ⟨runner,e,heq⟩
  · rw [heq]
    exact .inl ⟨hc,runner,q,h1,h2,h3,h4,h5,rfl⟩
  · rw [heq]
    exact .inr ⟨hc,runner,e.admission,rfl⟩

theorem admitOne_submitQ (b : Backend R) (s : EngineLoop R) (p : Pending) :
    (s.admitOne b p).submitQ = s.submitQ := by
  rcases admitOne_cases b s p with ⟨_,heq⟩ | ⟨_,runner,q,_,_,_,_,_,heq⟩ | ⟨_,runner,e,heq⟩
  · rw [heq]
  · rw [heq]; rfl
  · rw [heq,(emit_emitted _ _ _ _).submitQ]

theorem Sound.admitOne (h : Sound s) (p : Pending) : Sound (s.admitOne b p) := by
  rcases admitOne_cases b s p with ⟨_,heq⟩ | ⟨_,runner,q,_,_,_,hf,hc,heq⟩ | ⟨_,runner,e,heq⟩
  · rw [heq]
    exact h.congr rfl rfl rfl
  · rw [heq]
    exact ⟨h.kept.add hf hc,h.made,h.inj,h.untaken⟩
  · rw [heq]
    exact (h.congr rfl rfl rfl : Sound { s with runner := runner }).emit _ _ _

theorem Sound.admitLoop (h : Sound s) (l : List Pending) : Sound (s.admitLoop b l) := by
  induction l generalizing s with
  | nil => exact h
  | cons p l ih =>
    exact ih ((h.congr rfl rfl rfl : Sound { s with submitQ := l }).admitOne p)

theorem Sound.admitPending (h : Sound s) : Sound (s.admitPending b) := h.admitLoop s.submitQ

theorem Sound.checkTimeouts (h : Sound s) (now : Time) : Sound (s.checkTimeouts b now) := by
  have key : ∀ (l : List RequestId) (s : EngineLoop R), Sound s → Sound (l.foldl
      (fun s r => (s.schedCancel b r).emit b r { finishReason := some .timeout } true) s) := by
    intro l
    induction l with
    | nil => exact fun s h => h
    | cons r l ih => exact fun s h => ih _ ((h.schedCancel r).emit r _ true)
  exact key (s.expired now) s h

theorem Sound.runStep (h : Sound s) : Sound (s.runStep b).1 := by
  obtain ⟨l,_,hw⟩ := work_runStep (b := b) h
  exact h.formed.1.work hw

theorem Sound.pumpOnce (h : Sound s) (now : Time) : Sound (s.pumpOnce b now).1 :=
  ((h.admitPending).checkTimeouts now).runStep

theorem Sound.cancel (h : Sound s) (r : RequestId) : Sound (s.cancel b r) := by
  have h₂ : Sound (EngineLoop.schedCancel b { s with cancelled := r :: s.cancelled } r) :=
    (h.congr rfl rfl rfl : Sound { s with cancelled := r :: s.cancelled }).schedCancel r
  unfold EngineLoop.cancel
  simp only
  split_ifs
  · exact h₂.emit r _ true
  · exact h₂

structure Registered (s : EngineLoop R) (now : Time) (p : Pending) (s' : EngineLoop R) : Prop where
  queues : s'.queues = s.queues ++ [[]]
  taken : s'.taken = s.taken
  deltaQs : s'.deltaQs = Function.update s.deltaQs p.requestId (some s.queues.length)
  deadlines : s'.deadlines = assign p.requestId (now+p.timeout) s.deadlines
  sched : s'.sched = s.sched
  cancelled : s'.cancelled = s.cancelled
  draining : s'.draining = s.draining

structure Accepted (s : EngineLoop R) (now : Time) (p : Pending) (s' : EngineLoop R) : Prop
    extends Registered s now p s' where
  submitQ : s'.submitQ = s.submitQ ++ [p]

theorem accepted_submit {now : Time} {p : Pending} (h : s.submit now p = some s') :
    Accepted s now p s' := by
  unfold EngineLoop.submit at h
  split_ifs at h
  obtain rfl := Option.some.inj h
  exact ⟨⟨rfl,rfl,rfl,rfl,rfl,rfl,rfl⟩,rfl⟩

section Registered

variable {now : Time} {p : Pending}

theorem Registered.seq (h : Registered s now p s') (i : SeqId) : s'.seq i = s.seq i := by
  rw [EngineLoop.seq,h.sched]; rfl

theorem Registered.queue_old (h : Registered s now p s') {e : QueueId} (he : e < s.queues.length) :
    s'.queue e = s.queue e := by
  simp only [queue,h.queues,List.getD_eq_getElem?_getD]
  rw [List.getElem?_append_left he]

theorem Registered.queue_new (h : Registered s now p s') : s'.queue s.queues.length = [] := by
  simp [queue,h.queues]

theorem Registered.history_old (h : Registered s now p s') {e : QueueId} (he : e < s.queues.length) :
    s'.history e = s.history e := by
  rw [history,h.queue_old he,h.taken]
  rfl

theorem Registered.history_new (h : Registered s now p s') (hs : Sound s) :
    s'.history s.queues.length = [] := by
  rw [history,h.queue_new,h.taken,hs.untaken _ (Nat.le_refl _)]
  rfl

theorem Sound.registered (h : Sound s) (ha : Registered s now p s') : Sound s' := by
  have hlt : ∀ r d, s'.deltaQs r = some d → d = s.queues.length ∧ r = p.requestId ∨
      s.deltaQs r = some d := by
    intro r d hd
    rw [ha.deltaQs] at hd
    by_cases hr : r = p.requestId
    · rw [hr,Function.update_self] at hd
      exact .inl ⟨(Option.some.inj hd).symm,hr⟩
    · rw [Function.update_of_ne hr] at hd
      exact .inr hd
  refine ⟨by rw [ha.sched]; exact h.kept,fun r d hd => ?_,fun r r' d hd hd' => ?_,fun d hd => ?_⟩
  · rw [ha.queues,List.length_append,List.length_singleton]
    rcases hlt r d hd with ⟨rfl,_⟩ | hd
    · exact Nat.lt_succ_self _
    · exact Nat.lt_succ_of_lt (h.made r d hd)
  · rcases hlt r d hd with ⟨rfl,rfl⟩ | hd
    · rcases hlt r' _ hd' with ⟨_,rfl⟩ | hd'
      · rfl
      · exact absurd (h.made r' _ hd') (Nat.lt_irrefl _)
    · rcases hlt r' d hd' with ⟨rfl,rfl⟩ | hd'
      · exact absurd (h.made r _ hd) (Nat.lt_irrefl _)
      · exact h.inj r r' d hd hd'
  · rw [ha.taken]
    rw [ha.queues,List.length_append] at hd
    exact h.untaken d (by omega)

theorem Sound.submit (h : Sound s) (ha : s.submit now p = some s') : Sound s' :=
  h.registered (accepted_submit ha).toRegistered

end Registered

/-- A call of a user of the engine, a client that takes a frame from its delta
queue, or a turn of the pump. -/
inductive Turn where
  | submit (now : Time) (p : Pending)
  | cancel (r : RequestId)
  | pump (now : Time)
  | read (d : QueueId)
  deriving DecidableEq, Repr

/-- A submit that raises is not part of a run. -/
def turn (b : Backend R) (s : EngineLoop R) : Turn → Option (EngineLoop R)
  | .submit now p => s.submit now p
  | .cancel r => some (s.cancel b r)
  | .pump now => some (s.pumpOnce b now).1
  | .read d => some (s.read d)

theorem Sound.turn {e : Turn} (h : Sound s) (ht : s.turn b e = some s') : Sound s' := by
  cases e with
  | submit now p => exact h.submit ht
  | cancel r =>
    obtain rfl := Option.some.inj ht
    exact h.cancel r
  | pump now =>
    obtain rfl := Option.some.inj ht
    exact h.pumpOnce now
  | read d =>
    obtain rfl := Option.some.inj ht
    exact h.read d

theorem sound_run {r₀ : R} {es : List Turn}
    (h : Transition.exec (EngineLoop.turn b) { runner := r₀ } es = some s) : Sound s :=
  Transition.exec_always (fun _ _ _ hs ht => Sound.turn hs ht) (sound_init r₀) h

end Steps

end EngineLoop

end SglangLite.Loop
