import SglangLite.Loop.Acts

set_option autoImplicit false

namespace SglangLite.Loop
open Kv Sched Text

namespace EngineLoop

variable {R : Type} {b : Backend R} {s s' : EngineLoop R} {r : RequestId} {d : QueueId} {t : Time}
  {n x : Nat}

/-- Where a request is that the engine works on: one item of the submit queue,
or on its way there (`x` items are), or one unfinished sequence, which
`_by_request` finds. -/
def Placed (r : RequestId) (x : Nat) (s : EngineLoop R) : Prop :=
  (s.submitQ.map Pending.requestId).count r+x = 1 ∧
      (∀ i, (s.seq i).requestId = r → (s.seq i).finished = true) ∨
    r ∉ s.submitQ.map Pending.requestId ∧ x = 0 ∧ ∃ i, s.sched.byRequest r = some i ∧
      ∀ j, (s.seq j).requestId = r → (s.seq j).finished = false → j = i

/-- The engine holds request `r`, which has the queue `d` with at most `n`
frames and the deadline `t`; none of its frames so far is terminal. -/
structure Holding (r : RequestId) (d : QueueId) (t : Time) (n x : Nat) (s : EngineLoop R) : Prop where
  queue : s.deltaQs r = some d
  plain : ∀ f ∈ s.history d, f.finishReason = none
  size : (s.queue d).length ≤ n
  due : (r,t) ∈ s.deadlines
  place : Placed r x s

structure Serving (r : RequestId) (d : QueueId) (t : Time) (n x : Nat) (s : EngineLoop R) : Prop
    extends Holding r d t n x s where
  calm : r ∉ s.cancelled

/-- The queue has got its terminal frame and nobody can find it any more. -/
structure Closed (d : QueueId) (s : EngineLoop R) : Prop where
  terminated : Terminated (s.history d)
  made : d < s.queues.length
  free : ∀ r, s.deltaQs r ≠ some d

def Served (r : RequestId) (d : QueueId) (t : Time) (n x : Nat) (s : EngineLoop R) : Prop :=
  Serving r d t n x s ∨ Closed d s

section Parts

theorem Placed.congr (h : Placed r x s) (h1 : s'.sched.byRequest = s.sched.byRequest)
    (h2 : s'.submitQ = s.submitQ) (hid : ∀ i, (s'.seq i).requestId = (s.seq i).requestId)
    (hfin : ∀ i, (s'.seq i).finished = (s.seq i).finished) : Placed r x s' := by
  unfold Placed
  rw [h1,h2]
  simp only [hid,hfin]
  exact h

theorem Holding.congr {y : Nat} (h : Holding r d t n x s) (h1 : s'.boxes = s.boxes)
    (h2 : s'.deltaQs = s.deltaQs) (h3 : s'.deadlines = s.deadlines) (h4 : Placed r y s') :
    Holding r d t n y s' :=
  ⟨by rw [h2]; exact h.queue,by rw [history_congr h1]; exact h.plain,by rw [queue_congr h1]; exact h.size,
    by rw [h3]; exact h.due,h4⟩

theorem Serving.congr {y : Nat} (h : Serving r d t n x s) (h1 : s'.boxes = s.boxes)
    (h2 : s'.deltaQs = s.deltaQs) (h3 : s'.deadlines = s.deadlines) (h4 : s'.cancelled = s.cancelled)
    (h5 : Placed r y s') : Serving r d t n y s' :=
  ⟨h.toHolding.congr h1 h2 h3 h5,by rw [h4]; exact h.calm⟩

theorem Closed.congr (h : Closed d s) (h1 : s'.boxes = s.boxes) (h2 : s'.deltaQs = s.deltaQs) :
    Closed d s' :=
  ⟨by rw [history_congr h1]; exact h.terminated,by rw [(Prod.mk.inj h1).1]; exact h.made,
    by rw [h2]; exact h.free⟩

theorem placed_modify {f : Sequence → Sequence} (h : Placed r x s) (i : SeqId) (hf : Mild f) :
    Placed r x (s.modify i f) := by
  refine h.congr rfl rfl (fun j => ?_) (fun j => ?_)
  · rw [seq_modify]
    split_ifs with hj
    · rw [hf.requestId,hj.1]
    · rfl
  · rw [seq_modify]
    split_ifs with hj
    · rw [hf.finished,hj.1]
    · rfl

theorem Placed.mark_other {f : Sequence → Sequence} (h : Placed r x s) {i : SeqId}
    (hi : (s.seq i).requestId ≠ r) (hf : ∀ q, (f q).requestId = q.requestId) (reason : FinishReason) :
    Placed r x ((s.modify i f).mark b i reason) := by
  have hid : ((s.sched.modify i f).seq i).requestId = (s.seq i).requestId := by
    rw [Scheduler.seq_modify]
    split_ifs
    · exact hf _
    · rfl
  have hseq : ∀ j, j ≠ i → ((s.modify i f).mark b i reason).seq j = s.seq j := by
    intro j hj
    show ((s.sched.modify i f).markFinished i reason).seq j = _
    rw [Scheduler.seq_end,if_neg fun hc => hj hc.1]
    rfl
  have hown : (((s.modify i f).mark b i reason).seq i).requestId = (s.seq i).requestId := by
    show (((s.sched.modify i f).markFinished i reason).seq i).requestId = _
    rw [Scheduler.seq_end]
    split_ifs
    · exact hf _
    · rfl
  have hby : ((s.modify i f).mark b i reason).sched.byRequest r = s.sched.byRequest r := by
    show Function.update s.sched.byRequest ((s.sched.modify i f).seq i).requestId none r = _
    rw [hid,Function.update_of_ne (Ne.symm hi)]
  have hne : ∀ j, (((s.modify i f).mark b i reason).seq j).requestId = r → j ≠ i := by
    rintro j hj rfl
    exact hi (hown ▸ hj)
  rcases h with ⟨hc,hfin⟩ | ⟨hp,hx,k,hk,huniq⟩
  · refine .inl ⟨hc,fun j hj => ?_⟩
    have heq := hseq j (hne j hj)
    rw [heq] at hj ⊢
    exact hfin j hj
  · refine .inr ⟨hp,hx,k,hby.trans hk,fun j hj hl => ?_⟩
    have heq := hseq j (hne j hj)
    rw [heq] at hj hl
    exact huniq j hj hl

theorem Placed.schedCancel_other {r' : RequestId} (h : Placed r x s) (hs : Sound s) (hr : r' ≠ r) :
    Placed r x (s.schedCancel b r') := by
  unfold EngineLoop.schedCancel
  cases hb : s.sched.byRequest r' with
  | none => exact h
  | some i =>
    have hi : (s.seq i).requestId ≠ r := by
      rw [show (s.seq i).requestId = r' from (hs.kept.byRequest r' i hb).1]
      exact hr
    exact h.mark_other hi (f := fun q => { q with cancelled := true }) (fun _ => rfl) .cancelled

theorem Serving.schedCancel_other {r' : RequestId} (h : Serving r d t n x s) (hs : Sound s)
    (hr : r' ≠ r) : Serving r d t n x (s.schedCancel b r') := by
  obtain ⟨_,h2,_,h4,_,h6⟩ := schedCancel_mail (b := b) s r'
  exact h.congr (boxes_schedCancel s r') h2 h6 h4 (h.place.schedCancel_other hs hr)

theorem Closed.schedCancel (h : Closed d s) (r : RequestId) : Closed d (s.schedCancel b r) := by
  exact h.congr (boxes_schedCancel s r) (schedCancel_mail s r).2.1

theorem Holding.emit_other {r' : RequestId} {f : Frame} {final : Bool} (h : Holding r d t n x s)
    (hs : Sound s) (hr : r' ≠ r) : Holding r d t n x (s.emit b r' f final) := by
  have he := emit_emitted (b := b) s r' f final
  have hne : s.deltaQs r' ≠ some d := fun hc => hr (hs.inj r' r d hc h.queue)
  refine ⟨?_,by rw [history_emit f final hne]; exact h.plain,by rw [he.queue d hne]; exact h.size,
    he.deadlines _ h.due (.inl (Ne.symm hr)),?_⟩
  · rw [he.deltaQs]
    cases final with
    | false => exact h.queue
    | true =>
      simp only [if_true]
      rw [Function.update_of_ne (Ne.symm hr)]
      exact h.queue
  · rcases he.sched with hsc | ⟨hsc,_⟩
    · exact h.place.congr (by rw [hsc]) he.submitQ (fun i => by rw [EngineLoop.seq,hsc]; rfl)
        (fun i => by rw [EngineLoop.seq,hsc]; rfl)
    · refine (h.place.schedCancel_other (b := b) hs hr).congr (by rw [hsc]) ?_
        (fun i => by rw [EngineLoop.seq,hsc]; rfl) (fun i => by rw [EngineLoop.seq,hsc]; rfl)
      rw [he.submitQ,(schedCancel_mail s r').2.2.1]

theorem Serving.emit_other {r' : RequestId} {f : Frame} {final : Bool} (h : Serving r d t n x s)
    (hs : Sound s) (hr : r' ≠ r) : Serving r d t n x (s.emit b r' f final) :=
  ⟨h.toHolding.emit_other hs hr,by rw [(emit_emitted s r' f final).cancelled]; exact h.calm⟩

theorem Closed.emit (h : Closed d s) (r : RequestId) (f : Frame) (final : Bool) :
    Closed d (s.emit b r f final) := by
  have he := emit_emitted (b := b) s r f final
  refine ⟨by rw [history_emit f final (h.free r)]; exact h.terminated,by rw [he.length]; exact h.made,
    fun r' hr' => ?_⟩
  rw [he.deltaQs] at hr'
  cases final with
  | false => exact h.free r' hr'
  | true =>
    simp only [if_true] at hr'
    by_cases hne : r' = r
    · rw [hne,Function.update_self] at hr'
      exact absurd hr' (by simp)
    · rw [Function.update_of_ne hne] at hr'
      exact h.free r' hr'

theorem closed_emit {f : Frame} (hs : Sound s) (hd : s.deltaQs r = some d)
    (hplain : ∀ f ∈ s.history d, f.finishReason = none) (hroom : (s.queue d).length < queueSize)
    (hf : f.finishReason ≠ none) : Closed d (s.emit b r f true) := by
  have he := emit_emitted (b := b) s r f true
  have hq := history_emit_own (b := b) f true hd (hs.made r d hd) hroom
  refine ⟨⟨s.history d,f,hq,hf,hplain⟩,by rw [he.length]; exact hs.made r d hd,fun r' hr' => ?_⟩
  rw [he.deltaQs] at hr'
  simp only [if_true] at hr'
  by_cases hne : r' = r
  · rw [hne,Function.update_self] at hr'
    exact absurd hr' (by simp)
  · rw [Function.update_of_ne hne] at hr'
    exact hne (hs.inj r' r d hr' hd)

end Parts

section Steps

/-- The request's own sequence is the only one that can get a frame for it. -/
theorem Placed.own (h : Placed r x s) {i : SeqId} (hi : (s.seq i).requestId = r)
    (hl : (s.seq i).finished = false) : s.sched.byRequest r = some i := by
  rcases h with ⟨_,hfin⟩ | ⟨_,_,k,hk,huniq⟩
  · rw [hfin i hi] at hl
    exact absurd hl (by simp)
  · rw [huniq i hi hl]
    exact hk

theorem Closed.act {x : Option SeqId} (h : Closed d s) (ha : Act b s x s') : Closed d s' := by
  cases ha with
  | quiet => exact h.congr rfl rfl
  | note => exact h.congr rfl rfl
  | touch => exact h.congr rfl rfl
  | drop => exact h.congr rfl rfl
  | more i f fr prevText =>
    exact (h.congr rfl rfl : Closed d { s.modify i f with prevText := prevText }).emit _ fr false
  | last i f reason fr prevText =>
    exact (h.congr rfl rfl : Closed d { (s.modify i f).mark b i reason with prevText := prevText }).emit
      _ fr true

theorem Closed.work {l : List SeqId} (h : Closed d s) (hw : Work b s l s') : Closed d s' := by
  induction hw with
  | nil s => exact h
  | calm ha _ ih => exact ih (h.act ha)
  | sends ha _ ih => exact ih (h.act ha)

theorem Served.calm (h : Served r d t n x s) (ha : Act b s none s') : Served r d t n x s' := by
  rcases h with h | h
  · left
    cases ha with
    | quiet => exact h.congr rfl rfl rfl rfl (h.place.congr rfl rfl (fun _ => rfl) fun _ => rfl)
    | note => exact h.congr rfl rfl rfl rfl (h.place.congr rfl rfl (fun _ => rfl) fun _ => rfl)
    | touch i f hf => exact h.congr rfl rfl rfl rfl (placed_modify h.place i hf)
    | drop => exact h.congr rfl rfl rfl rfl (h.place.congr rfl rfl (fun _ => rfl) fun _ => rfl)
  · exact .inr (h.act ha)

theorem Served.sends_other {i : SeqId} (h : Served r d t n x s) (hs : Sound s)
    (ha : Act b s (some i) s') (hi : s.sched.byRequest r ≠ some i) : Served r d t n x s' := by
  rcases h with h | h
  · left
    cases ha with
    | more _ f fr prevText hl hf hfr =>
      have hir : (s.seq i).requestId ≠ r := fun hc => hi (h.place.own hc hl)
      have hm : Serving r d t n x { s.modify i f with prevText := prevText } :=
        h.congr rfl rfl rfl rfl ((placed_modify h.place i hf).congr rfl rfl (fun _ => rfl) fun _ => rfl)
      have hsm : Sound { s.modify i f with prevText := prevText } :=
        (hs.modify i hf.requestId hf.finished hf.cancelled).congr rfl rfl rfl
      exact hm.emit_other hsm hir
    | last _ f reason fr prevText hl hf hfr =>
      have hir : (s.seq i).requestId ≠ r := fun hc => hi (h.place.own hc hl)
      have hm : Serving r d t n x { (s.modify i f).mark b i reason with prevText := prevText } :=
        h.congr rfl rfl rfl rfl ((h.place.mark_other (b := b) hir hf reason).congr rfl rfl
          (fun _ => rfl) fun _ => rfl)
      have hsm : Sound { (s.modify i f).mark b i reason with prevText := prevText } :=
        (hs.mark (b := b) i hf reason).congr rfl rfl rfl
      exact hm.emit_other hsm hir
  · exact .inr (h.act ha)

theorem Served.sends_own {i : SeqId} (h : Served r d t n x s) (hs : Sound s)
    (ha : Act b s (some i) s') (hi : s.sched.byRequest r = some i) (hn : n < queueSize) :
    Served r d t (n+1) x s' := by
  have hir : (s.seq i).requestId = r := (hs.kept.byRequest r i hi).1
  rcases h with h | h
  · have hroom : (s.queue d).length < queueSize := Nat.lt_of_le_of_lt h.size hn
    cases ha with
    | more _ f fr prevText hl hf hfr =>
      left
      rw [hir]
      have he := emit_emitted (b := b) { s.modify i f with prevText := prevText } r fr false
      obtain ⟨hsc,hq⟩ := he.own d h.queue (hs.made r d h.queue) hroom
      have hplace : Placed r x { s.modify i f with prevText := prevText } :=
        (placed_modify h.place i hf).congr rfl rfl (fun _ => rfl) fun _ => rfl
      refine ⟨⟨by rw [he.deltaQs]; exact h.queue,fun g hg => ?_,?_,he.deadlines _ h.due (.inr rfl),?_⟩,
        by rw [he.cancelled]; exact h.calm⟩
      · rw [history_emit_own (s := { s.modify i f with prevText := prevText }) fr false h.queue
          (hs.made r d h.queue) hroom] at hg
        rcases List.mem_append.mp hg with hg | hg
        · exact h.plain g hg
        · rw [List.mem_singleton.mp hg]; exact hfr
      · rw [hq,List.length_append,List.length_singleton]
        exact Nat.succ_le_succ h.size
      · exact hplace.congr (by rw [hsc]) he.submitQ (fun j => by rw [EngineLoop.seq,hsc]; rfl)
          (fun j => by rw [EngineLoop.seq,hsc]; rfl)
    | last _ f reason fr prevText hl hf hfr =>
      right
      rw [hir]
      have hsm : Sound { (s.modify i f).mark b i reason with prevText := prevText } :=
        (hs.mark (b := b) i hf reason).congr rfl rfl rfl
      exact closed_emit hsm h.queue h.plain hroom hfr
  · exact .inr (h.act ha)

/-- The work of a whole step, which has one frame at most for the request. -/
theorem Served.work {l : List SeqId} (h : Served r d t n x s) (hs : Sound s) (hw : Work b s l s')
    (hl : l.Nodup) (hn : n < queueSize ∨
      ∀ i ∈ l, (s.seq i).requestId = r → (s.seq i).finished = true) :
    ∃ m, Served r d t m x s' := by
  induction hw generalizing n with
  | nil s => exact ⟨n,h⟩
  | calm ha _ ih =>
    refine ih (h.calm ha) (hs.act ha) hl (hn.imp_right fun hfin i hi hir => ?_)
    have hst := ha.stays
    by_contra hlive
    rw [hst.requestId] at hir
    have := hst.live i (by simpa using hlive)
    rw [hfin i hi hir] at this
    exact absurd this (by simp)
  | sends ha _ ih =>
    rename_i s s₁ s₂ i l _
    have hst := ha.stays
    obtain ⟨hil,hl'⟩ := List.nodup_cons.mp hl
    by_cases hi : s.sched.byRequest r = some i
    · have hir := hs.kept.byRequest r i hi
      have hlt : n < queueSize := hn.resolve_right fun hfin => by
        have := hfin i (by simp) hir.1
        rw [show (s.seq i).finished = false from hir.2] at this
        exact absurd this (by simp)
      rcases h with h | h
      · refine ih (Served.sends_own (.inl h) hs ha hi hlt) (hs.act ha) hl' (.inr fun j hj hjr => ?_)
        -- the sequence of the request is `i`, which has had its frame
        by_contra hlive
        rw [hst.requestId] at hjr
        have hown := h.place.own hjr (hst.live j (by simpa using hlive))
        rw [hi] at hown
        exact hil (Option.some.inj hown ▸ hj)
      · exact ih (.inr (h.act ha)) (hs.act ha) hl' (.inl hlt)
    · refine ih (h.sends_other hs ha hi) (hs.act ha) hl' (hn.imp_right fun hfin j hj hjr => ?_)
      by_contra hlive
      rw [hst.requestId] at hjr
      have := hst.live j (by simpa using hlive)
      rw [hfin j (List.mem_cons_of_mem _ hj) hjr] at this
      exact absurd this (by simp)

theorem Served.runStep (h : Served r d t n x s) (hs : Sound s) (hn : n < queueSize) :
    ∃ m, Served r d t m x (s.runStep b).1 := by
  obtain ⟨l,hl,hw⟩ := work_runStep (b := b) hs
  have hf : Served r d t n x (s.formed b) := by
    rcases h with h | h
    · exact .inl (h.congr rfl rfl rfl rfl (h.place.congr rfl rfl (fun _ => rfl) fun _ => rfl))
    · exact .inr (h.congr rfl rfl)
  exact hf.work hs.formed.1 hw hl.1 (.inl hn)

theorem Served.stop {f : Frame} (h : Served r d t n x s) (r' : RequestId) (hs : Sound s)
    (hn : n < queueSize) (hf : f.finishReason ≠ none) :
    Served r d t n x ((s.schedCancel b r').emit b r' f true) ∧
      (r' = r → Closed d ((s.schedCancel b r').emit b r' f true)) := by
  rcases h with h | h
  · by_cases hr : r' = r
    · subst hr
      have hbox := boxes_schedCancel (b := b) s r'
      have hc : Closed d ((s.schedCancel b r').emit b r' f true) :=
        closed_emit (hs.schedCancel r') ((congrFun (schedCancel_mail s r').2.1 r').trans h.queue)
          (by rw [history_congr hbox]; exact h.plain)
          (by rw [queue_congr hbox]; exact Nat.lt_of_le_of_lt h.size hn) hf
      exact ⟨.inr hc,fun _ => hc⟩
    · exact ⟨.inl ((h.schedCancel_other hs hr).emit_other (hs.schedCancel r') hr),fun hc => absurd hc hr⟩
  · have hc := (h.schedCancel (b := b) r').emit (b := b) r' f true
    exact ⟨.inr hc,fun _ => hc⟩

theorem Served.checkTimeouts (h : Served r d t n x s) (hs : Sound s) (hn : n < queueSize) (now : Time) :
    Served r d t n x (s.checkTimeouts b now) ∧ (t < now → Closed d (s.checkTimeouts b now)) := by
  have key : ∀ (l : List RequestId) (s : EngineLoop R), Sound s → Served r d t n x s →
      Served r d t n x (l.foldl
        (fun s r => (s.schedCancel b r).emit b r { finishReason := some .timeout } true) s) ∧
      (r ∈ l ∨ Closed d s → Closed d (l.foldl
        (fun s r => (s.schedCancel b r).emit b r { finishReason := some .timeout } true) s)) := by
    intro l
    induction l with
    | nil => exact fun s _ h => ⟨h,fun hc => hc.resolve_left (by simp)⟩
    | cons r' l ih =>
      intro s hs h
      obtain ⟨h₁,hc₁⟩ := h.stop (b := b) (f := { finishReason := some .timeout }) r' hs hn (by simp)
      obtain ⟨h₂,hc₂⟩ := ih _ ((hs.schedCancel r').emit r' _ true) h₁
      refine ⟨h₂,fun hc => hc₂ ?_⟩
      rcases hc with hc | hc
      · rcases List.mem_cons.mp hc with hc | hc
        · exact .inr (hc₁ hc.symm)
        · exact .inl hc
      · exact .inr ((hc.schedCancel r').emit r' _ true)
  obtain ⟨h₁,hc⟩ := key (s.expired now) s hs h
  refine ⟨h₁,fun ht => hc ?_⟩
  rcases h with h | h
  · left
    exact List.mem_map.mpr ⟨(r,t),List.mem_filter.mpr ⟨h.due,by simpa using ht⟩,rfl⟩
  · exact .inr h

end Steps

section Admission

theorem Holding.admitOne_other {p : Pending} {rest : List Pending} (h : Holding r d t n x s) (hs : Sound s)
    (hq : s.submitQ = p :: rest) (hp : p.requestId ≠ r) :
    Holding r d t n x (({ s with submitQ := rest } : EngineLoop R).admitOne b p) := by
  have hs₀ : Sound { s with submitQ := rest } := hs.congr rfl rfl rfl
  have h₀ : Holding r d t n x { s with submitQ := rest } := by
    refine h.congr rfl rfl rfl ?_
    rcases h.place with ⟨hc,hfin⟩ | ⟨hnot,hown⟩
    · rw [hq,List.map_cons,List.count_cons_of_ne hp] at hc
      exact .inl ⟨hc,hfin⟩
    · rw [hq,List.map_cons,List.mem_cons,not_or] at hnot
      exact .inr ⟨hnot.2,hown⟩
  rcases admitOne_cases b { s with submitQ := rest } p with
    ⟨_,heq⟩ | ⟨_,runner,q,hid,_,_,_,_,heq⟩ | ⟨_,runner,e,heq⟩
  · rw [heq]
    exact h₀.congr rfl rfl rfl (h₀.place.congr rfl rfl (fun _ => rfl) fun _ => rfl)
  · rw [heq]
    refine h₀.congr rfl rfl rfl ?_
    have hne : ∀ i, ((({ s with submitQ := rest } : EngineLoop R).joined runner q).seq i).requestId = r →
        (({ s with submitQ := rest } : EngineLoop R).joined runner q).seq i = s.seq i := by
      intro i hi
      rw [seq_joined] at hi ⊢
      split_ifs at hi ⊢
      · exact absurd (hid.symm.trans hi) hp
      · rfl
    have hby : (({ s with submitQ := rest } : EngineLoop R).joined runner q).sched.byRequest r =
        s.sched.byRequest r := by
      show Function.update s.sched.byRequest q.requestId _ r = _
      rw [hid,Function.update_of_ne (Ne.symm hp)]
    rcases h₀.place with ⟨hc,hfin⟩ | ⟨hn,hx,k,hk,huniq⟩
    · refine .inl ⟨hc,fun i hi => ?_⟩
      have heq := hne i hi
      rw [heq] at hi ⊢
      exact hfin i hi
    · refine .inr ⟨hn,hx,k,hby.trans hk,fun i hi hl => ?_⟩
      have heq := hne i hi
      rw [heq] at hi hl
      exact huniq i hi hl
  · rw [heq]
    have h₁ : Holding r d t n x { s with submitQ := rest, runner := runner } :=
      h₀.congr rfl rfl rfl (h₀.place.congr rfl rfl (fun _ => rfl) fun _ => rfl)
    exact h₁.emit_other (hs₀.congr rfl rfl rfl) hp

/-- An item uses up a mark for its own id only. -/
theorem admitOne_cancelled {p : Pending} (hp : p.requestId ≠ r) :
    r ∈ (s.admitOne b p).cancelled ↔ r ∈ s.cancelled := by
  rcases admitOne_cases b s p with ⟨_,heq⟩ | ⟨_,runner,q,_,_,_,_,_,heq⟩ | ⟨_,runner,e,heq⟩
  · rw [heq]
    simp [Ne.symm hp]
  · rw [heq]; rfl
  · rw [heq,(emit_emitted _ _ _ _).cancelled]

theorem Serving.admitOne_other {p : Pending} {rest : List Pending} (h : Serving r d t n x s) (hs : Sound s)
    (hq : s.submitQ = p :: rest) (hp : p.requestId ≠ r) :
    Serving r d t n x (({ s with submitQ := rest } : EngineLoop R).admitOne b p) :=
  ⟨h.toHolding.admitOne_other hs hq hp,
    fun hc => h.calm ((admitOne_cancelled (s := { s with submitQ := rest }) hp).mp hc)⟩

theorem Serving.admitOne_own {p : Pending} {rest : List Pending} (h : Serving r d t n x s) (hs : Sound s)
    (hq : s.submitQ = p :: rest) (hp : p.requestId = r) (hn : n < queueSize) :
    (∃ runner q, q.requestId = r ∧ q.inputIds = p.request.inputIds ∧ q.maxTokens = p.request.maxTokens ∧
        q.finished = false ∧
        ({ s with submitQ := rest } : EngineLoop R).admitOne b p =
          ({ s with submitQ := rest } : EngineLoop R).joined runner q ∧
        Serving r d t n x (({ s with submitQ := rest } : EngineLoop R).joined runner q)) ∨
      Closed d (({ s with submitQ := rest } : EngineLoop R).admitOne b p) ∧
        ∃ e, (({ s with submitQ := rest } : EngineLoop R).admitOne b p).queue d =
          s.queue d ++ [errorFrame e none] := by
  have hplace : r ∉ rest.map Pending.requestId ∧ x = 0 ∧
      ∀ i, (s.seq i).requestId = r → (s.seq i).finished = true := by
    rcases h.place with ⟨hc,hfin⟩ | ⟨hnot,_⟩
    · rw [hq,List.map_cons,hp,List.count_cons_self] at hc
      exact ⟨List.count_eq_zero.mp (by omega),by omega,hfin⟩
    · rw [hq,List.map_cons,hp] at hnot
      exact absurd (by simp) hnot
  rcases admitOne_cases b { s with submitQ := rest } p with
    ⟨hc,_⟩ | ⟨_,runner,q,hid,hin,hmax,hfin,_,heq⟩ | ⟨_,runner,e,heq⟩
  · exact absurd (hp ▸ hc) h.calm
  · left
    refine ⟨runner,q,hid.trans hp,hin,hmax,hfin,heq,?_⟩
    refine Serving.congr h rfl rfl rfl rfl ?_
    refine .inr ⟨hplace.1,hplace.2.1,s.sched.seqs.length,?_,fun j hj hl => ?_⟩
    · show Function.update s.sched.byRequest q.requestId (some s.sched.seqs.length) r = _
      rw [hid.trans hp,Function.update_self]
    · by_contra hne
      rw [seq_joined,if_neg (by exact hne)] at hj hl
      have := hplace.2.2 j hj
      rw [show (s.seq j).finished = false from hl] at this
      exact absurd this (by simp)
  · right
    rw [heq,hp]
    have hs₁ : Sound { s with submitQ := rest, runner := runner } := hs.congr rfl rfl rfl
    have hroom : (s.queue d).length < queueSize := Nat.lt_of_le_of_lt h.size hn
    refine ⟨closed_emit hs₁ h.queue h.plain hroom (by simp [errorFrame]),e,?_⟩
    exact ((emit_emitted (b := b) { s with submitQ := rest, runner := runner } r (errorFrame e none) true).own d
      h.queue (hs.made r d h.queue) hroom).2

theorem Closed.admitOne (h : Closed d s) (p : Pending) : Closed d (s.admitOne b p) := by
  rcases admitOne_cases b s p with ⟨_,heq⟩ | ⟨_,runner,q,_,_,_,_,_,heq⟩ | ⟨_,runner,e,heq⟩
  · rw [heq]; exact h.congr rfl rfl
  · rw [heq]; exact h.congr rfl rfl
  · rw [heq]
    exact (h.congr rfl rfl : Closed d { s with runner := runner }).emit _ _ true

theorem Served.admitOne {p : Pending} {rest : List Pending} (h : Served r d t n x s) (hs : Sound s)
    (hq : s.submitQ = p :: rest) (hn : n < queueSize) :
    Served r d t n x (({ s with submitQ := rest } : EngineLoop R).admitOne b p) := by
  rcases h with h | h
  · by_cases hp : p.requestId = r
    · rcases h.admitOne_own (b := b) hs hq hp hn with ⟨runner,q,_,_,_,_,heq,h'⟩ | ⟨h',_⟩
      · rw [heq]; exact .inl h'
      · exact .inr h'
    · exact .inl (h.admitOne_other hs hq hp)
  · exact .inr ((h.congr rfl rfl : Closed d { s with submitQ := rest }).admitOne p)

theorem Served.admitLoop {l : List Pending} (h : Served r d t n x s) (hs : Sound s) (hq : s.submitQ = l)
    (hn : n < queueSize) : Served r d t n x (s.admitLoop b l) := by
  induction l generalizing s with
  | nil => exact h
  | cons p rest ih =>
    have hs' : Sound (({ s with submitQ := rest } : EngineLoop R).admitOne b p) :=
      (hs.congr rfl rfl rfl : Sound { s with submitQ := rest }).admitOne p
    exact ih (h.admitOne hs hq hn) hs' (admitOne_submitQ b _ p)

theorem Closed.admitLoop (h : Closed d s) (l : List Pending) : Closed d (s.admitLoop b l) := by
  induction l generalizing s with
  | nil => exact h
  | cons p rest ih => exact ih ((h.congr rfl rfl : Closed d { s with submitQ := rest }).admitOne p)

theorem Closed.checkTimeouts (h : Closed d s) (now : Time) : Closed d (s.checkTimeouts b now) := by
  have key : ∀ (l : List RequestId) (s : EngineLoop R), Closed d s → Closed d (l.foldl
      (fun s r => (s.schedCancel b r).emit b r { finishReason := some .timeout } true) s) := by
    intro l
    induction l with
    | nil => exact fun s h => h
    | cons r l ih => exact fun s h => ih _ ((h.schedCancel r).emit r _ true)
  exact key (s.expired now) s h

theorem Closed.runStep (h : Closed d s) (hs : Sound s) : Closed d (s.runStep b).1 := by
  obtain ⟨l,_,hw⟩ := work_runStep (b := b) hs
  exact (h.congr rfl rfl : Closed d (s.formed b)).work hw

theorem Closed.pumpOnce (h : Closed d s) (hs : Sound s) (now : Time) :
    Closed d (s.pumpOnce b now).1 :=
  ((h.admitLoop s.submitQ).checkTimeouts now).runStep (hs.admitPending.checkTimeouts now)

theorem Served.admitPending (h : Served r d t n x s) (hs : Sound s) (hn : n < queueSize) :
    Served r d t n x (s.admitPending b) := h.admitLoop hs rfl hn

theorem Served.pumpOnce (h : Served r d t n x s) (hs : Sound s) (hn : n < queueSize) (now : Time) :
    (∃ m, Served r d t m x (s.pumpOnce b now).1) ∧ (t < now → Closed d (s.pumpOnce b now).1) := by
  have h₁ := h.admitPending (b := b) hs hn
  obtain ⟨h₂,hc⟩ := h₁.checkTimeouts (b := b) hs.admitPending hn now
  have hs₂ : Sound ((s.admitPending b).checkTimeouts b now) := hs.admitPending.checkTimeouts now
  exact ⟨h₂.runStep hs₂ hn,fun ht => (hc ht).runStep hs₂⟩

end Admission

section Calls

theorem mem_assign_self (r : RequestId) (t : Time) (l : List (RequestId × Time)) :
    (r,t) ∈ assign r t l := by
  induction l with
  | nil => simp [assign]
  | cons kv l ih =>
    obtain ⟨k,v⟩ := kv
    by_cases hk : k = r
    · simp [assign,hk]
    · simp [assign,hk,ih]

theorem mem_assign_other {r' : RequestId} {t' : Time} {l : List (RequestId × Time)}
    (h : (r,t) ∈ l) (hr : r ≠ r') : (r,t) ∈ assign r' t' l := by
  induction l with
  | nil => simp at h
  | cons kv l ih =>
    obtain ⟨k,v⟩ := kv
    rcases List.mem_cons.mp h with h | h
    · obtain ⟨rfl,rfl⟩ := Prod.mk.inj h
      simp [assign,hr]
    · by_cases hk : k = r'
      · simp [assign,hk,h]
      · simp [assign,hk,ih h]

theorem Closed.cancel (h : Closed d s) (r : RequestId) : Closed d (s.cancel b r) := by
  have h₂ := (h.congr rfl rfl : Closed d { s with cancelled := r :: s.cancelled }).schedCancel (b := b) r
  unfold EngineLoop.cancel
  simp only
  split_ifs
  · exact h₂.emit r _ true
  · exact h₂

theorem Served.cancel {r' : RequestId} (h : Served r d t n x s) (hs : Sound s)
    (hn : r' = r → n < queueSize) : Served r d t n x (s.cancel b r') := by
  have hs₁ : Sound { s with cancelled := r' :: s.cancelled } := hs.congr rfl rfl rfl
  have hs₂ := hs₁.schedCancel (b := b) r'
  have hbox := boxes_schedCancel (b := b) { s with cancelled := r' :: s.cancelled } r'
  have h2 := (schedCancel_mail (b := b) { s with cancelled := r' :: s.cancelled } r').2.1
  rcases h with h | h
  · unfold EngineLoop.cancel
    simp only
    by_cases hr : r' = r
    · subst hr
      right
      rw [if_pos (.inl (by rw [h.queue]; simp))]
      exact closed_emit hs₂ (by rw [h2]; exact h.queue) (by rw [history_congr hbox]; exact h.plain)
        (by rw [queue_congr hbox]; exact Nat.lt_of_le_of_lt h.size (hn rfl)) (by simp)
    · left
      have h₁ : Serving r d t n x { s with cancelled := r' :: s.cancelled } := by
        refine ⟨h.toHolding.congr rfl rfl rfl (h.place.congr rfl rfl (fun _ => rfl) fun _ => rfl),?_⟩
        rw [List.mem_cons,not_or]
        exact ⟨Ne.symm hr,h.calm⟩
      have h₂ := h₁.schedCancel_other (b := b) hs₁ hr
      split_ifs
      · exact h₂.emit_other hs₂ hr
      · exact h₂
  · exact .inr (h.cancel r')

theorem Closed.registered {now : Time} {p : Pending} (h : Closed d s) (ha : Registered s now p s') :
    Closed d s' := by
  refine ⟨by rw [ha.history_old h.made]; exact h.terminated,?_,fun r' hr' => ?_⟩
  · rw [ha.queues,List.length_append]
    exact Nat.lt_add_right _ h.made
  · rw [ha.deltaQs] at hr'
    by_cases hne : r' = p.requestId
    · rw [hne,Function.update_self] at hr'
      exact absurd h.made (by rw [← Option.some.inj hr']; exact Nat.lt_irrefl _)
    · rw [Function.update_of_ne hne] at hr'
      exact h.free r' hr'

theorem Serving.registered {now : Time} {p : Pending} (h : Serving r d t n x s) (hs : Sound s)
    (ha : Registered s now p s') (hr : r ≠ p.requestId) (hplace : Placed r x s') :
    Serving r d t n x s' := by
  have hmade := hs.made r d h.queue
  refine ⟨⟨?_,by rw [ha.history_old hmade]; exact h.plain,by rw [ha.queue_old hmade]; exact h.size,
    by rw [ha.deadlines]; exact mem_assign_other h.due hr,hplace⟩,by rw [ha.cancelled]; exact h.calm⟩
  rw [ha.deltaQs,Function.update_of_ne hr]
  exact h.queue

theorem Placed.append_other {p : Pending} (h : Placed r x s) (hsched : s'.sched = s.sched)
    (hq : s'.submitQ = s.submitQ ++ [p]) (hr : r ≠ p.requestId) : Placed r x s' := by
  have hseq : ∀ i, s'.seq i = s.seq i := fun i => by rw [EngineLoop.seq,hsched]; rfl
  unfold Placed
  simp only [hq,hsched,hseq,List.map_append,List.map_cons,List.map_nil,List.count_append,
    List.count_singleton,List.mem_append,List.mem_singleton,hr,or_false]
  rw [if_neg (by simpa using Ne.symm hr),Nat.add_zero]
  exact h

theorem Served.submit {now : Time} {p : Pending} (h : Served r d t n x s) (hs : Sound s)
    (hsub : s.submit now p = some s') (hp : p.requestId = r → s.deltaQs r ≠ some d) :
    Served r d t n x s' := by
  have ha := accepted_submit hsub
  rcases h with h | h
  · have hr : r ≠ p.requestId := fun hc => hp hc.symm h.queue
    exact .inl (h.registered hs ha.toRegistered hr (h.place.append_other ha.sched ha.submitQ hr))
  · exact .inr (h.registered ha.toRegistered)

theorem Closed.read (h : Closed d s) (e : QueueId) : Closed d (s.read e) :=
  ⟨by rw [history_read]; exact h.terminated,by rw [length_queues_read]; exact h.made,h.free⟩

/-- A client that takes a frame makes room, and what was put into the queue stays. -/
theorem Served.read (h : Served r d t n x s) (e : QueueId) : Served r d t n x (s.read e) := by
  rcases h with h | h
  · refine .inl ⟨⟨h.queue,by rw [history_read]; exact h.plain,?_,h.due,?_⟩,h.calm⟩
    · exact (length_queue_read s e d).trans h.size
    · exact h.place.congr rfl rfl (fun _ => rfl) fun _ => rfl
  · exact .inr (h.read e)

def Idle (r : RequestId) (s : EngineLoop R) : Prop :=
  r ∉ s.submitQ.map Pending.requestId ∧
    ∀ i ∈ s.sched.waiting ++ s.sched.running, (s.seq i).requestId ≠ r

theorem holding_submit {now : Time} {p : Pending} (hs : Sound s) (hi : Idle p.requestId s)
    (ha : s.submit now p = some s') :
    Holding p.requestId s.queues.length (now+p.timeout) 0 0 s' := by
  have ha := accepted_submit ha
  refine ⟨by rw [ha.deltaQs,Function.update_self],by rw [ha.history_new hs]; simp,by rw [ha.queue_new]; simp,
    by rw [ha.deadlines]; exact mem_assign_self _ _ _,.inl ⟨?_,fun i hir => ?_⟩⟩
  · rw [ha.submitQ,List.map_append,List.count_append,List.count_eq_zero.mpr hi.1]
    simp
  · rw [ha.seq] at hir ⊢
    by_contra hl
    have hlive : (s.seq i).finished = false := by simpa using hl
    exact hi.2 i ((hs.kept.queued i).mpr hlive) hir

theorem Served.closed (h : Served r d t n 0 s) (hs : Sound s) (hi : Idle r s) : Closed d s := by
  rcases h with h | h
  · exfalso
    rcases h.place with ⟨hc,_⟩ | ⟨_,_,i,hb,_⟩
    · rw [List.count_eq_zero.mpr hi.1] at hc
      exact absurd hc (by simp)
    · obtain ⟨hir,hl⟩ := hs.kept.byRequest r i hb
      exact hi.2 i ((hs.kept.queued i).mpr hl) hir
  · exact h

end Calls

end EngineLoop

end SglangLite.Loop
