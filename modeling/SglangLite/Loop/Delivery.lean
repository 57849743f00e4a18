import SglangLite.Transition
import SglangLite.Loop.Engine

set_option autoImplicit false

namespace SglangLite.Loop
open Kv Sched Text

namespace EngineLoop

variable {R : Type} {b : Backend R} {s s' : EngineLoop R} {ids : List RequestId}

/-- All text that `_emit` was called with for a request. -/
def textFor (s : EngineLoop R) (r : RequestId) : Text :=
  (s.emitted.filter fun e => e.1 = r).flatMap fun e => e.2.text

/-- The last frame, and no other, has a finish reason. -/
def Terminated (q : List Frame) : Prop :=
  ∃ fs f, q = fs ++ [f] ∧ f.finishReason ≠ none ∧ ∀ g ∈ fs, g.finishReason = none

/-- Queue `d` was made for request `ids[d]`. A request whose queue is open has
got no terminal frame and is pending or runs, except for `x`; a request whose
queue is closed has got all its frames. -/
structure Mail (ids : List RequestId) (x : Option RequestId) (s : EngineLoop R) : Prop where
  length : s.queues.length = ids.length
  nodup : ids.Nodup
  index : ∀ r d, s.deltaQs r = some d → ids[d]? = some r
  plain : ∀ r d, s.deltaQs r = some d → ∀ f ∈ s.queue d, f.finishReason = none
  closed : ∀ r d, ids[d]? = some r → s.deltaQs r = none → Terminated (s.queue d)
  text : ∀ r d, ids[d]? = some r → (s.queue d).flatMap (·.text) = s.textFor r
  places : (s.submitQ.map Pending.requestId ++ s.sched.seqs.map (·.requestId)).Nodup
  pending : ∀ p ∈ s.submitQ, s.deltaQs p.requestId ≠ none
  live : ∀ i, (s.seq i).finished = false → s.deltaQs (s.seq i).requestId ≠ none
  alive : ∀ r, some r ≠ x → s.deltaQs r ≠ none →
    (∃ p ∈ s.submitQ, p.requestId = r) ∨
      ∃ i, (s.seq i).requestId = r ∧ s.sched.Runnable i ∧
        (i ∈ s.sched.waiting ∨ i ∈ s.sched.running)
  byRequest : ∀ r i, s.sched.byRequest r = some i ↔
    (s.seq i).requestId = r ∧ (s.seq i).finished = false
  flag : ∀ i, (s.seq i).finished = false → (s.seq i).cancelled = false
  once : (s.sched.waiting ++ s.sched.running).Nodup
  inHeap : ∀ i ∈ s.sched.waiting ++ s.sched.running, i < s.sched.seqs.length
  noCancel : s.cancelled = []

def Dead (r : RequestId) (s : EngineLoop R) : Prop :=
  (∀ p ∈ s.submitQ, p.requestId ≠ r) ∧ ∀ i, (s.seq i).requestId = r → (s.seq i).finished = true

def Room (s : EngineLoop R) (r : RequestId) : Prop :=
  ∀ d, s.deltaQs r = some d → (s.queue d).length < queueSize

theorem Mail.congr {x : Option RequestId} (h : Mail ids x s) (h1 : s'.sched = s.sched)
    (h2 : s'.submitQ = s.submitQ) (h3 : s'.queues = s.queues) (h4 : s'.deltaQs = s.deltaQs)
    (h5 : s'.cancelled = s.cancelled) (h6 : s'.emitted = s.emitted) : Mail ids x s' := by
  cases s
  cases s'
  simp only at h1 h2 h3 h4 h5 h6
  subst h1 h2 h3 h4 h5 h6
  exact ⟨h.length,h.nodup,h.index,h.plain,h.closed,h.text,h.places,h.pending,h.live,h.alive,
    h.byRequest,h.flag,h.once,h.inHeap,h.noCancel⟩

section Queues

theorem getD_modify {α : Type} (l : List (List α)) (d e : Nat) (g : List α → List α) :
    (l.modify d g).getD e [] = if e = d ∧ d < l.length then g (l.getD d []) else l.getD e [] := by
  simp only [List.getD_eq_getElem?_getD,List.getElem?_modify]
  by_cases hde : d = e
  · subst hde
    by_cases hd : d < l.length <;> simp [hd]
  · simp [hde,Ne.symm hde]

theorem emit_none {r : RequestId} (h : s.deltaQs r = none) (f : Frame) (final : Bool) :
    s.emit b r f final = { s with emitted := s.emitted ++ [(r,f)] } := by
  rw [emit]
  simp only [h]

structure Sent (s : EngineLoop R) (r : RequestId) (d : QueueId) (f : Frame) (final : Bool)
    (s' : EngineLoop R) : Prop where
  sched : s'.sched = s.sched
  submitQ : s'.submitQ = s.submitQ
  queues : s'.queues = s.queues.modify d (· ++ [f])
  deltaQs : s'.deltaQs = if final then Function.update s.deltaQs r none else s.deltaQs
  cancelled : s'.cancelled = s.cancelled
  emitted : s'.emitted = s.emitted ++ [(r,f)]

theorem emit_sent {r : RequestId} {d : QueueId} (h : s.deltaQs r = some d)
    (hroom : (s.queue d).length < queueSize) (f : Frame) (final : Bool) :
    Sent s r d f final (s.emit b r f final) := by
  have hput : ({ s with emitted := s.emitted ++ [(r,f)] } : EngineLoop R).put b d r f =
      { s with emitted := s.emitted ++ [(r,f)], queues := s.queues.modify d (· ++ [f]) } := by
    rw [put,if_pos (by exact hroom)]
  rw [emit]
  simp only [h,hput]
  cases final with
  | false => exact ⟨rfl,rfl,rfl,rfl,rfl,rfl⟩
  | true =>
    simp only [if_true,closeQueue]
    split_ifs <;> exact ⟨rfl,rfl,rfl,rfl,rfl,rfl⟩

variable {r : RequestId} {d : QueueId} {f : Frame} {final : Bool}

theorem Sent.queue_self (h : Sent s r d f final s') (hd : d < s.queues.length) :
    s'.queue d = s.queue d ++ [f] := by
  rw [queue,h.queues,getD_modify,if_pos ⟨rfl,hd⟩]
  rfl

theorem Sent.queue_ne (h : Sent s r d f final s') {e : QueueId} (he : e ≠ d) :
    s'.queue e = s.queue e := by
  rw [queue,h.queues,getD_modify,if_neg (fun hc => he hc.1)]
  rfl

theorem Sent.seq (h : Sent s r d f final s') (i : SeqId) : s'.seq i = s.seq i := by
  rw [EngineLoop.seq,h.sched]; rfl

theorem textFor_snoc (h : s'.emitted = s.emitted ++ [(r,f)])
    (r' : RequestId) : s'.textFor r' = if r' = r then s.textFor r' ++ f.text else s.textFor r' := by
  unfold textFor
  rw [h,List.filter_append,List.flatMap_append]
  by_cases hr : r' = r
  · simp [hr]
  · simp [hr,Ne.symm hr]

theorem Mail.queue_inj {x : Option RequestId} (h : Mail ids x s) {r' : RequestId} {d' : QueueId}
    (hd : s.deltaQs r = some d) (hd' : s.deltaQs r' = some d') (hr : r' ≠ r) : d' ≠ d := by
  rintro rfl
  exact hr (Option.some.inj ((h.index r' d' hd').symm.trans (h.index r d' hd)))

theorem Mail.queue_lt {x : Option RequestId} (h : Mail ids x s) (hd : s.deltaQs r = some d) :
    d < s.queues.length := by
  have := List.getElem?_eq_some_iff.mp (h.index r d hd)
  rw [h.length]
  exact this.1

theorem Sent.text {x : Option RequestId} (hs : Sent s r d f final s') (h : Mail ids x s)
    (hd : s.deltaQs r = some d) {r' : RequestId} {e : QueueId} (he : ids[e]? = some r') :
    (s'.queue e).flatMap (·.text) = s'.textFor r' := by
  rw [textFor_snoc hs.emitted]
  by_cases hed : e = d
  · subst hed
    obtain rfl := Option.some.inj (he.symm.trans (h.index r e hd))
    rw [hs.queue_self (h.queue_lt hd),List.flatMap_append,h.text r' e he]
    simp
  · have hr : r' ≠ r := by
      rintro rfl
      have hlt := (List.getElem?_eq_some_iff.mp he).1
      exact hed ((List.getElem?_inj hlt h.nodup).mp (he.trans (h.index r' d hd).symm))
    rw [hs.queue_ne hed,if_neg hr]
    exact h.text r' e he

theorem Mail.emit_more {x : Option RequestId} (h : Mail ids x s) (hd : s.deltaQs r = some d)
    (hroom : (s.queue d).length < queueSize) (hf : f.finishReason = none) :
    Mail ids x (s.emit b r f false) := by
  have hs := emit_sent (b := b) hd hroom f false
  generalize s.emit b r f false = s' at hs ⊢
  have hqs : s'.deltaQs = s.deltaQs := hs.deltaQs
  have hseq := hs.seq
  refine ⟨by rw [hs.queues,List.length_modify,h.length],h.nodup,by rw [hqs]; exact h.index,?_,?_,
    fun r' e he => hs.text h hd he,by rw [hs.submitQ,hs.sched]; exact h.places,
    by rw [hs.submitQ,hqs]; exact h.pending,fun i hi => ?_,?_,?_,fun i hi => ?_,
    by rw [hs.sched]; exact h.once,by rw [hs.sched]; exact h.inHeap,
    by rw [hs.cancelled]; exact h.noCancel⟩
  · intro r' e he g hg
    rw [hqs] at he
    by_cases hed : e = d
    · subst hed
      rw [hs.queue_self (h.queue_lt hd)] at hg
      rcases List.mem_append.mp hg with hg | hg
      · exact h.plain r' e he g hg
      · rw [List.mem_singleton.mp hg]; exact hf
    · rw [hs.queue_ne hed] at hg
      exact h.plain r' e he g hg
  · intro r' e he hn
    rw [hqs] at hn
    have hed : e ≠ d := by
      rintro rfl
      obtain rfl := Option.some.inj (he.symm.trans (h.index r e hd))
      rw [hd] at hn
      exact absurd hn (by simp)
    rw [hs.queue_ne hed]
    exact h.closed r' e he hn
  · rw [hseq] at hi ⊢
    rw [hqs]
    exact h.live i hi
  · intro r' hx hopen
    rw [hqs] at hopen
    simp only [hs.submitQ,hs.sched,hseq]
    exact h.alive r' hx hopen
  · intro r' i
    rw [hs.sched,hseq]
    exact h.byRequest r' i
  · rw [hseq] at hi ⊢
    exact h.flag i hi

theorem Mail.emit_final (h : Mail ids (some r) s) (hdead : Dead r s) (hf : f.finishReason ≠ none)
    (hroom : Room s r) (ht : s.deltaQs r = none → f.text = []) :
    Mail ids none (s.emit b r f true) := by
  cases hd : s.deltaQs r with
  | none =>
    rw [emit_none hd]
    refine ⟨h.length,h.nodup,h.index,h.plain,h.closed,fun r' e he => ?_,h.places,h.pending,h.live,
      fun r' _ hopen => ?_,h.byRequest,h.flag,h.once,h.inHeap,h.noCancel⟩
    · rw [textFor_snoc (s := s) (r := r) (f := f) rfl,ht hd]
      simp only [List.append_nil,ite_self]
      exact h.text r' e he
    · have hr : r' ≠ r := by
        rintro rfl
        exact hopen hd
      exact h.alive r' (fun he => hr (Option.some.inj he)) hopen
  | some d =>
    have hs := emit_sent (b := b) hd (hroom d hd) f true
    generalize s.emit b r f true = s' at hs ⊢
    have hqs : ∀ r', r' ≠ r → s'.deltaQs r' = s.deltaQs r' := by
      intro r' hr
      rw [hs.deltaQs,if_pos rfl,Function.update_of_ne hr]
    have hnone : s'.deltaQs r = none := by
      rw [hs.deltaQs,if_pos rfl,Function.update_self]
    have hne : ∀ {r' : RequestId}, s'.deltaQs r' ≠ none → r' ≠ r := by
      rintro r' hopen rfl
      exact hopen hnone
    have hseq := hs.seq
    refine ⟨by rw [hs.queues,List.length_modify,h.length],h.nodup,fun r' e he => ?_,
      fun r' e he g hg => ?_,fun r' e he hn => ?_,fun r' e he => hs.text h hd he,
      by rw [hs.submitQ,hs.sched]; exact h.places,fun p hp => ?_,fun i hi => ?_,
      fun r' _ hopen => ?_,fun r' i => ?_,fun i hi => ?_,by rw [hs.sched]; exact h.once,
      by rw [hs.sched]; exact h.inHeap,by rw [hs.cancelled]; exact h.noCancel⟩
    · rw [hqs r' (hne (by rw [he]; simp))] at he
      exact h.index r' e he
    · have hr := hne (by rw [he]; simp)
      rw [hqs r' hr] at he
      rw [hs.queue_ne (h.queue_inj hd he hr)] at hg
      exact h.plain r' e he g hg
    · by_cases hed : e = d
      · subst hed
        rw [hs.queue_self (h.queue_lt hd)]
        exact ⟨_,f,rfl,hf,h.plain r e hd⟩
      · have hr : r' ≠ r := by
          rintro rfl
          have hlt := (List.getElem?_eq_some_iff.mp he).1
          exact hed ((List.getElem?_inj hlt h.nodup).mp (he.trans (h.index r' d hd).symm))
        rw [hqs r' hr] at hn
        rw [hs.queue_ne hed]
        exact h.closed r' e he hn
    · rw [hs.submitQ] at hp
      rw [hqs _ (hdead.1 p hp)]
      exact h.pending p hp
    · rw [hseq] at hi ⊢
      have hr : (s.seq i).requestId ≠ r := by
        intro he
        rw [hdead.2 i he] at hi
        exact absurd hi (by simp)
      rw [hqs _ hr]
      exact h.live i hi
    · have hr := hne hopen
      rw [hqs r' hr] at hopen
      simp only [hs.submitQ,hs.sched,hseq]
      exact h.alive r' (fun he => hr (Option.some.inj he)) hopen
    · rw [hs.sched,hseq]
      exact h.byRequest r' i
    · rw [hseq] at hi ⊢
      exact h.flag i hi

/-- A frame takes room in the queue of its own request only, and a terminal
frame closes it. -/
theorem Mail.room_emit {x : Option RequestId} (h : Mail ids x s) (hroom : Room s r)
    {r' : RequestId} (hr : Room s r') (hne : r' ≠ r ∨ final = true) :
    Room (s.emit b r f final) r' := by
  cases hd : s.deltaQs r with
  | none =>
    rw [emit_none hd]
    exact hr
  | some d =>
    have hs := emit_sent (b := b) hd (hroom d hd) f final
    intro e he
    by_cases heq : r' = r
    · obtain rfl := hne.resolve_left (not_not.mpr heq)
      rw [hs.deltaQs,if_pos rfl,heq,Function.update_self] at he
      exact absurd he (by simp)
    · have he' : s.deltaQs r' = some e := by
        rw [hs.deltaQs] at he
        cases final with
        | false => exact he
        | true =>
          rw [if_pos rfl,Function.update_of_ne heq] at he
          exact he
      rw [hs.queue_ne (h.queue_inj hd he' heq)]
      exact hr e he'

end Queues

section Sequences

variable {x : Option RequestId} {i j : SeqId} {f : Sequence → Sequence}

theorem Mail.weaken (h : Mail ids none s) (x : Option RequestId) : Mail ids x s :=
  { h with alive := fun r _ => h.alive r (by simp) }

theorem seq_modify (s : EngineLoop R) (i j : SeqId) (f : Sequence → Sequence) :
    (s.modify i f).seq j = if j = i ∧ i < s.sched.seqs.length then f (s.seq i) else s.seq j :=
  Scheduler.seq_modify s.sched i j f

theorem map_requestId_modify (l : List Sequence) (i : Nat)
    (hf : ∀ q, (f q).requestId = q.requestId) :
    (l.modify i f).map (·.requestId) = l.map (·.requestId) := by
  apply List.ext_getElem (by simp)
  intro n h1 h2
  simp only [List.getElem_map,List.getElem_modify]
  split_ifs
  · exact hf _
  · rfl

theorem Mail.seq_inj (h : Mail ids x s) (hi : i < s.sched.seqs.length)
    (hj : j < s.sched.seqs.length) (he : (s.seq i).requestId = (s.seq j).requestId) : i = j := by
  have hn := (List.nodup_append.mp h.places).2.1
  have hget : ∀ k, k < s.sched.seqs.length →
      (s.sched.seqs.map (·.requestId))[k]? = some (s.seq k).requestId := by
    intro k hk
    simp [seq,Scheduler.seq,List.getElem?_eq_getElem hk]
  exact (List.getElem?_inj (by simpa using hi) hn).mp
    ((hget i hi).trans ((congrArg some he).trans (hget j hj).symm))

theorem Mail.not_pending (h : Mail ids x s) (hi : i < s.sched.seqs.length) :
    ∀ p ∈ s.submitQ, p.requestId ≠ (s.seq i).requestId := by
  intro p hp he
  refine (List.nodup_append.mp h.places).2.2 p.requestId (List.mem_map_of_mem hp)
    (s.seq i).requestId ?_ he
  exact List.mem_map.mpr ⟨s.seq i,by simp [seq,Scheduler.seq,List.getElem?_eq_getElem hi],rfl⟩

theorem Mail.modify (h : Mail ids x s) (hr : ∀ q, (f q).requestId = q.requestId)
    (hf : ∀ q, (f q).finished = q.finished) (hc : ∀ q, (f q).cancelled = q.cancelled) (i : SeqId) :
    Mail ids x (s.modify i f) := by
  have hfield : ∀ {α : Type} (g : Sequence → α), (∀ q, g (f q) = g q) →
      ∀ j, g ((s.modify i f).seq j) = g (s.seq j) := by
    intro α g hg j
    rw [seq_modify]
    split_ifs with hj
    · rw [hg,hj.1]
    · rfl
  have hreq := hfield _ hr
  have hfin := hfield _ hf
  have hcan := hfield _ hc
  refine ⟨h.length,h.nodup,h.index,h.plain,h.closed,h.text,?_,h.pending,fun j hj => ?_,
    fun r hx hopen => ?_,fun r j => ?_,fun j hj => ?_,h.once,
    fun j hj => by simpa [EngineLoop.modify] using h.inHeap j hj,h.noCancel⟩
  · simpa [EngineLoop.modify,Scheduler.modify,map_requestId_modify _ i hr] using h.places
  · rw [hreq]
    exact h.live j (by rw [← hfin]; exact hj)
  · rcases h.alive r hx hopen with hp | ⟨j,hj,hrun,hmem⟩
    · exact .inl hp
    · exact .inr ⟨j,by rw [hreq]; exact hj,⟨(hfin j).trans hrun.1,(hcan j).trans hrun.2⟩,hmem⟩
  · rw [hreq,hfin]
    exact h.byRequest r j
  · rw [hcan]
    exact h.flag j (by rw [← hfin]; exact hj)

theorem Mail.finish (reason : FinishReason) (h : Mail ids none s)
    (hi : (s.seq i).finished = false) (hr : ∀ q, (f q).requestId = q.requestId) :
    Mail ids (some (s.seq i).requestId) ((s.modify i f).mark b i reason) ∧
      Dead (s.seq i).requestId ((s.modify i f).mark b i reason) ∧
      (((s.modify i f).mark b i reason).seq i).finishReason = some reason ∧
      ∀ j, j ≠ i → ((s.modify i f).mark b i reason).seq j = s.seq j := by
  have hlt : i < s.sched.seqs.length := Scheduler.lt_of_unfinished hi
  have hself : ((s.modify i f).mark b i reason).seq i = { f (s.seq i) with
      finished := true, finishReason := some reason, blockTable := [], kvState := false } := by
    show ((s.sched.modify i f).markFinished i reason).seq i = _
    rw [Scheduler.seq_markFinished,if_pos ⟨rfl,by simpa using hlt⟩,Scheduler.seq_modify_self hlt]
    rfl
  have hother : ∀ j, j ≠ i → ((s.modify i f).mark b i reason).seq j = s.seq j := by
    intro j hj
    show ((s.sched.modify i f).markFinished i reason).seq j = _
    rw [Scheduler.seq_markFinished,if_neg (fun hc => hj hc.1),Scheduler.seq_modify_ne hj]
    rfl
  have hreq : ∀ j, (((s.modify i f).mark b i reason).seq j).requestId = (s.seq j).requestId := by
    intro j
    by_cases hj : j = i
    · rw [hj,hself]
      exact hr _
    · rw [hother j hj]
  have hold : ∀ j, (((s.modify i f).mark b i reason).seq j).finished = false → j ≠ i := by
    rintro j hj rfl
    rw [hself] at hj
    exact absurd hj (by simp)
  have hby : ((s.modify i f).mark b i reason).sched.byRequest =
      Function.update s.sched.byRequest (s.seq i).requestId none := by
    show Function.update s.sched.byRequest ((s.sched.modify i f).seq i).requestId none = _
    rw [Scheduler.seq_modify_self hlt,hr]
    rfl
  have hmem : ∀ j, j ≠ i → j ∈ s.sched.waiting ∨ j ∈ s.sched.running →
      j ∈ ((s.modify i f).mark b i reason).sched.waiting ∨
        j ∈ ((s.modify i f).mark b i reason).sched.running := by
    intro j hj hm
    rcases hm with hm | hm
    · exact .inl (List.mem_filter.mpr ⟨hm,by simpa using hj⟩)
    · exact .inr ((List.mem_erase_of_ne hj).mpr hm)
  refine ⟨⟨h.length,h.nodup,h.index,h.plain,h.closed,h.text,?_,h.pending,fun j hj => ?_,
    fun r hx hopen => ?_,fun r j => ?_,fun j hj => ?_,?_,fun j hj => ?_,h.noCancel⟩,
    ⟨h.not_pending hlt,fun j hj => ?_⟩,by rw [hself],hother⟩
  · have hseqs : ((s.modify i f).mark b i reason).sched.seqs.map (·.requestId) =
        s.sched.seqs.map (·.requestId) := by
      show (((s.sched.seqs.modify i f).modify i _).map (·.requestId)) = _
      rw [map_requestId_modify,map_requestId_modify _ i hr]
      intro q
      rfl
    rw [hseqs]
    exact h.places
  · have hne := hold j hj
    rw [hother j hne] at hj
    rw [hreq]
    exact h.live j hj
  · rcases h.alive r (by simp) hopen with hp | ⟨j,hj,hrun,hm⟩
    · exact .inl hp
    · have hne : j ≠ i := by
        rintro rfl
        exact hx (by rw [hj])
      refine .inr ⟨j,by rw [hreq]; exact hj,?_,hmem j hne hm⟩
      show (((s.modify i f).mark b i reason).seq j).finished = false ∧
        (((s.modify i f).mark b i reason).seq j).cancelled = false
      rw [hother j hne]
      exact hrun
  · rw [hby,hreq]
    by_cases hrr : r = (s.seq i).requestId
    · subst hrr
      rw [Function.update_self]
      refine iff_of_false (by simp) (fun hc => ?_)
      have hne := hold j hc.2
      rw [hother j hne] at hc
      exact hne (h.seq_inj (Scheduler.lt_of_unfinished hc.2) hlt hc.1)
    · rw [Function.update_of_ne hrr,h.byRequest r j]
      by_cases hj : j = i
      · subst hj
        exact iff_of_false (fun hc => hrr hc.1.symm) (fun hc => hrr hc.1.symm)
      · rw [hother j hj]
  · have hne := hold j hj
    rw [hother j hne] at hj ⊢
    exact h.flag j hj
  · show (s.sched.waiting.filter (· ≠ i) ++ s.sched.running.erase i).Nodup
    exact h.once.sublist (List.filter_sublist.append List.erase_sublist)
  · show j < ((s.sched.seqs.modify i f).modify i _).length
    rw [List.length_modify,List.length_modify]
    exact h.inHeap j ((List.filter_sublist.append List.erase_sublist).subset hj)
  · by_cases hji : j = i
    · rw [hji,hself]
    · rw [hreq] at hj
      by_contra hf
      rw [hother j hji,Bool.not_eq_true] at hf
      exact hji (h.seq_inj (Scheduler.lt_of_unfinished hf) hlt hj)

theorem modify_id (s : EngineLoop R) (i : SeqId) : s.modify i (fun q => q) = s := by
  rw [EngineLoop.modify,Scheduler.modify_same fun _ => rfl]

theorem Mail.finish_emit (reason : FinishReason) (fr : Frame) (h : Mail ids none s)
    (hi : (s.seq i).finished = false) (hr : ∀ q, (f q).requestId = q.requestId)
    (hf : fr.finishReason ≠ none) (hroom : Room s (s.seq i).requestId) :
    Mail ids none (((s.modify i f).mark b i reason).emit b (s.seq i).requestId fr true) := by
  obtain ⟨hm,hdead,_⟩ := h.finish (b := b) reason hi hr
  exact hm.emit_final hdead hf hroom (fun hn => absurd hn (h.live i hi))

theorem emit_sched {r : RequestId} {fr : Frame} {final : Bool} (hroom : Room s r) :
    (s.emit b r fr final).sched = s.sched ∧ (s.emit b r fr final).submitQ = s.submitQ := by
  cases hd : s.deltaQs r with
  | none =>
    rw [emit_none hd]
    exact ⟨rfl,rfl⟩
  | some d =>
    have hs := emit_sent (b := b) hd (hroom d hd) fr final
    exact ⟨hs.sched,hs.submitQ⟩

end Sequences

section Rounds

def Roomy (s : EngineLoop R) : Prop := ∀ r, Room s r

theorem room_of_same (hq : s'.queues = s.queues) (hd : s'.deltaQs = s.deltaQs) {r : RequestId}
    (h : Room s r) : Room s' r := by
  intro d hs
  rw [hd] at hs
  rw [queue,hq]
  exact h d hs

theorem Mail.reject {p : Pending} {rest : List Pending} {runner : R} {e : String}
    (h : Mail ids none s) (hroom : Roomy s) (hq : s.submitQ = p :: rest) :
    Mail ids none (({ s with submitQ := rest, runner := runner } : EngineLoop R).emit b p.requestId
      (errorFrame e none) true) ∧
      Roomy (({ s with submitQ := rest, runner := runner } : EngineLoop R).emit b p.requestId
        (errorFrame e none) true) := by
  have hplaces := h.places
  rw [hq,List.map_cons,List.cons_append,List.nodup_cons] at hplaces
  have hm : Mail ids (some p.requestId) ({ s with submitQ := rest, runner := runner } : EngineLoop R) := by
    refine ⟨h.length,h.nodup,h.index,h.plain,h.closed,h.text,hplaces.2,
      fun p' hp' => h.pending p' (by rw [hq]; exact List.mem_cons_of_mem p hp'),h.live,
      fun r hx hopen => ?_,h.byRequest,h.flag,h.once,h.inHeap,h.noCancel⟩
    rcases h.alive r (by simp) hopen with ⟨p',hp',hr⟩ | hi
    · rw [hq] at hp'
      rcases List.mem_cons.mp hp' with rfl | hp'
      · exact absurd (by rw [hr]) hx
      · exact .inl ⟨p',hp',hr⟩
    · exact .inr hi
  have hdead : Dead p.requestId ({ s with submitQ := rest, runner := runner } : EngineLoop R) := by
    refine ⟨fun p' hp' he => ?_,fun i he => ?_⟩
    · exact hplaces.1 (List.mem_append_left _ (he ▸ List.mem_map_of_mem hp'))
    · by_contra hf
      rw [Bool.not_eq_true] at hf
      have hlt : i < s.sched.seqs.length := Scheduler.lt_of_unfinished hf
      refine hplaces.1 (List.mem_append_right _ (List.mem_map.mpr ⟨s.seq i,?_,he⟩))
      simp [seq,Scheduler.seq,List.getElem?_eq_getElem hlt]
  refine ⟨hm.emit_final hdead (by simp [errorFrame]) (hroom _) (fun _ => rfl),fun r => ?_⟩
  exact hm.room_emit (hroom _) (hroom r) (.inr rfl)

theorem Mail.accept {p : Pending} {rest : List Pending} {runner : R} {q : Sequence}
    (h : Mail ids none s) (hq : s.submitQ = p :: rest) (hid : q.requestId = p.requestId)
    (hfin : q.finished = false) (hcan : q.cancelled = false) :
    Mail ids none ({ s with
      submitQ := rest
      runner := runner
      sched := { s.sched with
        seqs := s.sched.seqs ++ [q]
        waiting := s.sched.waiting ++ [s.sched.seqs.length]
        byRequest := Function.update s.sched.byRequest p.requestId
          (some s.sched.seqs.length) } } : EngineLoop R) := by
  have hnew : (s.sched.seqs ++ [q]).getD s.sched.seqs.length default = q := by simp
  have hold : ∀ j, j ≠ s.sched.seqs.length →
      (s.sched.seqs ++ [q]).getD j default = s.sched.seqs.getD j default := by
    intro j hj
    rcases Nat.lt_or_gt_of_ne hj with hlt | hgt
    · simp [List.getElem?_append_left hlt]
    · rw [List.getD_eq_getElem?_getD,List.getD_eq_getElem?_getD,
        List.getElem?_eq_none (by simp; omega),List.getElem?_eq_none (by omega)]
  have hplaces := h.places
  rw [hq,List.map_cons,List.cons_append] at hplaces
  refine ⟨h.length,h.nodup,h.index,h.plain,h.closed,h.text,?_,
    fun p' hp' => h.pending p' (by rw [hq]; exact List.mem_cons_of_mem p hp'),fun j hj => ?_,
    fun r _ hopen => ?_,fun r j => ?_,fun j hj => ?_,?_,fun j hj => ?_,h.noCancel⟩
  · refine (List.Perm.nodup_iff ?_).mp hplaces
    simp only [List.map_append,List.map_cons,List.map_nil,hid,← List.append_assoc]
    exact (List.perm_append_singleton _ _).symm
  · by_cases hn : j = s.sched.seqs.length
    · subst hn
      simp only [seq,Scheduler.seq,hnew,hid]
      exact h.pending p (by rw [hq]; simp)
    · simp only [seq,Scheduler.seq,hold j hn] at hj ⊢
      exact h.live j hj
  · rcases h.alive r (by simp) hopen with ⟨p',hp',hr⟩ | ⟨j,hj,hrun,hm⟩
    · rw [hq] at hp'
      rcases List.mem_cons.mp hp' with rfl | hp'
      · refine .inr ⟨s.sched.seqs.length,?_,?_,.inl (by simp)⟩
        · simp only [seq,Scheduler.seq,hnew,hid,hr]
        · simp only [Scheduler.Runnable,Scheduler.seq,hnew]
          exact ⟨hfin,hcan⟩
      · exact .inl ⟨p',hp',hr⟩
    · have hn : j ≠ s.sched.seqs.length := Nat.ne_of_lt (Scheduler.lt_of_unfinished hrun.1)
      refine .inr ⟨j,?_,?_,?_⟩
      · simpa only [seq,Scheduler.seq,hold j hn] using hj
      · simpa only [Scheduler.Runnable,Scheduler.seq,hold j hn] using hrun
      · rcases hm with hm | hm
        · exact .inl (List.mem_append_left _ hm)
        · exact .inr hm
  · have hfresh : ∀ j, (s.seq j).finished = false → (s.seq j).requestId ≠ p.requestId := by
      intro j hj he
      refine (List.nodup_cons.mp hplaces).1 (List.mem_append_right _
        (List.mem_map.mpr ⟨s.seq j,?_,he⟩))
      simp [seq,Scheduler.seq,List.getElem?_eq_getElem (Scheduler.lt_of_unfinished hj)]
    by_cases hn : j = s.sched.seqs.length
    · subst hn
      simp only [seq,Scheduler.seq,hnew,hid,hfin,and_true]
      by_cases hr : r = p.requestId
      · simp [hr]
      · rw [Function.update_of_ne hr]
        refine iff_of_false (fun hc => ?_) (fun hc => hr hc.symm)
        exact absurd (Scheduler.lt_of_unfinished ((h.byRequest r _).mp hc).2) (Nat.lt_irrefl _)
    · simp only [seq,Scheduler.seq,hold j hn]
      by_cases hr : r = p.requestId
      · subst hr
        rw [Function.update_self]
        exact iff_of_false (fun hc => hn (Option.some.inj hc).symm) (fun hc => hfresh j hc.2 hc.1)
      · rw [Function.update_of_ne hr]
        exact h.byRequest r j
  · by_cases hn : j = s.sched.seqs.length
    · subst hn
      simp only [seq,Scheduler.seq,hnew]
      exact hcan
    · simp only [seq,Scheduler.seq,hold j hn] at hj ⊢
      exact h.flag j hj
  · have hno : s.sched.seqs.length ∉ s.sched.waiting ++ s.sched.running :=
      fun hm => absurd (h.inHeap _ hm) (Nat.lt_irrefl _)
    refine (List.Perm.nodup_iff ?_).mp (List.nodup_cons.mpr ⟨hno,h.once⟩)
    rw [List.append_assoc,List.singleton_append]
    exact List.perm_middle.symm
  · have hcases : j ∈ s.sched.waiting ++ s.sched.running ∨ j = s.sched.seqs.length := by
      simp only [List.mem_append,List.mem_singleton] at hj ⊢
      tauto
    simp only [List.length_append,List.length_singleton]
    rcases hcases with hj | rfl
    · exact Nat.lt_succ_of_lt (h.inHeap j hj)
    · exact Nat.lt_succ_self _

/-- A state between the frames of a round: all is well, and open queues have
room. -/
structure Good (ids : List RequestId) (s : EngineLoop R) : Prop where
  mail : Mail ids none s
  roomy : Roomy s

theorem Good.admitOne {p : Pending} {rest : List Pending} (h : Good ids s)
    (hq : s.submitQ = p :: rest) :
    Good ids (({ s with submitQ := rest } : EngineLoop R).admitOne b p) ∧
      (({ s with submitQ := rest } : EngineLoop R).admitOne b p).submitQ = rest := by
  have hreject : ∀ (runner : R) (e : String), Good ids
      (({ s with submitQ := rest, runner := runner } : EngineLoop R).emit b p.requestId
        (errorFrame e none) true) ∧
      (({ s with submitQ := rest, runner := runner } : EngineLoop R).emit b p.requestId
        (errorFrame e none) true).submitQ = rest := by
    intro runner e
    obtain ⟨hm,hr⟩ := h.mail.reject (b := b) (e := e) h.roomy hq
    exact ⟨⟨hm,hr⟩,(emit_sched (s := { s with submitQ := rest, runner := runner }) (h.roomy _)).2⟩
  rw [EngineLoop.admitOne,if_neg (by simp [h.mail.noCancel]),addRequest]
  by_cases h1 : b.sched.maxWaiting ≤ s.sched.waiting.length
  · rw [if_pos h1]
    exact hreject s.runner _
  rw [if_neg h1]
  by_cases h2 : b.sched.maxPromptTokens < p.request.inputIds.length
  · rw [if_pos h2]
    exact hreject s.runner _
  rw [if_neg h2]
  cases hadm : b.matchPrefix s.runner s.sched.seqs.length p.request with
  | mk runner res =>
    cases res with
    | error e =>
      simp only
      exact hreject runner _
    | ok w =>
      simp only
      exact ⟨⟨h.mail.accept hq rfl rfl rfl,fun r => h.roomy r⟩,trivial⟩

theorem Good.admitPending (h : Good ids s) :
    Good ids (s.admitPending b) ∧ (s.admitPending b).submitQ = [] := by
  have key : ∀ (l : List Pending) (s : EngineLoop R), Good ids s → s.submitQ = l →
      Good ids (s.admitLoop b l) ∧ (s.admitLoop b l).submitQ = [] := by
    intro l
    induction l with
    | nil => exact fun s h hq => ⟨h,hq⟩
    | cons p rest ih =>
      intro s h hq
      obtain ⟨h',hq'⟩ := h.admitOne (b := b) hq
      exact ih _ h' hq'
  exact key _ s h rfl

theorem Good.timeout (h : Good ids s) (hq : s.submitQ = []) (r : RequestId) :
    Good ids ((s.schedCancel b r).emit b r { finishReason := some .timeout } true) ∧
      ((s.schedCancel b r).emit b r { finishReason := some .timeout } true).submitQ = [] := by
  have hend : ∀ s₁ : EngineLoop R, Mail ids (some r) s₁ → Dead r s₁ → s₁.queues = s.queues →
      s₁.deltaQs = s.deltaQs → s₁.submitQ = [] →
      Good ids (s₁.emit b r { finishReason := some .timeout } true) ∧
        (s₁.emit b r { finishReason := some .timeout } true).submitQ = [] := by
    intro s₁ hm hdead hqs hds hsub
    have hroom : ∀ r', Room s₁ r' := fun r' => room_of_same hqs hds (h.roomy r')
    exact ⟨⟨hm.emit_final hdead (by simp) (hroom r) (fun _ => rfl),
      fun r' => hm.room_emit (hroom r) (hroom r') (.inr rfl)⟩,(emit_sched (hroom r)).2.trans hsub⟩
  unfold schedCancel
  cases hby : s.sched.byRequest r with
  | none =>
    refine hend s (h.mail.weaken _) ⟨by simp [hq],fun i hi => ?_⟩ rfl rfl hq
    by_contra hf
    have := (h.mail.byRequest r i).mpr ⟨hi,by simpa using hf⟩
    rw [hby] at this
    exact absurd this (by simp)
  | some i =>
    obtain ⟨hi,hlive⟩ := (h.mail.byRequest r i).mp hby
    obtain ⟨hm,hdead,_⟩ := h.mail.finish (b := b)
      (f := fun q => { q with cancelled := true }) .cancelled hlive (fun _ => rfl)
    rw [hi] at hm hdead
    exact hend _ hm hdead rfl rfl hq

theorem Good.checkTimeouts (h : Good ids s) (hq : s.submitQ = []) (now : Time) :
    Good ids (s.checkTimeouts b now) ∧ (s.checkTimeouts b now).submitQ = [] := by
  unfold EngineLoop.checkTimeouts
  generalize s.expired now = l
  induction l generalizing s with
  | nil => exact ⟨h,hq⟩
  | cons r l ih =>
    obtain ⟨h',hq'⟩ := h.timeout (b := b) hq r
    exact ih h' hq'

structure Batch (s : EngineLoop R) (batch : List SeqId) : Prop where
  live : ∀ i ∈ batch, (s.seq i).finished = false
  nodup : batch.Nodup

theorem Good.abortBatch {e : Fault} {batch : List (SeqId × Bool)} (h : Good ids s)
    (hb : Batch s (batch.map Prod.fst)) : Good ids (s.abortBatch b e batch) := by
  unfold EngineLoop.abortBatch
  induction batch generalizing s with
  | nil => exact h
  | cons m batch ih =>
    have hlive := hb.live m.1 (by simp)
    have hn : m.1 ∉ batch.map Prod.fst ∧ (batch.map Prod.fst).Nodup := List.nodup_cons.mp hb.nodup
    have hfin := h.mail.finish (b := b) (f := fun q => q) .error hlive (fun _ => rfl)
    have hm := h.mail.finish_emit (b := b) (f := fun q => q) .error
      (errorFrame e.text (some (usage (s.seq m.1)))) hlive (fun _ => rfl)
      (by simp [errorFrame]) (h.roomy _)
    rw [modify_id] at hfin hm
    have hroom : ∀ r, Room (s.mark b m.1 .error) r := h.roomy
    refine ih ⟨hm,fun r => hfin.1.room_emit (hroom _) (hroom r) (.inr rfl)⟩ ⟨fun j hj => ?_,hn.2⟩
    have hne : j ≠ m.1 := fun he => hn.1 (he ▸ hj)
    show (Scheduler.seq _ j).finished = false
    rw [(emit_sched (hroom _)).1]
    show ((s.mark b m.1 .error).seq j).finished = false
    rw [hfin.2.2.2 j hne]
    exact hb.live j (by simp only [List.map_cons]; exact List.mem_cons_of_mem _ hj)

theorem Mail.applyPost {i : SeqId} {p : Post} (h : Mail ids none s)
    (hi : (s.seq i).finished = false) (hp : p.finished = p.reason.isSome)
    (hroom : Room s (s.seq i).requestId) :
    Mail ids none (s.applyPost b i p) ∧ (∀ j, j ≠ i → (s.applyPost b i p).seq j = s.seq j) ∧
      ∀ r, r ≠ (s.seq i).requestId → Room s r → Room (s.applyPost b i p) r := by
  have hmod := h.modify (f := fun q => { q with outputIds := p.outputIds })
    (fun _ => rfl) (fun _ => rfl) (fun _ => rfl) i
  unfold EngineLoop.applyPost
  cases hr : p.reason with
  | none =>
    have hfin : p.finished = false := by rw [hp,hr]; rfl
    obtain ⟨d,hd⟩ := Option.ne_none_iff_exists'.mp (h.live i hi)
    simp only [hfin]
    have hm : Mail ids none ({ s.modify i (fun q => { q with outputIds := p.outputIds }) with
        prevText := Function.update s.prevText (s.seq i).requestId p.prevText } : EngineLoop R) :=
      hmod.congr rfl rfl rfl rfl rfl rfl
    refine ⟨hm.emit_more hd (hroom d hd) (by simp [Post.frame,hfin]),fun j hj => ?_,
      fun r hne hr => hm.room_emit hroom hr (.inl hne)⟩
    show Scheduler.seq _ j = _
    rw [(emit_sched (by exact hroom)).1]
    exact Scheduler.seq_modify_ne hj _
  | some reason =>
    have hfin : p.finished = true := by rw [hp,hr]; rfl
    simp only [hfin]
    obtain ⟨hm,hdead,hreason,hother⟩ := h.finish (b := b)
      (f := fun q => { q with outputIds := p.outputIds }) _ hi (fun _ => rfl)
    have hm' : Mail ids (some (s.seq i).requestId)
        ({ (s.modify i (fun q => { q with outputIds := p.outputIds })).mark b i reason with
          prevText := Function.update s.prevText (s.seq i).requestId p.prevText } : EngineLoop R) :=
      hm.congr rfl rfl rfl rfl rfl rfl
    refine ⟨hm'.emit_final hdead ?_ hroom (fun hn => absurd hn (h.live i hi)),fun j hj => ?_,
      fun r hne hr => hm'.room_emit hroom hr (.inl hne)⟩
    · simp only [Post.frame,hfin,if_true]
      exact (congrArg (· ≠ none) hreason).mpr (by simp)
    · show Scheduler.seq _ j = _
      rw [(emit_sched (by exact hroom)).1]
      exact hother j hj

theorem Mail.noteText (h : Mail ids none s) (r : RequestId) (a : Bool) :
    Mail ids none (s.noteText r a) := h.congr rfl rfl rfl rfl rfl rfl

theorem Mail.prefilled {i : SeqId} (h : Mail ids none s) : Mail ids none (s.prefilled b i) := by
  have hm := h.modify (f := fun q => { q with cachedLen := q.inputIds.length })
    (fun _ => rfl) (fun _ => rfl) (fun _ => rfl) i
  unfold EngineLoop.prefilled
  simp only
  split_ifs
  · exact hm
  · exact hm.congr rfl rfl rfl rfl rfl rfl

/-- `s'` differs from `s` in what the checks of sequence `i` may read only. -/
structure Touched (s : EngineLoop R) (i : SeqId) (s' : EngineLoop R) : Prop where
  queues : s'.queues = s.queues
  deltaQs : s'.deltaQs = s.deltaQs
  other : ∀ j, j ≠ i → s'.seq j = s.seq j
  requestId : (s'.seq i).requestId = (s.seq i).requestId
  finished : (s'.seq i).finished = (s.seq i).finished
  cancelled : (s'.seq i).cancelled = (s.seq i).cancelled

theorem Touched.refl (s : EngineLoop R) (i : SeqId) : Touched s i s :=
  ⟨rfl,rfl,fun _ _ => rfl,rfl,rfl,rfl⟩

theorem Touched.trans {s'' : EngineLoop R} {i : SeqId} (h₁ : Touched s i s')
    (h₂ : Touched s' i s'') : Touched s i s'' :=
  ⟨h₂.queues.trans h₁.queues,h₂.deltaQs.trans h₁.deltaQs,
    fun j hj => (h₂.other j hj).trans (h₁.other j hj),h₂.requestId.trans h₁.requestId,
    h₂.finished.trans h₁.finished,h₂.cancelled.trans h₁.cancelled⟩

theorem touched_modify (s : EngineLoop R) (i : SeqId) {f : Sequence → Sequence}
    (hr : ∀ q, (f q).requestId = q.requestId) (hf : ∀ q, (f q).finished = q.finished)
    (hc : ∀ q, (f q).cancelled = q.cancelled) : Touched s i (s.modify i f) := by
  refine ⟨rfl,rfl,fun j hj => by rw [seq_modify,if_neg (fun h => hj h.1)],?_,?_,?_⟩
  · rw [seq_modify]; split_ifs <;> simp [hr]
  · rw [seq_modify]; split_ifs <;> simp [hf]
  · rw [seq_modify]; split_ifs <;> simp [hc]

theorem touched_prefilled (s : EngineLoop R) (i : SeqId) : Touched s i (s.prefilled b i) := by
  have hm := touched_modify s i (f := fun q => { q with cachedLen := q.inputIds.length })
    (fun _ => rfl) (fun _ => rfl) (fun _ => rfl)
  unfold EngineLoop.prefilled
  simp only
  split_ifs
  · exact hm
  · exact ⟨rfl,rfl,hm.other,hm.requestId,hm.finished,hm.cancelled⟩

/-- One round of the post-processing loop leaves the other members of the
batch as they are. -/
theorem Mail.postOne {m : (SeqId × Bool) × Option Token} (h : Mail ids none s)
    (hi : (s.seq m.1.1).finished = false) (hroom : Room s (s.seq m.1.1).requestId) :
    Mail ids none (s.postOne b m) ∧ (∀ j, j ≠ m.1.1 → (s.postOne b m).seq j = s.seq j) ∧
      ∀ r, r ≠ (s.seq m.1.1).requestId → Room s r → Room (s.postOne b m) r := by
  obtain ⟨⟨i,pre⟩,tok⟩ := m
  unfold EngineLoop.postOne
  cases tok with
  | none => exact ⟨h,fun _ _ => rfl,fun _ _ hr => hr⟩
  | some t =>
    simp only at hi hroom ⊢
    rw [if_neg (by simp [hi]),if_neg (by simp [h.noCancel])]
    have h₁ : Mail ids none (if pre then s.prefilled b i else s) ∧
        Touched s i (if pre then s.prefilled b i else s) := by
      split_ifs
      · exact ⟨h.prefilled,touched_prefilled s i⟩
      · exact ⟨h,.refl s i⟩
    generalize (if pre then s.prefilled b i else s) = s₁ at h₁ ⊢
    have hm := h₁.1.modify (f := fun q => { q with outputIds := q.outputIds ++ [t] })
      (fun _ => rfl) (fun _ => rfl) (fun _ => rfl) i
    have ht := h₁.2.trans (touched_modify s₁ i
      (f := fun q => { q with outputIds := q.outputIds ++ [t] })
      (fun _ => rfl) (fun _ => rfl) (fun _ => rfl))
    generalize (s₁.modify i fun q => { q with outputIds := q.outputIds ++ [t] }) = s₂ at hm ht ⊢
    have hlive : (s₂.seq i).finished = false := ht.finished.trans hi
    have hpost := postToken_finished b.tk t (s.prevText (s.seq i).requestId) (hm.flag i hlive)
    have hroom₂ : ∀ r, Room s r → Room s₂ r := fun r hr => room_of_same ht.queues ht.deltaQs hr
    have hroom' : Room s₂ (s₂.seq i).requestId := hroom₂ _ (by rw [ht.requestId]; exact hroom)
    obtain ⟨hmail,hother,hrest⟩ := (hm.noteText (s.seq i).requestId _).applyPost (b := b) hlive hpost
      hroom'
    refine ⟨hmail,fun j hj => (hother j hj).trans (ht.other j hj),fun r hne hr => ?_⟩
    exact hrest r (by rw [noteText_seq,ht.requestId]; exact hne) (hroom₂ r hr)

theorem Mail.posts {l : List ((SeqId × Bool) × Option Token)} (h : Mail ids none s)
    (hb : Batch s (l.map fun m => m.1.1)) (hroom : ∀ m ∈ l, Room s (s.seq m.1.1).requestId) :
    Mail ids none (l.foldl (EngineLoop.postOne b) s) := by
  induction l generalizing s with
  | nil => exact h
  | cons m l ih =>
    have hlive := hb.live m.1.1 (by simp)
    have hn : m.1.1 ∉ l.map (fun m => m.1.1) ∧ (l.map fun m => m.1.1).Nodup :=
      List.nodup_cons.mp hb.nodup
    obtain ⟨hm,hother,hrest⟩ := h.postOne (b := b) hlive (hroom m (by simp))
    have hne : ∀ m' ∈ l, m'.1.1 ≠ m.1.1 := fun m' hm' he =>
      hn.1 (he ▸ List.mem_map_of_mem (f := fun m => m.1.1) hm')
    refine ih hm ⟨fun j hj => ?_,hn.2⟩ (fun m' hm' => ?_)
    · obtain ⟨m',hm',rfl⟩ := List.mem_map.mp hj
      rw [hother _ (hne m' hm')]
      exact hb.live _ (List.mem_map_of_mem (List.mem_cons_of_mem m hm'))
    · have hlive' := hb.live m'.1.1 (List.mem_map_of_mem (f := fun m => m.1.1)
        (List.mem_cons_of_mem m hm'))
      rw [hother _ (hne m' hm')]
      refine hrest _ (fun he => hne m' hm' ?_) (hroom m' (List.mem_cons_of_mem m hm'))
      exact h.seq_inj (Scheduler.lt_of_unfinished hlive') (Scheduler.lt_of_unfinished hlive) he

theorem Mail.dropFinished (h : Mail ids none s) : Mail ids none s.dropFinished := by
  have hsub : (s.sched.waiting ++ s.sched.running.filter fun i => ¬ (s.sched.seq i).finished).Sublist
      (s.sched.waiting ++ s.sched.running) := List.Sublist.append_left List.filter_sublist _
  refine ⟨h.length,h.nodup,h.index,h.plain,h.closed,h.text,h.places,h.pending,h.live,
    fun r hx hopen => ?_,h.byRequest,h.flag,h.once.sublist hsub,
    fun i hi => h.inHeap i (hsub.subset hi),h.noCancel⟩
  rcases h.alive r hx hopen with hp | ⟨i,hi,hrun,hm⟩
  · exact .inl hp
  · refine .inr ⟨i,hi,hrun,?_⟩
    rcases hm with hm | hm
    · exact .inl hm
    · exact .inr (List.mem_filter.mpr ⟨hm,by simp [hrun.1]⟩)

theorem Mail.schedStep (h : Mail ids none s) (cfg : SchedConfig) :
    Mail ids none ({ s with sched := (s.sched.step cfg).1 } : EngineLoop R) ∧
      Batch ({ s with sched := (s.sched.step cfg).1 } : EngineLoop R)
        ((s.sched.step cfg).2.map Prod.fst) := by
  obtain ⟨rs,ws,hbatch,hrs,hws,hrun⟩ := Scheduler.step_spec cfg s.sched
  obtain ⟨hrunnable,hkeep⟩ := Scheduler.step_runnable cfg s.sched
  have hfst : (s.sched.step cfg).2.map Prod.fst = rs ++ ws := by
    rw [hbatch]
    simp [Scheduler.waitFlag,Function.comp_def]
  have hqueues : ∀ i ∈ (s.sched.step cfg).1.waiting ++ (s.sched.step cfg).1.running,
      i ∈ s.sched.waiting ++ s.sched.running := by
    intro i hi
    rcases List.mem_append.mp hi with hi | hi
    · exact List.mem_append_left _ (hws.subset (List.mem_append_right _ hi))
    · rcases List.mem_append.mp (hrun.subset hi) with hi | hi
      · exact List.mem_append_right _ hi
      · exact List.mem_append_left _ (hws.subset (List.mem_append_left _ hi))
  obtain ⟨hnw,hnr,hdisj⟩ := List.nodup_append.mp h.once
  have hwsplit := List.nodup_append.mp (hnw.sublist hws)
  refine ⟨⟨h.length,h.nodup,h.index,h.plain,h.closed,h.text,h.places,h.pending,h.live,
    fun r hx hopen => ?_,h.byRequest,h.flag,?_,fun i hi => h.inHeap i (hqueues i hi),h.noCancel⟩,
    ⟨fun i hi => ?_,?_⟩⟩
  · rcases h.alive r hx hopen with hp | ⟨i,hi,hr,hm⟩
    · exact .inl hp
    · exact .inr ⟨i,hi,hr,hkeep i hr hm⟩
  · refine List.nodup_append.mpr ⟨hwsplit.2.1,?_,fun i hi j hj => ?_⟩
    · refine List.Nodup.sublist hrun (List.nodup_append.mpr ⟨hnr,hwsplit.1,fun i hi j hj he => ?_⟩)
      exact hdisj j (hws.subset (List.mem_append_left _ hj)) i hi he.symm
    · rcases List.mem_append.mp (hrun.subset hj) with hj | hj
      · exact hdisj i (hws.subset (List.mem_append_right _ hi)) j hj
      · exact (hwsplit.2.2 j hj i hi).symm
  · obtain ⟨m,hm,rfl⟩ := List.mem_map.mp hi
    exact (hrunnable m hm).1
  · rw [hfst]
    refine List.nodup_append.mpr ⟨hnr.sublist hrs,hwsplit.1,fun i hi j hj he => ?_⟩
    exact hdisj j (hws.subset (List.mem_append_left _ hj)) i (hrs.subset hi) he.symm

theorem Good.absorb {α : Type} (batch : List SeqId) {l : List SeqId} {r : Ran R α} (h : Good ids s)
    (hb : Batch s l) : Good ids (s.absorb batch r) ∧ Batch (s.absorb batch r) l := by
  have key : ∀ (batch : List SeqId) (s : EngineLoop R), Good ids s → Batch s l →
      Good ids ({ s with sched := batch.foldl (fun sc i =>
          sc.modify i fun q => { q with cachedLen := r.cached i }) s.sched } : EngineLoop R) ∧
        Batch ({ s with sched := batch.foldl (fun sc i =>
          sc.modify i fun q => { q with cachedLen := r.cached i }) s.sched } : EngineLoop R) l := by
    intro batch
    induction batch with
    | nil => exact fun s h hb => ⟨h,hb⟩
    | cons i batch ih =>
      intro s h hb
      have hm := h.mail.modify (f := fun q => { q with cachedLen := r.cached i })
        (fun _ => rfl) (fun _ => rfl) (fun _ => rfl) i
      have ht := touched_modify s i (f := fun q => { q with cachedLen := r.cached i })
        (fun _ => rfl) (fun _ => rfl) (fun _ => rfl)
      refine ih (s.modify i fun q => { q with cachedLen := r.cached i }) ⟨hm,h.roomy⟩
        ⟨fun j hj => ?_,hb.nodup⟩
      by_cases hji : j = i
      · rw [hji,ht.finished]
        exact hb.live i (hji ▸ hj)
      · rw [ht.other j hji]
        exact hb.live j hj
  obtain ⟨hg,hbatch⟩ := key batch s h hb
  exact ⟨⟨hg.mail.congr rfl rfl rfl rfl rfl rfl,hg.roomy⟩,⟨hbatch.live,hbatch.nodup⟩⟩

theorem Good.burstOne {i : SeqId} {first : Token} (h : Good ids s)
    (hi : (s.seq i).finished = false) (hok : (s.burstOne b i first).2 ≠ .raised) :
    Mail ids none (s.burstOne b i first).1 := by
  have happ : ∀ (s₁ : EngineLoop R) (toks : List Token), Good ids s₁ → (s₁.seq i).finished = false →
      Good ids (s₁.modify i fun q => { q with outputIds := q.outputIds ++ toks }) ∧
        ((s₁.modify i fun q => { q with outputIds := q.outputIds ++ toks }).seq i).finished = false := by
    intro s₁ toks h₁ hl
    have hm := h₁.mail.modify (f := fun q => { q with outputIds := q.outputIds ++ toks })
      (fun _ => rfl) (fun _ => rfl) (fun _ => rfl) i
    have ht := touched_modify s₁ i (f := fun q => { q with outputIds := q.outputIds ++ toks })
      (fun _ => rfl) (fun _ => rfl) (fun _ => rfl)
    exact ⟨⟨hm,h₁.roomy⟩,ht.finished.trans hl⟩
  have hend : ∀ (s₂ : EngineLoop R) (toks : List Token) (prev : Text) (r : RequestId) (a : Bool),
      Good ids s₂ → (s₂.seq i).finished = false →
      Mail ids none ((s₂.noteText r a).applyPost b i
        (postBurst b.tk b.eos (s₂.seq i) toks prev)).dropFinished := by
    intro s₂ toks prev r a h₂ hl
    exact ((h₂.mail.noteText r a).applyPost hl (burstLoop_finished (h₂.mail.flag i hl))
      (h₂.roomy _)).1.dropFinished
  obtain ⟨h₁,hl₁⟩ := happ s [first] h hi
  unfold EngineLoop.burstOne at hok ⊢
  simp only at hok ⊢
  split_ifs at hok ⊢ with hextra
  · obtain ⟨h₂,hb₂⟩ := h₁.absorb (l := [i]) [i]
      (r := b.decodeBurst (s.modify i fun q => { q with outputIds := q.outputIds ++ [first] }).runner
        (s.modify i fun q => { q with outputIds := q.outputIds ++ [first] }).sched i
        (min ((s.seq i).maxTokens-(s.seq i).outputIds.length-1) (b.burst-1)))
      ⟨fun j hj => by rw [List.mem_singleton.mp hj]; exact hl₁,by simp⟩
    revert hok
    split
    · exact fun hok => absurd rfl hok
    · rename_i more _
      intro _
      obtain ⟨h₃,hl₃⟩ := happ _ more h₂ (hb₂.live i (by simp))
      exact hend _ _ _ _ _ h₃ hl₃
  · exact hend _ _ _ _ _ h₁ hl₁

theorem zip_fst_sublist {α β : Type} (l : List α) (l' : List β) :
    ((l.zip l').map Prod.fst).Sublist l := by
  induction l generalizing l' with
  | nil => simp
  | cons a l ih =>
    cases l' with
    | nil => simp
    | cons c l' => exact (ih l').cons_cons a

theorem Good.afterBatch {batch : List (SeqId × Bool)} {res : Except Fault (List (Option Token))}
    (h : Good ids s) (hb : Batch s (batch.map Prod.fst))
    (hok : (s.afterBatch b batch res).2 ≠ .raised) :
    Mail ids none (s.afterBatch b batch res).1 := by
  cases res with
  | error e => exact (h.abortBatch hb).mail
  | ok toks =>
    have hsub : ((batch.zip toks).map fun m => m.1.1).Sublist (batch.map Prod.fst) := by
      simpa [Function.comp_def] using (zip_fst_sublist batch toks).map Prod.fst
    have hposts : Mail ids none ((batch.zip toks).foldl (EngineLoop.postOne b) s).dropFinished :=
      (h.mail.posts ⟨fun i hi => hb.live i (hsub.subset hi),hb.nodup.sublist hsub⟩
        (fun m _ => h.roomy _)).dropFinished
    revert hok
    simp only [EngineLoop.afterBatch,finishBatch]
    split
    · split_ifs with hburst
      · exact fun hok => h.burstOne hburst.2 hok
      · exact fun _ => hposts
    · exact fun _ => hposts

theorem Good.runStep (h : Good ids s) (hok : (s.runStep b).2 ≠ .raised) :
    Mail ids none (s.runStep b).1 := by
  obtain ⟨hm,hb⟩ := h.mail.schedStep b.sched
  unfold EngineLoop.runStep at hok ⊢
  simp only at hok ⊢
  by_cases hnil : (s.sched.step b.sched).2 = []
  · rw [if_pos hnil]; exact hm
  rw [if_neg hnil] at hok ⊢
  obtain ⟨h₂,hb₂⟩ := Good.absorb _
    (r := b.runBatch s.runner (s.sched.step b.sched).1 (s.sched.step b.sched).2)
    (⟨hm,h.roomy⟩ : Good ids ({ s with sched := (s.sched.step b.sched).1 } : EngineLoop R)) hb
  exact h₂.afterBatch hb₂ hok

theorem Good.round (deadline t now : Time) (h : Good ids s)
    (hok : (s.round b deadline t now).2 ≠ .raised) :
    Mail ids none (s.round b deadline t now).1 ∧
      ((s.round b deadline t now).2 = .returned → (s.round b deadline t now).1.busy = false) := by
  obtain ⟨h₁,hq₁⟩ := h.admitPending (b := b)
  unfold EngineLoop.round at hok ⊢
  simp only at hok ⊢
  cases hbusy : (s.admitPending b).busy with
  | false =>
    simp only [Bool.false_eq_true,if_false]
    exact ⟨h₁.mail,fun _ => hbusy⟩
  | true =>
    simp only [hbusy,if_true] at hok ⊢
    by_cases ht : deadline < t
    · rw [if_pos ht] at hok
      exact absurd rfl hok
    rw [if_neg ht] at hok ⊢
    have hagain : (s.admitPending b).admitPending b = s.admitPending b := by
      rw [EngineLoop.admitPending,hq₁]
      rfl
    obtain ⟨h₂,_⟩ := h₁.checkTimeouts (b := b) hq₁ now
    have hstep := h₂.runStep (b := b)
    revert hok
    rw [pumpOnce,hagain]
    cases hp : ((s.admitPending b).checkTimeouts b now).runStep b with
    | mk s₂ pumped =>
      rw [hp] at hstep
      cases pumped with
      | raised => exact fun hok => absurd rfl hok
      | noWork => exact fun _ => ⟨hstep (by simp),by simp⟩
      | worked => exact fun _ => ⟨hstep (by simp),by simp⟩

/-- Before every round of `pump_until_idle` the open queues have room. -/
def RoomyRun (b : Backend R) (deadline : Time) : List (Time × Time) → EngineLoop R → Prop
  | [], _ => True
  | (t,now) :: rest, s => Roomy s ∧
      match s.round b deadline t now with
      | (s',.again) => RoomyRun b deadline rest s'
      | _ => True

theorem Mail.pumpUntilIdle {deadline : Time} {clock : List (Time × Time)} (h : Mail ids none s)
    (hroom : RoomyRun b deadline clock s) (hret : s.pumpUntilIdle b deadline clock = some s') :
    Mail ids none s' ∧ s'.busy = false := by
  induction clock generalizing s with
  | nil => simp [EngineLoop.pumpUntilIdle] at hret
  | cons tn clock ih =>
    obtain ⟨t,now⟩ := tn
    obtain ⟨hr,hrest⟩ := hroom
    have hround := Good.round (b := b) deadline t now ⟨h,hr⟩
    rw [EngineLoop.pumpUntilIdle] at hret
    cases hx : s.round b deadline t now with
    | mk s₁ res =>
      rw [hx] at hround hret hrest
      cases res with
      | raised => simp at hret
      | returned =>
        obtain rfl := Option.some.inj hret
        obtain ⟨hm,hb⟩ := hround (by simp)
        exact ⟨hm,hb rfl⟩
      | again => exact ih (hround (by simp)).1 hrest hret

/-- With nothing pending, waiting or running, every queue is complete. -/
theorem Mail.delivered (h : Mail ids none s) (hb : s.busy = false) {r : RequestId} {d : QueueId}
    (hd : ids[d]? = some r) :
    Terminated (s.queue d) ∧ (s.queue d).flatMap (·.text) = s.textFor r := by
  refine ⟨h.closed r d hd ?_,h.text r d hd⟩
  simp only [busy,Bool.or_eq_false_iff,Bool.not_eq_false',List.isEmpty_iff] at hb
  obtain ⟨⟨hw,hr⟩,hq⟩ := hb
  by_contra hopen
  rcases h.alive r (by simp) hopen with ⟨p,hp,_⟩ | ⟨i,_,_,hm⟩
  · simp [hq] at hp
  · simp [hw,hr] at hm

end Rounds

section Submit

def submitAll (calls : List (Time × Pending)) (s : EngineLoop R) : Option (EngineLoop R) :=
  Transition.exec (fun s c => s.submit c.1 c.2) s calls

structure Submitted (ids : List RequestId) (s : EngineLoop R) : Prop where
  mail : Mail ids none s
  noSeqs : s.sched.seqs = []
  silent : s.emitted = []
  pending : s.submitQ.map Pending.requestId = ids

theorem submitted_init (r₀ : R) : Submitted [] ({ runner := r₀ } : EngineLoop R) := by
  have hdefault : ∀ i, ((({ runner := r₀ } : EngineLoop R)).seq i).finished = true := fun i => by
    simp [seq,Scheduler.seq]
    rfl
  refine ⟨⟨rfl,by simp,by simp,by simp,by simp,by simp,by simp,by simp,fun i hi => ?_,by simp,
    fun r i => ?_,fun i hi => ?_,by simp,by simp,rfl⟩,rfl,rfl,rfl⟩
  · rw [hdefault] at hi
    exact absurd hi (by simp)
  · rw [hdefault]
    simp
  · rw [hdefault] at hi
    exact absurd hi (by simp)

theorem Submitted.submit {now : Time} {p : Pending} (h : Submitted ids s)
    (hnew : p.requestId ∉ ids) (hs : s.submit now p = some s') :
    Submitted (ids ++ [p.requestId]) s' := by
  unfold EngineLoop.submit at hs
  split_ifs at hs
  obtain rfl := Option.some.inj hs
  have hm := h.mail
  have hlen := hm.length
  have hother : ∀ r, r ≠ p.requestId → Function.update s.deltaQs p.requestId
      (some s.queues.length) r = s.deltaQs r := fun r hr => Function.update_of_ne hr _ _
  have hidx : ∀ (d : Nat) r, ids[d]? = some r → (ids ++ [p.requestId])[d]? = some r := by
    intro d r hd
    rw [List.getElem?_append_left (List.getElem?_eq_some_iff.mp hd).1]
    exact hd
  have hcases : ∀ (d : Nat) r, (ids ++ [p.requestId])[d]? = some r →
      ids[d]? = some r ∧ r ≠ p.requestId ∨ d = s.queues.length ∧ r = p.requestId := by
    intro d r hd
    by_cases hlt : d < ids.length
    · rw [List.getElem?_append_left hlt] at hd
      refine .inl ⟨hd,fun he => hnew ?_⟩
      rw [← he]
      exact List.mem_of_getElem? hd
    · rw [List.getElem?_append_right (by omega)] at hd
      have hd0 : d-ids.length = 0 := by
        have := (List.getElem?_eq_some_iff.mp hd).1
        simp only [List.length_singleton] at this
        omega
      rw [hd0] at hd
      exact .inr ⟨by omega,by simpa using hd.symm⟩
  have hqold : ∀ d, d < s.queues.length → (s.queues ++ [[]]).getD d [] = s.queue d := by
    intro d hd
    simp [queue,List.getElem?_append_left hd]
  have hqnew : (s.queues ++ [[]]).getD s.queues.length [] = ([] : List Frame) := by simp
  have hlt : ∀ (d : Nat) r, ids[d]? = some r → d < s.queues.length := fun d r hd => by
    rw [hlen]; exact (List.getElem?_eq_some_iff.mp hd).1
  have hpend : (s.submitQ ++ [p]).map Pending.requestId = ids ++ [p.requestId] := by
    rw [List.map_append,h.pending]
    rfl
  have hnodup : (ids ++ [p.requestId]).Nodup :=
    List.nodup_append.mpr ⟨hm.nodup,by simp,fun a ha c hc he => by
      rw [List.mem_singleton.mp hc] at he
      exact hnew (he ▸ ha)⟩
  refine ⟨⟨by simp [hlen],hnodup,fun r d hd => ?_,fun r d hd => ?_,fun r d hd hn => ?_,
    fun r d hd => ?_,?_,fun p' hp' => ?_,fun i hi => ?_,fun r _ hopen => ?_,hm.byRequest,hm.flag,
    hm.once,hm.inHeap,hm.noCancel⟩,h.noSeqs,h.silent,hpend⟩
  · by_cases hr : r = p.requestId
    · subst hr
      simp only [Function.update_self,Option.some.injEq] at hd
      rw [← hd,hlen]
      simp
    · simp only [hother r hr] at hd
      exact hidx d r (hm.index r d hd)
  · by_cases hr : r = p.requestId
    · subst hr
      simp only [Function.update_self,Option.some.injEq] at hd
      subst hd
      simp only [queue,hqnew]
      simp
    · simp only [hother r hr] at hd
      simp only [queue,hqold d (hm.queue_lt hd)]
      exact hm.plain r d hd
  · rcases hcases d r hd with ⟨hd',hr⟩ | ⟨_,rfl⟩
    · simp only [hother r hr] at hn
      simp only [queue,hqold d (hlt d r hd')]
      exact hm.closed r d hd' hn
    · simp at hn
  · rcases hcases d r hd with ⟨hd',_⟩ | ⟨rfl,rfl⟩
    · simp only [queue,hqold d (hlt d r hd')]
      exact hm.text r d hd'
    · simp only [queue,hqnew,textFor,h.silent]
      rfl
  · simp only [h.noSeqs,List.map_nil,List.append_nil,hpend]
    exact hnodup
  · rcases List.mem_append.mp hp' with hp' | hp'
    · by_cases hr : p'.requestId = p.requestId
      · simp [hr]
      · simp only [hother _ hr]
        exact hm.pending p' hp'
    · rw [List.mem_singleton.mp hp']
      simp
  · have := Scheduler.lt_of_unfinished hi
    simp [h.noSeqs] at this
  · by_cases hr : r = p.requestId
    · exact .inl ⟨p,by simp,hr.symm⟩
    · simp only [hother r hr] at hopen
      rcases hm.alive r (by simp) hopen with ⟨p',hp',he⟩ | hi
      · exact .inl ⟨p',List.mem_append_left _ hp',he⟩
      · exact .inr hi

theorem Submitted.submitAll {calls : List (Time × Pending)} (h : Submitted ids s)
    (hn : (ids ++ calls.map fun c => c.2.requestId).Nodup) (hs : s.submitAll calls = some s') :
    Submitted (ids ++ calls.map fun c => c.2.requestId) s' := by
  induction calls generalizing ids s with
  | nil =>
    obtain rfl := Option.some.inj hs
    simpa using h
  | cons c calls ih =>
    obtain ⟨s₁,h₁,h₂⟩ := Option.bind_eq_some_iff.mp hs
    rw [List.map_cons,← List.singleton_append,← List.append_assoc] at hn ⊢
    have hnew : c.2.requestId ∉ ids := fun hm =>
      (List.nodup_append.mp (List.nodup_append.mp hn).1).2.2 _ hm _ (by simp) rfl
    exact ih (h.submit hnew h₁) hn h₂

/-- Requests with different ids are submitted and pumped until idle, with
nobody reading. As long as every open delta queue has room before a round,
every request gets exactly one terminal frame, as its last, and all the text
that the loop emitted for it. -/
theorem terminal_frames (b : Backend R) (r₀ : R) (calls : List (Time × Pending))
    (clock : List (Time × Time)) (deadline : Time) (s₀ s : EngineLoop R)
    (hids : (calls.map fun c => c.2.requestId).Nodup)
    (hsub : submitAll calls { runner := r₀ } = some s₀)
    (hroom : RoomyRun b deadline clock s₀) (hret : s₀.pumpUntilIdle b deadline clock = some s) :
    ∀ d r, (calls.map fun c => c.2.requestId)[d]? = some r →
      Terminated (s.queue d) ∧ (s.queue d).flatMap (·.text) = s.textFor r := by
  have h₀ := (submitted_init r₀).submitAll (by simpa using hids) hsub
  obtain ⟨hm,hb⟩ := h₀.mail.pumpUntilIdle hroom hret
  intro d r hd
  exact hm.delivered hb (by simpa using hd)

def roomyRun (b : Backend R) (deadline : Time) : List (Time × Time) → EngineLoop R → Bool
  | [], _ => true
  | (t,now) :: rest, s => s.queues.all (fun q => decide (q.length < queueSize)) &&
      match s.round b deadline t now with
      | (s',.again) => roomyRun b deadline rest s'
      | _ => true

theorem roomy_of_all (h : ∀ q ∈ s.queues, q.length < queueSize) : Roomy s := by
  intro r d _
  cases hq : s.queues[d]? with
  | none =>
    simp only [queue,List.getD_eq_getElem?_getD,hq,Option.getD_none,List.length_nil]
    decide
  | some q =>
    simp only [queue,List.getD_eq_getElem?_getD,hq,Option.getD_some]
    exact h q (List.mem_of_getElem? hq)

theorem RoomyRun.of_test {deadline : Time} {clock : List (Time × Time)}
    (h : roomyRun b deadline clock s = true) : RoomyRun b deadline clock s := by
  induction clock generalizing s with
  | nil => trivial
  | cons tn clock ih =>
    simp only [roomyRun,Bool.and_eq_true,List.all_eq_true,decide_eq_true_eq] at h
    refine ⟨roomy_of_all h.1,?_⟩
    have hrest := h.2
    split at hrest
    · exact ih hrest
    · trivial

/-- A runner whose model always produces token 5. -/
def fives : Backend Unit where
  sched := {}
  hybrid := false
  burst := 1
  eos := none
  tk := ⟨none⟩
  matchPrefix := fun _ _ _ => ((),.ok (0,0))
  runBatch := fun _ s batch =>
    { runner := ()
      cached := fun i => (s.seq i).tokens.length
      forwards := batch.map fun m => [(m.1,(s.seq m.1).cachedLen,(s.seq m.1).tokens.drop (s.seq m.1).cachedLen)]
      result := .ok (batch.map fun _ => some 5) }
  decodeBurst := fun _ s i n =>
    { runner := ()
      cached := fun _ => (s.seq i).tokens.length+n-1
      forwards := (List.range n).map fun j => [(i,(s.seq i).cachedLen+j,[5])]
      result := .ok (List.replicate n 5) }
  insert := fun _ _ _ => ()
  release := fun _ _ => ()
  close := fun _ _ => ()

def ask (r : RequestId) (n : Nat) : Time × Pending :=
  (0,{ request := { requestId := r, inputIds := [1], maxTokens := n } })

theorem terminal_frames_two : ∃ s₀ s, submitAll [ask "a" 2,ask "b" 3] { runner := () } = some s₀ ∧
    s₀.pumpUntilIdle fives 9 (List.replicate 4 (1,1)) = some s ∧
    ∀ d r, (["a","b"] : List RequestId)[d]? = some r →
      Terminated (s.queue d) ∧ (s.queue d).flatMap (·.text) = s.textFor r := by
  have hrun : ((submitAll [ask "a" 2,ask "b" 3] { runner := () }).map fun s₀ =>
      ((s₀.pumpUntilIdle fives 9 (List.replicate 4 (1,1))).isSome,
        roomyRun fives 9 (List.replicate 4 (1,1)) s₀)) = some (true,true) := by
    decide +kernel
  obtain ⟨s₀,h₀,hv⟩ := Option.map_eq_some_iff.mp hrun
  obtain ⟨hsome,htest⟩ := Prod.mk.inj hv
  obtain ⟨s,hs⟩ := Option.isSome_iff_exists.mp hsome
  exact ⟨s₀,s,h₀,hs,terminal_frames fives () [ask "a" 2,ask "b" 3] _ 9 s₀ s (by decide) h₀
    (.of_test htest) hs⟩

/-- A request for 300 tokens fills its queue with 256 frames. The next one is
dropped, the request is cancelled, and no terminal frame comes. -/
theorem long_request_unterminated : ∃ s₀ s, submitAll [ask "a" 300] { runner := () } = some s₀ ∧
    s₀.pumpUntilIdle fives 9 (List.replicate 258 (1,1)) = some s ∧ ¬ Terminated (s.queue 0) := by
  have hrun : ((submitAll [ask "a" 300] { runner := () }).map fun s₀ =>
      (s₀.pumpUntilIdle fives 9 (List.replicate 258 (1,1))).map fun s =>
        (s.queue 0).all fun f => f.finishReason.isNone) = some (some true) := by
    decide +kernel
  obtain ⟨s₀,h₀,hv⟩ := Option.map_eq_some_iff.mp hrun
  obtain ⟨s,hs,hall⟩ := Option.map_eq_some_iff.mp hv
  refine ⟨s₀,s,h₀,hs,?_⟩
  rintro ⟨fs,f,hq,hf,_⟩
  rw [List.all_eq_true] at hall
  have := hall f (by rw [hq]; simp)
  exact hf (by simpa using this)

end Submit

end EngineLoop

end SglangLite.Loop
