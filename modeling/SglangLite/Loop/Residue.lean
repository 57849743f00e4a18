import SglangLite.Loop.Faults

set_option autoImplicit false

namespace SglangLite.Loop
open Kv Sched Text

namespace EngineLoop

variable {R : Type} {b : Backend R} {s s' : EngineLoop R} {r : RequestId} {x : Option RequestId}

structure Emptied (s : EngineLoop R) : Prop where
  deltaQs : ∀ r, s.deltaQs r = none
  prevText : s.prevKeys = []
  deadlines : s.deadlines = []
  byRequest : ∀ r, s.sched.byRequest r = none
  cancelled : s.cancelled = []

/-- Every entry belongs to a request that is pending or alive, except for those
of `x`, which is about to be closed. -/
structure Tidy (x : Option RequestId) (s : EngineLoop R) : Prop where
  sound : Sound s
  opened : ∀ r, s.deltaQs r ≠ none → some r = x ∨ s.Awaited r ∨ s.Unfinished r
  open_alive : ∀ r, s.Unfinished r → s.deltaQs r ≠ none
  found : ∀ i, (s.seq i).finished = false → s.sched.byRequest (s.seq i).requestId = some i
  texts : ∀ r ∈ s.prevKeys, s.deltaQs r ≠ none
  due : ∀ kv ∈ s.deadlines, s.deltaQs kv.1 ≠ none
  once : (s.submitQ.map Pending.requestId).Nodup
  apart : ∀ r, s.Awaited r → ¬ s.Unfinished r
  open_awaited : ∀ r, s.Awaited r → r ∉ s.cancelled → s.deltaQs r ≠ none
  marked : ∀ r ∈ s.cancelled, s.Awaited r ∧ (some r = x ∨ s.deltaQs r = none)

theorem tidy_init (r₀ : R) : Tidy none ({ runner := r₀ } : EngineLoop R) := by
  have hdead : ∀ i, ¬ ((({ runner := r₀ } : EngineLoop R).seq i).finished = false) := by
    intro i hi
    exact absurd (Scheduler.lt_of_unfinished hi) (by simp)
  refine ⟨sound_init r₀,by simp,fun r ⟨i,hi,_⟩ => absurd hi (hdead i),fun i hi => absurd hi (hdead i),
    by simp,by simp,by simp,fun r ⟨p,hp,_⟩ => by simp at hp,fun r ⟨p,hp,_⟩ => by simp at hp,by simp⟩

theorem Tidy.emptied (h : Tidy none s) (hidle : s.busy = false) : Emptied s := by
  simp only [busy,Bool.or_eq_false_iff,Bool.not_eq_false',List.isEmpty_iff] at hidle
  obtain ⟨⟨hw,hr⟩,hq⟩ := hidle
  have hdead : ∀ i, ¬ (s.seq i).finished = false := by
    intro i hi
    have := (h.sound.kept.queued i).mpr hi
    simp [hw,hr] at this
  have hnone : ∀ r, s.deltaQs r = none := by
    intro r
    by_contra hne
    rcases h.opened r hne with hx | ⟨p,hp,_⟩ | ⟨i,hi,_⟩
    · simp at hx
    · simp [hq] at hp
    · exact hdead i hi
  refine ⟨hnone,?_,?_,fun r => ?_,?_⟩
  · exact List.eq_nil_iff_forall_not_mem.mpr fun r hr => h.texts r hr (hnone r)
  · exact List.eq_nil_iff_forall_not_mem.mpr fun kv hkv => h.due kv hkv (hnone kv.1)
  · by_contra hne
    obtain ⟨i,hi⟩ := Option.ne_none_iff_exists'.mp hne
    exact hdead i (h.sound.kept.byRequest r i hi).2
  · refine List.eq_nil_iff_forall_not_mem.mpr fun r hr => ?_
    obtain ⟨⟨p,hp,_⟩,_⟩ := h.marked r hr
    simp [hq] at hp

theorem Tidy.alone (h : Tidy x s) {i j : SeqId} (hi : (s.seq i).finished = false)
    (hj : (s.seq j).finished = false) (hij : (s.seq i).requestId = (s.seq j).requestId) : i = j := by
  have h1 := h.found i hi
  rw [hij,h.found j hj] at h1
  exact (Option.some.inj h1).symm

theorem Tidy.congr (h : Tidy x s) (hs : Sound s')
    (hseq : ∀ i, (s'.seq i).finished = (s.seq i).finished ∧ (s'.seq i).requestId = (s.seq i).requestId)
    (hby : s'.sched.byRequest = s.sched.byRequest) (hd : s'.deltaQs = s.deltaQs)
    (hk : ∀ r ∈ s'.prevKeys, s.deltaQs r ≠ none) (hdl : s'.deadlines = s.deadlines)
    (hq : s'.submitQ = s.submitQ) (hc : s'.cancelled = s.cancelled) : Tidy x s' := by
  have halive : ∀ r, s'.Unfinished r ↔ s.Unfinished r := by
    intro r
    simp only [Unfinished,(hseq _).1,(hseq _).2]
  have hawait : ∀ r, s'.Awaited r ↔ s.Awaited r := by
    intro r
    simp only [Awaited,hq]
  refine ⟨hs,fun r hr => ?_,fun r hr => ?_,fun i hi => ?_,fun r hr => ?_,fun kv hkv => ?_,?_,
    fun r hr => ?_,fun r hr hm => ?_,fun r hr => ?_⟩
  · rw [hawait,halive]
    exact h.opened r (hd ▸ hr)
  · rw [hd]
    exact h.open_alive r ((halive r).mp hr)
  · rw [(hseq i).2,hby]
    exact h.found i ((hseq i).1 ▸ hi)
  · rw [hd]
    exact hk r hr
  · rw [hd]
    exact h.due kv (hdl ▸ hkv)
  · rw [hq]
    exact h.once
  · rw [halive]
    exact h.apart r ((hawait r).mp hr)
  · rw [hd]
    exact h.open_awaited r ((hawait r).mp hr) (hc ▸ hm)
  · rw [hawait,hd]
    exact h.marked r (hc ▸ hr)

theorem Tidy.weaken (h : Tidy none s) (x : Option RequestId) : Tidy x s :=
  { h with
    opened := fun r hr => .inr ((h.opened r hr).resolve_left (by simp))
    marked := fun r hr => ⟨(h.marked r hr).1,.inr ((h.marked r hr).2.resolve_left (by simp))⟩ }

section Emit

theorem schedCancel_keys (s : EngineLoop R) (r : RequestId) :
    (s.schedCancel b r).prevKeys = s.prevKeys := by
  unfold EngineLoop.schedCancel
  split <;> rfl

theorem put_keys (s : EngineLoop R) (d : QueueId) (r : RequestId) (f : Frame) :
    (s.put b d r f).prevKeys = s.prevKeys ∧ (s.put b d r f).deadlines = s.deadlines := by
  unfold EngineLoop.put
  split_ifs
  · exact ⟨rfl,rfl⟩
  · exact ⟨schedCancel_keys s r,(schedCancel_mail s r).2.2.2.2.2⟩

theorem emit_more_keys (s : EngineLoop R) (r : RequestId) (f : Frame) :
    (s.emit b r f false).prevKeys = s.prevKeys ∧ (s.emit b r f false).deadlines = s.deadlines := by
  unfold EngineLoop.emit
  cases s.deltaQs r with
  | none => exact ⟨rfl,rfl⟩
  | some d => exact put_keys { s with emitted := s.emitted ++ [(r,f)] } d r f

/-- The last frame of a V4 request takes its entries along, if there is a queue
to put it in. -/
theorem emit_last_keys (hb : b.hybrid = true) (s : EngineLoop R) (r : RequestId) (f : Frame) :
    (∀ r' ∈ (s.emit b r f true).prevKeys, r' ∈ s.prevKeys ∧ (s.deltaQs r ≠ none → r' ≠ r)) ∧
      ∀ kv ∈ (s.emit b r f true).deadlines, kv ∈ s.deadlines ∧ (s.deltaQs r ≠ none → kv.1 ≠ r) := by
  unfold EngineLoop.emit
  cases hd : s.deltaQs r with
  | none => exact ⟨fun r' hr' => ⟨hr',by simp⟩,fun kv hkv => ⟨hkv,by simp⟩⟩
  | some d =>
    obtain ⟨h1,h2⟩ := put_keys (b := b) { s with emitted := s.emitted ++ [(r,f)] } d r f
    simp only [if_true,closeQueue,hb]
    rw [h1,h2]
    refine ⟨fun r' hr' => ?_,fun kv hkv => ?_⟩
    · obtain ⟨hm,hne⟩ := List.mem_filter.mp hr'
      exact ⟨hm,fun _ => by simpa using hne⟩
    · obtain ⟨hm,hne⟩ := List.mem_filter.mp hkv
      exact ⟨hm,fun _ => by simpa using hne⟩

theorem Tidy.more {f : Frame} (h : Tidy x s) (hroom : Room s r) : Tidy x (s.emit b r f false) := by
  have he := emit_emitted (b := b) s r f false
  obtain ⟨hk,hdl⟩ := emit_more_keys (b := b) s r f
  have hsched : (s.emit b r f false).sched = s.sched := by
    rcases he.sched with hs | ⟨_,d,hd,hfull⟩
    · exact hs
    · have := hroom d hd
      omega
  refine h.congr (h.sound.emit r f false) (fun i => ?_) (by rw [hsched]) he.deltaQs ?_ hdl he.submitQ
    he.cancelled
  · simp [seq,hsched]
  · rw [hk]
    exact h.texts

/-- The last frame of a request that is neither pending nor alive closes all its
entries. -/
theorem Tidy.last {f : Frame} (h : Tidy (some r) s) (hb : b.hybrid = true) (hdead : ¬ s.Unfinished r)
    (hgone : s.Awaited r → r ∈ s.cancelled) : Tidy none (s.emit b r f true) := by
  have he := emit_emitted (b := b) s r f true
  obtain ⟨hk,hdl⟩ := emit_last_keys hb s r f
  have hby : s.sched.byRequest r = none := by
    by_contra hne
    obtain ⟨i,hi⟩ := Option.ne_none_iff_exists'.mp hne
    exact hdead ⟨i,(h.sound.kept.byRequest r i hi).2,(h.sound.kept.byRequest r i hi).1⟩
  have hsched : (s.emit b r f true).sched = s.sched := by
    rcases he.sched with hs | ⟨hs,_⟩
    · exact hs
    · rw [hs]
      simp [EngineLoop.schedCancel,hby]
  have hseq : ∀ i, (s.emit b r f true).seq i = s.seq i := fun i => by simp [seq,hsched]
  have halive : ∀ r', (s.emit b r f true).Unfinished r' ↔ s.Unfinished r' := by
    intro r'
    simp only [Unfinished,hseq]
  have hawait : ∀ r', (s.emit b r f true).Awaited r' ↔ s.Awaited r' := by
    intro r'
    simp only [Awaited,he.submitQ]
  have hopen : ∀ r', (s.emit b r f true).deltaQs r' ≠ none ↔ r' ≠ r ∧ s.deltaQs r' ≠ none := by
    intro r'
    rw [he.deltaQs,if_pos rfl]
    by_cases hr : r' = r
    · simp [hr]
    · simp [hr]
  refine ⟨h.sound.emit r f true,fun r' hr' => ?_,fun r' hr' => ?_,fun i hi => ?_,fun r' hr' => ?_,
    fun kv hkv => ?_,?_,fun r' hr' => ?_,fun r' hr' hm => ?_,fun r' hr' => ?_⟩
  · obtain ⟨hne,hd⟩ := (hopen r').mp hr'
    rw [hawait,halive]
    rcases h.opened r' hd with hx | hx
    · exact absurd (Option.some.inj hx) hne
    · exact .inr hx
  · rw [halive] at hr'
    exact (hopen r').mpr ⟨fun hr => hdead (hr ▸ hr'),h.open_alive r' hr'⟩
  · rw [hseq] at hi ⊢
    rw [hsched]
    exact h.found i hi
  · obtain ⟨hm,hne⟩ := hk r' hr'
    have hd := h.texts r' hm
    exact (hopen r').mpr ⟨fun hr => hne (hr ▸ hd) hr,hd⟩
  · obtain ⟨hm,hne⟩ := hdl kv hkv
    have hd := h.due kv hm
    exact (hopen kv.1).mpr ⟨fun hr => hne (hr ▸ hd) hr,hd⟩
  · rw [he.submitQ]
    exact h.once
  · rw [halive]
    exact h.apart r' ((hawait r').mp hr')
  · rw [he.cancelled] at hm
    rw [hawait] at hr'
    exact (hopen r').mpr ⟨fun hr => hm (hr ▸ hgone (hr ▸ hr')),h.open_awaited r' hr' hm⟩
  · rw [he.cancelled] at hr'
    obtain ⟨h1,h2⟩ := h.marked r' hr'
    refine ⟨(hawait r').mpr h1,.inr ?_⟩
    by_contra hne
    obtain ⟨hr,hd⟩ := (hopen r').mp hne
    rcases h2 with hx | hx
    · exact hr (Option.some.inj hx)
    · exact hd hx

end Emit

section Finish

theorem Tidy.mark {i : SeqId} {f : Sequence → Sequence} (h : Tidy none s)
    (hi : (s.seq i).finished = false) (hf : ∀ q, (f q).requestId = q.requestId)
    (reason : FinishReason) :
    Tidy (some (s.seq i).requestId) ((s.modify i f).mark b i reason) ∧
      ¬ ((s.modify i f).mark b i reason).Unfinished (s.seq i).requestId := by
  have hlt : i < s.sched.seqs.length := Scheduler.lt_of_unfinished hi
  have hseq : ∀ j, ((s.modify i f).mark b i reason).seq j = if j = i then
      { f (s.seq i) with
        finished := true, finishReason := some reason, blockTable := [], kvState := false }
      else s.seq j := by
    intro j
    refine (Scheduler.seq_end s.sched i j f reason).trans ?_
    by_cases hj : j = i
    · simp [hj,hlt,EngineLoop.seq]
    · simp [hj,EngineLoop.seq]
  have hlive : ∀ j, (((s.modify i f).mark b i reason).seq j).finished = false ↔
      j ≠ i ∧ (s.seq j).finished = false := by
    intro j
    rw [hseq]
    by_cases hj : j = i <;> simp [hj]
  have hby : ((s.modify i f).mark b i reason).sched.byRequest =
      Function.update s.sched.byRequest (s.seq i).requestId none := by
    show Function.update s.sched.byRequest ((s.sched.modify i f).seq i).requestId none = _
    congr 1
    rw [Scheduler.seq_modify]
    split_ifs
    · exact hf _
    · rfl
  have halive : ∀ r, ((s.modify i f).mark b i reason).Unfinished r ↔
      r ≠ (s.seq i).requestId ∧ s.Unfinished r := by
    intro r
    constructor
    · rintro ⟨j,hj,rfl⟩
      obtain ⟨hji,hj'⟩ := (hlive j).mp hj
      rw [hseq,if_neg hji]
      exact ⟨fun he => hji (h.alone hj' hi he),j,hj',rfl⟩
    · rintro ⟨hne,j,hj,rfl⟩
      have hji : j ≠ i := fun he => hne (he ▸ rfl)
      exact ⟨j,(hlive j).mpr ⟨hji,hj⟩,by rw [hseq,if_neg hji]⟩
  refine ⟨⟨h.sound.mark i hf reason,fun r hr => ?_,fun r hr => h.open_alive r ((halive r).mp hr).2,
    fun j hj => ?_,h.texts,h.due,h.once,fun r hr ha => h.apart r hr ((halive r).mp ha).2,
    h.open_awaited,(h.weaken _).marked⟩,fun ha => ((halive _).mp ha).1 rfl⟩
  · by_cases hrr : r = (s.seq i).requestId
    · exact .inl (by rw [hrr])
    · rcases h.opened r hr with hx | hx | hx
      · simp at hx
      · exact .inr (.inl hx)
      · exact .inr (.inr ((halive r).mpr ⟨hrr,hx⟩))
  · obtain ⟨hji,hj'⟩ := (hlive j).mp hj
    rw [hseq,if_neg hji,hby,Function.update_of_ne fun he => hji (h.alone hj' hi he)]
    exact h.found j hj'

theorem Tidy.schedCancel (h : Tidy none s) (r : RequestId) :
    Tidy (some r) (s.schedCancel b r) ∧ ¬ (s.schedCancel b r).Unfinished r := by
  unfold EngineLoop.schedCancel
  cases hby : s.sched.byRequest r with
  | none =>
    refine ⟨h.weaken _,?_⟩
    rintro ⟨i,hi,rfl⟩
    simp [h.found i hi] at hby
  | some i =>
    obtain ⟨rfl,hi⟩ := h.sound.kept.byRequest r i hby
    exact h.mark (f := fun q => { q with cancelled := true }) hi (fun _ => rfl) .cancelled

end Finish

section Pump

/-- Who gets a frame in a chain of moves is alive when it begins. -/
theorem Work.alive {l : List SeqId} (hw : Work b s l s') :
    ∀ i ∈ l, (s.seq i).finished = false := by
  induction hw with
  | nil s => simp
  | calm ha _ ih => exact fun i hi => ha.stays.live i (ih i hi)
  | sends ha _ ih =>
    intro i hi
    rcases List.mem_cons.mp hi with rfl | hi
    · cases ha <;> assumption
    · exact ha.stays.live i (ih i hi)

theorem Tidy.calm (h : Tidy none s) (ha : Act b s none s') :
    Tidy none s' ∧ s'.queues = s.queues ∧ s'.deltaQs = s.deltaQs := by
  have hs := h.sound.act ha
  cases ha with
  | quiet => exact ⟨h.congr hs (fun _ => ⟨rfl,rfl⟩) rfl rfl h.texts rfl rfl rfl,rfl,rfl⟩
  | note i assigned hi =>
    refine ⟨h.congr hs (fun _ => ⟨rfl,rfl⟩) rfl rfl (fun r hr => ?_) rfl rfl rfl,rfl,rfl⟩
    simp only [noteText] at hr
    split_ifs at hr
    · rcases List.mem_insert_iff.mp hr with rfl | hr
      · exact h.open_alive _ ⟨i,hi,rfl⟩
      · exact h.texts r hr
    · exact h.texts r hr
  | touch i f hf =>
    refine ⟨h.congr hs (fun j => ?_) rfl rfl h.texts rfl rfl rfl,rfl,rfl⟩
    rw [seq_modify]
    split_ifs with hj
    · rw [hj.1]
      exact ⟨hf.finished _,hf.requestId _⟩
    · exact ⟨rfl,rfl⟩
  | drop => exact ⟨h.congr hs (fun _ => ⟨rfl,rfl⟩) rfl rfl h.texts rfl rfl rfl,rfl,rfl⟩

theorem Tidy.sends {i : SeqId} (h : Tidy none s) (hb : b.hybrid = true) (ha : Act b s (some i) s')
    (hroom : Room s (s.seq i).requestId) :
    Tidy none s' ∧ ∀ r, r ≠ (s.seq i).requestId → Room s r → Room s' r := by
  -- a frame for one request leaves the queues of the others alone
  have hother : ∀ (t : EngineLoop R) (fr : Frame) (final : Bool), t.queues = s.queues →
      t.deltaQs = s.deltaQs → Sound t → ∀ r, r ≠ (s.seq i).requestId → Room s r →
        Room (t.emit b (s.seq i).requestId fr final) r := by
    intro t fr final hqs hds ht r hne hr d hd
    have he := emit_emitted (b := b) t (s.seq i).requestId fr final
    have hd' : t.deltaQs r = some d := by
      rw [he.deltaQs] at hd
      cases final with
      | false => exact hd
      | true => simpa [Function.update_of_ne hne] using hd
    rw [he.queue d fun hc => hne (ht.inj r _ d hd' hc),queue,hqs]
    exact hr d (hds ▸ hd')
  cases ha with
  | more _ f fr prevText hi hf hfr =>
    have hm := (h.calm (b := b) (.touch i f hf)).1
    have hs : Sound ({ s.modify i f with prevText := prevText } : EngineLoop R) :=
      hm.sound.congr rfl rfl rfl
    have hm' : Tidy none ({ s.modify i f with prevText := prevText } : EngineLoop R) :=
      hm.congr hs (fun _ => ⟨rfl,rfl⟩) rfl rfl hm.texts rfl rfl rfl
    exact ⟨hm'.more hroom,hother _ fr false rfl rfl hs⟩
  | last _ f reason fr prevText hi hf hfr =>
    obtain ⟨hm,hdead⟩ := h.mark (b := b) hi hf reason
    have hs : Sound ({ (s.modify i f).mark b i reason with prevText := prevText } : EngineLoop R) :=
      hm.sound.congr rfl rfl rfl
    have hm' : Tidy (some (s.seq i).requestId)
        ({ (s.modify i f).mark b i reason with prevText := prevText } : EngineLoop R) :=
      hm.congr hs (fun _ => ⟨rfl,rfl⟩) rfl rfl hm.texts rfl rfl rfl
    refine ⟨hm'.last hb hdead fun hw => ?_,hother _ fr true rfl rfl hs⟩
    exact absurd ⟨i,hi,rfl⟩ (h.apart _ hw)

theorem Tidy.work {l : List SeqId} (h : Tidy none s) (hb : b.hybrid = true) (hw : Work b s l s')
    (hn : l.Nodup) (hroom : ∀ i ∈ l, Room s (s.seq i).requestId) : Tidy none s' := by
  induction hw with
  | nil s => exact h
  | calm ha _ ih =>
    obtain ⟨h₁,hq,hd⟩ := h.calm ha
    refine ih h₁ hn fun i hi => ?_
    rw [ha.stays.requestId i]
    exact room_of_same hq hd (hroom i hi)
  | sends ha hw ih =>
    rename_i s₀ s₁ s₂ i l
    obtain ⟨hi,hn⟩ := List.nodup_cons.mp hn
    obtain ⟨h₁,hrest⟩ := h.sends hb ha (hroom i (by simp))
    refine ih h₁ hn fun j hj => ?_
    have hlive : (s₀.seq i).finished = false := by cases ha <;> assumption
    have hlive' := ha.stays.live j (hw.alive j hj)
    rw [ha.stays.requestId j]
    exact hrest _ (fun he => hi (h.alone hlive' hlive he ▸ hj)) (hroom j (List.mem_cons_of_mem _ hj))

theorem Tidy.runStep (h : Tidy none s) (hb : b.hybrid = true)
    (hroom : ∀ m ∈ batchOf b s, Room s (s.seq m.1).requestId) : Tidy none (s.runStep b).1 := by
  obtain ⟨l,⟨hn,hsub⟩,hw⟩ := work_runStep (b := b) h.sound
  have hf : Tidy none (s.formed b) :=
    h.congr h.sound.formed.1 (fun _ => ⟨rfl,rfl⟩) rfl rfl h.texts rfl rfl rfl
  refine hf.work hb hw hn fun i hi => ?_
  obtain ⟨m,hm,rfl⟩ := List.mem_map.mp (hsub hi)
  exact hroom m hm

section Admission

variable {p : Pending} {rest : List Pending}

theorem awaited_cons (hq : s.submitQ = p :: rest) (r : RequestId) :
    s.Awaited r ↔ r = p.requestId ∨ ({ s with submitQ := rest } : EngineLoop R).Awaited r := by
  simp [Awaited,hq,eq_comm]

theorem Tidy.once_rest (h : Tidy x s) (hq : s.submitQ = p :: rest) :
    (rest.map Pending.requestId).Nodup ∧
      ¬ ({ s with submitQ := rest } : EngineLoop R).Awaited p.requestId := by
  have honce := h.once
  rw [hq,List.map_cons,List.nodup_cons] at honce
  refine ⟨honce.2,?_⟩
  rintro ⟨p',hp',he⟩
  exact honce.1 (List.mem_map.mpr ⟨p',hp',he⟩)

theorem Tidy.dropped (h : Tidy none s) (hq : s.submitQ = p :: rest) (hc : p.requestId ∈ s.cancelled) :
    Tidy none ({ s with
      submitQ := rest, cancelled := s.cancelled.filter (· ≠ p.requestId) } : EngineLoop R) := by
  obtain ⟨honce,hself⟩ := h.once_rest hq
  have hmark : ∀ r, r ∈ s.cancelled.filter (· ≠ p.requestId) ↔ r ∈ s.cancelled ∧ r ≠ p.requestId := by
    intro r
    simp [List.mem_filter]
  have hmore := fun r => (awaited_cons hq r).mpr
  refine ⟨h.sound.congr rfl rfl rfl,fun r hr => ?_,h.open_alive,h.found,h.texts,h.due,honce,
    fun r hr => h.apart r (hmore r (.inr hr)),fun r hr hm => ?_,fun r hr => ?_⟩
  · rcases h.opened r hr with hx | hx | hx
    · exact .inl hx
    · rcases (awaited_cons hq r).mp hx with rfl | hx
      · exact absurd ((h.marked _ hc).2.resolve_left (by simp)) hr
      · exact .inr (.inl hx)
    · exact .inr (.inr hx)
  · refine h.open_awaited r (hmore r (.inr hr)) fun hm' => hm ((hmark r).mpr ⟨hm',?_⟩)
    rintro rfl
    exact hself hr
  · obtain ⟨hm,hne⟩ := (hmark r).mp hr
    obtain ⟨hw,hd⟩ := h.marked r hm
    exact ⟨((awaited_cons hq r).mp hw).resolve_left hne,hd⟩

theorem alive_joined {q : Sequence} (runner : R) (hfin : q.finished = false) (r : RequestId) :
    (s.joined runner q).Unfinished r ↔ r = q.requestId ∨ s.Unfinished r := by
  constructor
  · rintro ⟨i,hi,rfl⟩
    rw [seq_joined] at hi ⊢
    split_ifs at hi ⊢ with hlast
    · exact .inl rfl
    · exact .inr ⟨i,hi,rfl⟩
  · rintro (rfl | ⟨i,hi,rfl⟩)
    · exact ⟨s.sched.seqs.length,by simpa [seq_joined] using hfin,by simp [seq_joined]⟩
    · have hold : i ≠ s.sched.seqs.length :=
        fun he => Nat.lt_irrefl _ (he ▸ Scheduler.lt_of_unfinished hi)
      exact ⟨i,by simpa [seq_joined,hold] using hi,by simp [seq_joined,hold]⟩

theorem Tidy.joined {q : Sequence} (h : Tidy none s) (hq : s.submitQ = p :: rest)
    (hc : p.requestId ∉ s.cancelled) (runner : R) (hid : q.requestId = p.requestId)
    (hfin : q.finished = false) (hcan : q.cancelled = false) :
    Tidy none (({ s with submitQ := rest } : EngineLoop R).joined runner q) := by
  obtain ⟨honce,hself⟩ := h.once_rest hq
  have halive := alive_joined (s := { s with submitQ := rest }) runner hfin
  have hmore := fun r => (awaited_cons hq r).mpr
  refine ⟨⟨h.sound.kept.add hfin hcan,h.sound.made,h.sound.inj,h.sound.untaken⟩,fun r hr => ?_,fun r hr => ?_,
    fun i hi => ?_,h.texts,h.due,honce,fun r hr ha => ?_,
    fun r hr => h.open_awaited r (hmore r (.inr hr)),fun r hr => ?_⟩
  · rw [halive,hid]
    rcases h.opened r hr with hx | hx | hx
    · exact .inl hx
    · rcases (awaited_cons hq r).mp hx with rfl | hx
      · exact .inr (.inr (.inl rfl))
      · exact .inr (.inl hx)
    · exact .inr (.inr (.inr hx))
  · rcases (halive r).mp hr with rfl | hr
    · rw [hid]
      exact h.open_awaited _ (hmore _ (.inl rfl)) hc
    · exact h.open_alive r hr
  · show Function.update s.sched.byRequest q.requestId (some s.sched.seqs.length) _ = _
    rw [seq_joined] at hi ⊢
    split_ifs at hi ⊢ with hlast
    · rw [Function.update_self,hlast]
    · have hne : (s.seq i).requestId ≠ q.requestId :=
        fun he => h.apart _ (hmore _ (.inl rfl)) ⟨i,hi,he.trans hid⟩
      exact (Function.update_of_ne hne _ _).trans (h.found i hi)
  · rcases (halive r).mp ha with rfl | ha
    · exact hself (hid ▸ hr)
    · exact h.apart r (hmore r (.inr hr)) ha
  · obtain ⟨hw,hd⟩ := h.marked r hr
    refine ⟨((awaited_cons hq r).mp hw).resolve_left fun he => ?_,hd⟩
    exact hc (he ▸ hr)

theorem Tidy.refused (h : Tidy none s) (hb : b.hybrid = true) (hq : s.submitQ = p :: rest)
    (hc : p.requestId ∉ s.cancelled) (runner : R) (f : Frame) :
    Tidy none (({ s with submitQ := rest, runner := runner } : EngineLoop R).emit b p.requestId f true) := by
  obtain ⟨honce,hself⟩ := h.once_rest hq
  have hmore := fun r => (awaited_cons hq r).mpr
  have ht : Tidy (some p.requestId) ({ s with submitQ := rest, runner := runner } : EngineLoop R) := by
    refine ⟨h.sound.congr rfl rfl rfl,fun r hr => ?_,h.open_alive,h.found,h.texts,h.due,honce,
      fun r hr => h.apart r (hmore r (.inr hr)),fun r hr => h.open_awaited r (hmore r (.inr hr)),
      fun r hr => ?_⟩
    · rcases h.opened r hr with hx | hx | hx
      · simp at hx
      · rcases (awaited_cons hq r).mp hx with rfl | hx
        · exact .inl rfl
        · exact .inr (.inl hx)
      · exact .inr (.inr hx)
    · obtain ⟨hw,hd⟩ := h.marked r hr
      exact ⟨((awaited_cons hq r).mp hw).resolve_left fun he => hc (he ▸ hr),
        .inr (hd.resolve_left (by simp))⟩
  exact ht.last hb (fun ha => h.apart _ (hmore _ (.inl rfl)) ha) fun hw => absurd hw hself

theorem Tidy.admitOne (h : Tidy none s) (hb : b.hybrid = true) (hq : s.submitQ = p :: rest) :
    Tidy none (({ s with submitQ := rest } : EngineLoop R).admitOne b p) := by
  rcases admitOne_cases b { s with submitQ := rest } p with
    ⟨hc,heq⟩ | ⟨hc,runner,q,hid,_,_,hfin,hcan,heq⟩ | ⟨hc,runner,e,heq⟩
  · rw [heq]
    exact h.dropped hq hc
  · rw [heq]
    exact h.joined hq hc runner hid hfin hcan
  · rw [heq]
    exact h.refused hb hq hc runner _

theorem Tidy.admitPending (h : Tidy none s) (hb : b.hybrid = true) :
    Tidy none (s.admitPending b) ∧ (s.admitPending b).submitQ = [] := by
  have key : ∀ (l : List Pending) (s : EngineLoop R), Tidy none s → s.submitQ = l →
      Tidy none (s.admitLoop b l) ∧ (s.admitLoop b l).submitQ = [] := by
    intro l
    induction l with
    | nil => exact fun s h hq => ⟨h,hq⟩
    | cons p l ih => exact fun s h hq => ih _ (h.admitOne hb hq) (admitOne_submitQ b _ p)
  exact key s.submitQ s h rfl

end Admission

theorem Tidy.checkTimeouts (h : Tidy none s) (hb : b.hybrid = true) (hq : s.submitQ = [])
    (now : Time) : Tidy none (s.checkTimeouts b now) := by
  have key : ∀ (l : List RequestId) (s : EngineLoop R), Tidy none s → s.submitQ = [] →
      Tidy none (l.foldl
        (fun s r => (s.schedCancel b r).emit b r { finishReason := some .timeout } true) s) := by
    intro l
    induction l with
    | nil => exact fun s h _ => h
    | cons r l ih =>
      intro s h hq
      obtain ⟨hc,hdead⟩ := h.schedCancel (b := b) r
      have hq' : (s.schedCancel b r).submitQ = [] := ((schedCancel_mail s r).2.2.1).trans hq
      refine ih _ (hc.last hb hdead fun ⟨p,hp,_⟩ => ?_) ?_
      · rw [hq'] at hp
        simp at hp
      · rw [(emit_emitted (b := b) _ r _ true).submitQ]
        exact hq'
  exact key _ s h hq

theorem Tidy.pump (h : Tidy none s) (hb : b.hybrid = true) (now : Time)
    (hroom : ∀ m ∈ batchOf b (s.beforeStep b now),
      Room (s.beforeStep b now) ((s.beforeStep b now).seq m.1).requestId) :
    Tidy none (s.pumpOnce b now).1 := by
  obtain ⟨h₁,hq⟩ := h.admitPending hb
  exact (h₁.checkTimeouts hb hq now).runStep hb hroom

end Pump

section Calls

theorem Tidy.read (h : Tidy x s) (d : QueueId) : Tidy x (s.read d) :=
  h.congr (h.sound.read d) (fun _ => ⟨rfl,rfl⟩) rfl rfl h.texts rfl rfl rfl

theorem mem_assign {kv : RequestId × Time} {r : RequestId} {t : Time} {l : List (RequestId × Time)}
    (h : kv ∈ assign r t l) : kv.1 = r ∨ kv ∈ l := by
  induction l with
  | nil =>
    simp only [assign,List.mem_singleton] at h
    exact .inl (by rw [h])
  | cons kv' l ih =>
    obtain ⟨k,v⟩ := kv'
    simp only [assign] at h
    split_ifs at h with hk
    · rcases List.mem_cons.mp h with rfl | h
      · exact .inl rfl
      · exact .inr (List.mem_cons_of_mem _ h)
    · rcases List.mem_cons.mp h with rfl | h
      · exact .inr (by simp)
      · exact (ih h).imp_right (List.mem_cons_of_mem _)

theorem Tidy.submit {now : Time} {p : Pending} (h : Tidy none s) (hd : s.deltaQs p.requestId = none)
    (hc : p.requestId ∉ s.cancelled) (ha : s.submit now p = some s') : Tidy none s' := by
  have hnew : ¬ s.Awaited p.requestId := fun hw => h.open_awaited _ hw hc hd
  have hdead : ¬ s.Unfinished p.requestId := fun hal => h.open_alive _ hal hd
  have hs' := h.sound.submit ha
  unfold EngineLoop.submit at ha
  split_ifs at ha
  obtain rfl := Option.some.inj ha
  have hopen : ∀ r, Function.update s.deltaQs p.requestId (some s.queues.length) r ≠ none ↔
      r = p.requestId ∨ s.deltaQs r ≠ none := by
    intro r
    by_cases hr : r = p.requestId <;> simp [hr]
  have hawait : ∀ r, (∃ p' ∈ s.submitQ ++ [p], p'.requestId = r) ↔ s.Awaited r ∨ r = p.requestId := by
    intro r
    simp [Awaited,or_and_right,exists_or,eq_comm]
  refine ⟨hs',fun r hr => ?_,fun r hr => (hopen r).mpr (.inr (h.open_alive r hr)),h.found,
    fun r hr => (hopen r).mpr ?_,fun kv hkv => (hopen kv.1).mpr ?_,?_,fun r hr => ?_,fun r hr hm => ?_,
    fun r hr => ?_⟩
  · rcases (hopen r).mp hr with hr | hr
    · exact .inr (.inl ((hawait r).mpr (.inr hr)))
    · rcases h.opened r hr with hx | hx | hx
      · exact .inl hx
      · exact .inr (.inl ((hawait r).mpr (.inl hx)))
      · exact .inr (.inr hx)
  · exact (List.mem_insert_iff.mp hr).imp_right (h.texts r)
  · exact (mem_assign hkv).imp_right (h.due kv)
  · show ((s.submitQ ++ [p]).map Pending.requestId).Nodup
    rw [List.map_append,List.nodup_append]
    refine ⟨h.once,by simp,fun r hr r' hr' => ?_⟩
    obtain ⟨p',hp',rfl⟩ := List.mem_map.mp hr
    obtain rfl : r' = p.requestId := by simpa using hr'
    exact fun he => hnew ⟨p',hp',he⟩
  · rcases (hawait r).mp hr with hr | rfl
    · exact h.apart r hr
    · exact hdead
  · rcases (hawait r).mp hr with hr | rfl
    · exact (hopen r).mpr (.inr (h.open_awaited r hr hm))
    · exact (hopen _).mpr (.inl rfl)
  · obtain ⟨hw,hx⟩ := h.marked r hr
    refine ⟨(hawait r).mpr (.inl hw),.inr ?_⟩
    have hne : r ≠ p.requestId := fun he => hc (he ▸ hr)
    exact (Function.update_of_ne hne _ _).trans (hx.resolve_left (by simp))

/-- The cancel of a pending request closes its queue now, and its item is
dropped later. -/
theorem Tidy.cancel (h : Tidy none s) (hb : b.hybrid = true) (hw : s.Awaited r) :
    Tidy none (s.cancel b r) := by
  have hdead := h.apart r hw
  have hby : s.sched.byRequest r = none := by
    by_contra hne
    obtain ⟨i,hi⟩ := Option.ne_none_iff_exists'.mp hne
    exact hdead ⟨i,(h.sound.kept.byRequest r i hi).2,(h.sound.kept.byRequest r i hi).1⟩
  have hnoop : ({ s with cancelled := r :: s.cancelled } : EngineLoop R).schedCancel b r =
      { s with cancelled := r :: s.cancelled } := by
    simp [EngineLoop.schedCancel,hby]
  have hmark : Tidy (some r) ({ s with cancelled := r :: s.cancelled } : EngineLoop R) := by
    have hx := h.weaken (some r)
    refine { hx with sound := h.sound.congr rfl rfl rfl, open_awaited := fun r' hr' hm => ?_, marked := ?_ }
    · exact h.open_awaited r' hr' fun hm' => hm (List.mem_cons_of_mem _ hm')
    · intro r' hr'
      rcases List.mem_cons.mp hr' with rfl | hr'
      · exact ⟨hw,.inl rfl⟩
      · exact hx.marked r' hr'
  unfold EngineLoop.cancel
  simp only [hnoop]
  by_cases hd : s.deltaQs r = none
  · rw [if_neg (by simp [hd,hby])]
    refine { hmark with opened := fun r' hr' => ?_, marked := fun r' hr' => ?_ }
    · exact .inr ((h.opened r' hr').resolve_left (by simp))
    · obtain ⟨h1,h2⟩ := hmark.marked r' hr'
      exact ⟨h1,.inr (h2.elim (fun hx => (Option.some.inj hx) ▸ hd) id)⟩
  · rw [if_pos (.inl hd)]
    exact hmark.last hb hdead fun _ => by simp

end Calls

section Runs

/-- Requests are sent to a V4 engine only, under ids that are not in use; only a
request that is still in the submit queue is cancelled; and a step finds room in
the queues of its batch. -/
def Clean (b : Backend R) (s : EngineLoop R) : Turn → Prop
  | .submit _ p => b.hybrid = true ∧ s.deltaQs p.requestId = none ∧ p.requestId ∉ s.cancelled
  | .cancel r => s.Awaited r
  | .pump now => ∀ m ∈ batchOf b (s.beforeStep b now),
      Room (s.beforeStep b now) ((s.beforeStep b now).seq m.1).requestId
  | .read _ => True

instance (s : EngineLoop R) (r : RequestId) : Decidable (s.Awaited r) :=
  inferInstanceAs (Decidable (∃ p ∈ s.submitQ, p.requestId = r))

instance (s : EngineLoop R) (r : RequestId) : Decidable (Room s r) :=
  inferInstanceAs (Decidable (∀ d ∈ s.deltaQs r, (s.queue d).length < queueSize))

instance (b : Backend R) (s : EngineLoop R) : DecidablePred (Clean b s)
  | .submit _ p => inferInstanceAs (Decidable (b.hybrid = true ∧ _ = none ∧ p.requestId ∉ _))
  | .cancel r => inferInstanceAs (Decidable (s.Awaited r))
  | .pump now => inferInstanceAs (Decidable (∀ m ∈ batchOf b (s.beforeStep b now), Room _ _))
  | .read _ => .isTrue trivial

def Unused (s : EngineLoop R) : Prop := s.busy = false ∧ Emptied s

theorem Unused.queues (h : Unused s) :
    s.sched.waiting = [] ∧ s.sched.running = [] ∧ s.submitQ = [] := by
  have hidle := h.1
  simp only [busy,Bool.or_eq_false_iff,Bool.not_eq_false',List.isEmpty_iff] at hidle
  exact ⟨hidle.1.1,hidle.1.2,hidle.2⟩

theorem Unused.pump (h : Unused s) (now : Time) : (s.pumpOnce b now).1 = s := by
  obtain ⟨hw,hr,hq⟩ := h.queues
  have hpre : (s.admitPending b).checkTimeouts b now = s := by
    have hnone : s.admitPending b = s := by
      rw [EngineLoop.admitPending,hq]
      rfl
    rw [hnone,EngineLoop.checkTimeouts,expired,h.2.deadlines]
    rfl
  have hstep : s.sched.step b.sched = (s.sched,[]) := by
    rw [Scheduler.step,Scheduler.formBatch,hw,hr]
    simp only [Scheduler.takeRunning,Scheduler.takeWaiting,List.map_nil,List.filter_nil,List.append_nil]
    exact Prod.ext (by rw [Scheduler.mk.injEq]; exact ⟨rfl,hw.symm,hr.symm,rfl⟩) rfl
  rw [pumpOnce,hpre,EngineLoop.runStep,hstep]
  rfl

/-- In a V4 engine every entry has its request; another one is not used. -/
def Kempt (b : Backend R) (s : EngineLoop R) : Prop :=
  Tidy none s ∧ (b.hybrid = true ∨ Unused s)

theorem Kempt.turn {e : Turn} (h : Kempt b s) (hg : Clean b s e) (ht : s.turn b e = some s') :
    Kempt b s' := by
  obtain ⟨htidy,hside⟩ := h
  cases e with
  | submit now p =>
    obtain ⟨hb,hd,hc⟩ := hg
    exact ⟨htidy.submit hd hc ht,.inl hb⟩
  | cancel r =>
    obtain rfl := Option.some.inj ht
    rcases hside with hb | hn
    · exact ⟨htidy.cancel hb hg,.inl hb⟩
    · obtain ⟨p,hp,_⟩ := hg
      simp [hn.queues.2.2] at hp
  | pump now =>
    obtain rfl := Option.some.inj ht
    rcases hside with hb | hn
    · exact ⟨htidy.pump hb now hg,.inl hb⟩
    · rw [hn.pump now]
      exact ⟨htidy,.inr hn⟩
  | read d =>
    obtain rfl := Option.some.inj ht
    exact ⟨htidy.read d,hside.imp_right fun h => ⟨h.1,⟨h.2.1,h.2.2,h.2.3,h.2.4,h.2.5⟩⟩⟩

/-- In every run of such calls, an engine with nothing to do has no entries
left. -/
theorem idle_emptied (b : Backend R) (r₀ : R) (es : List Turn) (s : EngineLoop R)
    (hg : Transition.Guarded (EngineLoop.turn b) (Clean b) { runner := r₀ } es)
    (hrun : Transition.exec (EngineLoop.turn b) { runner := r₀ } es = some s)
    (hidle : s.busy = false) : Emptied s := by
  have hinit : Kempt b ({ runner := r₀ } : EngineLoop R) :=
    ⟨tidy_init r₀,.inr ⟨rfl,fun _ => rfl,rfl,rfl,fun _ => rfl,rfl⟩⟩
  have hk : Kempt b s := Transition.exec_invariant (fun _ _ _ h hg ht => h.turn hg ht) hinit hg hrun
  exact hk.1.emptied hidle

def fivesV4 : Backend Unit := { fives with hybrid := true }

def servedAndDropped : List Turn :=
  [.submit 0 (ask "a" 1).2,.submit 0 (ask "b" 1).2,.cancel "b",.pump 1,.read 0]

theorem idle_emptied_two : ∃ s,
    Transition.exec (EngineLoop.turn fivesV4) { runner := () } servedAndDropped = some s ∧
      s.busy = false ∧ Emptied s := by
  have hrun : ((Transition.exec (EngineLoop.turn fivesV4) { runner := () } servedAndDropped).map
      fun s => s.busy) = some false := by
    decide +kernel
  have hclean : Transition.checks (EngineLoop.turn fivesV4) (fun s e => decide (Clean fivesV4 s e))
      { runner := () } servedAndDropped = true := by
    decide +kernel
  obtain ⟨s,hs,hidle⟩ := Option.map_eq_some_iff.mp hrun
  refine ⟨s,hs,hidle,idle_emptied fivesV4 () servedAndDropped s (.of_checks ?_ hclean) hs hidle⟩
  exact fun _ _ h => of_decide_eq_true h

/-- In an engine for another model the deadline of a served request stays. -/
theorem served_request_stays : ∃ s, Transition.exec (EngineLoop.turn fives)
      { runner := () } [.submit 0 (ask "a" 1).2,.pump 1] = some s ∧
    s.busy = false ∧ ¬ Emptied s := by
  have hrun : ((Transition.exec (EngineLoop.turn fives) { runner := () }
      [.submit 0 (ask "a" 1).2,.pump 1]).map fun s => (s.busy,s.deadlines)) =
        some (false,[("a",300)]) := by
    decide +kernel
  obtain ⟨s,hs,hv⟩ := Option.map_eq_some_iff.mp hrun
  simp only [Prod.mk.injEq] at hv
  refine ⟨s,hs,hv.1,fun h => ?_⟩
  simp [h.deadlines] at hv

end Runs

end EngineLoop

end SglangLite.Loop
