import SglangLite.Loop.Acts

set_option autoImplicit false

namespace SglangLite.Loop
open Kv Sched Text

namespace EngineLoop

variable {R : Type} {b : Backend R} {s s' : EngineLoop R}

section Owners

/-- The engine with the queue that `submit` made for each item of the submit
queue and for each sequence. The engine itself finds a queue by request id. -/
structure Tracked (R : Type) where
  loop : EngineLoop R
  pend : List QueueId := []
  own : List QueueId := []

def admitOwn (b : Backend R) : EngineLoop R → List Pending → List QueueId → List QueueId → List QueueId
  | s, p :: rest, d :: pend, own =>
      let s' := ({ s with submitQ := rest } : EngineLoop R).admitOne b p
      admitOwn b s' rest pend
        (if s.sched.seqs.length < s'.sched.seqs.length then own ++ [d] else own)
  | _, _, _, own => own

def Tracked.turn (b : Backend R) (x : Tracked R) : Turn → Option (Tracked R)
  | .submit now p =>
      (x.loop.submit now p).map fun s => { x with loop := s, pend := x.pend ++ [x.loop.queues.length] }
  | .cancel r => some { x with loop := x.loop.cancel b r }
  | .pump now =>
      some { loop := (x.loop.pumpOnce b now).1, own := admitOwn b x.loop x.loop.submitQ x.pend x.own }
  | .read d => some { x with loop := x.loop.read d }

def Belongs (s : EngineLoop R) (r : RequestId) (d : QueueId) : Prop :=
  d < s.queues.length ∧ ∀ r', s.deltaQs r' = some d → r' = r

structure Owned (s : EngineLoop R) (pend own : List QueueId) : Prop where
  items : List.Forall₂ (fun p d => Belongs s (Pending.requestId p) d) s.submitQ pend
  seqs : List.Forall₂ (Belongs s) s.names own
  nodup : (pend ++ own).Nodup

theorem Stays.belongs {r : RequestId} {d : QueueId} (h : Stays s s') (hb : Belongs s r d) :
    Belongs s' r d :=
  ⟨by rw [h.length]; exact hb.1,fun r' hr' => hb.2 r' (h.deltaQs r' d hr')⟩

theorem Owned.stays {pend own : List QueueId} (h : Owned s pend own) (hs : Stays s s') :
    Owned s' pend own := by
  refine ⟨?_,?_,h.nodup⟩
  · rw [hs.submitQ]
    exact h.items.imp fun _ _ => hs.belongs
  · rw [hs.names]
    exact h.seqs.imp fun _ _ => hs.belongs

theorem Owned.admitOne {p : Pending} {rest : List Pending} {d : QueueId} {pend own : List QueueId}
    (h : Owned s (d :: pend) own) (hq : s.submitQ = p :: rest) :
    Owned (({ s with submitQ := rest } : EngineLoop R).admitOne b p) pend
      (if s.sched.seqs.length < (({ s with submitQ := rest } : EngineLoop R).admitOne b p).sched.seqs.length
        then own ++ [d] else own) := by
  have hp := h.items
  rw [hq] at hp
  obtain ⟨hd,hpend⟩ := List.forall₂_cons.mp hp
  have h₀ : Owned { s with submitQ := rest } pend own := ⟨hpend,h.seqs,h.nodup.of_cons⟩
  rcases admitOne_cases b { s with submitQ := rest } p with
    ⟨_,heq⟩ | ⟨_,runner,q,hid,_,_,_,_,heq⟩ | ⟨_,runner,e,heq⟩
  · rw [heq,if_neg (by simp)]
    exact h₀.stays (.of_same rfl rfl rfl rfl)
  · rw [heq,if_pos (by simp [joined])]
    refine ⟨hpend,?_,?_⟩
    · show List.Forall₂ (Belongs _) ((s.sched.seqs ++ [q]).map (·.requestId)) _
      rw [List.map_append]
      refine List.rel_append h.seqs ?_
      simpa [hid] using hd
    · refine (List.Perm.nodup_iff ?_).mp h.nodup
      rw [← List.append_assoc]
      exact (List.perm_append_singleton d (pend ++ own)).symm
  · have hst : Stays { s with submitQ := rest } (({ s with submitQ := rest } : EngineLoop R).admitOne b p) := by
      rw [heq]
      have hr : Stays { s with submitQ := rest } { s with submitQ := rest, runner := runner } :=
        .of_same rfl rfl rfl rfl
      exact hr.trans (stays_emit _ _ _ true)
    have hlen : (({ s with submitQ := rest } : EngineLoop R).admitOne b p).sched.seqs.length =
        s.sched.seqs.length := by
      have := congrArg List.length hst.names
      simpa [EngineLoop.names] using this
    rw [hlen,if_neg (Nat.lt_irrefl _)]
    exact h₀.stays hst

theorem Owned.admitLoop {l : List Pending} {pend own : List QueueId} (h : Owned s pend own)
    (hq : s.submitQ = l) : Owned (s.admitLoop b l) [] (admitOwn b s l pend own) := by
  induction l generalizing s pend own with
  | nil =>
    have hp := h.items
    rw [hq] at hp
    obtain rfl := List.forall₂_nil_left_iff.mp hp
    simpa [EngineLoop.admitLoop,admitOwn] using h
  | cons p rest ih =>
    have hp := h.items
    rw [hq] at hp
    obtain ⟨d,pend',_,_,rfl⟩ := List.forall₂_cons_left_iff.mp hp
    exact ih (h.admitOne hq) (admitOne_submitQ b _ p)

theorem Owned.pumped {pend own : List QueueId} (h : Owned s pend own) (hs : Sound s) (now : Time) :
    Owned ((s.admitPending b).checkTimeouts b now) [] (admitOwn b s s.submitQ pend own) ∧
      Owned (s.pumpOnce b now).1 [] (admitOwn b s s.submitQ pend own) := by
  have h₁ : Owned ((s.admitPending b).checkTimeouts b now) [] (admitOwn b s s.submitQ pend own) :=
    (h.admitLoop rfl).stays (stays_checkTimeouts _ now)
  exact ⟨h₁,h₁.stays (stays_runStep (hs.admitPending.checkTimeouts now))⟩

theorem exists_of_forall₂ {α β : Type} {P : α → β → Prop} {l : List α} {l' : List β}
    (h : List.Forall₂ P l l') {y : β} (hy : y ∈ l') : ∃ x ∈ l, P x y := by
  induction h with
  | nil => simp at hy
  | cons hp _ ih =>
    rcases List.mem_cons.mp hy with rfl | hy
    · exact ⟨_,by simp,hp⟩
    · obtain ⟨x,hx,hxy⟩ := ih hy
      exact ⟨x,List.mem_cons_of_mem _ hx,hxy⟩

theorem Owned.submit {now : Time} {p : Pending} {pend own : List QueueId} (h : Owned s pend own)
    (hs : Sound s) (ha : s.submit now p = some s') : Owned s' (pend ++ [s.queues.length]) own := by
  have ha := accepted_submit ha
  have hlen : s'.queues.length = s.queues.length+1 := by simp [ha.queues]
  have hold : ∀ r d, Belongs s r d → Belongs s' r d := by
    intro r d hb
    refine ⟨by rw [hlen]; exact Nat.lt_succ_of_lt hb.1,fun r' hr' => ?_⟩
    rw [ha.deltaQs] at hr'
    by_cases hp : r' = p.requestId
    · rw [hp,Function.update_self] at hr'
      exact absurd hb.1 (by rw [← Option.some.inj hr']; exact Nat.lt_irrefl _)
    · rw [Function.update_of_ne hp] at hr'
      exact hb.2 r' hr'
  have hlt : ∀ d ∈ pend ++ own, d < s.queues.length := by
    intro d hd
    rcases List.mem_append.mp hd with hd | hd
    · obtain ⟨_,_,hb⟩ := exists_of_forall₂ h.items hd
      exact hb.1
    · obtain ⟨_,_,hb⟩ := exists_of_forall₂ h.seqs hd
      exact hb.1
  refine ⟨?_,?_,?_⟩
  · rw [ha.submitQ]
    refine List.rel_append (h.items.imp fun _ _ => hold _ _) (.cons ?_ .nil)
    refine ⟨by rw [hlen]; exact Nat.lt_succ_self _,fun r' hr' => ?_⟩
    rw [ha.deltaQs] at hr'
    by_contra hne
    rw [Function.update_of_ne hne] at hr'
    exact Nat.lt_irrefl _ (hs.made r' _ hr')
  · rw [EngineLoop.names,ha.sched]
    exact h.seqs.imp fun _ _ => hold _ _
  · have hnot : s.queues.length ∉ pend ++ own := fun hmem => Nat.lt_irrefl _ (hlt _ hmem)
    refine (List.Perm.nodup_iff ?_).mp (List.nodup_cons.mpr ⟨hnot,h.nodup⟩)
    rw [List.append_assoc]
    exact List.perm_middle.symm

theorem Tracked.owned_turn {x x' : Tracked R} {e : Turn} (h : Sound x.loop ∧ Owned x.loop x.pend x.own)
    (ht : x.turn b e = some x') : Sound x'.loop ∧ Owned x'.loop x'.pend x'.own := by
  cases e with
  | submit now p =>
    obtain ⟨s',hs',rfl⟩ := Option.map_eq_some_iff.mp ht
    exact ⟨h.1.submit hs',h.2.submit h.1 hs'⟩
  | cancel r =>
    obtain rfl := Option.some.inj ht
    exact ⟨h.1.cancel r,h.2.stays (stays_cancel _ r)⟩
  | pump now =>
    obtain rfl := Option.some.inj ht
    exact ⟨h.1.pumpOnce now,(h.2.pumped h.1 now).2⟩
  | read d =>
    obtain rfl := Option.some.inj ht
    exact ⟨h.1.read d,h.2.stays (stays_read _ d)⟩

theorem Tracked.owned_run {r₀ : R} {es : List Turn} {x : Tracked R}
    (h : Transition.exec (Tracked.turn b) { loop := { runner := r₀ } } es = some x) :
    Sound x.loop ∧ Owned x.loop x.pend x.own := by
  have hinit : Owned ({ runner := r₀ } : EngineLoop R) [] [] := ⟨.nil,.nil,List.nodup_nil⟩
  exact Transition.exec_always (P := fun x : Tracked R => Sound x.loop ∧ Owned x.loop x.pend x.own)
    (fun _ _ _ hx ht => owned_turn hx ht) ⟨sound_init r₀,hinit⟩ h

end Owners

section Faults

def batchOf (b : Backend R) (t : EngineLoop R) : List (SeqId × Bool) := (t.sched.step b.sched).2

def ranBatch (b : Backend R) (t : EngineLoop R) : Ran R (List (Option Token)) :=
  b.runBatch t.runner (t.sched.step b.sched).1 (batchOf b t)

/-- The engine after a `run_batch` that has not raised or not yet been dealt with. -/
def afterRun (b : Backend R) (t : EngineLoop R) : EngineLoop R :=
  (t.formed b).absorb ((batchOf b t).map Prod.fst) (ranBatch b t)

/-- What the call of `run_decode_burst` leaves behind, if the step makes one. -/
def ranBurst (b : Backend R) (t : EngineLoop R) : Option (Ran R (List Token)) :=
  match batchOf b t,(ranBatch b t).result with
  | [(i,false)],.ok (some first :: _) =>
      let q := (afterRun b t).seq i
      let extra := min (q.maxTokens-q.outputIds.length-1) (b.burst-1)
      let s₁ := (afterRun b t).modify i fun q => { q with outputIds := q.outputIds ++ [first] }
      if 1 < b.burst ∧ q.finished = false ∧ 0 < extra then
        some (b.decodeBurst s₁.runner s₁.sched i extra)
      else none
  | _,_ => none

def BatchFails (b : Backend R) (t : EngineLoop R) (e : Fault) : Prop :=
  batchOf b t ≠ [] ∧ (ranBatch b t).result = .error e

inductive Raises (b : Backend R) (t : EngineLoop R) (e : Fault) : R → Prop where
  | batch (h : BatchFails b t e) : Raises b t e (ranBatch b t).runner
  | burst (c : Ran R (List Token)) (hc : ranBurst b t = some c) (h : c.result = .error e) :
      Raises b t e c.runner

/-- The runner after the pages of the sequences have been released, in this
order; the end of a request may call `v4_release_seq` besides. -/
inductive Freed (b : Backend R) (left : R) : List SeqId → R → Prop where
  | none : Freed b left [] left
  | release {l : List SeqId} {r : R} (i : SeqId) (h : Freed b left l r) :
      Freed b left (l ++ [i]) (b.release r i)
  | close {l : List SeqId} {r : R} (i : SeqId) (h : Freed b left l r) : Freed b left l (b.close r i)

/-- An exception of the runner concerns the batch only, and each member of the
batch ends with it. -/
structure Contained (b : Backend R) (e : Fault) (left : R) (own : SeqId → QueueId) (t : EngineLoop R)
    (out : EngineLoop R × Pumped) : Prop where
  returns : out.2 ≠ .raised
  ended : ∀ i ∈ (batchOf b t).map Prod.fst,
    (out.1.seq i).finished = true ∧ (out.1.seq i).finishReason = some .error
  removed : ∀ i ∈ (batchOf b t).map Prod.fst, i ∉ out.1.sched.waiting ++ out.1.sched.running
  freed : Freed b left ((batchOf b t).map Prod.fst) out.1.runner
  told : ∀ i ∈ (batchOf b t).map Prod.fst, ∃ f, out.1.queue (own i) = t.queue (own i) ++ [f] ∧
    f.finishReason = some .error ∧ f.error = some e.text
  others : ∀ i, i ∉ (batchOf b t).map Prod.fst → out.1.seq i = t.seq i ∧
    (i ∈ out.1.sched.waiting ↔ i ∈ t.sched.waiting) ∧ (i ∈ out.1.sched.running ↔ i ∈ t.sched.running)

/-- Each member's own queue is registered under its id and has room. -/
def QueuesOpen (b : Backend R) (own : SeqId → QueueId) (t : EngineLoop R) : Prop :=
  ∀ i ∈ (batchOf b t).map Prod.fst, t.deltaQs (t.seq i).requestId = some (own i) ∧
    (t.queue (own i)).length < queueSize

theorem absorb_other {α : Type} (s : EngineLoop R) (l : List SeqId) (r : Ran R α) :
    (∀ i, i ∉ l → (s.absorb l r).seq i = s.seq i) ∧
      (∀ i, ((s.absorb l r).seq i).requestId = (s.seq i).requestId) ∧
      (s.absorb l r).sched.waiting = s.sched.waiting ∧ (s.absorb l r).sched.running = s.sched.running := by
  have key : ∀ (l : List SeqId) (sc : Scheduler),
      let sc' := l.foldl (fun sc i => sc.modify i fun q => { q with cachedLen := r.cached i }) sc
      (∀ i, i ∉ l → sc'.seq i = sc.seq i) ∧ (∀ i, (sc'.seq i).requestId = (sc.seq i).requestId) ∧
        sc'.waiting = sc.waiting ∧ sc'.running = sc.running := by
    intro l
    induction l with
    | nil => exact fun sc => ⟨fun _ _ => rfl,fun _ => rfl,rfl,rfl⟩
    | cons j l ih =>
      intro sc
      obtain ⟨h1,h2,h3,h4⟩ := ih (sc.modify j fun q => { q with cachedLen := r.cached j })
      refine ⟨fun i hi => ?_,fun i => ?_,h3,h4⟩
      · rw [List.mem_cons,not_or] at hi
        exact (h1 i hi.2).trans (Scheduler.seq_modify_ne hi.1 _)
      · refine (h2 i).trans ?_
        rw [Scheduler.seq_modify]
        split_ifs with hj
        · rw [hj.1]
        · rfl
  exact key l s.sched

/-- One member of a batch that failed: `mark_finished` and the error frame. -/
def abortOne (b : Backend R) (e : Fault) (s : EngineLoop R) (i : SeqId) : EngineLoop R :=
  (s.mark b i .error).emit b (s.seq i).requestId (errorFrame e.text (some (usage (s.seq i)))) true

theorem abortOne_sched (e : Fault) (s : EngineLoop R) (i : SeqId) :
    (abortOne b e s i).sched = s.sched.markFinished i .error := by
  have h := last_sched (b := b) (s := s) (i := i) (f := fun q => q) (fun _ => rfl) .error
    (errorFrame e.text (some (usage (s.seq i)))) s.prevText
  rw [modify_id,show s.sched.modify i (fun q => q) = s.sched from Scheduler.modify_same fun _ => rfl] at h
  exact h

theorem abortOne_seq {e : Fault} {i j : SeqId} (hj : j ≠ i) : (abortOne b e s i).seq j = s.seq j := by
  rw [seq,abortOne_sched,Scheduler.seq_markFinished,if_neg (fun hc => hj hc.1)]
  rfl

theorem Sound.abortOne (h : Sound s) (e : Fault) (i : SeqId) : Sound (EngineLoop.abortOne b e s i) := by
  have hm := h.mark (b := b) i (f := fun q => q) (fun _ => rfl) .error
  rw [modify_id] at hm
  exact hm.emit _ _ true

/-- With nothing to cancel, the end of a request changes the runner through
`v4_release_seq` only. -/
theorem emit_runner {r : RequestId} (hr : s.sched.byRequest r = none) (f : Frame) :
    (s.emit b r f true).runner = s.runner ∨ ∃ i, (s.emit b r f true).runner = b.close s.runner i := by
  have hput : ∀ d, (EngineLoop.put b { s with emitted := s.emitted ++ [(r,f)] } d r f).runner = s.runner := by
    intro d
    unfold EngineLoop.put
    split_ifs
    · rfl
    · unfold EngineLoop.schedCancel
      simp only [hr]
  unfold EngineLoop.emit
  simp only [if_true]
  cases s.deltaQs r with
  | none => exact .inl rfl
  | some d =>
    simp only
    unfold EngineLoop.closeQueue
    simp only
    split_ifs
    · simp only [hput]
      split
      · exact .inr ⟨_,rfl⟩
      · exact .inl rfl
    · exact .inl (hput d)

theorem abortOne_freed {e : Fault} {i : SeqId} {left : R} {l : List SeqId}
    (h : Freed b left l s.runner) : Freed b left (l ++ [i]) (abortOne b e s i).runner := by
  have hrel : Freed b left (l ++ [i]) (s.mark b i .error).runner := .release i h
  have hnone : (s.mark b i .error).sched.byRequest (s.seq i).requestId = none := by
    show Function.update s.sched.byRequest (s.sched.seq i).requestId none (s.seq i).requestId = none
    exact Function.update_self ..
  rcases emit_runner (b := b) hnone (errorFrame e.text (some (usage (s.seq i)))) with heq | ⟨j,heq⟩
  · rw [abortOne,heq]; exact hrel
  · rw [abortOne,heq]; exact .close j hrel

theorem abortBatch_cons (e : Fault) (s : EngineLoop R) (m : SeqId × Bool) (batch : List (SeqId × Bool)) :
    s.abortBatch b e (m :: batch) = (abortOne b e s m.1).abortBatch b e batch := rfl

theorem Batch.abortOne {e : Fault} {i : SeqId} {l : List SeqId} (h : Batch s (i :: l)) :
    Batch (EngineLoop.abortOne b e s i) l := by
  have hn := List.nodup_cons.mp h.nodup
  refine ⟨fun j hj => ?_,hn.2⟩
  have hne : j ≠ i := fun he => hn.1 (he ▸ hj)
  rw [abortOne_seq hne]
  exact h.live j (List.mem_cons_of_mem _ hj)

structure Aborted (s : EngineLoop R) (l : List SeqId) (s' : EngineLoop R) : Prop where
  ended : ∀ i ∈ l, (s'.seq i).finished = true ∧ (s'.seq i).finishReason = some .error
  others : ∀ i, i ∉ l → s'.seq i = s.seq i ∧ (i ∈ s'.sched.waiting ↔ i ∈ s.sched.waiting) ∧
    (i ∈ s'.sched.running ↔ i ∈ s.sched.running)

theorem aborted_abortOne (hs : Sound s) (e : Fault) {i : SeqId} (hi : (s.seq i).finished = false) :
    Aborted s [i] (abortOne b e s i) := by
  have hrun := (List.nodup_append.mp hs.kept.once).2.1
  refine ⟨fun j hj => ?_,fun j hj => ?_⟩
  · rw [List.mem_singleton.mp hj,seq,abortOne_sched,Scheduler.seq_markFinished,
      if_pos ⟨rfl,Scheduler.lt_of_unfinished hi⟩]
    exact ⟨rfl,rfl⟩
  · have hji : j ≠ i := by simpa using hj
    refine ⟨abortOne_seq hji,?_,?_⟩
    · rw [abortOne_sched]
      simp [Scheduler.markFinished,hji]
    · rw [abortOne_sched]
      simp [Scheduler.markFinished,hrun.mem_erase_iff,hji]

theorem aborted_abortBatch {e : Fault} {batch : List (SeqId × Bool)} (hs : Sound s)
    (hb : Batch s (batch.map Prod.fst)) :
    Aborted s (batch.map Prod.fst) (s.abortBatch b e batch) := by
  induction batch generalizing s with
  | nil => exact ⟨by simp,fun _ _ => ⟨rfl,.rfl,.rfl⟩⟩
  | cons m batch ih =>
    have h₁ := aborted_abortOne (b := b) hs e (hb.live m.1 (by simp))
    have h₂ := ih (hs.abortOne (b := b) e m.1) (Batch.abortOne hb)
    rw [abortBatch_cons]
    have hn : m.1 ∉ batch.map Prod.fst := (List.nodup_cons.mp hb.nodup).1
    refine ⟨fun i hi => ?_,fun i hi => ?_⟩
    · rcases List.mem_cons.mp hi with rfl | hi
      · rw [(h₂.others m.1 hn).1]
        exact h₁.ended m.1 (by simp)
      · exact h₂.ended i hi
    · rw [List.map_cons,List.mem_cons,not_or] at hi
      obtain ⟨a1,a2,a3⟩ := h₁.others i (by simpa using hi.1)
      obtain ⟨c1,c2,c3⟩ := h₂.others i hi.2
      exact ⟨c1.trans a1,c2.trans a2,c3.trans a3⟩

theorem freed_abortBatch {e : Fault} {left : R} {l : List SeqId} (batch : List (SeqId × Bool))
    (h : Freed b left l s.runner) :
    Freed b left (l ++ batch.map Prod.fst) (s.abortBatch b e batch).runner := by
  induction batch generalizing s l with
  | nil => simpa [EngineLoop.abortBatch] using h
  | cons m batch ih =>
    have := ih (abortOne_freed (e := e) (i := m.1) h)
    rw [abortBatch_cons]
    simpa using this

theorem abortBatch_queue {e : Fault} {d : QueueId} {batch : List (SeqId × Bool)}
    (hb : Batch s (batch.map Prod.fst))
    (hd : ∀ i ∈ batch.map Prod.fst, s.deltaQs (s.seq i).requestId ≠ some d) :
    (s.abortBatch b e batch).queue d = s.queue d := by
  induction batch generalizing s with
  | nil => rfl
  | cons m batch ih =>
    have he := emit_emitted (b := b) (s.mark b m.1 .error) (s.seq m.1).requestId
      (errorFrame e.text (some (usage (s.seq m.1)))) true
    have hn := List.nodup_cons.mp hb.nodup
    rw [abortBatch_cons,ih (Batch.abortOne hb)]
    · exact he.queue d (hd m.1 (by simp))
    · intro i hi
      have hne : i ≠ m.1 := fun hc => hn.1 (hc ▸ hi)
      rw [abortOne_seq hne]
      have hi' := hd i (List.mem_cons_of_mem _ hi)
      intro hcon
      exact hi' ((stays_emit (b := b) (s.mark b m.1 .error) _ _ true).deltaQs _ _ hcon)

/-- The first member that has the queue registered puts its frame there, if
there is room, and closes it. -/
theorem abortBatch_first {e : Fault} {d : QueueId} {m : SeqId × Bool} {l₁ l₂ : List (SeqId × Bool)}
    (hs : Sound s) (hb : Batch s ((l₁ ++ m :: l₂).map Prod.fst))
    (hd : s.deltaQs (s.seq m.1).requestId = some d)
    (hfirst : ∀ m' ∈ l₁, (s.seq m'.1).requestId ≠ (s.seq m.1).requestId) :
    (s.abortBatch b e (l₁ ++ m :: l₂)).queue d =
      if (s.queue d).length < queueSize then
        s.queue d ++ [errorFrame e.text (some (usage (s.seq m.1)))] else s.queue d := by
  induction l₁ generalizing s with
  | nil =>
    have he := emit_emitted (b := b) (s.mark b m.1 .error) (s.seq m.1).requestId
      (errorFrame e.text (some (usage (s.seq m.1)))) true
    have hclosed : ∀ r, (abortOne b e s m.1).deltaQs r ≠ some d := by
      intro r hr
      rw [abortOne,he.deltaQs] at hr
      simp only [if_true] at hr
      by_cases hne : r = (s.seq m.1).requestId
      · rw [hne,Function.update_self] at hr
        exact absurd hr (by simp)
      · rw [Function.update_of_ne hne] at hr
        exact hne (hs.inj r _ d hr hd)
    rw [List.nil_append,abortBatch_cons,abortBatch_queue (Batch.abortOne hb) (fun i _ => hclosed _)]
    split_ifs with hroom
    · exact (he.own d hd (hs.made _ d hd) hroom).2
    · exact he.full d hd (Nat.le_of_not_lt hroom)
  | cons m' l₁ ih =>
    have hb' : Batch s (m'.1 :: (l₁ ++ m :: l₂).map Prod.fst) := hb
    have hn := List.nodup_cons.mp hb'.nodup
    have hne : ∀ m'' ∈ l₁ ++ m :: l₂, m''.1 ≠ m'.1 := fun m'' hm hc =>
      hn.1 (hc ▸ List.mem_map_of_mem hm)
    have hm : m.1 ≠ m'.1 := hne m (by simp)
    have he := emit_emitted (b := b) (s.mark b m'.1 .error) (s.seq m'.1).requestId
      (errorFrame e.text (some (usage (s.seq m'.1)))) true
    have hid := hfirst m' (by simp)
    have hqueue : (abortOne b e s m'.1).queue d = s.queue d :=
      he.queue d fun hc => hid (hs.inj _ _ d hc hd)
    have hd' : (abortOne b e s m'.1).deltaQs ((abortOne b e s m'.1).seq m.1).requestId = some d := by
      rw [abortOne_seq hm,abortOne,he.deltaQs]
      simp only [if_true]
      rw [Function.update_of_ne (Ne.symm hid)]
      exact hd
    have := ih (hs.abortOne e m'.1) (Batch.abortOne hb') hd' fun m'' hm'' => by
      rw [abortOne_seq (hne m'' (List.mem_append_left _ hm'')),abortOne_seq hm]
      exact hfirst m'' (List.mem_cons_of_mem _ hm'')
    rw [hqueue,abortOne_seq hm] at this
    exact this

theorem Owned.belongs {pend own : List QueueId} (h : Owned s pend own) {i : SeqId}
    (hi : i < s.sched.seqs.length) : Belongs s (s.seq i).requestId (own.getD i 0) := by
  obtain ⟨hlen,hall⟩ := List.forall₂_iff_get.mp h.seqs
  have hi' : i < s.names.length := by simpa [EngineLoop.names] using hi
  have hb := hall i hi' (hlen ▸ hi')
  have hown : own.getD i 0 = own.get ⟨i,hlen ▸ hi'⟩ := by
    rw [List.getD_eq_getElem?_getD,List.getElem?_eq_getElem (hlen ▸ hi')]
    rfl
  have hname : s.names.get ⟨i,hi'⟩ = (s.seq i).requestId := by
    simp [EngineLoop.names,EngineLoop.seq,Scheduler.seq,List.getD_eq_getElem?_getD,List.getElem?_eq_getElem hi]
  rw [hown,← hname]
  exact hb

theorem Owned.inj {pend own : List QueueId} (h : Owned s pend own) {i j : SeqId}
    (hi : i < s.sched.seqs.length) (hj : j < s.sched.seqs.length)
    (he : own.getD i 0 = own.getD j 0) : i = j := by
  have hlen : own.length = s.sched.seqs.length := by
    have := h.seqs.length_eq
    simpa [EngineLoop.names] using this.symm
  have hnd : own.Nodup := (List.nodup_append.mp h.nodup).2.1
  simp only [List.getD_eq_getElem?_getD,List.getElem?_eq_getElem (hlen ▸ hi : i < own.length),
    List.getElem?_eq_getElem (hlen ▸ hj : j < own.length),Option.getD_some] at he
  exact (hnd.getElem_inj_iff).mp he

theorem runStep_fails {t : EngineLoop R} {e : Fault} (h : BatchFails b t e) :
    t.runStep b = ((afterRun b t).abortBatch b e (batchOf b t),.worked) := by
  have hres : (b.runBatch t.runner (t.sched.step b.sched).1 (t.sched.step b.sched).2).result = .error e :=
    h.2
  rw [runStep_eq t h.1,hres]
  rfl

theorem runStep_burst {t : EngineLoop R} {e : Fault} {c : Ran R (List Token)}
    (hc : ranBurst b t = some c) (h : c.result = .error e) : (t.runStep b).2 = .raised := by
  unfold ranBurst at hc
  split at hc
  · rename_i i first toks hbatch hres
    simp only at hc
    split_ifs at hc with hcond
    obtain rfl := Option.some.inj hc
    have hbatch' : (t.sched.step b.sched).2 = [(i,false)] := hbatch
    have hres' : (b.runBatch t.runner (t.sched.step b.sched).1 (t.sched.step b.sched).2).result =
        .ok (some first :: toks) := hres
    rw [runStep_eq t (by rw [hbatch']; simp),hres']
    show (finishBatch b (afterRun b t) (t.sched.step b.sched).2 (some first :: toks)).2 = .raised
    rw [hbatch']
    simp only [finishBatch]
    rw [if_pos ⟨hcond.1,hcond.2.1⟩,burstOne]
    simp only
    rw [if_pos hcond.2.2,h]
  · exact absurd hc (by simp)

section Told

variable {t : EngineLoop R} {own : List QueueId} {e : Fault} {i : SeqId}

theorem requestId_afterRun (b : Backend R) (t : EngineLoop R) (i : SeqId) :
    ((afterRun b t).seq i).requestId = (t.seq i).requestId :=
  (absorb_other (t.formed b) ((batchOf b t).map Prod.fst) (ranBatch b t)).2.1 i

theorem append_frame_ne (l : List Frame) (f : Frame) : l ≠ l ++ [f] := fun h => by
  have hl := congrArg List.length h
  rw [List.length_append,List.length_singleton] at hl
  exact absurd hl (Nat.ne_of_lt (Nat.lt_succ_self _))

/-- Somebody has a queue that is told of the failure registered, and its name is
the name of the member whose queue it is. -/
theorem registered_of_told {f : Frame} (ho : Owned t [] own)
    (hb : Batch (afterRun b t) ((batchOf b t).map Prod.fst))
    (hlt : ∀ j ∈ (batchOf b t).map Prod.fst, j < t.sched.seqs.length) (hi : i ∈ (batchOf b t).map Prod.fst)
    (hf : ((afterRun b t).abortBatch b e (batchOf b t)).queue (own.getD i 0) = t.queue (own.getD i 0) ++ [f]) :
    t.deltaQs (t.seq i).requestId = some (own.getD i 0) := by
  by_contra hne
  have hnobody : ∀ j ∈ (batchOf b t).map Prod.fst,
      (afterRun b t).deltaQs ((afterRun b t).seq j).requestId ≠ some (own.getD i 0) := by
    intro j hj hd
    have hname := (ho.belongs (hlt i hi)).2 _ hd
    rw [hname] at hd
    exact hne hd
  rw [abortBatch_queue hb hnobody] at hf
  exact append_frame_ne _ _ hf

theorem room_of_told {f : Frame} (hs : Sound (afterRun b t))
    (hb : Batch (afterRun b t) ((batchOf b t).map Prod.fst)) (hi : i ∈ (batchOf b t).map Prod.fst)
    (hreg : t.deltaQs (t.seq i).requestId = some (own.getD i 0))
    (hf : ((afterRun b t).abortBatch b e (batchOf b t)).queue (own.getD i 0) = t.queue (own.getD i 0) ++ [f]) :
    (t.queue (own.getD i 0)).length < queueSize := by
  obtain ⟨m,hm,rfl⟩ := List.mem_map.mp hi
  have hsome : ((batchOf b t).find? fun m' =>
      (t.seq m'.1).requestId = (t.seq m.1).requestId).isSome = true :=
    List.find?_isSome.mpr ⟨m,hm,by simp⟩
  obtain ⟨m',hm'⟩ := Option.isSome_iff_exists.mp hsome
  obtain ⟨hname,l₁,l₂,hsplit,hfirst⟩ := List.find?_eq_some_iff_append.mp hm'
  rw [decide_eq_true_eq] at hname
  by_contra hroom
  have hd : (afterRun b t).deltaQs ((afterRun b t).seq m'.1).requestId = some (own.getD m.1 0) := by
    rw [requestId_afterRun,hname]
    exact hreg
  have hq := abortBatch_first (b := b) (e := e) hs (hsplit ▸ hb) hd (fun m'' hm'' => by
    rw [requestId_afterRun,requestId_afterRun,hname]
    simpa using hfirst m'' hm'')
  rw [← hsplit,if_neg (by exact hroom)] at hq
  rw [hq] at hf
  exact append_frame_ne _ _ hf

/-- With its own queue open, a member is told: no member before it has its name. -/
theorem told_of_open (hs : Sound (afterRun b t)) (ho : Owned t [] own)
    (hb : Batch (afterRun b t) ((batchOf b t).map Prod.fst))
    (hlt : ∀ j ∈ (batchOf b t).map Prod.fst, j < t.sched.seqs.length)
    (hopen : QueuesOpen b (fun i => own.getD i 0) t) (hi : i ∈ (batchOf b t).map Prod.fst) :
    ∃ f, ((afterRun b t).abortBatch b e (batchOf b t)).queue (own.getD i 0) = t.queue (own.getD i 0) ++ [f] ∧
      f.finishReason = some .error ∧ f.error = some e.text := by
  obtain ⟨m,hm,rfl⟩ := List.mem_map.mp hi
  obtain ⟨hreg,hroom⟩ := hopen m.1 hi
  obtain ⟨l₁,l₂,hsplit⟩ := List.append_of_mem hm
  have hd : (afterRun b t).deltaQs ((afterRun b t).seq m.1).requestId = some (own.getD m.1 0) := by
    rw [requestId_afterRun]
    exact hreg
  have hnd : ((l₁ ++ m :: l₂).map Prod.fst).Nodup := hsplit ▸ hb.nodup
  have hq := abortBatch_first (b := b) (e := e) hs (hsplit ▸ hb) hd (fun m' hm' hname => by
    rw [requestId_afterRun,requestId_afterRun] at hname
    have hin : m'.1 ∈ (batchOf b t).map Prod.fst := by
      rw [hsplit]
      exact List.mem_map_of_mem (List.mem_append_left _ hm')
    have hreg' := (hopen m'.1 hin).1
    rw [hname,hreg] at hreg'
    have heq := ho.inj (hlt m.1 hi) (hlt m'.1 hin) (Option.some.inj hreg')
    rw [List.map_append,List.map_cons] at hnd
    refine (List.nodup_append.mp hnd).2.2 m'.1 (List.mem_map_of_mem hm') m.1 (by simp) heq.symm)
  rw [← hsplit,if_pos (by exact hroom)] at hq
  exact ⟨_,hq,rfl,rfl⟩

end Told

theorem contained_iff {t : EngineLoop R} {own : List QueueId} {e : Fault} (hs : Sound t)
    (ho : Owned t [] own) (hf : BatchFails b t e) :
    Contained b e (ranBatch b t).runner (fun i => own.getD i 0) t (t.runStep b) ↔
      QueuesOpen b (fun i => own.getD i 0) t := by
  obtain ⟨hform,hbform⟩ := hs.formed (b := b)
  have hw := work_absorb (b := b) (t.formed b) ((batchOf b t).map Prod.fst) (ranBatch b t)
  have hs₁ : Sound (afterRun b t) := hform.work hw
  have hb : Batch (afterRun b t) ((batchOf b t).map Prod.fst) := hw.batch rfl hbform
  obtain ⟨habs,_,hwait,hrun⟩ := absorb_other (t.formed b) ((batchOf b t).map Prod.fst) (ranBatch b t)
  have hlt : ∀ i ∈ (batchOf b t).map Prod.fst, i < t.sched.seqs.length := fun i hi =>
    Scheduler.lt_of_unfinished (hbform.live i hi)
  have hab := aborted_abortBatch (b := b) (e := e) hs₁ hb
  rw [runStep_fails hf]
  constructor
  · intro hcon i hi
    obtain ⟨f,hf,_,_⟩ := hcon.told i hi
    have hreg := registered_of_told ho hb hlt hi hf
    exact ⟨hreg,room_of_told hs₁ hb hi hreg hf⟩
  · intro hopen
    refine ⟨by simp,hab.ended,fun i hi hq => ?_,?_,fun i hi => told_of_open hs₁ ho hb hlt hopen hi,
      fun i hi => ?_⟩
    · have hsound := hs₁.work (work_abortBatch (b := b) (e := e) hb)
      have := (hsound.kept.queued i).mp hq
      rw [show ((((afterRun b t).abortBatch b e (batchOf b t)).sched.seq i).finished) = true from
        (hab.ended i hi).1] at this
      exact absurd this (by simp)
    · have := freed_abortBatch (b := b) (e := e) (s := afterRun b t) (batchOf b t) Freed.none
      rwa [List.nil_append] at this
    · obtain ⟨_,_,_,hstay⟩ := hs.kept.step b.sched
      obtain ⟨h1,h2,h3⟩ := hab.others i hi
      obtain ⟨h4,h5⟩ := hstay i hi
      refine ⟨h1.trans (habs i hi),h2.trans ?_,h3.trans ?_⟩
      · rw [show (afterRun b t).sched.waiting = (t.sched.step b.sched).1.waiting from hwait]
        exact h4
      · rw [show (afterRun b t).sched.running = (t.sched.step b.sched).1.running from hrun]
        exact h5

def beforeStep (b : Backend R) (now : Time) (s : EngineLoop R) : EngineLoop R :=
  (s.admitPending b).checkTimeouts b now

def Tracked.owner (x : Tracked R) (i : SeqId) : QueueId := x.own.getD i 0

theorem faults_contained (b : Backend R) (r₀ : R) (es : List Turn) (x x' : Tracked R) (now : Time)
    (hx : Transition.exec (Tracked.turn b) { loop := { runner := r₀ } } es = some x)
    (hp : x.turn b (.pump now) = some x') (e : Fault) (left : R)
    (hr : Raises b (x.loop.beforeStep b now) e left) :
    Contained b e left x'.owner (x.loop.beforeStep b now) (x.loop.pumpOnce b now) ↔
      BatchFails b (x.loop.beforeStep b now) e ∧ QueuesOpen b x'.owner (x.loop.beforeStep b now) := by
  obtain ⟨hs,ho⟩ := Tracked.owned_run hx
  obtain rfl := Option.some.inj hp
  have hs' : Sound (x.loop.beforeStep b now) := hs.admitPending.checkTimeouts now
  have ho' := (ho.pumped (b := b) hs now).1
  cases hr with
  | batch h =>
    refine (contained_iff hs' ho' h).trans ⟨fun hq => ⟨h,hq⟩,fun hq => hq.2⟩
  | burst c hc h =>
    refine ⟨fun hcon => absurd (runStep_burst hc h) hcon.returns,fun hb => ?_⟩
    unfold ranBurst at hc
    rw [hb.1.2] at hc
    split at hc
    · rename_i heq
      exact absurd heq (by simp)
    · exact absurd hc (by simp)

/-- A runner whose pool runs out of pages when two sequences decode together
and in every burst. -/
def outOfPages : Backend Unit :=
  { fives with
    burst := 64
    runBatch := fun u s batch =>
      if batch.length = 2 ∧ batch.all (fun m => !m.2) then
        { runner := (), cached := fun i => (s.seq i).cachedLen, forwards := [],
          result := .error (.memory "KV OOM: need 1 blocks, capacity=256") }
      else fives.runBatch u s batch
    decodeBurst := fun _ s i _ =>
      { runner := (), cached := fun _ => (s.seq i).cachedLen, forwards := [],
        result := .error (.memory "KV OOM: need 1 blocks, capacity=256") } }

def askFor (r : RequestId) (n : Nat) : Turn := .submit 0 (ask r n).2

def queuesOpen (b : Backend R) (own : SeqId → QueueId) (t : EngineLoop R) : Bool :=
  ((batchOf b t).map Prod.fst).all fun i =>
    decide (t.deltaQs (t.seq i).requestId = some (own i)) && decide ((t.queue (own i)).length < queueSize)

theorem QueuesOpen.of_test {own : SeqId → QueueId} {t : EngineLoop R}
    (h : queuesOpen b own t = true) : QueuesOpen b own t := by
  intro i hi
  have := List.all_eq_true.mp h i hi
  simpa using this

def endedWith {α : Type} (e : Fault) : Except Fault α → Bool
  | .error e' => decide (e' = e)
  | .ok _ => false

theorem endedWith_iff {α : Type} {e : Fault} {r : Except Fault α} : endedWith e r = true ↔ r = .error e := by
  cases r <;> simp [endedWith]

theorem faults_contained_pair : ∃ x x', Transition.exec (Tracked.turn outOfPages) { loop := { runner := () } }
      [askFor "a" 5,askFor "b" 5,.pump 1] = some x ∧ x.turn outOfPages (.pump 2) = some x' ∧
    Contained outOfPages (.memory "KV OOM: need 1 blocks, capacity=256") () x'.owner (x.loop.beforeStep outOfPages 2)
      (x.loop.pumpOnce outOfPages 2) := by
  have hrun : ((Transition.exec (Tracked.turn outOfPages) { loop := { runner := () } }
      [askFor "a" 5,askFor "b" 5,.pump 1]).map fun x => (x.turn outOfPages (.pump 2)).map fun x' =>
        (decide ((batchOf outOfPages (x.loop.beforeStep outOfPages 2)).map Prod.fst = [0,1]),
          endedWith (.memory "KV OOM: need 1 blocks, capacity=256")
            (ranBatch outOfPages (x.loop.beforeStep outOfPages 2)).result,
          queuesOpen outOfPages x'.owner (x.loop.beforeStep outOfPages 2))) = some (some (true,true,true)) := by
    decide +kernel
  obtain ⟨x,hx,hv⟩ := Option.map_eq_some_iff.mp hrun
  obtain ⟨x',hx',hv'⟩ := Option.map_eq_some_iff.mp hv
  simp only [Prod.mk.injEq,decide_eq_true_eq] at hv'
  obtain ⟨hbatch,hres,hopen⟩ := hv'
  have hfail : BatchFails outOfPages (x.loop.beforeStep outOfPages 2)
      (.memory "KV OOM: need 1 blocks, capacity=256") := by
    refine ⟨fun hnil => ?_,endedWith_iff.mp hres⟩
    rw [hnil] at hbatch
    exact absurd hbatch (by simp)
  exact ⟨x,x',hx,hx',(faults_contained outOfPages () _ x x' 2 hx hx' _ () (.batch hfail)).mpr
    ⟨hfail,.of_test hopen⟩⟩

/-- One request: its first decode is followed by a burst, whose exception
leaves `pump_once` with the sequence unfinished in `running`. -/
theorem burst_fault_escapes : ∃ x x', Transition.exec (Tracked.turn outOfPages) { loop := { runner := () } }
      [askFor "a" 5,.pump 1] = some x ∧ x.turn outOfPages (.pump 2) = some x' ∧
    Raises outOfPages (x.loop.beforeStep outOfPages 2) (.memory "KV OOM: need 1 blocks, capacity=256") () ∧
    ¬ Contained outOfPages (.memory "KV OOM: need 1 blocks, capacity=256") () x'.owner (x.loop.beforeStep outOfPages 2)
      (x.loop.pumpOnce outOfPages 2) := by
  have hrun : ((Transition.exec (Tracked.turn outOfPages) { loop := { runner := () } }
      [askFor "a" 5,.pump 1]).map fun x => (x.turn outOfPages (.pump 2)).map fun _ =>
        ((ranBurst outOfPages (x.loop.beforeStep outOfPages 2)).isSome,
          decide ((x.loop.pumpOnce outOfPages 2).2 = .raised))) = some (some (true,true)) := by
    decide +kernel
  obtain ⟨x,hx,hv⟩ := Option.map_eq_some_iff.mp hrun
  obtain ⟨x',hx',hv'⟩ := Option.map_eq_some_iff.mp hv
  simp only [Prod.mk.injEq,decide_eq_true_eq] at hv'
  obtain ⟨c,hc⟩ := Option.isSome_iff_exists.mp hv'.1
  have hres : c.result = .error (.memory "KV OOM: need 1 blocks, capacity=256") := by
    unfold ranBurst at hc
    split at hc
    · simp only at hc
      split_ifs at hc
      obtain rfl := Option.some.inj hc
      rfl
    · exact absurd hc (by simp)
  exact ⟨x,x',hx,hx',.burst c hc hres,fun hcon => hcon.returns hv'.2⟩

end Faults

end EngineLoop

end SglangLite.Loop
