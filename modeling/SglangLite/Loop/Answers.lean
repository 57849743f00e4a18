import SglangLite.Loop.Acts
import SglangLite.Loop.Frames

set_option autoImplicit false

namespace SglangLite.Loop
open Kv Sched Text

variable {R : Type} {b : Backend R}

namespace EngineLoop

variable {s s' s'' : EngineLoop R} {q : Option RequestId}

structure Steady (s : EngineLoop R) : Prop where
  kept : s.sched.Kept
  told : ∀ i, (s.seq i).cancelled = true → (s.seq i).finishReason ≠ none

theorem steady_init (r₀ : R) : Steady ({ runner := r₀ } : EngineLoop R) :=
  ⟨Scheduler.kept_empty,fun _ h => nomatch h⟩

/-- What the methods of the loop do to the requests when they end at most the
sequences of request `q`. -/
structure Ends (q : Option RequestId) (s s' : EngineLoop R) : Prop where
  steady : Steady s'
  length : s.sched.seqs.length ≤ s'.sched.seqs.length
  requestId : ∀ i < s.sched.seqs.length, (s'.seq i).requestId = (s.seq i).requestId
  live : ∀ i, (s.seq i).finished = false → some (s.seq i).requestId ≠ q → (s'.seq i).finished = false
  waiting : s.sched.waiting = [] → s'.sched.waiting = []
  submitQ : s'.submitQ = s.submitQ
  cancelled : s'.cancelled = s.cancelled
  draining : s'.draining = s.draining

theorem seq_settlePost {i : SeqId} (hi : i < s.sched.seqs.length) (p : Post) (j : SeqId) :
    (s.settlePost b i p).seq j = if j = i then settle (s.seq i) p else s.seq j := by
  have hmod : (s.modify i fun q => { q with outputIds := p.outputIds }).seq j =
      if j = i then { s.seq i with outputIds := p.outputIds } else s.seq j := by
    rw [seq_modify]
    simp [hi]
  unfold settlePost Text.settle
  cases p.reason with
  | none => exact hmod
  | some reason =>
    refine (Scheduler.seq_end s.sched i j (fun q => { q with outputIds := p.outputIds }) reason).trans ?_
    by_cases hj : j = i
    · rw [if_pos ⟨hj,hi⟩,if_pos hj]
      rfl
    · rw [if_neg fun hc => hj hc.1,if_neg hj]
      rfl

namespace Ends

theorem of_same (h : Steady s) (h1 : s'.sched = s.sched) (h2 : s'.submitQ = s.submitQ)
    (h3 : s'.cancelled = s.cancelled) (h4 : s'.draining = s.draining) : Ends q s s' := by
  have hseq : ∀ i, s'.seq i = s.seq i := fun i => by rw [seq,h1]; rfl
  exact ⟨⟨by rw [h1]; exact h.kept,fun i => by rw [hseq]; exact h.told i⟩,by rw [h1],
    fun i _ => by rw [hseq],fun i hi _ => by rw [hseq]; exact hi,fun hw => by rw [h1]; exact hw,h2,h3,h4⟩

theorem refl (h : Steady s) : Ends q s s := of_same h rfl rfl rfl rfl

theorem trans (h : Ends q s s') (h' : Ends q s' s'') : Ends q s s'' := by
  have hid : ∀ i < s.sched.seqs.length, (s''.seq i).requestId = (s.seq i).requestId := fun i hi =>
    (h'.requestId i (Nat.lt_of_lt_of_le hi h.length)).trans (h.requestId i hi)
  refine ⟨h'.steady,h.length.trans h'.length,hid,fun i hi hq => ?_,fun hw => h'.waiting (h.waiting hw),
    h'.submitQ.trans h.submitQ,h'.cancelled.trans h.cancelled,h'.draining.trans h.draining⟩
  refine h'.live i (h.live i hi hq) ?_
  rw [h.requestId i (Scheduler.lt_of_unfinished hi)]
  exact hq

theorem weaken (h : Ends none s s') : Ends q s s' := { h with live := fun i hi _ => h.live i hi (by simp) }

theorem modify (h : Steady s) (i : SeqId) {f : Sequence → Sequence} (hf : Mild f)
    (hr : ∀ q, (f q).finishReason = q.finishReason) : Ends q s (s.modify i f) := by
  have hseq : ∀ j, ((s.modify i f).seq j).requestId = (s.seq j).requestId ∧
      ((s.modify i f).seq j).finished = (s.seq j).finished ∧
      ((s.modify i f).seq j).cancelled = (s.seq j).cancelled ∧
      ((s.modify i f).seq j).finishReason = (s.seq j).finishReason := by
    intro j
    rw [seq_modify]
    split_ifs with hj
    · rw [hj.1]
      exact ⟨hf.requestId _,hf.finished _,hf.cancelled _,hr _⟩
    · exact ⟨rfl,rfl,rfl,rfl⟩
  refine ⟨⟨h.kept.modify i hf.requestId hf.finished hf.cancelled,fun j hj => ?_⟩,
    Nat.le_of_eq (Scheduler.length_modify _ _ _).symm,fun j _ => (hseq j).1,
    fun j hj _ => (hseq j).2.1.trans hj,id,rfl,rfl,rfl⟩
  rw [(hseq j).2.2.2]
  exact h.told j ((hseq j).2.2.1 ▸ hj)

theorem mark (h : Steady s) (i : SeqId) {f : Sequence → Sequence}
    (hf : ∀ q, (f q).requestId = q.requestId) (reason : FinishReason) :
    Ends (some (s.seq i).requestId) s ((s.modify i f).mark b i reason) := by
  have hseq : ∀ j, ((s.modify i f).mark b i reason).seq j = if j = i ∧ i < s.sched.seqs.length then
      finish (f (s.seq i)) reason else s.seq j := fun j => Scheduler.seq_end s.sched i j f reason
  have hlen : ((s.modify i f).mark b i reason).sched.seqs.length = s.sched.seqs.length :=
    (Scheduler.length_modify _ _ _).trans (Scheduler.length_modify _ _ _)
  refine ⟨⟨h.kept.markFinished i hf reason,fun j => ?_⟩,Nat.le_of_eq hlen.symm,fun j _ => ?_,
    fun j hj hq => ?_,fun hw => ?_,rfl,rfl,rfl⟩
  · rw [hseq]
    split_ifs
    · exact fun _ hn => nomatch hn
    · exact h.told j
  · rw [hseq]
    split_ifs with hji
    · rw [hji.1]
      exact hf _
    · rfl
  · rw [hseq,if_neg fun hji => hq (by rw [hji.1])]
    exact hj
  · show s.sched.waiting.filter _ = []
    rw [hw,List.filter_nil]

theorem schedCancel (h : Steady s) (r : RequestId) : Ends (some r) s (s.schedCancel b r) := by
  unfold EngineLoop.schedCancel
  cases hr : s.sched.byRequest r with
  | none => exact refl h
  | some i =>
    have hm := mark (b := b) h i (f := fun q => { q with cancelled := true }) (fun _ => rfl) .cancelled
    have hid : (s.seq i).requestId = r := (h.kept.byRequest r i hr).1
    rwa [hid] at hm

theorem absorb {α : Type} (h : Steady s) (batch : List SeqId) (r : Ran R α) :
    Ends q s (s.absorb batch r) := by
  have hfold : ∀ (batch : List SeqId) (s : EngineLoop R), Steady s → Ends q s { s with
      sched := batch.foldl (fun sc i => sc.modify i fun q => { q with cachedLen := r.cached i }) s.sched } := by
    intro batch
    induction batch with
    | nil => exact fun s h => refl h
    | cons i batch ih =>
      intro s h
      have hone : Ends q s (s.modify i fun q => { q with cachedLen := r.cached i }) :=
        modify h i ⟨fun _ => rfl,fun _ => rfl,fun _ => rfl⟩ fun _ => rfl
      exact hone.trans (ih _ hone.steady)
  have hb := hfold batch s h
  exact hb.trans (of_same hb.steady rfl rfl rfl rfl)

theorem prefilled (h : Steady s) (i : SeqId) : Ends q s (s.prefilled b i) := by
  have hm : Ends q s (s.modify i fun q => { q with cachedLen := q.inputIds.length }) :=
    modify h i ⟨fun _ => rfl,fun _ => rfl,fun _ => rfl⟩ fun _ => rfl
  unfold EngineLoop.prefilled
  split_ifs
  · exact hm
  · exact hm.trans (of_same hm.steady rfl rfl rfl rfl)

theorem append (h : Steady s) (i : SeqId) (toks : List Token) :
    Ends q s (s.modify i fun q => { q with outputIds := q.outputIds ++ toks }) :=
  modify h i ⟨fun _ => rfl,fun _ => rfl,fun _ => rfl⟩ fun _ => rfl

theorem closeSeq (h : Steady s) (r : RequestId) : Ends q s (s.closeSeq b r) := by
  unfold EngineLoop.closeSeq
  split_ifs
  · exact of_same h rfl rfl rfl rfl
  · exact refl h

theorem dropFinished (h : Steady s) : Ends q s s.dropFinished :=
  ⟨⟨h.kept.dropFinished,h.told⟩,Nat.le_refl _,fun _ _ => rfl,fun _ hi _ => hi,id,rfl,rfl,rfl⟩

theorem formed (h : Steady s) : Ends q s (s.formed b) := by
  refine ⟨⟨(h.kept.step b.sched).1,h.told⟩,Nat.le_refl _,fun _ _ => rfl,fun _ hi _ => hi,fun hw => ?_,
    rfl,rfl,rfl⟩
  show (s.sched.step b.sched).1.waiting = []
  simp [Scheduler.step,Scheduler.formBatch,hw,Scheduler.takeWaiting]

/-- What the checks decide about a sequence ends it only with a reason. -/
theorem settlePost (h : Steady s) (i : SeqId) (p : Post) :
    Ends (p.reason.map fun _ => (s.seq i).requestId) s (s.settlePost b i p) := by
  unfold EngineLoop.settlePost
  cases p.reason with
  | none =>
    have hm : Ends none s (s.modify i fun q => { q with outputIds := p.outputIds }) :=
      modify h i ⟨fun _ => rfl,fun _ => rfl,fun _ => rfl⟩ fun _ => rfl
    exact hm.trans (of_same hm.steady rfl rfl rfl rfl)
  | some reason =>
    have hm := mark (b := b) h i (f := fun q => { q with outputIds := p.outputIds }) (fun _ => rfl) reason
    exact hm.trans (of_same hm.steady rfl rfl rfl rfl)

end Ends

/-- The request waits in the submit queue without a mark of `cancel`, or has a
sequence that is not over. -/
def Bears (s : EngineLoop R) (r : RequestId) : Prop :=
  s.Awaited r ∧ r ∉ s.cancelled ∨ s.Unfinished r

end EngineLoop

namespace Concurrent
open EngineLoop

variable {t : Tid} {s s' : Shared R} {i : Instr} {c code : List Instr} {r : RequestId} {d : QueueId}
  {now : Time}

/-- The instruction gives the request its terminal frame, or brings it to where
it will get one. -/
def Instr.Answers (l : EngineLoop R) (r : RequestId) (d : QueueId) : Instr → Prop
  | .lookup r' f _ => r' = r ∧ f.finishReason ≠ none
  | .put d' r' f _ => d' = d ∧ r' = r ∧ f.finishReason ≠ none
  | .cancelRest r' hadDelta => r' = r ∧ hadDelta = true
  | .enqueue p => p.requestId = r ∧ r ∉ l.cancelled
  | .admitCheck p => p.requestId = r ∧ r ∉ l.cancelled
  | .addRequest p => p.requestId = r
  | _ => False

/-- The queue has its terminal frame, or the request still finds it and will be
answered. -/
def Pursued (s : Shared R) (r : RequestId) (d : QueueId) (c : List Instr) : Prop :=
  Over s d ∨ s.loop.deltaQs r = some d ∧ (s.loop.Bears r ∨ ∃ i ∈ c, i.Answers s.loop r d)

/-- An instruction outside of admissions, cancels and emissions, when the loop
has `n` sequences. -/
def Instr.Plain (n : Nat) : Instr → Prop
  | .lookup _ _ _ => False
  | .put _ _ _ _ => False
  | .popQueue _ _ => False
  | .cancelRest _ _ => False
  | .cancelSeq _ => False
  | .submitCheck _ => False
  | .register _ => False
  | .enqueue _ => False
  | .admitCheck _ => False
  | .addRequest _ => False
  | .postCheck i _ _ => i < n
  | .postToken i _ _ => i < n
  | .burst i _ => i < n
  | _ => True

def AllPlain (s : Shared R) (c : List Instr) : Prop := ∀ i ∈ c, i.Plain s.loop.sched.seqs.length

/-- A thread is inside at most one admission, cancel or emission, which comes
first. A final frame is terminal, it goes to the queue that the request finds,
and the request loses that queue only after it. -/
inductive Poised (s : Shared R) : List Instr → Prop where
  | plain {c : List Instr} (h : AllPlain s c) : Poised s c
  | acquire {c : List Instr} (h : Poised s c) : Poised s (.acquire :: c)
  | release {c : List Instr} (h : Poised s c) : Poised s (.release :: c)
  | lookup {c : List Instr} (r : RequestId) (f : Frame) (final : Bool)
      (hf : final = true → f.finishReason ≠ none) (h : AllPlain s c) : Poised s (.lookup r f final :: c)
  | put {c : List Instr} (d : QueueId) (r : RequestId) (f : Frame) (final : Bool)
      (hf : final = true → f.finishReason ≠ none) (hd : ∀ e, s.loop.deltaQs r = some e → e = d)
      (h : AllPlain s c) : Poised s (.put d r f final :: c)
  | pop {c : List Instr} (r : RequestId) (d : QueueId) (hd : ∀ e, s.loop.deltaQs r = some e → Over s e)
      (h : AllPlain s c) : Poised s (.popQueue r d :: c)
  | rest {c : List Instr} (r : RequestId) (hadDelta : Bool) (h : AllPlain s c) :
      Poised s (.cancelRest r hadDelta :: c)
  | cancel {c : List Instr} (i : SeqId) (f : Frame) (hi : i < s.loop.sched.seqs.length)
      (hf : f.finishReason ≠ none) (h : AllPlain s c) :
      Poised s (.cancelSeq i :: .lookup (s.loop.seq i).requestId f true :: c)
  | enqueue {c : List Instr} (p : Pending) (h : AllPlain s c) : Poised s (.enqueue p :: c)
  | check {c : List Instr} (p : Pending) (h : AllPlain s c) : Poised s (.admitCheck p :: c)
  | add {c : List Instr} (p : Pending) (h : AllPlain s c) : Poised s (.addRequest p :: c)

/-- What a step leaves to the other threads: frames stay in the queues, and a
request finds no other queue than before. -/
structure Advance (s s' : Shared R) : Prop where
  steady : Steady s'.loop
  length : s.loop.sched.seqs.length ≤ s'.loop.sched.seqs.length
  requestId : ∀ i < s.loop.sched.seqs.length, (s'.loop.seq i).requestId = (s.loop.seq i).requestId
  got : ∀ d, Over s d → Over s' d
  deltaQs : ∀ r e, s'.loop.deltaQs r = some e → s.loop.deltaQs r = some e
  draining : s'.loop.draining = s.loop.draining

theorem over_mono (h : ∀ x ∈ s.puts, x ∈ s'.puts) (d : QueueId) (ho : Over s d) : Over s' d := by
  obtain ⟨f,hf,hr⟩ := ho
  exact ⟨f,mem_putsOn.mpr (h _ (mem_putsOn.mp hf)),hr⟩

theorem AllPlain.mono {n : Nat} (h : AllPlain s c) (hn : s.loop.sched.seqs.length ≤ n) :
    ∀ i ∈ c, i.Plain n := by
  intro i hi
  have hp := h i hi
  cases i with
  | postCheck i pre tok | postToken i pre tok | burst i first => exact Nat.lt_of_lt_of_le hp hn
  | _ => exact hp

def Instr.Closes (r : RequestId) : Instr → Prop
  | .put _ r' _ _ => r' = r
  | .popQueue r' _ => r' = r
  | _ => False

/-- The other threads do not disturb a thread, as long as its request finds no
new queue. -/
theorem Poised.mono (h : Poised s c) (hl : s.loop.sched.seqs.length ≤ s'.loop.sched.seqs.length)
    (hid : ∀ i < s.loop.sched.seqs.length, (s'.loop.seq i).requestId = (s.loop.seq i).requestId)
    (ho : ∀ d, Over s d → Over s' d)
    (hq : ∀ i ∈ c, ∀ r, i.Closes r → ∀ e, s'.loop.deltaQs r = some e → s.loop.deltaQs r = some e) :
    Poised s' c := by
  induction h with
  | plain h => exact .plain (h.mono hl)
  | acquire _ ih => exact .acquire (ih fun j hj => hq j (List.mem_cons_of_mem _ hj))
  | release _ ih => exact .release (ih fun j hj => hq j (List.mem_cons_of_mem _ hj))
  | lookup r f final hf h => exact .lookup r f final hf (h.mono hl)
  | put d r f final hf hd h =>
    exact .put d r f final hf (fun e he => hd e (hq _ List.mem_cons_self r rfl e he)) (h.mono hl)
  | pop r d hd h => exact .pop r d (fun e he => ho e (hd e (hq _ List.mem_cons_self r rfl e he))) (h.mono hl)
  | rest r had h => exact .rest r had (h.mono hl)
  | cancel i f hi hf h =>
    rw [← hid i hi]
    exact .cancel i f (Nat.lt_of_lt_of_le hi hl) hf (h.mono hl)
  | enqueue p h => exact .enqueue p (h.mono hl)
  | check p h => exact .check p (h.mono hl)
  | add p h => exact .add p (h.mono hl)

theorem Advance.poised (h : Advance s s') (hp : Poised s c) : Poised s' c :=
  hp.mono h.length h.requestId h.got fun _ _ r _ => h.deltaQs r

def Instr.Brings : Instr → Prop
  | .enqueue _ => True
  | .admitCheck _ => True
  | .addRequest _ => True
  | _ => False

theorem Instr.Plain.not_brings {n : Nat} (h : i.Plain n) : ¬ i.Brings := by
  cases i <;> first | exact id | exact h.elim

/-- What an instruction leaves: the other threads go on, the thread has its next
instructions in order, every request is pursued as before, also by `o`, and
nothing comes to the scheduler by itself. -/
structure Carries (s : Shared R) (i : Instr) (c : List Instr) (s' : Shared R) (code : List Instr) :
    Prop where
  advance : Advance s s'
  poised : Poised s' (code ++ c)
  pursued : ∀ r d o, Pursued s r d (i :: (c ++ o)) → Pursued s' r d (code ++ c ++ o)
  brings : s.loop.submitQ = [] → ¬ i.Brings → ∀ j ∈ code, ¬ j.Brings
  empty : s.loop.submitQ = [] → ¬ i.Brings →
    s'.loop.submitQ = [] ∧ (s.loop.sched.waiting = [] → s'.loop.sched.waiting = [])

theorem Instr.Answers.congr {l l' : EngineLoop R} (h : i.Answers l r d)
    (hc : r ∈ l'.cancelled → r ∈ l.cancelled) : i.Answers l' r d := by
  cases i with
  | enqueue p | admitCheck p => exact ⟨h.1,fun hm => h.2 (hc hm)⟩
  | _ => exact h

theorem Carries.of_ends {q : Option RequestId} (he : Ends q s.loop s'.loop) (hp : ∀ x ∈ s.puts, x ∈ s'.puts)
    (hd : s'.loop.deltaQs = s.loop.deltaQs) (hpo : Poised s' (code ++ c))
    (hq : ∀ r, q = some r → ∃ f final, .lookup r f final ∈ code ++ c ∧ f.finishReason ≠ none)
    (ha : ∀ r d, i.Answers s.loop r d → s.loop.deltaQs r = some d →
      Over s' d ∨ ∃ j ∈ code ++ c, j.Answers s'.loop r d)
    (hb : ¬ i.Brings → ∀ j ∈ code, ¬ j.Brings) : Carries s i c s' code := by
  refine ⟨⟨he.steady,he.length,he.requestId,over_mono hp,fun r e h => hd ▸ h,he.draining⟩,hpo,?_,fun _ => hb,
    fun hq _ => ⟨he.submitQ.trans hq,he.waiting⟩⟩
  rintro r d o (ho | ⟨hr,hb⟩)
  · exact .inl (over_mono hp d ho)
  have hmem : ∀ j ∈ code ++ c, j ∈ code ++ c ++ o := fun j hj => List.mem_append_left _ hj
  rcases hb with (⟨⟨p,hpq,hid⟩,hc⟩ | ⟨j,hj,hid⟩) | ⟨j,hj,hans⟩
  · exact .inr ⟨hd ▸ hr,.inl (.inl ⟨⟨p,he.submitQ ▸ hpq,hid⟩,he.cancelled ▸ hc⟩)⟩
  · by_cases hend : some (s.loop.seq j).requestId = q
    · obtain ⟨f,final,hm,hf⟩ := hq r (by rw [← hend,hid])
      exact .inr ⟨hd ▸ hr,.inr ⟨_,hmem _ hm,rfl,hf⟩⟩
    · refine .inr ⟨hd ▸ hr,.inl (.inr ⟨j,he.live j hj hend,?_⟩)⟩
      rw [he.requestId j (Scheduler.lt_of_unfinished hj)]
      exact hid
  · rcases List.mem_cons.mp hj with rfl | hj
    · rcases ha r d hans hr with ho | ⟨k,hk,hk'⟩
      · exact .inl ho
      · exact .inr ⟨hd ▸ hr,.inr ⟨k,hmem k hk,hk'⟩⟩
    · refine .inr ⟨hd ▸ hr,.inr ⟨j,?_,hans.congr fun hm => he.cancelled ▸ hm⟩⟩
      rw [List.append_assoc]
      exact List.mem_append_right _ hj

theorem Carries.quiet (he : Ends none s.loop s'.loop) (hp : s'.puts = s.puts)
    (hd : s'.loop.deltaQs = s.loop.deltaQs) (hpo : Poised s' (code ++ c))
    (ha : ∀ r d, ¬ i.Answers s.loop r d) (hb : ∀ j ∈ code, ¬ j.Brings) : Carries s i c s' code :=
  .of_ends he (fun _ hx => hp ▸ hx) hd hpo (fun r h => by cases h) (fun r d h => absurd h (ha r d)) fun _ => hb

theorem Carries.ending {q : RequestId} {f : Frame} {final : Bool} (he : Ends (some q) s.loop s'.loop)
    (hp : s'.puts = s.puts) (hd : s'.loop.deltaQs = s.loop.deltaQs) (hf : f.finishReason ≠ none)
    (hc : AllPlain s c) (ha : ∀ r d, i.Answers s.loop r d → r = q) :
    Carries s i c s' [.lookup q f final] := by
  refine .of_ends he (fun _ hx => hp ▸ hx) hd (.lookup q f final (fun _ => hf) (hc.mono he.length)) ?_ ?_
    fun _ => by simp [Instr.Brings]
  · rintro r ⟨⟩
    exact ⟨f,final,by simp,hf⟩
  · rintro r d h _
    exact .inr ⟨.lookup q f final,by simp,(ha r d h).symm,hf⟩

theorem AllPlain.nil : AllPlain s [] :=
  List.forall_mem_nil _

theorem AllPlain.append (hc : AllPlain s c) (hl : s.loop.sched.seqs.length ≤ s'.loop.sched.seqs.length)
    (hcode : AllPlain s' code) : AllPlain s' (code ++ c) :=
  fun j hj => (List.mem_append.mp hj).elim (hcode j) (hc.mono hl j)

theorem AllPlain.tail (h : AllPlain s (i :: c)) : AllPlain s c :=
  fun j hj => h j (List.mem_cons_of_mem i hj)

theorem Poised.same {q : Option RequestId} (h : Poised s c) (he : Ends q s.loop s'.loop)
    (hp : s'.puts = s.puts) (hd : s'.loop.deltaQs = s.loop.deltaQs) : Poised s' c :=
  h.mono he.length he.requestId (over_mono fun _ hx => hp ▸ hx) fun _ _ _ _ _ h => hd ▸ h

theorem Carries.plain (he : Ends none s.loop s'.loop) (hp : s'.puts = s.puts)
    (hd : s'.loop.deltaQs = s.loop.deltaQs) (hc : AllPlain s (i :: c)) (hcode : AllPlain s' code) :
    Carries s i c s' code := by
  refine .quiet he hp hd (.plain (hc.tail.append he.length hcode)) (fun r d ha => ?_)
    fun j hj => (hcode j hj).not_brings
  have hi := hc i List.mem_cons_self
  cases i <;> first | exact ha | exact hi

theorem frame_told {l : EngineLoop R} {j : SeqId} {p : Post} (hl : Steady l) (hj : j < l.sched.seqs.length)
    (hp : p.Spoken (l.seq j)) (hf : p.finished = true) :
    (p.frame ((l.settlePost b j p).seq j)).finishReason ≠ none := by
  rw [seq_settlePost hj,if_pos rfl,Post.frame,settle,if_pos hf]
  cases hr : p.reason with
  | some reason => exact Option.some_ne_none _
  | none => exact hl.told j ((hp.ended hf).resolve_left fun hn => hn hr)

theorem Carries.posted {l : EngineLoop R} {j : SeqId} {p : Post} (he : Ends none s.loop l)
    (hd : l.deltaQs = s.loop.deltaQs) (hj : j < l.sched.seqs.length) (hp : p.Spoken (l.seq j))
    (hc : AllPlain s (i :: c)) (hcode : ∀ k ∈ code, ∀ n, k.Plain n) :
    Carries s i c { s with loop := l.settlePost b j p }
      (.lookup (l.seq j).requestId (p.frame ((l.settlePost b j p).seq j)) p.finished :: code) := by
  have hs := Ends.settlePost (b := b) he.steady j p
  have hface : (l.settlePost b j p).deltaQs = s.loop.deltaQs :=
    (congrArg Prod.fst (face_settlePost (b := b) j p)).trans hd
  have htold := frame_told (b := b) he.steady hj hp
  refine .of_ends (he.weaken.trans hs) (fun _ hx => hx) hface ?_ ?_ (fun r d ha => ?_)
    fun _ => List.forall_mem_cons.mpr ⟨id,fun k hk => (hcode k hk 0).not_brings⟩
  · refine .lookup _ _ _ htold ?_
    exact hc.tail.append (he.length.trans hs.length) fun k hk => hcode k hk _
  · intro r hr
    cases hreason : p.reason with
    | none => rw [hreason] at hr; cases hr
    | some reason =>
      rw [hreason] at hr
      obtain rfl := Option.some.inj hr
      have hfin : p.finished = true := by
        by_contra hn
        rw [hp.going (by simpa using hn)] at hreason
        cases hreason
      exact ⟨_,_,List.mem_cons_self,htold hfin⟩
  · have hi := hc i List.mem_cons_self
    cases i <;> first | exact ha.elim | exact hi.elim

theorem runBurst_ends {l l₁ : EngineLoop R} {j : SeqId} {first : Token} {o : Option Post} (hl : Steady l)
    (h : runBurst b l j first = (l₁,o)) :
    Ends none l l₁ ∧ ∀ p, o = some p → p.Spoken (l₁.seq j) := by
  have hone := Ends.append (q := none) hl j [first]
  unfold runBurst at h
  simp only at h
  generalize (l.modify j fun q => { q with outputIds := q.outputIds ++ [first] }) = s₁ at *
  have hmore : ∀ (r : Ran R (List Token)) toks, Ends none l
      ((s₁.absorb [j] r).modify j fun q => { q with outputIds := q.outputIds ++ toks }) := by
    intro r toks
    have hall := hone.trans (.absorb hone.steady [j] r)
    exact hall.trans (.append hall.steady j toks)
  split_ifs at h
  · split at h <;> cases h
    · exact ⟨hmore _ _,fun p hp => nomatch hp⟩
    · refine ⟨hmore _ _,fun p hp => ?_⟩
      cases hp
      exact postBurst_spoken _ _ _ _ _
  · cases h
    refine ⟨hone,fun p hp => ?_⟩
    cases hp
    exact postBurst_spoken _ _ _ _ _

/-- A step that moves requests between the submit queue and the marks of
`cancel`, or removes a queue. -/
theorem Carries.moved (hs : Steady s.loop) (h1 : s'.loop.sched = s.loop.sched) (h2 : s'.puts = s.puts)
    (h3 : s'.loop.draining = s.loop.draining)
    (hq : ∀ r e, s'.loop.deltaQs r = some e → s.loop.deltaQs r = some e) (hpo : Poised s' (code ++ c))
    (ha : ∀ r d, s.loop.deltaQs r = some d → Over s d ∨ s'.loop.deltaQs r = some d ∧
      ((∃ j ∈ code, j.Answers s'.loop r d) ∨ (r ∈ s'.loop.cancelled → r ∈ s.loop.cancelled) ∧
        (s.loop.Awaited r ∧ r ∉ s.loop.cancelled ∨ i.Answers s.loop r d →
          s'.loop.Awaited r ∧ r ∉ s'.loop.cancelled)))
    (hb : s.loop.submitQ = [] → ¬ i.Brings → s'.loop.submitQ = [] ∧ ∀ j ∈ code, ¬ j.Brings) :
    Carries s i c s' code := by
  have hover : ∀ d, Over s d → Over s' d := over_mono fun _ hx => h2 ▸ hx
  have hseq : ∀ j, s'.loop.seq j = s.loop.seq j := fun j => by rw [seq,h1]; rfl
  refine ⟨⟨⟨by rw [h1]; exact hs.kept,fun j => by rw [hseq]; exact hs.told j⟩,by rw [h1],
    fun j _ => by rw [hseq],hover,hq,h3⟩,hpo,?_,fun h0 hi => (hb h0 hi).2,
    fun h0 hi => ⟨(hb h0 hi).1,fun hw => by rw [h1]; exact hw⟩⟩
  rintro r d o (ho | ⟨hd,hb⟩)
  · exact .inl (hover d ho)
  rcases ha r d hd with ho | ⟨hd',⟨j,hj,hans⟩ | ⟨hmark,hown⟩⟩
  · exact .inl (hover d ho)
  · exact .inr ⟨hd',.inr ⟨j,by simp [hj],hans⟩⟩
  · refine .inr ⟨hd',?_⟩
    rcases hb with (hw | ⟨j,hj⟩) | ⟨j,hj,hans⟩
    · exact .inl (.inl (hown (.inl hw)))
    · exact .inl (.inr ⟨j,by rw [hseq]; exact hj⟩)
    · rcases List.mem_cons.mp hj with rfl | hj
      · exact .inl (.inl (hown (.inr hans)))
      · exact .inr ⟨j,by simp [List.mem_append.mp hj],hans.congr hmark⟩

theorem Carries.noted (hs : Steady s.loop) (hc : AllPlain s (.noteCancel r :: c)) :
    Carries s (.noteCancel r) c
      { s with loop := { s.loop with cancelled := r :: s.loop.cancelled } }
      [.release,.cancelRest r (s.loop.deltaQs r).isSome] := by
  refine .moved hs rfl rfl rfl (fun _ _ h => h) (.release (.rest r _ hc.tail))
    (fun r' d hd => .inr ⟨hd,?_⟩) fun h0 _ => ⟨h0,by simp [Instr.Brings]⟩
  by_cases hr : r' = r
  · subst hr
    exact .inl ⟨.cancelRest r' (s.loop.deltaQs r').isSome,by simp,rfl,by rw [hd]; rfl⟩
  · have hmark : r' ∈ r :: s.loop.cancelled → r' ∈ s.loop.cancelled :=
      fun hm => (List.mem_cons.mp hm).resolve_left hr
    exact .inr ⟨hmark,fun hw => hw.elim (fun hw => ⟨hw.1,fun hm => hw.2 (hmark hm)⟩) fun ha => ha.elim⟩

theorem Carries.taken {p : Pending} {q : List Pending} (hs : Steady s.loop) (hq : s.loop.submitQ = p :: q)
    (hc : AllPlain s (.admitNext :: c)) :
    Carries s .admitNext c { s with loop := { s.loop with submitQ := q } } [.acquire,.admitCheck p] := by
  refine .moved hs rfl rfl rfl (fun _ _ h => h) (.acquire (.check p hc.tail))
    (fun r d hd => .inr ⟨hd,?_⟩) fun h0 _ => absurd (hq.symm.trans h0) (by simp)
  by_cases hr : p.requestId = r ∧ r ∉ s.loop.cancelled
  · exact .inl ⟨.admitCheck p,by simp,hr⟩
  · refine .inr ⟨id,fun hw => hw.elim (fun ⟨⟨p',hp,hid⟩,hn⟩ => ⟨⟨p',?_,hid⟩,hn⟩) fun ha => ha.elim⟩
    rw [hq] at hp
    refine (List.mem_cons.mp hp).resolve_left fun he => hr ?_
    exact ⟨he ▸ hid,hn⟩

theorem Carries.dropped {p : Pending} (hs : Steady s.loop) (hm : p.requestId ∈ s.loop.cancelled)
    (hc : AllPlain s c) : Carries s (.admitCheck p) c
      { s with loop := { s.loop with cancelled := s.loop.cancelled.filter (· ≠ p.requestId) } }
      [.release,.admitNext] := by
  have hall : AllPlain s (.admitNext :: c) := List.forall_mem_cons.mpr ⟨trivial,hc⟩
  refine .moved hs rfl rfl rfl (fun _ _ h => h) (.release (.plain hall)) (fun r d hd =>
    .inr ⟨hd,.inr ⟨fun h => (List.mem_filter.mp h).1,?_⟩⟩) fun _ hi => absurd trivial hi
  rintro (⟨hw,hn⟩ | ⟨rfl,hn⟩)
  · exact ⟨hw,fun h => hn (List.mem_filter.mp h).1⟩
  · exact absurd hm hn

theorem Carries.granted {p : Pending} (hs : Steady s.loop) (hc : AllPlain s c) :
    Carries s (.admitCheck p) c s [.release,.addRequest p,.admitNext] := by
  have hall : AllPlain s (.admitNext :: c) := List.forall_mem_cons.mpr ⟨trivial,hc⟩
  exact .of_ends (q := none) (.refl hs) (fun _ hx => hx) rfl (.release (.add p hall))
    (fun r hr => by cases hr) (fun r d ha _ => .inr ⟨.addRequest p,by simp,ha.1⟩) fun hi => absurd trivial hi

theorem Carries.removed (hs : Steady s.loop) (hd : ∀ e, s.loop.deltaQs r = some e → Over s e)
    (hc : AllPlain s c) : Carries s (.popQueue r d) c
      { s with loop := { s.loop with deltaQs := Function.update s.loop.deltaQs r none } } [] := by
  refine .moved hs rfl rfl rfl (fun r' e he => ?_) (.plain hc) (fun r' e he => ?_) fun h0 _ => ⟨h0,by simp⟩
  · by_cases hr : r' = r
    · rw [hr] at he
      simp at he
    · simpa [hr] using he
  · by_cases hr : r' = r
    · exact .inl (hd e (hr ▸ he))
    · exact .inr ⟨by simpa [hr] using he,.inr ⟨id,fun hw => hw.elim id fun ha => ha.elim⟩⟩

theorem Carries.enqueued {p : Pending} (hs : Steady s.loop) (hc : AllPlain s c) :
    Carries s (.enqueue p) c { s with loop := { s.loop with submitQ := s.loop.submitQ ++ [p] } } [] := by
  refine .moved hs rfl rfl rfl (fun _ _ h => h) (.plain hc) (fun r d hd => .inr ⟨hd,.inr ⟨id,?_⟩⟩)
    fun _ hi => absurd trivial hi
  rintro (⟨⟨p',hp,hid⟩,hn⟩ | ⟨hid,hn⟩)
  · exact ⟨⟨p',List.mem_append_left _ hp,hid⟩,hn⟩
  · exact ⟨⟨p,by simp,hid⟩,hn⟩

theorem Carries.joined {p : Pending} {runner : R} {q : Sequence} (hs : Steady s.loop)
    (hid : q.requestId = p.requestId) (hf : q.finished = false) (hn : q.cancelled = false)
    (hc : AllPlain s c) : Carries s (.addRequest p) c { s with loop := s.loop.joined runner q } [] := by
  have hseq := seq_joined s.loop runner q
  have hnew : (s.loop.joined runner q).seq s.loop.sched.seqs.length = q := by rw [hseq,if_pos rfl]
  have hold : ∀ j < s.loop.sched.seqs.length, (s.loop.joined runner q).seq j = s.loop.seq j :=
    fun j hj => by rw [hseq,if_neg (Nat.ne_of_lt hj)]
  have hlen : s.loop.sched.seqs.length ≤ (s.loop.joined runner q).sched.seqs.length := by
    simp [EngineLoop.joined]
  refine ⟨⟨⟨hs.kept.add hf hn,fun j => ?_⟩,hlen,fun j hj => by rw [hold j hj],fun _ h => h,fun _ _ h => h,
    rfl⟩,.plain (hc.mono hlen),?_,fun _ hi => absurd trivial hi,fun _ hi => absurd trivial hi⟩
  · show ((s.loop.joined runner q).seq j).cancelled = true → ((s.loop.joined runner q).seq j).finishReason ≠ none
    rw [hseq]
    split_ifs
    · simp [hn]
    · exact hs.told j
  rintro r d o (ho | ⟨hd,hb⟩)
  · exact .inl ho
  refine .inr ⟨hd,?_⟩
  rcases hb with (hw | ⟨j,hj,hr⟩) | ⟨j,hj,ha⟩
  · exact .inl (.inl hw)
  · have hlt := Scheduler.lt_of_unfinished hj
    exact .inl (.inr ⟨j,by rw [hold j hlt]; exact hj,by rw [hold j hlt]; exact hr⟩)
  · rcases List.mem_cons.mp hj with rfl | hj
    · exact .inl (.inr ⟨s.loop.sched.seqs.length,by rw [hnew]; exact hf,by rw [hnew]; exact hid.trans ha⟩)
    · exact .inr ⟨j,hj,ha.congr id⟩

/-- `run_batch` on a batch that has been formed, and what follows it. -/
def ran (b : Backend R) (burst : Bool) (l : EngineLoop R) (batch : List (SeqId × Bool)) :
    EngineLoop R × List Instr :=
  let r := b.runBatch l.runner l.sched batch
  let l' := l.absorb (batch.map Prod.fst) r
  match r.result with
  | .error e => (l',batch.map fun m => .abort e m.1)
  | .ok toks => (l',posts burst b l' batch toks)

theorem runBatch_eq (b : Backend R) (burst : Bool) (l : EngineLoop R) :
    runBatch b burst l = if (l.sched.step b.sched).2 = [] then (l.formed b,[])
      else ran b burst (l.formed b) (l.sched.step b.sched).2 := rfl

theorem plain_posts (burst : Bool) (s : Shared R) (batch : List (SeqId × Bool)) (toks : List (Option Token)) :
    AllPlain s (posts burst b s.loop batch toks) := by
  have hall : AllPlain s ((batch.zip toks).map (fun m => Instr.post m.1.1 m.1.2 m.2) ++ [.dropFinished]) := by
    intro j hj
    rcases List.mem_append.mp hj with hj | hj
    · obtain ⟨m,_,rfl⟩ := List.mem_map.mp hj
      trivial
    · rw [List.mem_singleton.mp hj]
      trivial
  unfold posts
  simp only
  split
  · split_ifs with hb
    · intro j hj
      rw [List.mem_singleton.mp hj]
      exact Scheduler.lt_of_unfinished hb.2.2
    · exact hall
  · exact hall

theorem ran_spec (hs : Steady s.loop) (burst : Bool) (batch : List (SeqId × Bool)) :
    Ends none s.loop (ran b burst s.loop batch).1 ∧
      (ran b burst s.loop batch).1.deltaQs = s.loop.deltaQs ∧
      AllPlain { s with loop := (ran b burst s.loop batch).1 } (ran b burst s.loop batch).2 := by
  unfold ran
  simp only
  split
  · refine ⟨.absorb hs _ _,rfl,fun j hj => ?_⟩
    obtain ⟨m,_,rfl⟩ := List.mem_map.mp hj
    trivial
  · exact ⟨.absorb hs _ _,rfl,plain_posts burst { s with loop := s.loop.absorb _ _ } _ _⟩

theorem Carries.formed (hs : Steady s.loop) (hc : AllPlain s (i :: c)) (hcode : ∀ k ∈ code, ∀ n, k.Plain n) :
    Carries s i c { s with loop := s.loop.formed b } code :=
  .plain (.formed hs) rfl rfl hc fun k hk => hcode k hk _

theorem Carries.ran (hs : Steady s.loop) (burst : Bool) (batch : List (SeqId × Bool))
    (hc : AllPlain s (i :: c)) :
    Carries s i c { s with loop := (ran b burst s.loop batch).1 } (Concurrent.ran b burst s.loop batch).2 := by
  obtain ⟨he,hd,hcode⟩ := ran_spec (b := b) hs burst batch
  exact .plain he rfl hd hc hcode

theorem Carries.rested {had : Bool} (hs : Steady s.loop) (hc : AllPlain s c) :
    Carries s (.cancelRest r had) c { s with loop := s.loop.schedCancel b r }
      (if had = true ∨ (s.loop.sched.byRequest r).isSome = true then
        [.lookup r { finishReason := some .cancelled } true] else []) := by
  have hdq : (s.loop.schedCancel b r).deltaQs = s.loop.deltaQs :=
    congrArg Prod.fst (face_schedCancel (b := b) r)
  split_ifs with hfound
  · exact .ending (.schedCancel hs r) rfl hdq (by simp) hc fun r' d h => h.1.symm
  · -- no queue was there and no sequence is: nothing ends
    rw [not_or] at hfound
    have hnone : s.loop.sched.byRequest r = none := by simpa using hfound.2
    have hsame : s.loop.schedCancel b r = s.loop := by simp [EngineLoop.schedCancel,hnone]
    rw [hsame]
    exact .quiet (.refl hs) rfl rfl (.plain hc) (fun r' d h => hfound.1 h.2) (by simp)

theorem Carries.missed {f : Frame} {final : Bool} (hs : Steady s.loop) (hd : s.loop.deltaQs r = none)
    (hc : AllPlain s c) : Carries s (.lookup r f final) c
      { s with loop := { s.loop with emitted := s.loop.emitted ++ [(r,f)] } } [] := by
  refine .of_ends (q := none) (.of_same hs rfl rfl rfl rfl) (fun _ hx => hx) rfl (.plain hc)
    (fun r hr => by cases hr) (fun r' d h hd' => ?_) fun _ => by simp
  rw [← h.1,hd] at hd'
  cases hd'

theorem Carries.found {f : Frame} {final : Bool} (hs : Steady s.loop) (hd : s.loop.deltaQs r = some d)
    (hf : final = true → f.finishReason ≠ none) (hc : AllPlain s c) : Carries s (.lookup r f final) c
      { s with loop := { s.loop with emitted := s.loop.emitted ++ [(r,f)] } } [.put d r f final] := by
  refine .of_ends (q := none) (.of_same hs rfl rfl rfl rfl) (fun _ hx => hx) rfl
    (.put _ r f final hf (fun e he => Option.some.inj (he.symm.trans hd)) hc)
    (fun r hr => by cases hr) (fun r' d h hd' => .inr ⟨_,List.mem_cons_self,?_,h⟩)
    fun _ => by simp [Instr.Brings]
  rw [← h.1,hd] at hd'
  exact Option.some.inj hd'

/-- A frame arrives in a queue that has room. -/
theorem Carries.delivered {f : Frame} {final : Bool} (hs : Steady s.loop)
    (hlt : (s.loop.queue d).length < queueSize) (hf : final = true → f.finishReason ≠ none)
    (hd : ∀ e, s.loop.deltaQs r = some e → e = d) (hc : AllPlain s c) :
    Carries s (.put d r f final) c (s.put b d r f)
      (if final = true then [.acquire,.popQueue r d,.release,.closeSeq r] else []) := by
  have hput : s.put b d r f = { s with
      loop := { s.loop with queues := s.loop.queues.modify d (· ++ [f]) }, puts := s.puts ++ [(d,f)] } := by
    simp only [Shared.put,EngineLoop.put,if_pos hlt]
  rw [hput]
  have hgot : f.finishReason ≠ none → Over { s with
      loop := { s.loop with queues := s.loop.queues.modify d (· ++ [f]) }, puts := s.puts ++ [(d,f)] } d :=
    fun hr => ⟨f,mem_putsOn.mpr (by simp),hr⟩
  refine .of_ends (q := none) (.of_same hs rfl rfl rfl rfl) (fun _ hx => by simp [hx]) rfl ?_
    (fun r hr => by cases hr) (fun r' d' h _ => .inl (h.1 ▸ hgot h.2.2)) fun _ => ?_
  · split_ifs with hfin
    · refine .acquire (.pop r d (fun e he => ?_) ?_)
      · rw [hd e he]
        exact hgot (hf hfin)
      · exact List.forall_mem_cons.mpr ⟨trivial,List.forall_mem_cons.mpr ⟨trivial,hc⟩⟩
    · exact .plain hc
  · split_ifs <;> simp [Instr.Brings]

variable (now) in
/-- Every instruction of the loop and of `cancel`, and the one with which
`submit` puts its request, brings the requests nearer to their answers. -/
theorem exec_carries (hs : Steady s.loop) (hp : Poised s (i :: c))
    (hx : exec b t s i [] now = some (s',code))
    (hroom : ∀ d r f final, i = .put d r f final → (s.loop.queue d).length < queueSize) :
    Carries s i c s' code := by
  cases i with
  | runStep burst =>
    cases hp with
    | plain hc =>
      cases hx
      simp only [List.append_nil]
      rw [runBatch_eq]
      split_ifs
      · exact .formed hs hc (List.forall_mem_nil _)
      · have hform := Ends.formed (b := b) (q := none) hs
        obtain ⟨he,hd,hcode⟩ := ran_spec (b := b) (s := { s with loop := s.loop.formed b }) hform.steady burst
          (s.loop.sched.step b.sched).2
        exact .plain (hform.trans he) rfl hd hc hcode
  | submitCheck p | register p =>
    cases hp with
    | plain h => exact (h _ List.mem_cons_self).elim
  | acquire =>
    have hc : Poised s c := by
      cases hp with
      | plain h => exact .plain h.tail
      | acquire h => exact h
    simp only [exec] at hx
    split_ifs at hx
    cases hx
    exact .quiet (.refl hs) rfl rfl (hc.same (q := none) (.refl hs) rfl rfl) (fun _ _ h => h) (by simp)
  | release =>
    have hc : Poised s c := by
      cases hp with
      | plain h => exact .plain h.tail
      | release h => exact h
    cases hx
    exact .quiet (.refl hs) rfl rfl (hc.same (q := none) (.refl hs) rfl rfl) (fun _ _ h => h) (by simp)
  | enqueue p =>
    cases hp with
    | plain h => exact (h _ List.mem_cons_self).elim
    | enqueue _ hc =>
      cases hx
      exact .enqueued hs hc
  | read d =>
    cases hp with
    | plain hc =>
      cases hx
      exact .plain (.of_same hs rfl rfl rfl rfl) rfl rfl hc .nil
  | noteCancel r =>
    cases hp with
    | plain hc =>
      cases hx
      exact .noted hs hc
  | cancelRest r had =>
    cases hp with
    | plain h => exact (h _ List.mem_cons_self).elim
    | rest _ _ hc =>
      simp only [exec,List.append_nil,Option.some.injEq,Prod.mk.injEq] at hx
      obtain ⟨rfl,rfl⟩ := hx
      exact .rested hs hc
  | lookup r f final =>
    cases hp with
    | plain h => exact (h _ List.mem_cons_self).elim
    | lookup _ _ _ hf hc =>
      simp only [exec] at hx
      split at hx <;> rename_i hd <;> cases hx
      · exact .missed hs hd hc
      · exact .found hs hd hf hc
  | put d r f final =>
    cases hp with
    | plain h => exact (h _ List.mem_cons_self).elim
    | put _ _ _ _ hf hd hc =>
      simp only [exec,List.append_nil,Option.some.injEq,Prod.mk.injEq] at hx
      obtain ⟨rfl,rfl⟩ := hx
      exact .delivered hs (hroom d r f final rfl) hf hd hc
  | popQueue r d =>
    cases hp with
    | plain h => exact (h _ List.mem_cons_self).elim
    | pop _ _ hd hc =>
      cases hx
      exact .removed hs hd hc
  | closeSeq r =>
    cases hp with
    | plain hc =>
      cases hx
      exact .plain (.closeSeq hs r) rfl (congrArg Prod.fst (face_closeSeq (b := b) r)) hc .nil
  | admitNext =>
    cases hp with
    | plain hc =>
      simp only [exec] at hx
      split at hx <;> rename_i hq <;> cases hx
      · exact .plain (.refl hs) rfl rfl hc .nil
      · exact .taken hs hq hc
  | admitCheck p =>
    cases hp with
    | plain h => exact (h _ List.mem_cons_self).elim
    | check _ hc =>
      simp only [exec] at hx
      split_ifs at hx with hm <;> cases hx
      · exact .dropped hs hm hc
      · exact .granted hs hc
  | addRequest p =>
    cases hp with
    | plain h => exact (h _ List.mem_cons_self).elim
    | add _ hc =>
      simp only [exec] at hx
      rcases addRequest_cases b s.loop p.request with ⟨runner,q,hid,_,_,hf,hn,heq⟩ | ⟨runner,e,heq⟩
      · rw [heq] at hx
        cases hx
        exact .joined hs hid hf hn hc
      · rw [heq] at hx
        cases hx
        exact .ending (.of_same hs rfl rfl rfl rfl) rfl rfl (by simp [errorFrame]) hc fun r d h => Eq.symm h
  | timeouts =>
    cases hp with
    | plain hc =>
      cases hx
      refine .plain (.refl hs) rfl rfl hc fun j hj => ?_
      obtain ⟨r,_,rfl⟩ := List.mem_map.mp (by simpa using hj)
      trivial
  | expire r =>
    cases hp with
    | plain hc =>
      cases hx
      exact .ending (.schedCancel hs r) rfl (congrArg Prod.fst (face_schedCancel (b := b) r)) (by simp) hc.tail
        fun r d h => h.elim
  | abort e j =>
    cases hp with
    | plain hc =>
      cases hx
      have hm := Ends.mark (b := b) hs j (f := fun q => q) (fun _ => rfl) .error
      rw [modify_id] at hm
      exact .ending hm rfl rfl (by simp [errorFrame]) hc.tail fun r d h => h.elim
  | post j pre tok =>
    cases hp with
    | plain hc =>
      simp only [exec] at hx
      split at hx
      · cases hx
        exact .plain (.refl hs) rfl rfl hc .nil
      · split_ifs at hx with hf <;> cases hx
        · exact .plain (.refl hs) rfl rfl hc .nil
        · have hlive : (s.loop.seq j).finished = false := by simpa using hf
          have hlt := Scheduler.lt_of_unfinished hlive
          exact .plain (.refl hs) rfl rfl hc (by simpa [AllPlain,Instr.Plain] using hlt)
  | postCheck j pre tok =>
    cases hp with
    | plain hc =>
      have hlt : j < s.loop.sched.seqs.length := hc _ List.mem_cons_self
      simp only [exec] at hx
      split_ifs at hx <;> cases hx
      · refine .quiet (.refl hs) rfl rfl (.cancel j _ hlt (by simp) ?_) (fun r d h => h) (by simp [Instr.Brings])
        exact List.forall_mem_cons.mpr ⟨trivial,hc.tail⟩
      · exact .plain (.refl hs) rfl rfl hc (by simpa [AllPlain,Instr.Plain] using hlt)
  | cancelSeq j =>
    cases hp with
    | plain h => exact (h _ List.mem_cons_self).elim
    | cancel _ f hlt hf hc =>
      cases hx
      have hm := Ends.mark (b := b) hs j (f := fun q => q) (fun _ => rfl) .cancelled
      rw [modify_id] at hm
      refine .of_ends hm (fun _ hx => hx) rfl (.lookup _ f true (fun _ => hf) (hc.mono hm.length)) ?_
        (fun r d h => h.elim) fun _ => by simp
      rintro r ⟨⟩
      exact ⟨f,true,List.mem_cons_self,hf⟩
  | postToken j pre tok =>
    cases hp with
    | plain hc =>
      have hlt : j < s.loop.sched.seqs.length := hc _ List.mem_cons_self
      have hpre : Ends none s.loop (if pre then s.loop.prefilled b j else s.loop) := by
        split_ifs
        · exact .prefilled hs j
        · exact .refl hs
      have hdq : (if pre then s.loop.prefilled b j else s.loop).deltaQs = s.loop.deltaQs := by
        split_ifs
        · exact congrArg Prod.fst (face_prefilled (b := b) j)
        · rfl
      cases hx
      generalize (if pre then s.loop.prefilled b j else s.loop) = l₁ at hpre hdq ⊢
      have hall := hpre.trans (.append hpre.steady j [tok])
      generalize hl₂ : (l₁.modify j fun q => { q with outputIds := q.outputIds ++ [tok] }) = l₂ at hall ⊢
      have hdq₂ : l₂.deltaQs = s.loop.deltaQs := by rw [← hl₂]; exact hdq
      exact .posted (l := l₂.noteText _ _) (hall.trans (.of_same hall.steady rfl rfl rfl rfl)) hdq₂
        (Nat.lt_of_lt_of_le hlt hall.length) (postToken_spoken _ _ _ _) hc (List.forall_mem_nil _)
  | burst j first =>
    cases hp with
    | plain hc =>
      have hlt : j < s.loop.sched.seqs.length := hc _ List.mem_cons_self
      have hface := face_runBurst (b := b) s.loop j first
      simp only [exec] at hx
      split at hx <;> rename_i hrun <;> rw [hrun] at hface <;> cases hx
      · obtain ⟨he,_⟩ := runBurst_ends hs hrun
        exact .plain he rfl (congrArg Prod.fst hface) hc .nil
      · obtain ⟨he,hspoken⟩ := runBurst_ends hs hrun
        refine .posted (l := EngineLoop.noteText _ _ _) (he.trans (.of_same he.steady rfl rfl rfl rfl))
          (congrArg Prod.fst hface) (Nat.lt_of_lt_of_le hlt he.length) (hspoken _ rfl) hc fun k hk n => ?_
        obtain rfl : k = .dropFinished := by simpa using hk
        trivial
  | dropFinished =>
    cases hp with
    | plain hc =>
      cases hx
      exact .plain (.dropFinished hs) rfl rfl hc .nil

def Instr.Cancels : Instr → Prop
  | .acquire => True
  | .release => True
  | .noteCancel _ => True
  | .cancelRest _ _ => True
  | .lookup _ _ _ => True
  | .put _ _ _ _ => True
  | .popQueue _ _ => True
  | .closeSeq _ => True
  | _ => False

theorem exec_cancels (hx : exec b t s i [] now = some (s',code)) (hi : i.Cancels) :
    ∀ j ∈ code, j.Cancels := by
  cases i with
  | acquire =>
    simp only [exec] at hx
    split_ifs at hx
    cases hx
    simp
  | lookup r f final =>
    simp only [exec] at hx
    split at hx <;> cases hx <;> simp [Instr.Cancels]
  | release | noteCancel r | popQueue r d | closeSeq r =>
    cases hx
    simp [Instr.Cancels]
  | cancelRest r had | put d r f final =>
    cases hx
    split_ifs <;> simp [Instr.Cancels]
  | _ => exact hi.elim

def Instr.Last : Instr → Prop
  | .lookup _ f _ => f.finishReason ≠ none
  | .put _ _ f _ => f.finishReason ≠ none
  | .cancelRest _ hadDelta => hadDelta = true
  | _ => False

/-- The instruction belongs to a cancel of the request that is past its mark. -/
def Instr.Of (r : RequestId) : Instr → Prop
  | .cancelRest r' _ => r' = r
  | .lookup r' _ _ => r' = r
  | .put _ r' _ _ => r' = r
  | .popQueue r' _ => r' = r
  | _ => False

theorem Instr.Answers.last {l : EngineLoop R} (h : i.Answers l r d) : i.Last ∨ i.Brings := by
  cases i with
  | lookup r' f final => exact .inl h.2
  | put d' r' f final => exact .inl h.2.2
  | cancelRest r' had => exact .inl h.2
  | enqueue p | admitCheck p | addRequest p => exact .inr trivial
  | _ => exact h.elim

theorem Instr.Cancels.of_answers {l : EngineLoop R} (hi : i.Cancels) (h : i.Answers l r d) : i.Of r := by
  cases i with
  | lookup r' f final => exact h.1
  | put d' r' f final => exact h.2.1
  | cancelRest r' had => exact h.1
  | enqueue p | admitCheck p | addRequest p => exact hi.elim
  | _ => exact h.elim

theorem Instr.Closes.of (h : i.Closes r) : i.Of r := by
  cases i <;> first | exact h | exact h.elim

theorem Pursued.mono (h : Pursued s r d c) (hc : ∀ i ∈ c, i ∈ code) : Pursued s r d code :=
  h.imp_right fun ⟨hd,hb⟩ => ⟨hd,hb.imp_right fun ⟨i,hi,ha⟩ => ⟨i,hc i hi,ha⟩⟩

/-- Two threads at work on the engine, and the requests that have been given
their queues. -/
structure Tended (s : Shared R) (J : RequestId → QueueId → Prop) (c o : List Instr) : Prop where
  steady : Steady s.loop
  mine : Poised s c
  theirs : Poised s o
  pursued : ∀ r d, J r d → Pursued s r d (c ++ o)

section Tended

variable {J : RequestId → QueueId → Prop} {o : List Instr}

theorem Tended.swap (h : Tended s J c o) : Tended s J o c :=
  ⟨h.steady,h.theirs,h.mine,fun r d hj => (h.pursued r d hj).mono fun _ hi =>
    List.mem_append.mpr (List.mem_append.mp hi).symm⟩

theorem Tended.carry (h : Tended s J (i :: c) o) (hc : Carries s i c s' code) :
    Tended s' J (code ++ c) o :=
  ⟨hc.advance.steady,hc.poised,hc.advance.poised h.theirs,fun r d hj => hc.pursued r d o (h.pursued r d hj)⟩

theorem Tended.aside (h : Tended s J c o) (hc : Carries s i [] s' []) : Tended s' J c o :=
  ⟨hc.advance.steady,hc.advance.poised h.mine,hc.advance.poised h.theirs,fun r d hj =>
    hc.pursued r d (c ++ o) ((h.pursued r d hj).mono fun _ hi => List.mem_cons_of_mem _ hi)⟩

theorem Tended.enter (h : Tended s J [] o) (hc : AllPlain s c) : Tended s J c o :=
  ⟨h.steady,.plain hc,h.theirs,fun r d hj => (h.pursued r d hj).mono fun _ hi => List.mem_append_right c hi⟩

theorem Tended.leave (h : Tended s J c o) (hc : AllPlain s c) : Tended s J [] o := by
  have hnil : AllPlain s [] := .nil
  refine ⟨h.steady,.plain hnil,h.theirs,fun r d hj => ?_⟩
  rcases h.pursued r d hj with ho | ⟨hd,hb | ⟨i,hi,ha⟩⟩
  · exact .inl ho
  · exact .inr ⟨hd,.inl hb⟩
  · refine .inr ⟨hd,.inr ⟨i,(List.mem_append.mp hi).resolve_left fun hi => ?_,ha⟩⟩
    have hplain := hc i hi
    cases i <;> first | exact ha | exact hplain

theorem Tended.drain (h : Tended s J c o) :
    Tended { s with loop := { s.loop with draining := true } } J c o := by
  have hpoised : ∀ c, Poised s c → Poised { s with loop := { s.loop with draining := true } } c := fun c hp =>
    hp.mono (Nat.le_refl _) (fun _ _ => rfl) (fun _ ho => ho) fun _ _ _ _ _ he => he
  refine ⟨⟨h.steady.kept,h.steady.told⟩,hpoised c h.mine,hpoised o h.theirs,fun r d hj => ?_⟩
  exact (h.pursued r d hj).imp_right fun ⟨hd,hb⟩ =>
    ⟨hd,hb.imp_right fun ⟨i,hi,ha⟩ => ⟨i,hi,ha.congr id⟩⟩

/-- A request gets its queue, and the one that had its id before has its
terminal frame. -/
theorem Tended.register {p : Pending} (h : Tended s J [] o) (now : Time)
    (hold : ∀ d, J p.requestId d → Over s d) (hn : p.requestId ∉ s.loop.cancelled)
    (hq : ∀ i ∈ o, ¬ i.Closes p.requestId) :
    Tended { s with loop := s.loop.register now p }
      (fun r d => J r d ∨ r = p.requestId ∧ d = s.loop.queues.length) [.release,.enqueue p] o := by
  have hd : ∀ r, r ≠ p.requestId → (s.loop.register now p).deltaQs r = s.loop.deltaQs r := fun r hr =>
    Function.update_of_ne hr ..
  have hnil : AllPlain s [] := .nil
  refine ⟨⟨h.steady.kept,h.steady.told⟩,.release (.enqueue p hnil),?_,?_⟩
  · refine h.theirs.mono (Nat.le_refl _) (fun _ _ => rfl) (fun _ ho => ho) fun i hi r hr e he => ?_
    rw [← hd r fun hid => hq i hi (hid ▸ hr)]
    exact he
  rintro r d (hj | ⟨rfl,rfl⟩)
  · by_cases hr : r = p.requestId
    · exact .inl (hold d (hr ▸ hj))
    rcases h.pursued r d hj with ho | ⟨hq,hb⟩
    · exact .inl ho
    · refine .inr ⟨(hd r hr).trans hq,hb.imp_right fun ⟨i,hi,ha⟩ => ⟨i,?_,ha.congr id⟩⟩
      exact List.mem_append_right _ hi
  · exact .inr ⟨Function.update_self ..,.inr ⟨.enqueue p,by simp,rfl,hn⟩⟩

/-- When the scheduler is empty, nothing brings it a request and no terminal frame
is still to be put, every request has its terminal frame. -/
theorem Tended.over (h : Tended s J c []) (hq : s.loop.submitQ = []) (hw : s.loop.sched.waiting = [])
    (hr : s.loop.sched.running = []) (hb : ∀ i ∈ c, ¬ i.Brings) (hl : ∀ i ∈ c, ¬ i.Last) {r : RequestId}
    {d : QueueId} (hj : J r d) : Over s d := by
  rcases h.pursued r d hj with ho | ⟨_,(⟨⟨p,hp,_⟩,_⟩ | ⟨j,hf,_⟩) | ⟨i,hi,ha⟩⟩
  · exact ho
  · rw [hq] at hp
    cases hp
  · have hmem := (h.steady.kept.queued j).mpr hf
    rw [hw,hr] at hmem
    cases hmem
  · have hi : i ∈ c := by simpa using hi
    exact (ha.last.elim (hl i hi) (hb i hi)).elim

end Tended

end Concurrent

end SglangLite.Loop
