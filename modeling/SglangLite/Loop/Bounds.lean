import SglangLite.Loop.Answers
import SglangLite.Loop.Bursts

set_option autoImplicit false

namespace SglangLite.Loop
open Kv Sched Text

variable {R : Type}

def meter (q : Sequence) : RequestId × List Token × List Token × Nat × Nat :=
  (q.requestId,q.inputIds,q.outputIds,q.maxTokens,q.cacheHitTokens)

structure Sized (q : Sequence) : Prop where
  within : q.outputIds.length ≤ q.maxTokens
  flag : q.cancelled = true → q.finished = true
  hit : q.cacheHitTokens ≤ q.inputIds.length

/-- Between the steps of the loop a running sequence has room for a token. -/
structure Metered (q : Sequence) : Prop extends Sized q where
  room : q.finished = false → q.outputIds.length < q.maxTokens

theorem Sized.of_meter {q q' : Sequence} (h : Sized q) (hm : meter q' = meter q)
    (hf : q'.cancelled = true → q'.finished = true) : Sized q' := by
  simp only [meter,Prod.mk.injEq] at hm
  obtain ⟨_,hi,ho,hx,hc⟩ := hm
  exact ⟨by rw [ho,hx]; exact h.within,hf,by rw [hc,hi]; exact h.hit⟩

theorem Metered.of_meter {q q' : Sequence} (h : Metered q) (hm : meter q' = meter q)
    (hf : q'.finished = false → q.finished = false) (hc : q'.cancelled = true → q'.finished = true) :
    Metered q' := by
  refine ⟨h.toSized.of_meter hm hc,fun hr => ?_⟩
  have hroom := h.room (hf hr)
  simp only [meter,Prod.mk.injEq] at hm
  rwa [hm.2.2.1,hm.2.2.2.1]

theorem metered_default : Metered (default : Sequence) :=
  ⟨⟨Nat.zero_le _,fun _ => rfl,Nat.le_refl _⟩,fun h => by cases h⟩

/-- The checks turn a sequence within its limits into one that has room or is
over. -/
theorem Sized.settle {q : Sequence} {p : Post} (h : Sized q) (hp : p.Fits q) : Metered (settle q p) := by
  have hlen := Nat.le_trans hp.shorter h.within
  unfold Text.settle
  cases hr : p.reason with
  | some reason => exact ⟨⟨hlen,fun _ => rfl,h.hit⟩,fun hf => by cases hf⟩
  | none =>
    refine ⟨⟨hlen,h.flag,h.hit⟩,fun hf => ?_⟩
    have hc : q.cancelled = false := by
      by_contra hc
      have := h.flag (by simpa using hc)
      rw [show q.finished = false from hf] at this
      cases this
    exact Nat.lt_of_le_of_lt hp.shorter (hp.room hc hr)

namespace EngineLoop

variable {b : Backend R} {s s' : EngineLoop R}

theorem length_absorb {α : Type} (s : EngineLoop R) (batch : List SeqId) (r : Ran R α) :
    (s.absorb batch r).sched.seqs.length = s.sched.seqs.length := by
  have hfold : ∀ sc : Scheduler, (batch.foldl (fun sc i =>
      sc.modify i fun q => { q with cachedLen := r.cached i }) sc).seqs.length = sc.seqs.length := by
    induction batch with
    | nil => exact fun _ => rfl
    | cons i batch ih => exact fun sc => (ih _).trans (Scheduler.length_modify _ _ _)
  exact hfold s.sched

theorem seq_absorb {α : Type} (s : EngineLoop R) (batch : List SeqId) (r : Ran R α) (j : SeqId) :
    ∃ n, (s.absorb batch r).seq j = { s.seq j with cachedLen := n } := by
  have hfold : ∀ sc : Scheduler, ∃ n, (batch.foldl (fun sc i =>
      sc.modify i fun q => { q with cachedLen := r.cached i }) sc).seq j =
        { sc.seq j with cachedLen := n } := by
    induction batch with
    | nil => exact fun sc => ⟨(sc.seq j).cachedLen,rfl⟩
    | cons i batch ih =>
      intro sc
      obtain ⟨n,hn⟩ := ih (sc.modify i fun q => { q with cachedLen := r.cached i })
      refine ⟨n,hn.trans ?_⟩
      rw [Scheduler.seq_modify]
      split_ifs with h
      · rw [h.1]
      · rfl
  exact hfold s.sched

structure Budgeted (s : EngineLoop R) : Prop where
  seqs : ∀ i, Metered (s.seq i)
  submitted : ∀ p ∈ s.submitQ, p.request.maxTokens ≠ 0

structure Spares (s s' : EngineLoop R) : Prop where
  length : s.sched.seqs.length ≤ s'.sched.seqs.length
  bill : ∀ i < s.sched.seqs.length, meter (s'.seq i) = meter (s.seq i)
  budgeted : Budgeted s → Budgeted s'

namespace Spares

theorem refl (s : EngineLoop R) : Spares s s := ⟨Nat.le_refl _,fun _ _ => rfl,fun h => h⟩

theorem trans {s'' : EngineLoop R} (h : Spares s s') (h' : Spares s' s'') : Spares s s'' :=
  ⟨h.length.trans h'.length,
    fun i hi => (h'.bill i (Nat.lt_of_lt_of_le hi h.length)).trans (h.bill i hi),
    fun hb => h'.budgeted (h.budgeted hb)⟩

theorem of_same (h : s'.sched.seqs = s.sched.seqs) (hq : s'.submitQ = s.submitQ) : Spares s s' := by
  have hseq : ∀ i, s'.seq i = s.seq i := fun i => by rw [seq,seq,Scheduler.seq,Scheduler.seq,h]
  exact ⟨by rw [h],fun i _ => by rw [hseq],
    fun hb => ⟨fun i => by rw [hseq]; exact hb.seqs i,by rw [hq]; exact hb.submitted⟩⟩

theorem of_seqs (hl : s'.sched.seqs.length = s.sched.seqs.length) (hq : s'.submitQ = s.submitQ)
    (h : ∀ i, meter (s'.seq i) = meter (s.seq i))
    (hm : ∀ i, Metered (s.seq i) → Metered (s'.seq i)) : Spares s s' :=
  ⟨Nat.le_of_eq hl.symm,fun i _ => h i,fun hb => ⟨fun i => hm i (hb.seqs i),by rw [hq]; exact hb.submitted⟩⟩

theorem modify (s : EngineLoop R) (i : SeqId) {f : Sequence → Sequence}
    (hf : ∀ q, Loop.meter (f q) = Loop.meter q) (hfin : ∀ q, (f q).finished = q.finished)
    (hc : ∀ q, (f q).cancelled = q.cancelled) : Spares s (s.modify i f) := by
  refine of_seqs (Scheduler.length_modify _ _ _) rfl (fun j => ?_) fun j hj => ?_
  · rw [seq_modify]
    split_ifs with h
    · rw [h.1,hf]
    · rfl
  · rw [seq_modify]
    split_ifs with h
    · rw [← h.1]
      exact hj.of_meter (hf _) (by rw [hfin]; exact id) (by rw [hc,hfin]; exact hj.flag)
    · exact hj

theorem ended (s : EngineLoop R) (i : SeqId) {f : Sequence → Sequence}
    (hf : ∀ q, Loop.meter (f q) = Loop.meter q) (reason : FinishReason) :
    Spares s ((s.modify i f).mark b i reason) := by
  have hseq : ∀ j, ((s.modify i f).mark b i reason).seq j = if j = i ∧ i < s.sched.seqs.length then
      finish (f (s.seq i)) reason else s.seq j := fun j => Scheduler.seq_end s.sched i j f reason
  refine of_seqs ?_ rfl (fun j => ?_) fun j hj => ?_
  · exact (Scheduler.length_modify _ _ _).trans (Scheduler.length_modify _ _ _)
  · rw [hseq]
    split_ifs with h
    · rw [h.1]
      exact hf _
    · rfl
  · rw [hseq]
    split_ifs with h
    · rw [← h.1]
      exact hj.of_meter (hf _) (fun he => by cases he) fun _ => rfl
    · exact hj

theorem mark (s : EngineLoop R) (i : SeqId) (reason : FinishReason) : Spares s (s.mark b i reason) := by
  have h := ended (b := b) s i (f := fun q => q) (fun _ => rfl) reason
  rwa [modify_id] at h

theorem schedCancel (s : EngineLoop R) (r : RequestId) : Spares s (s.schedCancel b r) := by
  unfold EngineLoop.schedCancel
  split
  · exact refl s
  · exact ended s _ (f := fun q => { q with cancelled := true }) (fun _ => rfl) .cancelled

theorem put (s : EngineLoop R) (d : QueueId) (r : RequestId) (f : Frame) : Spares s (s.put b d r f) := by
  unfold EngineLoop.put
  split_ifs
  · exact of_same rfl rfl
  · exact schedCancel s r

theorem closeSeq (s : EngineLoop R) (r : RequestId) : Spares s (s.closeSeq b r) := by
  unfold EngineLoop.closeSeq
  split_ifs <;> exact of_same rfl rfl

theorem absorb {α : Type} (s : EngineLoop R) (batch : List SeqId) (r : Ran R α) :
    Spares s (s.absorb batch r) := by
  refine of_seqs (length_absorb s batch r) rfl (fun j => ?_) fun j hj => ?_
  · obtain ⟨n,hn⟩ := seq_absorb s batch r j
    rw [hn]
    rfl
  · obtain ⟨n,hn⟩ := seq_absorb s batch r j
    rw [hn]
    exact { hj with }

theorem prefilled (s : EngineLoop R) (i : SeqId) : Spares s (s.prefilled b i) := by
  have h := modify s i (f := fun q => { q with cachedLen := q.inputIds.length }) (fun _ => rfl)
    (fun _ => rfl) (fun _ => rfl)
  unfold EngineLoop.prefilled
  split_ifs
  · exact h
  · exact h.trans (of_same rfl rfl)

theorem addRequest (hb : Frugal b) (s : EngineLoop R) {q : Request} (hq : q.maxTokens ≠ 0) :
    Spares s (s.addRequest b q).1 := by
  unfold EngineLoop.addRequest
  split_ifs
  · exact refl s
  · exact refl s
  · split
    · exact of_same rfl rfl
    · rename_i runner cached hit hm
      have hhit := hb.hit _ _ _ _ _ (congrArg Prod.snd hm)
      have hnew : Metered { q.sequence b.eos with cachedLen := cached, cacheHitTokens := hit } :=
        ⟨⟨Nat.zero_le _,fun h => (by cases h),hhit⟩,fun _ => Nat.pos_of_ne_zero hq⟩
      refine ⟨by simp,fun i hi => ?_,fun hs => ⟨fun i => ?_,hs.submitted⟩⟩
      · simp only [seq,Scheduler.seq,List.getD_eq_getElem?_getD]
        rw [List.getElem?_append_left hi]
      · have hold := hs.seqs i
        simp only [seq,Scheduler.seq,List.getD_eq_getElem?_getD] at hold ⊢
        rcases Nat.lt_trichotomy i s.sched.seqs.length with hi | hi | hi
        · rwa [List.getElem?_append_left hi]
        · rw [hi,List.getElem?_concat_length]
          exact hnew
        · rw [List.getElem?_eq_none (by simp; omega)]
          exact metered_default

end Spares

def HasRoom (s : EngineLoop R) (i : SeqId) : Prop :=
  i < s.sched.seqs.length ∧ (s.seq i).outputIds.length < (s.seq i).maxTokens

theorem seq_appended {i : SeqId} (hi : i < s.sched.seqs.length) (toks : List Token) :
    (s.modify i fun q => { q with outputIds := q.outputIds ++ toks }).seq i =
      { s.seq i with outputIds := (s.seq i).outputIds ++ toks } := by
  rw [seq_modify,if_pos ⟨rfl,hi⟩]

/-- Between the new tokens of a sequence and its checks. -/
structure Filling (s : EngineLoop R) (i : SeqId) : Prop where
  lt : i < s.sched.seqs.length
  others : ∀ j, j ≠ i → Metered (s.seq j)
  sized : Sized (s.seq i)
  submitted : ∀ p ∈ s.submitQ, p.request.maxTokens ≠ 0

theorem Budgeted.filling (h : Budgeted s) {i : SeqId} (hi : i < s.sched.seqs.length) : Filling s i :=
  ⟨hi,fun j _ => h.seqs j,(h.seqs i).toSized,h.submitted⟩

namespace Filling

variable {i : SeqId}

theorem budgeted (h : Filling s i) (hroom : HasRoom s i) : Budgeted s := by
  refine ⟨fun j => ?_,h.submitted⟩
  by_cases hj : j = i
  · rw [hj]
    exact ⟨h.sized,fun _ => hroom.2⟩
  · exact h.others j hj

theorem append (h : Filling s i) (toks : List Token)
    (hlen : (s.seq i).outputIds.length+toks.length ≤ (s.seq i).maxTokens) :
    Filling (s.modify i fun q => { q with outputIds := q.outputIds ++ toks }) i := by
  refine ⟨by simpa [EngineLoop.modify] using h.lt,fun j hj => ?_,?_,h.submitted⟩
  · rw [seq_modify,if_neg fun hc => hj hc.1]
    exact h.others j hj
  · rw [seq_appended h.lt]
    exact { h.sized with within := by simpa using hlen }

theorem absorb {α : Type} (h : Filling s i) (batch : List SeqId) (r : Ran R α) :
    Filling (s.absorb batch r) i := by
  refine ⟨by rw [length_absorb]; exact h.lt,fun j hj => ?_,?_,h.submitted⟩
  · obtain ⟨n,hn⟩ := seq_absorb s batch r j
    rw [hn]
    exact { h.others j hj with }
  · obtain ⟨n,hn⟩ := seq_absorb s batch r i
    rw [hn]
    exact { h.sized with }

theorem length_settlePost (s : EngineLoop R) (i : SeqId) (p : Post) :
    (s.settlePost b i p).sched.seqs.length = s.sched.seqs.length := by
  unfold settlePost
  cases p.reason with
  | none => exact Scheduler.length_modify _ _ _
  | some reason => exact (Scheduler.length_modify _ _ _).trans (Scheduler.length_modify _ _ _)

theorem submitQ_settlePost (s : EngineLoop R) (i : SeqId) (p : Post) :
    (s.settlePost b i p).submitQ = s.submitQ := by
  unfold settlePost
  cases p.reason <;> rfl

theorem settlePost (h : Filling s i) {p : Post} (hp : p.Fits (s.seq i)) :
    Budgeted (s.settlePost b i p) := by
  refine ⟨fun j => ?_,by rw [submitQ_settlePost]; exact h.submitted⟩
  rw [seq_settlePost h.lt]
  split_ifs with hj
  · exact h.sized.settle hp
  · exact h.others j hj

end Filling

end EngineLoop

namespace Concurrent
open EngineLoop

variable {b : Backend R} {t u : Tid} {s s' : Shared R} {m m' : Machine R} {i : Instr}
  {rest code : List Instr} {now : Time}

/-- The `usage` and the `output_ids` of a frame are those of a sequence of the
request. -/
def Billed (l : EngineLoop R) (r : RequestId) (f : Frame) : Prop :=
  f.usage ≠ none ∨ f.outputIds ≠ none → ∃ i < l.sched.seqs.length, (l.seq i).requestId = r ∧
    (∀ x, f.usage = some x → x = usage (l.seq i)) ∧
    ∀ ids, f.outputIds = some ids → ids = (l.seq i).outputIds

def Instr.Due (l : EngineLoop R) : Instr → Prop
  | .register p => p.request.maxTokens ≠ 0
  | .enqueue p => p.request.maxTokens ≠ 0
  | .admitCheck p => p.request.maxTokens ≠ 0
  | .addRequest p => p.request.maxTokens ≠ 0
  | .lookup r f _ => Billed l r f
  | .abort _ i => i < l.sched.seqs.length
  | .postCheck i _ _ => HasRoom l i
  | .postToken i _ _ => HasRoom l i
  | .burst i _ => HasRoom l i
  | _ => True

/-- The instruction will be due whatever the loop does before. -/
def Instr.Lasting (l : EngineLoop R) (i : Instr) : Prop :=
  ∀ l' : EngineLoop R, l.sched.seqs.length ≤ l'.sched.seqs.length → i.Due l'

def Instr.Writes : Instr → Prop
  | .postToken _ _ _ => True
  | .burst _ _ => True
  | _ => False

def Instr.Serves : Instr → Prop
  | .submitCheck _ => True
  | .acquire => True
  | .register _ => True
  | .release => True
  | .enqueue _ => True
  | .read _ => True
  | .noteCancel _ => True
  | .cancelRest _ _ => True
  | .lookup _ _ _ => True
  | .put _ _ _ _ => True
  | .popQueue _ _ => True
  | .closeSeq _ => True
  | _ => False

/-- All that the loop thread has still to do is due when its turn comes. -/
inductive Owed (l : EngineLoop R) : List Instr → Prop where
  | rest {c : List Instr} : (∀ i ∈ c, Instr.Lasting l i) → Owed l c
  | due {i : Instr} {c : List Instr} : Instr.Due l i → (∀ j ∈ c, Instr.Lasting l j) → Owed l (i :: c)
  | first {i : Instr} {c : List Instr} : (i = .acquire ∨ i = .release ∨ ∃ j, i = .cancelSeq j) →
      Owed l c → Owed l (i :: c)

theorem Instr.Lasting.mono {l l' : EngineLoop R} (h : Instr.Lasting l i)
    (hl : l.sched.seqs.length ≤ l'.sched.seqs.length) : Instr.Lasting l' i :=
  fun l'' hl'' => h l'' (hl.trans hl'')

theorem Instr.Lasting.due {l : EngineLoop R} (h : Instr.Lasting l i) : i.Due l := h l (Nat.le_refl _)

section Spared

variable {l l' : EngineLoop R}

theorem spared_seq (h : Spares l l') {j : SeqId} (hj : j < l.sched.seqs.length) :
    (l'.seq j).requestId = (l.seq j).requestId ∧ (l'.seq j).outputIds = (l.seq j).outputIds ∧
      (l'.seq j).maxTokens = (l.seq j).maxTokens ∧ usage (l'.seq j) = usage (l.seq j) := by
  have hm := h.bill j hj
  simp only [meter,Prod.mk.injEq] at hm
  obtain ⟨hr,hi,ho,hx,hc⟩ := hm
  exact ⟨hr,ho,hx,by rw [usage,usage,hi,ho,hc]⟩

theorem Billed.spared {r : RequestId} {f : Frame} (h : Billed l r f) (hs : Spares l l') :
    Billed l' r f := by
  intro hf
  obtain ⟨j,hj,hr,hu,ho⟩ := h hf
  obtain ⟨hr',ho',_,hu'⟩ := spared_seq hs hj
  exact ⟨j,Nat.lt_of_lt_of_le hj hs.length,hr'.trans hr,fun x hx => by rw [hu']; exact hu x hx,
    fun ids hids => by rw [ho']; exact ho ids hids⟩

theorem HasRoom.spared {j : SeqId} (h : HasRoom l j) (hs : Spares l l') : HasRoom l' j := by
  obtain ⟨_,ho,hx,_⟩ := spared_seq hs h.1
  exact ⟨Nat.lt_of_lt_of_le h.1 hs.length,by rw [ho,hx]; exact h.2⟩

theorem Instr.Due.spared (h : i.Due l) (hs : Spares l l') : i.Due l' := by
  cases i with
  | lookup r f final => exact Billed.spared h hs
  | postCheck j pre tok | postToken j pre tok | burst j first => exact HasRoom.spared h hs
  | abort e j => exact Nat.lt_of_lt_of_le h hs.length
  | _ => exact h

theorem Owed.spared (h : Owed l code) (hs : Spares l l') : Owed l' code := by
  induction h with
  | rest hc => exact .rest fun i hi => (hc i hi).mono hs.length
  | due hd hc => exact .due (hd.spared hs) fun i hi => (hc i hi).mono hs.length
  | first hi _ ih => exact .first hi ih

end Spared

theorem lasting_of_blank {l : EngineLoop R} {r : RequestId} {f : Frame} {final : Bool}
    (hu : f.usage = none) (ho : f.outputIds = none) : Instr.Lasting l (.lookup r f final) :=
  fun _ _ h => absurd h (by simp [hu,ho])

theorem exec_spares (hb : Frugal b) (h : exec b t s i rest now = some (s',code)) (hd : i.Due s.loop)
    (hw : ¬ i.Writes) : Spares s.loop s'.loop := by
  cases i with
  | postToken j pre tok | burst j first => exact absurd trivial hw
  | enqueue p =>
    cases h
    refine ⟨Nat.le_refl _,fun _ _ => rfl,fun hl => ⟨hl.seqs,fun q hq => ?_⟩⟩
    rcases List.mem_append.mp hq with hq | hq
    · exact hl.submitted q hq
    · rw [List.mem_singleton.mp hq]
      exact hd
  | admitNext =>
    simp only [exec] at h
    split at h
    · cases h
      exact .refl _
    · rename_i p q hq
      cases h
      exact ⟨Nat.le_refl _,fun _ _ => rfl,
        fun hl => ⟨hl.seqs,fun x hx => hl.submitted x (by rw [hq]; exact List.mem_cons_of_mem p hx)⟩⟩
  | addRequest p =>
    have hadd := Spares.addRequest hb s.loop (q := p.request) hd
    simp only [exec] at h
    split at h <;> rename_i hx <;> rw [hx] at hadd <;> cases h <;> exact hadd
  | runStep burst =>
    cases h
    have hstep : Spares s.loop { s.loop with sched := (s.loop.sched.step b.sched).1 } := .of_same rfl rfl
    unfold runBatch
    simp only
    split_ifs
    · exact hstep
    · split <;> exact hstep.trans (.absorb _ _ _)
  | acquire | submitCheck p | admitCheck p | postCheck j pre tok | lookup r f final =>
    simp only [exec] at h
    split at h <;> cases h <;> exact .of_same rfl rfl
  | post j pre tok =>
    simp only [exec] at h
    split at h
    · cases h
      exact .refl _
    · split at h <;> cases h <;> exact .refl _
  | release | register p | read d | noteCancel r | popQueue r d | timeouts | dropFinished =>
    cases h
    exact .of_same rfl rfl
  | cancelRest r had | expire r =>
    cases h
    exact .schedCancel _ r
  | put d r f final =>
    cases h
    exact .put _ d r f
  | closeSeq r =>
    cases h
    exact .closeSeq _ r
  | abort e j =>
    cases h
    exact .mark _ j .error
  | cancelSeq j =>
    cases h
    exact .mark _ j .cancelled

theorem settlePost_billed {l : EngineLoop R} {j : SeqId} (h : Filling l j) (p : Post) :
    Billed (l.settlePost b j p) (l.seq j).requestId (p.frame ((l.settlePost b j p).seq j)) := by
  intro _
  refine ⟨j,by rw [Filling.length_settlePost]; exact h.lt,?_,fun x hx => ?_,fun ids hids => ?_⟩
  · rw [seq_settlePost h.lt,if_pos rfl]
    exact settle_requestId _ p
  · simp only [Post.frame] at hx
    split_ifs at hx
    exact (Option.some.inj hx).symm
  · simp only [Post.frame] at hids
    split_ifs at hids
    exact (Option.some.inj hids).symm

theorem runBurst_spec (hb : Frugal b) {l l₁ : EngineLoop R} {j : SeqId} {first : Token} {o : Option Post}
    (h : runBurst b l j first = (l₁,o)) (hl : Budgeted l) (hroom : HasRoom l j) :
    l₁.sched.seqs.length = l.sched.seqs.length ∧ (l₁.seq j).requestId = (l.seq j).requestId ∧
      (o = none → Budgeted l₁) ∧ ∀ p, o = some p → Filling l₁ j ∧ p.Fits (l₁.seq j) := by
  have hfill := (hl.filling hroom.1).append [first] hroom.2
  have hseq := seq_appended hroom.1 [first]
  have hlen : (l.modify j fun q => { q with outputIds := q.outputIds ++ [first] }).sched.seqs.length =
      l.sched.seqs.length := Scheduler.length_modify _ _ _
  unfold runBurst at h
  simp only at h
  generalize (l.modify j fun q => { q with outputIds := q.outputIds ++ [first] }) = s₁ at *
  have hone : (s₁.seq j).outputIds.length = (l.seq j).outputIds.length+1 := by rw [hseq]; simp
  have hmax : (s₁.seq j).maxTokens = (l.seq j).maxTokens := by rw [hseq]
  have hid : (s₁.seq j).requestId = (l.seq j).requestId := by rw [hseq]
  by_cases hx : 0 < min ((l.seq j).maxTokens-(l.seq j).outputIds.length-1) (b.burst-1)
  · rw [if_pos hx] at h
    have hbound := Nat.min_le_left ((l.seq j).maxTokens-(l.seq j).outputIds.length-1) (b.burst-1)
    generalize min ((l.seq j).maxTokens-(l.seq j).outputIds.length-1) (b.burst-1) = extra at *
    have htoks := hb.burst s₁.runner s₁.sched j extra
    have hraise := hb.fault s₁.runner s₁.sched j extra
    generalize b.decodeBurst s₁.runner s₁.sched j extra = r at *
    obtain ⟨n,hn⟩ := seq_absorb s₁ [j] r j
    have hfill₂ := hfill.absorb [j] r
    have hlen₂ := length_absorb s₁ [j] r
    generalize s₁.absorb [j] r = s₂ at *
    have hone₂ : (s₂.seq j).outputIds.length = (l.seq j).outputIds.length+1 := by rw [hn]; exact hone
    have hmax₂ : (s₂.seq j).maxTokens = (l.seq j).maxTokens := by rw [hn]; exact hmax
    have hid₂ : (s₂.seq j).requestId = (l.seq j).requestId := by rw [hn]; exact hid
    have hmod : ∀ toks, ((s₂.modify j fun q => { q with outputIds := q.outputIds ++ toks }).sched.seqs.length =
        l.sched.seqs.length) ∧ ((s₂.modify j fun q => { q with outputIds := q.outputIds ++ toks }).seq
          j).requestId = (l.seq j).requestId := by
      intro toks
      refine ⟨(Scheduler.length_modify _ _ _).trans (hlen₂.trans hlen),?_⟩
      rw [seq_appended hfill₂.lt]
      exact hid₂
    cases hr : r.result with
    | error e =>
      have hfew := hraise e hr
      rw [hr] at h
      cases h
      refine ⟨(hmod _).1,(hmod _).2,fun _ => ?_,fun p hp => by cases hp⟩
      have hfill₃ := hfill₂.append r.appended (by omega)
      refine hfill₃.budgeted ⟨hfill₃.lt,?_⟩
      rw [seq_appended hfill₂.lt]
      simp only [List.length_append]
      omega
    | ok more =>
      have hfew := htoks more hr
      rw [hr] at h
      cases h
      refine ⟨(hmod _).1,(hmod _).2,(fun hp => nomatch hp),fun p hp => ?_⟩
      cases hp
      exact ⟨hfill₂.append more (by omega),postBurst_fits _ _ _ _ _ _⟩
  · rw [if_neg hx] at h
    cases h
    refine ⟨hlen,hid,(fun hp => nomatch hp),fun p hp => ?_⟩
    cases hp
    exact ⟨hfill,postBurst_fits _ _ _ _ _ _⟩

theorem exec_writes (hb : Frugal b) (h : exec b t s i rest now = some (s',code)) (hw : i.Writes)
    (hd : i.Due s.loop) (hl : Budgeted s.loop) (hr : ∀ j ∈ rest, Instr.Lasting s.loop j) :
    s.loop.sched.seqs.length ≤ s'.loop.sched.seqs.length ∧ Budgeted s'.loop ∧ Owed s'.loop code := by
  cases i with
  | postToken j pre tok =>
    have hpre : Spares s.loop (if pre then s.loop.prefilled b j else s.loop) := by
      split_ifs
      · exact .prefilled _ j
      · exact .refl _
    have hroom : HasRoom (if pre then s.loop.prefilled b j else s.loop) j := HasRoom.spared hd hpre
    cases h
    simp only
    generalize (if pre then s.loop.prefilled b j else s.loop) = l₁ at hpre hroom ⊢
    have hfill := ((hpre.budgeted hl).filling hroom.1).append [tok] hroom.2
    have hlen : s.loop.sched.seqs.length ≤
        (l₁.modify j fun q => { q with outputIds := q.outputIds ++ [tok] }).sched.seqs.length := by
      refine hpre.length.trans (Nat.le_of_eq ?_)
      exact (Scheduler.length_modify _ _ _).symm
    generalize (l₁.modify j fun q => { q with outputIds := q.outputIds ++ [tok] }) = l₂ at hfill hlen ⊢
    have hnote : ∀ assigned, Filling (l₂.noteText (s.loop.seq j).requestId assigned) j :=
      fun _ => { hfill with }
    refine ⟨?_,(hnote _).settlePost (postToken_fits b.tk (l₂.seq j) tok _),
      .due (settlePost_billed (hnote _) _) fun y hy => (hr y hy).mono ?_⟩
    · rw [Filling.length_settlePost]
      exact hlen
    · rw [Filling.length_settlePost]
      exact hlen
  | burst j first =>
    simp only [exec] at h
    split at h
    · rename_i l₁ hx
      obtain ⟨hlen,_,hnone,_⟩ := runBurst_spec hb hx hl hd
      cases h
      exact ⟨Nat.le_of_eq hlen.symm,hnone rfl,.rest (by simp)⟩
    · rename_i l₁ p hx
      obtain ⟨hlen,_,_,hsome⟩ := runBurst_spec hb hx hl hd
      obtain ⟨hfill,hfits⟩ := hsome p rfl
      cases h
      have hnote : ∀ assigned, Filling (l₁.noteText (s.loop.seq j).requestId assigned) j :=
        fun _ => { hfill with }
      have hle : ∀ assigned, s.loop.sched.seqs.length ≤ ((l₁.noteText (s.loop.seq j).requestId
          assigned).settlePost b j p).sched.seqs.length := by
        intro assigned
        rw [Filling.length_settlePost]
        exact Nat.le_of_eq hlen.symm
      refine ⟨hle _,(hnote _).settlePost hfits,.due (settlePost_billed (hnote _) p) fun y hy => ?_⟩
      rcases List.mem_cons.mp hy with rfl | hy
      · exact fun _ _ => trivial
      · exact (hr y hy).mono (hle _)
  | _ => exact absurd hw (by simp [Instr.Writes])

theorem owed_posts (burst : Bool) {l : EngineLoop R} (hl : Budgeted l) (batch : List (SeqId × Bool))
    (toks : List (Option Token)) (hr : ∀ j ∈ rest, Instr.Lasting l j) :
    Owed l (posts burst b l batch toks ++ rest) := by
  have hall : Owed l (((batch.zip toks).map (fun m => Instr.post m.1.1 m.1.2 m.2) ++ [.dropFinished]) ++
      rest) := by
    refine .rest fun j hj => ?_
    rcases List.mem_append.mp hj with hj | hj
    · rcases List.mem_append.mp hj with hj | hj
      · obtain ⟨m,_,rfl⟩ := List.mem_map.mp hj
        exact fun _ _ => trivial
      · rw [List.mem_singleton.mp hj]
        exact fun _ _ => trivial
    · exact hr j hj
  unfold posts
  simp only
  split
  · rename_i i first toks
    split_ifs with hb
    · exact .due ⟨Scheduler.lt_of_unfinished hb.2.2,(hl.seqs i).room hb.2.2⟩ hr
    · exact hall
  · exact hall

theorem owed_runBatch (burst : Bool) {l : EngineLoop R} (hl : Budgeted l)
    (hs : Spares l (runBatch b burst l).1) (hr : ∀ j ∈ rest, Instr.Lasting (runBatch b burst l).1 j) :
    Owed (runBatch b burst l).1 ((runBatch b burst l).2 ++ rest) := by
  have hall := hs.budgeted hl
  have hmem : ∀ x ∈ (l.sched.step b.sched).2, x.1 < l.sched.seqs.length := fun x hx =>
    Scheduler.lt_of_unfinished ((Scheduler.step_runnable b.sched l.sched).1 x hx).1
  unfold runBatch at hall hr ⊢
  simp only at hall hr ⊢
  split_ifs at hall hr ⊢
  · exact .rest hr
  · split at hall <;> rename_i hres <;> simp only [hres] at hr ⊢
    · refine .rest fun j hj => ?_
      rcases List.mem_append.mp hj with hj | hj
      · obtain ⟨x,hx,rfl⟩ := List.mem_map.mp hj
        rw [Instr.Lasting,length_absorb]
        exact fun l' hle => Nat.lt_of_lt_of_le (hmem x hx) hle
      · exact hr j hj
    · exact owed_posts burst hall _ _ hr

theorem exec_owes (h : exec b t s i rest now = some (s',code)) (hw : ¬ i.Writes) (hd : i.Due s.loop)
    (hl : Budgeted s.loop) (hs : Spares s.loop s'.loop) (hr : ∀ j ∈ rest, Instr.Lasting s.loop j) :
    Owed s'.loop code := by
  have hrest : ∀ j ∈ rest, Instr.Lasting s'.loop j := fun j hj => (hr j hj).mono hs.length
  have happ : ∀ {c : List Instr}, (∀ j ∈ c, Instr.Lasting s'.loop j) → Owed s'.loop (c ++ rest) :=
    fun hc => .rest fun j hj => (List.mem_append.mp hj).elim (hc j) (hrest j)
  have hfree : ∀ j : Instr, (∀ l' : EngineLoop R, j.Due l') → Instr.Lasting s'.loop j := fun _ hj l' _ => hj l'
  cases i with
  | postToken j pre tok | burst j first => exact absurd trivial hw
  | acquire =>
    simp only [exec] at h
    split_ifs at h
    cases h
    exact .rest hrest
  | submitCheck p =>
    simp only [exec] at h
    split at h
    · cases h
      exact .rest (by simp)
    · rename_i hre
      cases h
      have hp : p.request.maxTokens ≠ 0 := fun h0 => hre (by simp [refuses,h0])
      exact happ (c := [_,_,_,_]) (by simpa using ⟨hfree _ fun _ => trivial,hfree _ fun _ => hp,
        hfree _ fun _ => trivial,hfree _ fun _ => hp⟩)
  | admitNext =>
    simp only [exec] at h
    split at h
    · cases h
      exact .rest hrest
    · rename_i p q hq
      cases h
      have hp := hl.submitted p (by rw [hq]; exact List.mem_cons_self)
      exact happ (c := [_,_]) (by simpa using ⟨hfree _ fun _ => trivial,hfree _ fun _ => hp⟩)
  | admitCheck p =>
    simp only [exec] at h
    split at h
    · cases h
      exact happ (c := [_,_]) (by simpa using ⟨hfree _ fun _ => trivial,hfree _ fun _ => trivial⟩)
    · cases h
      exact happ (c := [_,_,_]) (by simpa using ⟨hfree _ fun _ => trivial,hfree _ fun _ => hd,
        hfree _ fun _ => trivial⟩)
  | addRequest p =>
    simp only [exec] at h
    split at h
    · cases h
      exact .rest hrest
    · cases h
      exact happ (c := [_]) (by simpa using lasting_of_blank rfl rfl)
  | lookup r f final =>
    simp only [exec] at h
    split at h
    · cases h
      exact .rest hrest
    · cases h
      exact happ (c := [.put _ r f final]) (by simpa using hfree (.put _ r f final) fun _ => trivial)
  | put d r f final =>
    cases h
    refine happ ?_
    split_ifs
    · intro j hj
      refine hfree j fun _ => ?_
      simp only [List.mem_cons,List.not_mem_nil,or_false] at hj
      rcases hj with rfl | rfl | rfl | rfl <;> trivial
    · simp
  | post j pre tok =>
    simp only [exec] at h
    split at h
    · cases h
      exact .rest hrest
    · split at h
      · cases h
        exact .rest hrest
      · rename_i hlive
        cases h
        have hlive : (s.loop.seq j).finished = false := by simpa using hlive
        exact .first (.inl rfl) (.due ⟨Scheduler.lt_of_unfinished hlive,(hl.seqs j).room hlive⟩ hrest)
  | postCheck j pre tok =>
    simp only [exec] at h
    split at h
    · cases h
      refine .first (.inr (.inr ⟨j,rfl⟩)) (.due (fun _ => ⟨j,hd.1,rfl,fun x hx => ?_,fun ids hids => ?_⟩)
        fun y hy => ?_)
      · exact (Option.some.inj hx).symm
      · cases hids
      · rcases List.mem_cons.mp hy with rfl | hy
        · exact hfree _ fun _ => trivial
        · exact hrest y hy
    · cases h
      exact .first (.inr (.inl rfl)) (.due hd hrest)
  | abort e j =>
    cases h
    obtain ⟨hid,_,_,hu⟩ := spared_seq hs hd
    refine .due (fun _ => ⟨j,Nat.lt_of_lt_of_le hd hs.length,hid,fun x hx => ?_,fun ids hids => ?_⟩) hrest
    · rw [hu]
      exact (Option.some.inj hx).symm
    · cases hids
  | timeouts =>
    cases h
    refine happ fun j hj => ?_
    obtain ⟨r,_,rfl⟩ := List.mem_map.mp hj
    exact fun _ _ => trivial
  | expire r =>
    cases h
    exact happ (c := [_]) (by simpa using lasting_of_blank rfl rfl)
  | noteCancel r =>
    cases h
    exact happ (c := [_,_]) (by simpa using ⟨hfree _ fun _ => trivial,hfree _ fun _ => trivial⟩)
  | cancelRest r had =>
    cases h
    refine happ ?_
    split_ifs
    · simpa using lasting_of_blank rfl rfl
    · simp
  | runStep burst =>
    cases h
    exact owed_runBatch burst hl hs hrest
  | release | register p | enqueue p | read d | popQueue r d | closeSeq r | dropFinished | cancelSeq j =>
    cases h
    exact .rest hrest

theorem exec_serves (h : exec b t s i rest now = some (s',code)) (hi : i.Serves)
    (hs : s.loop.sched.seqs.length ≤ s'.loop.sched.seqs.length)
    (hr : ∀ j ∈ rest, Instr.Serves j ∧ Instr.Lasting s.loop j) :
    ∀ j ∈ code, Instr.Serves j ∧ Instr.Lasting s'.loop j := by
  have hrest : ∀ j ∈ rest, Instr.Serves j ∧ Instr.Lasting s'.loop j :=
    fun j hj => ⟨(hr j hj).1,(hr j hj).2.mono hs⟩
  have happ : ∀ {c : List Instr}, (∀ j ∈ c, Instr.Serves j ∧ Instr.Lasting s'.loop j) →
      ∀ j ∈ c ++ rest, Instr.Serves j ∧ Instr.Lasting s'.loop j :=
    fun hc j hj => (List.mem_append.mp hj).elim (hc j) (hrest j)
  cases i with
  | acquire =>
    simp only [exec] at h
    split_ifs at h
    cases h
    exact hrest
  | submitCheck p =>
    simp only [exec] at h
    split at h
    · cases h
      simp
    · rename_i hre
      cases h
      have hp : p.request.maxTokens ≠ 0 := fun h0 => hre (by simp [refuses,h0])
      refine happ fun j hj => ?_
      simp only [List.mem_cons,List.not_mem_nil,or_false] at hj
      rcases hj with rfl | rfl | rfl | rfl
      · exact ⟨trivial,fun _ _ => trivial⟩
      · exact ⟨trivial,fun _ _ => hp⟩
      · exact ⟨trivial,fun _ _ => trivial⟩
      · exact ⟨trivial,fun _ _ => hp⟩
  | noteCancel r =>
    cases h
    refine happ fun j hj => ?_
    simp only [List.mem_cons,List.not_mem_nil,or_false] at hj
    rcases hj with rfl | rfl <;> exact ⟨trivial,fun _ _ => trivial⟩
  | cancelRest r had =>
    cases h
    refine happ fun j hj => ?_
    split_ifs at hj
    · rw [List.mem_singleton.mp hj]
      exact ⟨trivial,lasting_of_blank rfl rfl⟩
    · cases hj
  | lookup r f final =>
    simp only [exec] at h
    split at h
    · cases h
      exact hrest
    · cases h
      intro j hj
      rcases List.mem_cons.mp hj with rfl | hj
      · exact ⟨trivial,fun _ _ => trivial⟩
      · exact hrest j hj
  | put d r f final =>
    cases h
    refine happ fun j hj => ?_
    split_ifs at hj
    · simp only [List.mem_cons,List.not_mem_nil,or_false] at hj
      rcases hj with rfl | rfl | rfl | rfl <;> exact ⟨trivial,fun _ _ => trivial⟩
    · cases hj
  | register p | release | enqueue p | read d | popQueue r d | closeSeq r =>
    cases h
    exact hrest
  | _ => exact absurd hi (by simp [Instr.Serves])

def Accounted (t : Tid) (s : Shared R) (code : List Instr) : Prop :=
  Budgeted s.loop ∧ match t with
    | .loop => Owed s.loop code
    | .http _ => ∀ i ∈ code, Instr.Serves i ∧ Instr.Lasting s.loop i

theorem not_writes_of_serves (h : i.Serves) : ¬ i.Writes := by
  cases i <;> simp_all [Instr.Serves,Instr.Writes]

theorem exec_owed (hb : Frugal b) (h : exec b t s i rest now = some (s',code)) (hl : Budgeted s.loop)
    (hd : i.Due s.loop) (hr : ∀ j ∈ rest, Instr.Lasting s.loop j) :
    s.loop.sched.seqs.length ≤ s'.loop.sched.seqs.length ∧ Budgeted s'.loop ∧ Owed s'.loop code := by
  by_cases hw : i.Writes
  · exact exec_writes hb h hw hd hl hr
  · have hs := exec_spares hb h hd hw
    exact ⟨hs.length,hs.budgeted hl,exec_owes h hw hd hl hs hr⟩

theorem accounted_loop (hb : Frugal b) (h : exec b t s i rest now = some (s',code)) (hl : Budgeted s.loop)
    (ho : Owed s.loop (i :: rest)) :
    s.loop.sched.seqs.length ≤ s'.loop.sched.seqs.length ∧ Budgeted s'.loop ∧ Owed s'.loop code := by
  cases ho with
  | rest hc =>
    exact exec_owed hb h hl (hc i List.mem_cons_self).due fun j hj => hc j (List.mem_cons_of_mem i hj)
  | due hd hc => exact exec_owed hb h hl hd hc
  | first hi ho =>
    have hd : i.Due s.loop ∧ ¬ i.Writes := by
      rcases hi with rfl | rfl | ⟨j,rfl⟩ <;> exact ⟨trivial,fun hw => hw⟩
    have hs := exec_spares hb h hd.1 hd.2
    have hcode : code = rest := by
      rcases hi with rfl | rfl | ⟨j,rfl⟩
      · simp only [exec] at h
        split_ifs at h
        cases h
        rfl
      · cases h
        rfl
      · cases h
        rfl
    rw [hcode]
    exact ⟨hs.length,hs.budgeted hl,ho.spared hs⟩

theorem accounted_step (hb : Frugal b) {e : Event} (h : Threads.Each Accounted m)
    (hs : step b m e = some m') : Threads.Each Accounted m' := by
  refine Threads.Each.step (p := program b) (fun _ _ => True) (fun s c hq => ?_)
    (fun m t x i rest s code he _ hc hx => ?_) (fun m t u x i rest s code he _ hc hx hu => ?_) h trivial hs
  · refine ⟨hq.1,?_⟩
    cases c with
    | submit n p => exact fun j hj => by rw [List.mem_singleton.mp hj]; exact ⟨trivial,fun _ _ => trivial⟩
    | read n d => exact fun j hj => by rw [List.mem_singleton.mp hj]; exact ⟨trivial,fun _ _ => trivial⟩
    | cancel n r =>
      intro j hj
      simp only [program,Call.body,List.mem_cons,List.not_mem_nil,or_false] at hj
      rcases hj with rfl | rfl <;> exact ⟨trivial,fun _ _ => trivial⟩
    | runIteration | pumpOnce =>
      refine .rest fun j hj => ?_
      simp only [program,Call.body,List.mem_cons,List.not_mem_nil,or_false] at hj
      rcases hj with rfl | rfl | rfl <;> exact fun _ _ => trivial
  · obtain ⟨hl,hq⟩ := he t
    rw [hc] at hq
    cases t with
    | loop => exact (accounted_loop hb hx hl hq).2
    | http n =>
      obtain ⟨hi,hlast⟩ := hq i List.mem_cons_self
      have hsp := exec_spares hb hx hlast.due (not_writes_of_serves hi)
      exact ⟨hsp.budgeted hl,exec_serves hx hi hsp.length fun j hj => hq j (List.mem_cons_of_mem i hj)⟩
  · obtain ⟨hl,hq⟩ := he t
    rw [hc] at hq
    cases t with
    | loop =>
      obtain ⟨hlen,hl',_⟩ := accounted_loop hb hx hl hq
      refine ⟨hl',?_⟩
      cases u with
      | loop => exact absurd rfl hu
      | http n => exact fun j hj => ⟨((he (.http n)).2 j hj).1,((he (.http n)).2 j hj).2.mono hlen⟩
    | http n =>
      obtain ⟨hi,hlast⟩ := hq i List.mem_cons_self
      have hsp := exec_spares hb hx hlast.due (not_writes_of_serves hi)
      refine ⟨hsp.budgeted hl,?_⟩
      cases u with
      | loop => exact (he .loop).2.spared hsp
      | http k => exact fun j hj => ⟨((he (.http k)).2 j hj).1,((he (.http k)).2 j hj).2.mono hsp.length⟩

section Emitted

variable {l : EngineLoop R}

theorem emitted_schedCancel (r : RequestId) : (l.schedCancel b r).emitted = l.emitted := by
  unfold schedCancel
  split <;> rfl

theorem emitted_put (d : QueueId) (r : RequestId) (f : Frame) :
    (l.put b d r f).emitted = l.emitted := by
  unfold EngineLoop.put
  split_ifs
  · rfl
  · exact emitted_schedCancel r

theorem emitted_closeSeq (r : RequestId) : (l.closeSeq b r).emitted = l.emitted := by
  unfold EngineLoop.closeSeq
  split_ifs <;> rfl

theorem emitted_addRequest (q : Request) : (l.addRequest b q).1.emitted = l.emitted := by
  unfold EngineLoop.addRequest
  split_ifs
  · rfl
  · rfl
  · split <;> rfl

theorem emitted_settlePost (j : SeqId) (p : Post) : (l.settlePost b j p).emitted = l.emitted := by
  unfold settlePost
  cases p.reason <;> rfl

theorem emitted_runBatch (burst : Bool) : (runBatch b burst l).1.emitted = l.emitted := by
  unfold runBatch
  simp only
  split_ifs
  · rfl
  · split <;> rfl

theorem emitted_runBurst (j : SeqId) (first : Token) : (runBurst b l j first).1.emitted = l.emitted := by
  unfold runBurst
  simp only
  split_ifs
  · split <;> rfl
  · rfl

/-- A frame is emitted only by an instruction that looks its queue up. -/
theorem exec_emitted (h : exec b t s i rest now = some (s',code)) :
    s'.loop.emitted = s.loop.emitted ∨ ∃ r f final, i = .lookup r f final ∧
      s'.loop.emitted = s.loop.emitted ++ [(r,f)] := by
  cases i with
  | lookup r f final =>
    simp only [exec] at h
    split at h <;> cases h <;> exact .inr ⟨r,f,final,rfl,rfl⟩
  | addRequest p =>
    have hadd := emitted_addRequest (b := b) (l := s.loop) p.request
    simp only [exec] at h
    split at h <;> rename_i hx <;> rw [hx] at hadd <;> cases h <;> exact .inl hadd
  | burst j first =>
    have hburst := emitted_runBurst (b := b) (l := s.loop) j first
    simp only [exec] at h
    split at h <;> rename_i hx <;> rw [hx] at hburst <;> cases h
    · exact .inl hburst
    · exact .inl ((emitted_settlePost _ _).trans hburst)
  | postToken j pre tok =>
    cases h
    refine .inl ((emitted_settlePost _ _).trans ?_)
    cases pre with
    | false => rfl
    | true =>
      simp only [prefilled,if_true]
      split_ifs <;> rfl
  | acquire | submitCheck p | admitCheck p | postCheck j pre tok | admitNext =>
    simp only [exec] at h
    split at h <;> cases h <;> exact .inl rfl
  | post j pre tok =>
    simp only [exec] at h
    split at h
    · cases h
      exact .inl rfl
    · split at h <;> cases h <;> exact .inl rfl
  | release | register p | enqueue p | read d | noteCancel r | popQueue r d | timeouts | dropFinished
  | abort e j | cancelSeq j =>
    cases h
    exact .inl rfl
  | cancelRest r had | expire r =>
    cases h
    exact .inl (emitted_schedCancel r)
  | put d r f final =>
    cases h
    exact .inl (emitted_put d r f)
  | closeSeq r =>
    cases h
    exact .inl (emitted_closeSeq r)
  | runStep burst =>
    cases h
    exact .inl (emitted_runBatch burst)

end Emitted

/-- A frame that is emitted is true of its sequence. -/
theorem billed_of_step (hb : Frugal b) {e : Event} (h : Threads.Each Accounted m)
    (hs : step b m e = some m') {r : RequestId} {f : Frame}
    (hf : m'.shared.loop.emitted = m.shared.loop.emitted ++ [(r,f)]) : Billed m'.shared.loop r f := by
  cases e with
  | call c =>
    obtain ⟨_,rfl⟩ := Threads.step_call hs
    simp at hf
  | tick t x =>
    obtain ⟨i,rest,s,code,hc,hx,rfl⟩ := Threads.step_tick hs
    rcases exec_emitted hx with he | ⟨r',f',final,rfl,he⟩
    · rw [he] at hf
      simp at hf
    · rw [he] at hf
      obtain ⟨rfl,rfl⟩ := Prod.mk.inj (List.singleton_inj.mp (List.append_cancel_left hf))
      have hd : Instr.Due m.shared.loop (.lookup r' f' final) := by
        have hq := (h t).2
        rw [hc] at hq
        cases t with
        | loop =>
          cases hq with
          | rest hall => exact (hall _ List.mem_cons_self).due
          | due hd _ => exact hd
          | first hi _ => rcases hi with hi | hi | ⟨j,hi⟩ <;> cases hi
        | http n => exact (hq _ List.mem_cons_self).2.due
      have hx' : exec b t m.shared (.lookup r' f' final) rest x = some (s,code) := hx
      exact Instr.Due.spared hd (exec_spares hb hx' hd fun hw => hw)

theorem accounted_init (r₀ : R) : Threads.Each Accounted (init r₀) := by
  intro t
  refine ⟨⟨fun i => ?_,fun p hp => by cases hp⟩,?_⟩
  · exact metered_default
  · cases t with
    | loop => exact .rest fun j hj => by cases hj
    | http n => exact fun j hj => by cases hj

/-- In any interleaving of the loop with cancels, new requests and clients that
read, and for any runner, no output grows beyond its limit, and the usage of a frame is that of
its sequence when the frame is emitted. -/
theorem max_tokens_never_exceeded {V : Type} (h : Hands R V) (b : Backend R) (r₀ : R) (es : List Event)
    (m : Machine R) (hrun : Transition.exec (step (h.backend b)) (init r₀) es = some m) :
    (∀ i, (m.shared.loop.seq i).outputIds.length ≤ (m.shared.loop.seq i).maxTokens) ∧
      ∀ e m' r f, step (h.backend b) m e = some m' →
        m'.shared.loop.emitted = m.shared.loop.emitted ++ [(r,f)] →
        f.usage ≠ none ∨ f.outputIds ≠ none →
        ∃ q ∈ m'.shared.loop.sched.seqs, q.requestId = r ∧ q.outputIds.length ≤ q.maxTokens ∧
          (∀ ids, f.outputIds = some ids → ids = q.outputIds) ∧
          ∀ x, f.usage = some x → x.promptTokens = q.inputIds.length ∧
            x.completionTokens = q.outputIds.length ∧
            x.totalTokens = x.promptTokens+x.completionTokens ∧ x.cacheHitTokens ≤ x.promptTokens := by
  have hb := h.frugal_backend b
  have hm := Transition.exec_always (fun m e m' hi hs => accounted_step hb hi hs) (accounted_init r₀) hrun
  refine ⟨fun i => ((hm .loop).1.seqs i).within,fun e m' r f hs hf hn => ?_⟩
  obtain ⟨i,hi,hr,hu,ho⟩ := billed_of_step hb hm hs hf hn
  have hmet := ((accounted_step hb hm hs) .loop).1.seqs i
  have hmem : m'.shared.loop.seq i ∈ m'.shared.loop.sched.seqs := by
    rw [seq,Scheduler.seq,List.getD_eq_getElem?_getD,List.getElem?_eq_getElem hi]
    exact List.getElem_mem hi
  refine ⟨_,hmem,hr,hmet.within,ho,fun x hx => ?_⟩
  rw [hu x hx]
  exact ⟨rfl,rfl,rfl,hmet.hit⟩

def handsOfFives : Hands Unit Nat where
  cache := ⟨1,8,Nat.one_pos,Kv.pos_eight⟩
  hybrid := false
  eos := none
  usePagedAsSource := false
  supportsPagedAttention := false
  radix := fun _ => .empty
  matched := fun r _ _ _ => r
  entries := fun _ => []
  attach := fun r _ _ => (r,.ok ())
  kvState := fun _ _ => true
  lastLogits := fun _ _ => none
  restore := fun r _ => (r,none)
  stage := fun r _ => (r,none)
  decodeOne := fun r _ q => ⟨r,q.tokens.length,[],.ok 5⟩
  greedyStep := fun r _ q => ⟨r,q.tokens.length,[],.ok 5⟩

theorem max_tokens_never_exceeded_burst : ∃ m,
    Transition.exec (step (handsOfFives.backend { fives with burst := 4 })) (init ())
      (.call (.submit 0 (ask "a" 3).2) :: ticks (.http 0) 5 ++ .call .pumpOnce :: ticks .loop 16 ++
        .call (.read 1 0) :: ticks (.http 1) 1 ++ .call .pumpOnce :: ticks .loop 4) = some m ∧
    (m.shared.loop.seq 0).outputIds = [5,5,5] ∧
    (∀ i, (m.shared.loop.seq i).outputIds.length ≤ (m.shared.loop.seq i).maxTokens) ∧
      ∀ e m' r f, step (handsOfFives.backend { fives with burst := 4 }) m e = some m' →
        m'.shared.loop.emitted = m.shared.loop.emitted ++ [(r,f)] →
        f.usage ≠ none ∨ f.outputIds ≠ none →
        ∃ q ∈ m'.shared.loop.sched.seqs, q.requestId = r ∧ q.outputIds.length ≤ q.maxTokens ∧
          (∀ ids, f.outputIds = some ids → ids = q.outputIds) ∧
          ∀ x, f.usage = some x → x.promptTokens = q.inputIds.length ∧
            x.completionTokens = q.outputIds.length ∧
            x.totalTokens = x.promptTokens+x.completionTokens ∧ x.cacheHitTokens ≤ x.promptTokens := by
  have hrun : ((Transition.exec (step (handsOfFives.backend { fives with burst := 4 })) (init ())
      (.call (.submit 0 (ask "a" 3).2) :: ticks (.http 0) 5 ++ .call .pumpOnce :: ticks .loop 16 ++
        .call (.read 1 0) :: ticks (.http 1) 1 ++ .call .pumpOnce :: ticks .loop 4)).map fun m =>
          (m.shared.loop.seq 0).outputIds) = some [5,5,5] := by
    decide +kernel
  obtain ⟨m,hm,hout⟩ := Option.map_eq_some_iff.mp hrun
  exact ⟨m,hm,hout,max_tokens_never_exceeded handsOfFives { fives with burst := 4 } () _ m hm⟩

end Concurrent

end SglangLite.Loop
