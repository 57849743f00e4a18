import SglangLite.Loop.Bounds
import SglangLite.Loop.Faults

set_option autoImplicit false

namespace SglangLite.Loop
open Kv Sched Text

variable {R : Type}

namespace EngineLoop

variable {b : Backend R} {s s' : EngineLoop R}

def Unharmed (s : EngineLoop R) : Prop := ∀ i, (s.seq i).finishReason ≠ some .error

namespace Unharmed

theorem of_seqs (h : Unharmed s) (hs : s'.sched.seqs = s.sched.seqs) : Unharmed s' := fun i => by
  rw [seq,Scheduler.seq,hs]
  exact h i

theorem modify (h : Unharmed s) (i : SeqId) {f : Sequence → Sequence}
    (hf : ∀ q, (f q).finishReason = q.finishReason) : Unharmed (s.modify i f) := fun j => by
  rw [seq_modify]
  split_ifs
  · rw [hf]
    exact h i
  · exact h j

theorem ended (h : Unharmed s) (i : SeqId) (f : Sequence → Sequence) {reason : FinishReason}
    (hr : reason ≠ .error) : Unharmed ((s.modify i f).mark b i reason) := fun j => by
  have hseq : ((s.modify i f).mark b i reason).seq j = if j = i ∧ i < s.sched.seqs.length then
      finish (f (s.seq i)) reason else s.seq j := Scheduler.seq_end s.sched i j f reason
  rw [hseq]
  split_ifs
  · exact fun he => hr (Option.some.inj he)
  · exact h j

theorem mark (h : Unharmed s) (i : SeqId) {reason : FinishReason} (hr : reason ≠ .error) :
    Unharmed (s.mark b i reason) := by
  have hm := h.ended (b := b) i (fun q => q) hr
  rwa [modify_id] at hm

theorem schedCancel (h : Unharmed s) (r : RequestId) : Unharmed (s.schedCancel b r) := by
  unfold EngineLoop.schedCancel
  split
  · exact h
  · exact h.ended _ (fun q => { q with cancelled := true }) (by decide)

theorem put (h : Unharmed s) (d : QueueId) (r : RequestId) (f : Frame) : Unharmed (s.put b d r f) := by
  unfold EngineLoop.put
  split_ifs
  · exact h.of_seqs rfl
  · exact h.schedCancel r

theorem closeSeq (h : Unharmed s) (r : RequestId) : Unharmed (s.closeSeq b r) := by
  unfold EngineLoop.closeSeq
  split_ifs
  · exact h.of_seqs rfl
  · exact h

theorem absorb {α : Type} (h : Unharmed s) (batch : List SeqId) (r : Ran R α) :
    Unharmed (s.absorb batch r) := fun j => by
  obtain ⟨n,hn⟩ := seq_absorb s batch r j
  rw [hn]
  exact h j

theorem prefilled (h : Unharmed s) (i : SeqId) : Unharmed (s.prefilled b i) := by
  have hm := h.modify i (f := fun q => { q with cachedLen := q.inputIds.length }) fun _ => rfl
  unfold EngineLoop.prefilled
  split_ifs
  · exact hm
  · exact hm.of_seqs rfl

theorem addRequest (h : Unharmed s) (q : Request) : Unharmed (s.addRequest b q).1 := by
  unfold EngineLoop.addRequest
  split_ifs
  · exact h
  · exact h
  · split
    · exact h.of_seqs rfl
    · intro i
      have hold := h i
      simp only [seq,Scheduler.seq,List.getD_eq_getElem?_getD] at hold ⊢
      rcases Nat.lt_trichotomy i s.sched.seqs.length with hi | hi | hi
      · rwa [List.getElem?_append_left hi]
      · rw [hi,List.getElem?_concat_length]
        simp [Request.sequence]
      · rw [List.getElem?_eq_none (by simp; omega)]
        intro he
        cases he

theorem settlePost (h : Unharmed s) (i : SeqId) {p : Post} (hp : p.reason ≠ some .error) :
    Unharmed (s.settlePost b i p) := by
  have hm := h.modify i (f := fun q => { q with outputIds := p.outputIds }) fun _ => rfl
  unfold EngineLoop.settlePost
  cases hr : p.reason with
  | none => exact hm.of_seqs rfl
  | some reason =>
    have hne : reason ≠ .error := fun he => hp (by rw [hr,he])
    have hended := hm.mark (b := b) i hne
    exact hended.of_seqs rfl

theorem noteText (h : Unharmed s) (r : RequestId) (assigned : Bool) :
    Unharmed (s.noteText r assigned) := h.of_seqs rfl

theorem append (h : Unharmed s) (i : SeqId) (toks : List Token) :
    Unharmed (s.modify i fun q => { q with outputIds := q.outputIds ++ toks }) :=
  h.modify i fun _ => rfl

end Unharmed

end EngineLoop

namespace Concurrent
open EngineLoop

variable {b : Backend R} {t : Tid} {s s' : Shared R} {m m' : Machine R} {i : Instr}
  {rest code : List Instr} {now : Time}

def Instr.Aborts : Instr → Prop
  | .abort _ _ => True
  | _ => False

theorem unharmed_runBatch {l : EngineLoop R} (h : Unharmed l) (burst : Bool) :
    Unharmed (runBatch b burst l).1 := by
  have hstep : Unharmed { l with sched := (l.sched.step b.sched).1 } := h.of_seqs rfl
  unfold Concurrent.runBatch
  simp only
  split_ifs
  · exact hstep
  · split <;> exact hstep.absorb _ _

theorem unharmed_runBurst {l : EngineLoop R} (h : Unharmed l) (j : SeqId) (first : Token) :
    Unharmed (runBurst b l j first).1 := by
  have hfirst := h.append j [first]
  unfold Concurrent.runBurst
  simp only
  split_ifs
  · split
    · exact (hfirst.absorb _ _).append j _
    · exact (hfirst.absorb _ _).append j _
  · exact hfirst

theorem runBurst_reason {l l₁ : EngineLoop R} {j : SeqId} {first : Token} {p : Post}
    (h : Concurrent.runBurst b l j first = (l₁,some p)) : p.reason ≠ some .error := by
  unfold Concurrent.runBurst at h
  simp only at h
  split_ifs at h
  · split at h
    · cases h
    · cases h
      exact burstLoop_reason _ _ _ _ _ _ _
  · cases h
    exact burstLoop_reason _ _ _ _ _ _ _

theorem exec_unharmed (h : exec b t s i rest now = some (s',code)) (hi : ¬ i.Aborts)
    (hu : Unharmed s.loop) : Unharmed s'.loop := by
  cases i with
  | abort e j => exact absurd trivial hi
  | addRequest p =>
    have hadd := hu.addRequest (b := b) p.request
    simp only [exec] at h
    split at h <;> rename_i hx <;> rw [hx] at hadd <;> cases h <;> exact hadd
  | burst j first =>
    have hburst := unharmed_runBurst (b := b) hu j first
    simp only [exec] at h
    split at h <;> rename_i hx
    · rw [hx] at hburst
      cases h
      exact hburst
    · have hreason := runBurst_reason hx
      rw [hx] at hburst
      cases h
      exact (hburst.noteText _ _).settlePost j hreason
  | postToken j pre tok =>
    cases h
    have hpre : Unharmed (if pre then s.loop.prefilled b j else s.loop) := by
      split_ifs
      · exact hu.prefilled j
      · exact hu
    refine ((hpre.append j [tok]).noteText _ _).settlePost j ?_
    rw [postToken_reason]
    exact applyStopAndLimits_reason _ _ _ _
  | acquire | submitCheck p | admitCheck p | postCheck j pre tok | admitNext | lookup r f final =>
    simp only [exec] at h
    split at h <;> cases h <;> exact hu.of_seqs rfl
  | post j pre tok =>
    simp only [exec] at h
    split at h
    · cases h
      exact hu
    · split at h <;> cases h <;> exact hu
  | release | register p | enqueue p | read d | noteCancel r | popQueue r d | timeouts | dropFinished =>
    cases h
    exact hu.of_seqs rfl
  | cancelRest r had | expire r =>
    cases h
    exact hu.schedCancel r
  | put d r f final =>
    cases h
    exact hu.put d r f
  | closeSeq r =>
    cases h
    exact hu.closeSeq r
  | cancelSeq j =>
    cases h
    exact hu.mark j (by decide)
  | runStep burst =>
    cases h
    exact unharmed_runBatch hu burst

theorem aborts_posts (burst : Bool) (l : EngineLoop R) (batch : List (SeqId × Bool))
    (toks : List (Option Token)) : ∀ i ∈ posts burst b l batch toks, ¬ Instr.Aborts i := by
  have hall : ∀ i ∈ (batch.zip toks).map (fun m => Instr.post m.1.1 m.1.2 m.2) ++
      [Instr.dropFinished], ¬ Instr.Aborts i := by
    intro i hi
    rcases List.mem_append.mp hi with hi | hi
    · obtain ⟨m,_,rfl⟩ := List.mem_map.mp hi
      exact id
    · rw [List.mem_singleton.mp hi]
      exact id
  unfold posts
  simp only
  split
  · split_ifs
    · intro i hi
      rw [List.mem_singleton.mp hi]
      exact id
    · exact hall
  · exact hall

theorem aborts_runBatch {l : EngineLoop R} (h : ∀ e, ¬ BatchFails b l e) (burst : Bool) :
    ∀ i ∈ (runBatch b burst l).2, ¬ Instr.Aborts i := by
  unfold Concurrent.runBatch
  simp only
  split_ifs with hb
  · exact fun i hi => absurd hi (by simp)
  · split
    · rename_i e he
      exact absurd ⟨hb,he⟩ (h e)
    · exact aborts_posts burst _ _ _

theorem exec_aborts (h : exec b t s i rest now = some (s',code)) (hf : ∀ e, ¬ BatchFails b s.loop e)
    (hrest : ∀ j ∈ rest, ¬ Instr.Aborts j) : ∀ j ∈ code, ¬ Instr.Aborts j := by
  have happ : ∀ {l : List Instr}, (∀ j ∈ l, ¬ Instr.Aborts j) → ∀ j ∈ l ++ rest, ¬ Instr.Aborts j :=
    fun hl j hj => (List.mem_append.mp hj).elim (hl j) (hrest j)
  cases i with
  | acquire =>
    simp only [exec] at h
    split_ifs at h
    cases h
    exact hrest
  | submitCheck p =>
    simp only [exec] at h
    split at h <;> cases h
    · simp
    · exact happ (by simp [Instr.Aborts])
  | admitNext | admitCheck p | postCheck j pre tok =>
    simp only [exec] at h
    split at h <;> cases h
    · first | exact hrest | exact happ (by simp [Instr.Aborts])
    · exact happ (by simp [Instr.Aborts])
  | addRequest p | lookup r f final =>
    simp only [exec] at h
    split at h <;> cases h
    · exact hrest
    · exact happ (l := [_]) (by simp [Instr.Aborts])
  | burst j first =>
    simp only [exec] at h
    split at h <;> cases h
    · simp
    · exact happ (l := [_,_]) (by simp [Instr.Aborts])
  | post j pre tok =>
    simp only [exec] at h
    split at h
    · cases h
      exact hrest
    · split at h <;> cases h
      · exact hrest
      · exact happ (by simp [Instr.Aborts])
  | timeouts =>
    cases h
    refine happ fun j hj => ?_
    obtain ⟨r,_,rfl⟩ := List.mem_map.mp hj
    exact id
  | runStep burst =>
    cases h
    exact happ (aborts_runBatch hf burst)
  | cancelRest r had | put d r f final =>
    cases h
    refine happ ?_
    split_ifs <;> simp [Instr.Aborts]
  | noteCancel r =>
    cases h
    exact happ (by simp [Instr.Aborts])
  | release | register p | enqueue p | read d | closeSeq r | dropFinished | cancelSeq j | popQueue r d =>
    cases h
    exact hrest
  | expire r | abort e j | postToken j pre tok =>
    cases h
    exact happ (l := [_]) (by simp [Instr.Aborts])

/-- No sequence has ended with an error, and none is about to. -/
def Sparing (_ : Tid) (s : Shared R) (code : List Instr) : Prop :=
  Unharmed s.loop ∧ ∀ i ∈ code, ¬ Instr.Aborts i

theorem sparing_step {e : Event} (h : Threads.Each Sparing m)
    (hf : ∀ e, ¬ BatchFails b m.shared.loop e) (hs : step b m e = some m') :
    Threads.Each Sparing m' := by
  refine Threads.Each.step (p := program b) (fun m _ => ∀ e, ¬ BatchFails b m.shared.loop e)
    (fun s c hq => ⟨hq.1,?_⟩) (fun m t x i rest s code he hg hc hx => ?_)
    (fun m t u x i rest s code he _ hc hx _ => ?_) h hf hs
  · cases c <;> simp [program,Call.body,Instr.Aborts]
  · obtain ⟨hu,hcode⟩ := he t
    rw [hc] at hcode
    exact ⟨exec_unharmed hx (hcode i List.mem_cons_self) hu,
      exec_aborts hx hg fun j hj => hcode j (List.mem_cons_of_mem i hj)⟩
  · obtain ⟨hu,hcode⟩ := he t
    rw [hc] at hcode
    exact ⟨exec_unharmed hx (hcode i List.mem_cons_self) hu,(he u).2⟩

theorem sparing_init (r₀ : R) : Threads.Each Sparing (init r₀) :=
  fun _ => ⟨fun _ he => (nomatch he),fun _ hi => (nomatch hi)⟩

/-- In a run in which `run_batch` never raises no sequence ends with an error. -/
theorem unharmed_run {r₀ : R} {es : List Event}
    (hg : Transition.Guarded (step b) (fun m _ => ∀ e, ¬ BatchFails b m.shared.loop e) (init r₀) es)
    (hr : Transition.exec (step b) (init r₀) es = some m) : Unharmed m.shared.loop :=
  (Transition.exec_invariant (fun _ _ _ hi hf hs => sparing_step hi hf hs) (sparing_init r₀) hg hr
    .loop).1

end Concurrent

end SglangLite.Loop
