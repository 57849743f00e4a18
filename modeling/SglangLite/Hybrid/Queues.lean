import SglangLite.Sched.Lifecycle
import SglangLite.Hybrid.Feeds

set_option autoImplicit false

namespace SglangLite.Hybrid
open Kv Sched Text

structure SameData (q q' : Sequence) : Prop where
  inputIds : q'.inputIds = q.inputIds
  outputIds : q'.outputIds = q.outputIds
  cachedLen : q'.cachedLen = q.cachedLen
  lastLogits : q'.lastLogits = q.lastLogits

namespace SameData

variable {q q' q'' : Sequence}

theorem refl (q : Sequence) : SameData q q := ⟨rfl,rfl,rfl,rfl⟩

theorem trans (h : SameData q q') (h' : SameData q' q'') : SameData q q'' :=
  ⟨h'.inputIds.trans h.inputIds,h'.outputIds.trans h.outputIds,h'.cachedLen.trans h.cachedLen,
    h'.lastLogits.trans h.lastLogits⟩

theorem tokens (h : SameData q q') : q'.tokens = q.tokens := by
  rw [Sequence.tokens,Sequence.tokens,h.inputIds,h.outputIds]

theorem fresh (h : SameData q q') (hq : Fresh q) : Fresh q' := by
  simpa only [Fresh,h.inputIds,h.outputIds,h.cachedLen,h.lastLogits] using hq

theorem turned (h : SameData q q') (hq : Turned q) : Turned q' := by
  simpa only [Turned,h.tokens,h.outputIds,h.cachedLen] using hq

theorem entersAs {pre : Bool} (h : SameData q q') (hq : EntersAs q pre) : EntersAs q' pre := by
  rcases hq with ⟨hp,ht⟩ | ⟨hf,hp⟩
  · exact .inl ⟨hp,h.turned ht⟩
  · refine .inr ⟨h.fresh hf,?_⟩
    rw [hp,Scheduler.remainingPrompt,Scheduler.remainingPrompt,h.inputIds,h.cachedLen]

theorem op {op : Op} (h : SameData q q') (hq : OpPhase q op) : OpPhase q' op := by
  cases op with
  | sample i => simpa only [OpPhase,h.inputIds,h.outputIds,h.cachedLen] using hq
  | prefilled i n => simpa only [OpPhase,h.inputIds,h.outputIds,h.cachedLen] using hq
  | decoded i => exact h.turned hq
  | _ => exact hq.elim

end SameData

/-- The attributes of a sequence after `v4_release_seq`. -/
structure Released (v v' : V4Seq) : Prop where
  handle : v'.handle = none
  pendingRestore : v'.pendingRestore = false
  needStage : v'.needStage = v.needStage

namespace Engine

variable {e e' e'' : Engine}

structure Ended (e e' : Engine) : Prop where
  kept : e.sched.Kept → e'.sched.Kept
  length : e'.sched.seqs.length = e.sched.seqs.length
  data : ∀ i, SameData (e.seq i) (e'.seq i)
  finished : ∀ i, (e.seq i).finished = true → (e'.seq i).finished = true
  waiting : e'.sched.waiting.Sublist e.sched.waiting
  running : e'.sched.running.Sublist e.sched.running
  cache : e'.cache = e.cache
  calls : e'.calls = e.calls
  v4 : ∀ i, e'.v4Seq i = e.v4Seq i ∨ Released (e.v4Seq i) (e'.v4Seq i)
  rows : ∀ b, (e'.rows b = e.rows b ∧ e'.last b = e.last b) ∨ (e'.rows b).state = [] ∧ e'.last b = none
  attached : e'.v4.length = e.v4.length

namespace Ended

theorem refl (e : Engine) : Ended e e :=
  ⟨id,rfl,fun _ => .refl _,fun _ => id,.refl _,.refl _,rfl,rfl,fun _ => .inl rfl,fun _ => .inl ⟨rfl,rfl⟩,rfl⟩

theorem goto (e : Engine) (pc : Pc) : Ended e { e with pc := pc } :=
  ⟨id,rfl,fun _ => .refl _,fun _ => id,.refl _,.refl _,rfl,rfl,fun _ => .inl rfl,fun _ => .inl ⟨rfl,rfl⟩,rfl⟩

theorem trans (h : Ended e e') (h' : Ended e' e'') : Ended e e'' := by
  refine ⟨fun hk => h'.kept (h.kept hk),h'.length.trans h.length,fun i => (h.data i).trans (h'.data i),
    fun i hi => h'.finished i (h.finished i hi),h'.waiting.trans h.waiting,h'.running.trans h.running,
    h'.cache.trans h.cache,h'.calls.trans h.calls,fun i => ?_,fun b => ?_,h'.attached.trans h.attached⟩
  · rcases h'.v4 i with heq | hr
    · rw [heq]
      exact h.v4 i
    · refine .inr ⟨hr.handle,hr.pendingRestore,hr.needStage.trans ?_⟩
      rcases h.v4 i with heq | hr'
      · rw [heq]
      · exact hr'.needStage
  · rcases h'.rows b with ⟨hr,hl⟩ | hclear
    · rw [hr,hl]
      exact h.rows b
    · exact .inr hclear

theorem live (h : Ended e e') {i : SeqId} (hi : (e'.seq i).finished = false) : (e.seq i).finished = false := by
  cases hf : (e.seq i).finished with
  | false => rfl
  | true => exact absurd (h.finished i hf) (by simp [hi])

theorem finish (e : Engine) (i : SeqId) {f : Sequence → Sequence} (hr : ∀ q, (f q).requestId = q.requestId)
    (hd : ∀ q, SameData q (f q)) (reason : FinishReason) :
    Ended e ((e.modify i f).mark i reason) := by
  have hend : ∀ j, ((e.modify i f).mark i reason).seq j = _ := fun j =>
    Scheduler.seq_end e.sched i j f reason
  refine ⟨fun hk => hk.markFinished i hr reason,by simp [Engine.mark,Engine.modify,Scheduler.markFinished,
    Scheduler.modify],fun j => ?_,fun j hj => ?_,List.filter_sublist,List.erase_sublist,rfl,rfl,
    fun _ => .inl rfl,fun _ => .inl ⟨rfl,rfl⟩,rfl⟩
  · rw [hend]
    split_ifs with hji
    · have h := hd (e.seq i)
      rw [hji.1]
      exact ⟨h.inputIds,h.outputIds,h.cachedLen,h.lastLogits⟩
    · exact .refl _
  · rw [hend]
    split_ifs with hji
    · rfl
    · exact hj

theorem mark (e : Engine) (i : SeqId) (reason : FinishReason) : Ended e (e.mark i reason) := by
  have h := finish e i (f := id) (fun _ => rfl) (fun _ => .refl _) reason
  rwa [Engine.modify,Scheduler.modify_same (f := id) fun _ => rfl] at h

theorem schedCancel (e : Engine) (r : RequestId) : Ended e (e.schedCancel r) := by
  unfold Engine.schedCancel
  cases e.sched.byRequest r with
  | none => exact refl e
  | some i =>
    exact finish e i (f := fun q => { q with cancelled := true }) (fun _ => rfl)
      (fun _ => ⟨rfl,rfl,rfl,rfl⟩) .cancelled

theorem releaseSeq (e : Engine) (i : SeqId) : Ended e (e.releaseSeq i) := by
  have hrow : ∀ b, ((e.setRow 0 {} none).rows b = e.rows b ∧ (e.setRow 0 {} none).last b = e.last b) ∨
      ((e.setRow 0 {} none).rows b).state = [] ∧ (e.setRow 0 {} none).last b = none := by
    intro b
    by_cases hb : b = 0
    · exact .inr (by simp [Engine.setRow,hb])
    · refine .inl ⟨by simp [Engine.setRow,hb],?_⟩
      simp only [Engine.setRow,hb,if_false]
      cases e.last b <;> rfl
  have hv : ∀ (e₁ : Engine) j, e₁.v4 = e.v4 → (e₁.attach i fun q =>
      { q with
        handle := none
        entry := none
        pendingRestore := false
        slotPrepared := false
        pagePrimary := false }).v4Seq j = e.v4Seq j ∨ Released (e.v4Seq j) ((e₁.attach i fun q =>
      { q with
        handle := none
        entry := none
        pendingRestore := false
        slotPrepared := false
        pagePrimary := false }).v4Seq j) := by
    intro e₁ j he
    have hq : e₁.v4Seq = e.v4Seq := by
      funext k
      simp only [v4Seq,he]
    rw [v4Seq_attach,hq]
    split_ifs with hji
    · exact .inr ⟨rfl,rfl,by rw [hji.1]⟩
    · exact .inl rfl
  unfold Engine.releaseSeq
  cases (e.v4Seq i).handle with
  | none => exact ⟨id,rfl,fun _ => .refl _,fun _ => id,.refl _,.refl _,rfl,rfl,fun j => hv _ j rfl,hrow,
      by simp [attach,setRow]⟩
  | some h => exact ⟨id,rfl,fun _ => .refl _,fun _ => id,.refl _,.refl _,rfl,rfl,fun j => hv _ j rfl,hrow,
      by simp [attach,setRow]⟩

theorem emit (e : Engine) (d : Delta) (r : RequestId) (final : Bool) : Ended e (e.emit d r final) := by
  have hclose : ∀ e : Engine, Ended e (e.emit .room r final) := by
    intro e
    unfold Engine.emit
    simp only
    split
    · split
      next i _ => exact releaseSeq e i
      next => exact refl e
    · exact refl e
  cases d with
  | gone => exact refl e
  | room => exact hclose e
  | full => exact (schedCancel e r).trans (hclose _)

theorem cancelRequest (e : Engine) (r : RequestId) (d : Delta) : Ended e (e.cancelRequest r d) :=
  (schedCancel e r).trans (emit _ d r true)

theorem abortBatch (ds : RequestId → Delta) (e : Engine) (batch : List (SeqId × Bool)) :
    Ended e (abortBatch ds e batch) ∧
      ∀ i ∈ batch.map Prod.fst, ((Engine.abortBatch ds e batch).seq i).finished = true := by
  induction batch generalizing e with
  | nil => exact ⟨goto e .idle,by simp⟩
  | cons b batch ih =>
    obtain ⟨i,pre⟩ := b
    have h₁ := mark e i .error
    have h₂ := emit (e.mark i .error) (ds (e.seq i).requestId) (e.seq i).requestId true
    obtain ⟨h₃,hall⟩ := ih ((e.mark i .error).emit (ds (e.seq i).requestId) (e.seq i).requestId true)
    refine ⟨(h₁.trans h₂).trans h₃,fun j hj => ?_⟩
    rcases List.mem_cons.mp hj with hj | hj
    · rw [show j = i from hj]
      refine h₃.finished i (h₂.finished i ?_)
      have hm : (e.mark i .error).seq i = _ := Scheduler.seq_markFinished e.sched i i .error
      rw [hm]
      split_ifs with hlt
      · rfl
      · rw [Scheduler.seq_of_ge (Nat.le_of_not_lt fun hc => hlt ⟨rfl,hc⟩)]
        rfl
    · exact hall j hj

end Ended

theorem pc_emit (e : Engine) (d : Delta) (r : RequestId) (final : Bool) : (e.emit d r final).pc = e.pc := by
  have hrel : ∀ (e : Engine) i, (e.releaseSeq i).pc = e.pc := by
    intro e i
    unfold Engine.releaseSeq
    cases (e.v4Seq i).handle <;> rfl
  have hcancel : (e.schedCancel r).pc = e.pc := by
    unfold Engine.schedCancel
    cases e.sched.byRequest r <;> rfl
  have hclose : ∀ e : Engine, (e.emit .room r final).pc = e.pc := by
    intro e
    unfold Engine.emit
    simp only
    split
    · split
      · exact hrel e _
      · rfl
    · rfl
  cases d with
  | gone => rfl
  | room => exact hclose e
  | full => exact (hclose _).trans hcancel

theorem pc_cancelRequest (e : Engine) (r : RequestId) (d : Delta) : (e.cancelRequest r d).pc = e.pc := by
  unfold Engine.cancelRequest
  rw [pc_emit]
  unfold Engine.schedCancel
  cases e.sched.byRequest r <;> rfl

theorem pc_abortBatch (ds : RequestId → Delta) (e : Engine) (batch : List (SeqId × Bool)) :
    (abortBatch ds e batch).pc = .idle := by
  induction batch generalizing e with
  | nil => rfl
  | cons b batch ih => exact ih _

end Engine

/-- The members of the current batch, and the queues around them. -/
structure Lined (s : Scheduler) (ids : List SeqId) : Prop where
  nodup : ids.Nodup
  lt : ∀ i ∈ ids, i < s.seqs.length
  notWaiting : ∀ i ∈ ids, i ∉ s.waiting
  waiting : ∀ i ∈ s.waiting, Fresh (s.seq i)
  running : ∀ i ∈ s.running, i ∉ ids → Turned (s.seq i)

namespace Lined

variable {s s' : Scheduler} {ids ids' : List SeqId}

theorem init : Lined ({} : Scheduler) [] :=
  ⟨List.nodup_nil,by simp,by simp,by simp,by simp⟩

theorem ended {e e' : Engine} (h : Lined e.sched ids) (hend : Engine.Ended e e') : Lined e'.sched ids where
  nodup := h.nodup
  lt := fun i hi => hend.length ▸ h.lt i hi
  notWaiting := fun i hi hw => h.notWaiting i hi (hend.waiting.subset hw)
  waiting := fun i hi => (hend.data i).fresh (h.waiting i (hend.waiting.subset hi))
  running := fun i hi hn => (hend.data i).turned (h.running i (hend.running.subset hi) hn)

theorem members (h : Lined s ids) (hl : s'.seqs.length = s.seqs.length) (hw : s'.waiting = s.waiting)
    (hr : s'.running = s.running) (hseq : ∀ i, i ∉ ids → s'.seq i = s.seq i) : Lined s' ids where
  nodup := h.nodup
  lt := fun i hi => hl ▸ h.lt i hi
  notWaiting := fun i hi => hw ▸ h.notWaiting i hi
  waiting := fun i hi => by
    rw [hw] at hi
    rw [hseq i fun hm => h.notWaiting i hm hi]
    exact h.waiting i hi
  running := fun i hi hn => by
    rw [hr] at hi
    rw [hseq i hn]
    exact h.running i hi hn

theorem settle (h : Lined s ids) (hsub : ids'.Sublist ids)
    (ht : ∀ i ∈ ids, i ∈ s.running → i ∉ ids' → Turned (s.seq i)) : Lined s ids' where
  nodup := hsub.nodup h.nodup
  lt := fun i hi => h.lt i (hsub.subset hi)
  notWaiting := fun i hi => h.notWaiting i (hsub.subset hi)
  waiting := h.waiting
  running := fun i hi hn => by
    by_cases hm : i ∈ ids
    · exact ht i hm hi hn
    · exact h.running i hi hm

theorem first {i : SeqId} (h : Lined s (i :: ids)) (hk : s.Kept)
    (hi : (s.seq i).finished = false → Turned (s.seq i)) : Lined s ids := by
  refine h.settle (List.sublist_cons_self i ids) fun j hj hr hn => ?_
  rcases List.mem_cons.mp hj with rfl | hj
  · exact hi ((hk.queued j).mp (List.mem_append_right _ hr))
  · exact absurd hj hn

theorem step (h : Lined s []) (hk : s.Kept) (cfg : SchedConfig) :
    Lined (s.step cfg).1 ((s.step cfg).2.map Prod.fst) ∧
      ∀ i pre, (i,pre) ∈ (s.step cfg).2 → EntersAs (s.seq i) pre := by
  obtain ⟨rs,ws,hb,hrs,hws,hrun⟩ := Scheduler.step_spec cfg s
  have hids : (s.step cfg).2.map Prod.fst = rs ++ ws := by
    rw [hb]
    simp [Scheduler.waitFlag,Function.comp_def]
  have hrw : (rs ++ ws ++ (s.step cfg).1.waiting).Sublist (s.running ++ s.waiting) := by
    rw [List.append_assoc]
    exact hrs.append hws
  obtain ⟨hnd,_,hdisj⟩ := List.nodup_append.mp
    (hrw.nodup (List.perm_append_comm.nodup_iff.mp hk.once))
  refine ⟨⟨hids ▸ hnd,fun i hi => ?_,fun i hi hw => ?_,fun i hi => ?_,fun i hi hn => ?_⟩,fun i pre hi => ?_⟩
  · rw [hids] at hi
    have hq := hrw.subset (List.mem_append_left _ hi)
    exact Scheduler.lt_of_unfinished ((hk.queued i).mp (List.perm_append_comm.mem_iff.mp hq))
  · rw [hids] at hi
    exact hdisj i hi i hw rfl
  · exact h.waiting i (hws.subset (List.mem_append_right _ hi))
  · rw [hids] at hn
    rcases List.mem_append.mp (hrun.subset hi) with hr | hw
    · exact h.running i hr (by simp)
    · exact absurd (List.mem_append_right rs hw) hn
  · rw [hb] at hi
    rcases List.mem_append.mp hi with hi | hi
    · obtain ⟨j,hj,heq⟩ := List.mem_map.mp hi
      obtain ⟨rfl,rfl⟩ := Prod.mk.inj heq
      exact .inl ⟨rfl,h.running j (hrs.subset hj) (by simp)⟩
    · obtain ⟨j,hj,heq⟩ := List.mem_map.mp hi
      obtain ⟨rfl,rfl⟩ := Prod.mk.inj heq
      exact .inr ⟨h.waiting j (hws.subset (List.mem_append_left _ hj)),rfl⟩

theorem joined {q : Sequence} (h : Lined s []) (hk : s.Kept) (ha : s.Admits q s') (hf : Fresh q) :
    Lined s' [] := by
  have hne : ∀ i, i ∈ s.waiting ++ s.running → i ≠ s.seqs.length := fun i hi =>
    Nat.ne_of_lt (Scheduler.lt_of_unfinished ((hk.queued i).mp hi))
  refine ⟨List.nodup_nil,by simp,by simp,fun i hi => ?_,fun i hi _ => ?_⟩
  · rw [ha.waiting] at hi
    rcases List.mem_append.mp hi with hi | hi
    · rw [ha.seq_old (hne i (List.mem_append_left _ hi))]
      exact h.waiting i hi
    · rw [List.mem_singleton.mp hi,ha.seq_new]
      exact hf
  · rw [ha.running] at hi
    rw [ha.seq_old (hne i (List.mem_append_right _ hi))]
    exact h.running i hi (by simp)

end Lined

end SglangLite.Hybrid
