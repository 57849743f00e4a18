import SglangLite.Transition
import SglangLite.Sched.Scheduler

set_option autoImplicit false

namespace SglangLite.Sched
open Kv

namespace Scheduler

variable {s : Scheduler}

/-- The queues hold each unfinished sequence once and nothing else, and
`_by_request` finds unfinished sequences only. -/
structure Kept (s : Scheduler) : Prop where
  once : (s.waiting ++ s.running).Nodup
  queued : ∀ i, i ∈ s.waiting ++ s.running ↔ (s.seq i).finished = false
  flag : ∀ i, (s.seq i).finished = false → (s.seq i).cancelled = false
  byRequest : ∀ r i, s.byRequest r = some i → (s.seq i).requestId = r ∧ (s.seq i).finished = false

theorem kept_empty : Kept ({} : Scheduler) := by
  refine ⟨by simp,fun i => ?_,fun i h => ?_,by simp⟩
  · rw [seq_of_ge (by simp)]
    simp [show (default : Sequence).finished = true from rfl]
  · exact absurd (lt_of_unfinished h) (by simp)

theorem Kept.runnable (h : Kept s) {i : SeqId} (hi : i ∈ s.waiting ++ s.running) : s.Runnable i :=
  ⟨(h.queued i).mp hi,h.flag i ((h.queued i).mp hi)⟩

theorem Kept.modify (h : Kept s) (i : SeqId) {f : Sequence → Sequence}
    (hr : ∀ q, (f q).requestId = q.requestId) (hf : ∀ q, (f q).finished = q.finished)
    (hc : ∀ q, (f q).cancelled = q.cancelled) : Kept (s.modify i f) := by
  have hid : ∀ j, ((s.modify i f).seq j).requestId = (s.seq j).requestId := by
    intro j
    rw [seq_modify]
    split_ifs with hj
    · rw [hr,hj.1]
    · rfl
  have hfin : ∀ j, ((s.modify i f).seq j).finished = (s.seq j).finished := by
    intro j
    rw [seq_modify]
    split_ifs with hj
    · rw [hf,hj.1]
    · rfl
  have hcan : ∀ j, ((s.modify i f).seq j).cancelled = (s.seq j).cancelled := by
    intro j
    rw [seq_modify]
    split_ifs with hj
    · rw [hc,hj.1]
    · rfl
  refine ⟨h.once,fun j => by rw [hfin]; exact h.queued j,fun j hj => ?_,fun r j hj => ?_⟩
  · rw [hfin] at hj
    rw [hcan]
    exact h.flag j hj
  · rw [hid,hfin]
    exact h.byRequest r j hj

theorem seq_end (s : Scheduler) (i j : SeqId) (f : Sequence → Sequence) (reason : FinishReason) :
    ((s.modify i f).markFinished i reason).seq j =
      if j = i ∧ i < s.seqs.length then
        { f (s.seq i) with
          finished := true, finishReason := some reason, blockTable := [], kvState := false }
      else s.seq j := by
  rw [seq_markFinished,length_modify]
  split_ifs with hj
  · rw [seq_modify_self hj.2]
  · rw [seq_modify,if_neg hj]

theorem Kept.markFinished (h : Kept s) (i : SeqId) {f : Sequence → Sequence}
    (hr : ∀ q, (f q).requestId = q.requestId) (reason : FinishReason) :
    Kept ((s.modify i f).markFinished i reason) := by
  have hid : ((s.modify i f).seq i).requestId = (s.seq i).requestId := by
    rw [seq_modify]
    split_ifs
    · exact hr _
    · rfl
  have hold : ∀ j, j ≠ i → ((s.modify i f).markFinished i reason).seq j = s.seq j :=
    fun j hj => by rw [seq_end,if_neg (fun hc => hj hc.1)]
  have hend : (((s.modify i f).markFinished i reason).seq i).finished = true := by
    rw [seq_end]
    split_ifs with hi
    · rfl
    · rw [seq_of_ge (Nat.le_of_not_lt fun hlt => hi ⟨rfl,hlt⟩)]
      rfl
  have hnd := List.nodup_append.mp h.once
  have hmem : ∀ j, j ∈ ((s.modify i f).markFinished i reason).waiting ++
      ((s.modify i f).markFinished i reason).running ↔ j ∈ s.waiting ++ s.running ∧ j ≠ i := by
    intro j
    show j ∈ s.waiting.filter (· ≠ i) ++ s.running.erase i ↔ _
    rw [List.mem_append,List.mem_append,List.mem_filter,hnd.2.1.mem_erase_iff]
    simp only [decide_eq_true_eq]
    tauto
  refine ⟨?_,fun j => ?_,fun j hj => ?_,fun r j hj => ?_⟩
  · exact h.once.sublist (List.filter_sublist.append List.erase_sublist)
  · rw [hmem]
    by_cases hji : j = i
    · simp [hji,hend]
    · rw [hold j hji]
      simp [hji,← h.queued j]
  · by_cases hji : j = i
    · rw [hji,hend] at hj
      exact absurd hj (by simp)
    · rw [hold j hji] at hj ⊢
      exact h.flag j hj
  · have hj' : Function.update s.byRequest ((s.modify i f).seq i).requestId none r = some j := hj
    rw [hid] at hj'
    by_cases hri : r = (s.seq i).requestId
    · rw [hri,Function.update_self] at hj'
      exact absurd hj' (by simp)
    · rw [Function.update_of_ne hri] at hj'
      obtain ⟨h1,h2⟩ := h.byRequest r j hj'
      have hji : j ≠ i := fun he => hri (by rw [← h1,he])
      rw [hold j hji]
      exact ⟨h1,h2⟩

theorem Kept.dropFinished (h : Kept s) : Kept s.dropFinished := by
  have hrun : s.running.filter (fun i => ¬ (s.seq i).finished) = s.running := by
    rw [List.filter_eq_self]
    intro i hi
    simp [(h.queued i).mp (List.mem_append_right _ hi)]
  have heq : s.dropFinished = s := by
    show ({ s with running := _ } : Scheduler) = s
    rw [hrun]
  rw [heq]
  exact h

theorem Kept.step (h : Kept s) (cfg : SchedConfig) :
    Kept (s.step cfg).1 ∧ ((s.step cfg).2.map Prod.fst).Nodup ∧
      (∀ m ∈ (s.step cfg).2, m.1 ∈ (s.step cfg).1.running ∧ s.Runnable m.1) ∧
      ∀ i, i ∉ (s.step cfg).2.map Prod.fst →
        (i ∈ (s.step cfg).1.waiting ↔ i ∈ s.waiting) ∧ (i ∈ (s.step cfg).1.running ↔ i ∈ s.running) := by
  obtain ⟨rs,ws,hbatch,hrs,hws,hrun⟩ := step_spec cfg s
  obtain ⟨hrunnable,hkeep⟩ := step_runnable cfg s
  have hfst : (s.step cfg).2.map Prod.fst = rs ++ ws := by
    rw [hbatch]
    simp [waitFlag,Function.comp_def]
  obtain ⟨hnw,hnr,hdisj⟩ := List.nodup_append.mp h.once
  have hwsplit := List.nodup_append.mp (hnw.sublist hws)
  have hqueues : ∀ i ∈ (s.step cfg).1.waiting ++ (s.step cfg).1.running,
      i ∈ s.waiting ++ s.running := by
    intro i hi
    rcases List.mem_append.mp hi with hi | hi
    · exact List.mem_append_left _ (hws.subset (List.mem_append_right _ hi))
    · rcases List.mem_append.mp (hrun.subset hi) with hi | hi
      · exact List.mem_append_right _ hi
      · exact List.mem_append_left _ (hws.subset (List.mem_append_left _ hi))
  have hall : ∀ i, i ∈ (s.step cfg).1.waiting ++ (s.step cfg).1.running ↔
      i ∈ s.waiting ++ s.running := by
    refine fun i => ⟨hqueues i,fun hi => ?_⟩
    exact List.mem_append.mpr (hkeep i (h.runnable hi) (List.mem_append.mp hi))
  have hnew : ((s.step cfg).1.waiting ++ (s.step cfg).1.running).Nodup := by
    refine List.nodup_append.mpr ⟨hwsplit.2.1,?_,fun i hi j hj => ?_⟩
    · refine List.Nodup.sublist hrun (List.nodup_append.mpr ⟨hnr,hwsplit.1,fun i hi j hj he => ?_⟩)
      exact hdisj j (hws.subset (List.mem_append_left _ hj)) i hi he.symm
    · rcases List.mem_append.mp (hrun.subset hj) with hj | hj
      · exact hdisj i (hws.subset (List.mem_append_right _ hi)) j hj
      · exact (hwsplit.2.2 j hj i hi).symm
  have hmember : ∀ m ∈ (s.step cfg).2, m.1 ∈ rs ++ ws := fun m hm =>
    hfst ▸ List.mem_map_of_mem hm
  refine ⟨⟨hnew,fun i => (hall i).trans (h.queued i),h.flag,h.byRequest⟩,?_,fun m hm => ⟨?_,hrunnable m hm⟩,
    fun i hi => ?_⟩
  · rw [hfst]
    refine List.nodup_append.mpr ⟨hnr.sublist hrs,hwsplit.1,fun i hi j hj he => ?_⟩
    exact hdisj j (hws.subset (List.mem_append_left _ hj)) i (hrs.subset hi) he.symm
  · have hq : m.1 ∈ s.waiting ++ s.running := by
      rcases List.mem_append.mp (hmember m hm) with hr | hw
      · exact List.mem_append_right _ (hrs.subset hr)
      · exact List.mem_append_left _ (hws.subset (List.mem_append_left _ hw))
    rcases List.mem_append.mp ((hall m.1).mpr hq) with hw | hr
    · exfalso
      rcases List.mem_append.mp (hmember m hm) with hr | hw'
      · exact hdisj m.1 (hws.subset (List.mem_append_right _ hw)) m.1 (hrs.subset hr) rfl
      · exact hwsplit.2.2 m.1 hw' m.1 hw rfl
    · exact hr
  · rw [hfst,List.mem_append,not_or] at hi
    constructor
    · refine ⟨fun hw => hws.subset (List.mem_append_right _ hw),fun hw => ?_⟩
      rcases List.mem_append.mp ((hall i).mpr (List.mem_append_left _ hw)) with hw' | hr
      · exact hw'
      · rcases List.mem_append.mp (hrun.subset hr) with hr | hw'
        · exact absurd rfl (hdisj i hw i hr)
        · exact absurd hw' hi.2
    · refine ⟨fun hr => ?_,fun hr => ?_⟩
      · exact (List.mem_append.mp (hrun.subset hr)).resolve_right hi.2
      · rcases List.mem_append.mp ((hall i).mpr (List.mem_append_right _ hr)) with hw | hr'
        · exact absurd rfl (hdisj i (hws.subset (List.mem_append_right _ hw)) i hr)
        · exact hr'

theorem Kept.add (h : Kept s) {q : Sequence} (hf : q.finished = false) (hc : q.cancelled = false) :
    Kept { s with
      seqs := s.seqs ++ [q]
      waiting := s.waiting ++ [s.seqs.length]
      byRequest := Function.update s.byRequest q.requestId (some s.seqs.length) } := by
  have hnew : (s.seqs ++ [q]).getD s.seqs.length default = q := by simp
  have hold : ∀ i, i ≠ s.seqs.length → (s.seqs ++ [q]).getD i default = s.seq i := by
    intro i hi
    simp only [seq,List.getD_eq_getElem?_getD]
    rcases Nat.lt_or_gt_of_ne hi with hlt | hgt
    · rw [List.getElem?_append_left hlt]
    · rw [List.getElem?_eq_none (by simp; omega),List.getElem?_eq_none (by omega)]
  have hnot : s.seqs.length ∉ s.waiting ++ s.running := fun hmem =>
    Nat.lt_irrefl _ (lt_of_unfinished ((h.queued _).mp hmem))
  have hmem : ∀ i, i ∈ (s.waiting ++ [s.seqs.length]) ++ s.running ↔
      i ∈ s.waiting ++ s.running ∨ i = s.seqs.length := by
    intro i
    simp only [List.mem_append,List.mem_singleton]
    tauto
  refine ⟨?_,fun i => ?_,fun i hi => ?_,fun r i hi => ?_⟩
  · refine (List.Perm.nodup_iff ?_).mpr (List.nodup_cons.mpr ⟨hnot,h.once⟩)
    simp only [List.append_assoc,List.singleton_append]
    exact List.perm_middle
  · refine (hmem i).trans ?_
    simp only [seq]
    by_cases hi : i = s.seqs.length
    · rw [hi,hnew]
      simp [hf]
    · rw [hold i hi]
      simp [hi,← h.queued i]
  · simp only [seq] at hi ⊢
    by_cases hn : i = s.seqs.length
    · rw [hn,hnew]
      exact hc
    · rw [hold i hn] at hi ⊢
      exact h.flag i hi
  · simp only [seq]
    by_cases hr : r = q.requestId
    · simp only [hr,Function.update_self,Option.some.injEq] at hi
      rw [← hi,hnew]
      exact ⟨hr.symm,hf⟩
    · simp only [Function.update_of_ne hr] at hi
      obtain ⟨h1,h2⟩ := h.byRequest r i hi
      have hn : i ≠ s.seqs.length := fun he => Nat.lt_irrefl _ (he ▸ lt_of_unfinished h2)
      rw [hold i hn]
      exact ⟨h1,h2⟩

end Scheduler

/-- What `match_prefix` hands to `add_request`. -/
structure Matched where
  matchedLen : Nat := 0
  blockIds : List BlockId := []
  pastKv : Bool := false
  lastLogits : Bool := false
  deriving DecidableEq, Repr

def Request.admitted (r : Request) (stopTokenIds : List Token) (m : Matched) : Sequence :=
  { r.sequence none with
    stopTokenIds := stopTokenIds
    cachedLen := m.matchedLen
    cacheHitTokens := if m.blockIds = [] then 0 else m.matchedLen
    blockTable := m.blockIds
    kvState := m.pastKv
    lastLogits := m.lastLogits }

/-- A scheduler with `_next_seq_id` and the `seq_id` of each sequence in its heap. -/
structure Table where
  sched : Scheduler := {}
  nextSeqId : Nat := 1
  seqIds : List Nat := []

namespace Table

def seqId (t : Table) (i : SeqId) : Nat := t.seqIds.getD i 0

/-- `Sequence.__eq__`. -/
def equal (t : Table) (i j : SeqId) : Bool :=
  decide (t.seqId i = t.seqId j ∧ t.sched.seq i = t.sched.seq j)

/-- `mark_finished`, which looks for the sequence in `running` by equality and
in `waiting` by its `seq_id`. -/
def markFinished (t : Table) (i : SeqId) (reason : FinishReason) : Table :=
  let t₁ : Table := { t with sched := t.sched.modify i fun q =>
    { q with finished := true, finishReason := some reason } }
  { t with
    sched :=
      { seqs := t₁.sched.seqs.modify i fun q => { q with blockTable := [], kvState := false }
        running := t.sched.running.eraseP (t₁.equal i)
        waiting := t.sched.waiting.filter fun j => t.seqId j ≠ t.seqId i
        byRequest := Function.update t.sched.byRequest (t.sched.seq i).requestId none } }

inductive Op where
  | addRequest (r : Request) (stopTokenIds : List Token) (m : Matched)
  | step
  | updateAfterPrefill (i : SeqId) (pastKv : Bool) (blocks : List BlockId)
  | updateAfterDecode (i : SeqId) (t : Token) (alreadyAppended pastKv : Bool) (blocks : List BlockId)
  | markFinished (i : SeqId) (reason : FinishReason)
  | cancel (r : RequestId)
  deriving DecidableEq, Repr

/-- One call; a call about a sequence needs one that was added. An exception of
`add_request` leaves the scheduler as it was. -/
def apply (cfg : SchedConfig) (t : Table) : Op → Option Table
  | .addRequest r stopTokenIds m =>
      match t.sched.addRequest cfg (r.admitted stopTokenIds m) with
      | none => some t
      | some s => some ⟨s,t.nextSeqId+1,t.seqIds ++ [t.nextSeqId]⟩
  | .step => some { t with sched := (t.sched.step cfg).1 }
  | .updateAfterPrefill i pastKv blocks =>
      if i < t.sched.seqs.length then
        some { t with sched := t.sched.modify i fun q =>
          { q with
            cachedLen := q.inputIds.length
            kvState := pastKv
            blockTable := q.blockTable ++ blocks } }
      else none
  | .updateAfterDecode i tok alreadyAppended pastKv blocks =>
      if i < t.sched.seqs.length then
        some { t with sched := t.sched.modify i fun q =>
          { q with
            outputIds := if alreadyAppended then q.outputIds else q.outputIds ++ [tok]
            kvState := pastKv
            blockTable := q.blockTable ++ blocks } }
      else none
  | .markFinished i reason =>
      if i < t.sched.seqs.length then some (t.markFinished i reason) else none
  | .cancel r =>
      match t.sched.byRequest r with
      | none => some t
      | some i => some (({ t with sched := t.sched.modify i fun q => { q with cancelled := true } } :
          Table).markFinished i .cancelled)

section Invariant

variable {cfg : SchedConfig} {t t' : Table} {e : Op}

/-- The `seq_id`s tell the sequences apart, and the queues hold sequences of the
heap. -/
structure Numbered (t : Table) : Prop where
  length : t.seqIds.length = t.sched.seqs.length
  nodup : t.seqIds.Nodup
  below : ∀ n ∈ t.seqIds, n < t.nextSeqId
  inside : ∀ i ∈ t.sched.waiting ++ t.sched.running, i < t.sched.seqs.length

theorem Numbered.seqId_inj (h : Numbered t) {i j : SeqId} (hi : i < t.sched.seqs.length)
    (hj : j < t.sched.seqs.length) (he : t.seqId i = t.seqId j) : i = j := by
  rw [← h.length] at hi hj
  have hget : t.seqIds[i] = t.seqIds[j] := by simpa [seqId,hi,hj] using he
  exact h.nodup.getElem_inj_iff.mp hget

theorem Numbered.markFinished_eq (h : Numbered t) {i : SeqId} (hi : i < t.sched.seqs.length)
    (reason : FinishReason) :
    t.markFinished i reason = { t with sched := t.sched.markFinished i reason } := by
  have hrun : ∀ l : List SeqId, (∀ j ∈ l, j < t.sched.seqs.length) →
      l.eraseP (({ t with sched := t.sched.modify i fun q =>
        { q with finished := true, finishReason := some reason } } : Table).equal i) = l.erase i := by
    intro l hl
    induction l with
    | nil => rfl
    | cons j l ih =>
      have hj := hl j (by simp)
      by_cases hij : i = j
      · subst hij
        rw [List.erase_cons_head,List.eraseP_cons_of_pos]
        simp [equal]
      · have hne : t.seqId i ≠ t.seqId j := fun he => hij (h.seqId_inj hi hj he)
        rw [List.erase_cons_tail (by simpa using Ne.symm hij),List.eraseP_cons_of_neg,
          ih fun k hk => hl k (by simp [hk])]
        simp only [equal,decide_eq_true_eq,not_and]
        exact fun he => absurd he hne
  have hwait : (t.sched.waiting.filter fun j => t.seqId j ≠ t.seqId i) = t.sched.waiting.filter (· ≠ i) := by
    refine List.filter_congr fun j hj => ?_
    have hlt := h.inside j (List.mem_append_left _ hj)
    exact decide_eq_decide.mpr
      ⟨fun hne he => hne (by rw [he]),fun hne he => hne (h.seqId_inj hlt hi he)⟩
  simp only [markFinished,Scheduler.markFinished]
  rw [hwait,hrun _ fun j hj => h.inside j (List.mem_append_right _ hj)]
  simp only [Scheduler.modify,List.modify_modify_eq]
  rfl

structure Ordered (t : Table) : Prop extends Numbered t where
  kept : t.sched.Kept

theorem ordered_empty : Ordered ({} : Table) :=
  ⟨⟨rfl,List.nodup_nil,by simp,by simp⟩,Scheduler.kept_empty⟩

theorem Ordered.sched {s : Scheduler} (h : Ordered t) (hk : s.Kept)
    (hl : s.seqs.length = t.sched.seqs.length) : Ordered { t with sched := s } :=
  ⟨⟨h.length.trans hl.symm,h.nodup,h.below,fun i hi => Scheduler.lt_of_unfinished ((hk.queued i).mp hi)⟩,hk⟩

inductive Effect (cfg : SchedConfig) (t : Table) : Op → Table → Prop where
  | none (e : Op) : Effect cfg t e t
  | added (r : Request) (stopTokenIds : List Token) (m : Matched) :
      Effect cfg t (.addRequest r stopTokenIds m)
        ⟨{ t.sched with
            seqs := t.sched.seqs ++ [r.admitted stopTokenIds m]
            waiting := t.sched.waiting ++ [t.sched.seqs.length]
            byRequest := Function.update t.sched.byRequest r.requestId (some t.sched.seqs.length) },
          t.nextSeqId+1,t.seqIds ++ [t.nextSeqId]⟩
  | stepped : Effect cfg t .step { t with sched := (t.sched.step cfg).1 }
  | updated (e : Op) (i : SeqId) (f : Sequence → Sequence) (hr : ∀ q, (f q).requestId = q.requestId)
      (hf : ∀ q, (f q).finished = q.finished) (hc : ∀ q, (f q).cancelled = q.cancelled) :
      Effect cfg t e { t with sched := t.sched.modify i f }
  | finished (i : SeqId) (reason : FinishReason) :
      Effect cfg t (.markFinished i reason) { t with sched := t.sched.markFinished i reason }
  | cancelled (r : RequestId) (i : SeqId) (h : t.sched.byRequest r = some i) :
      Effect cfg t (.cancel r) { t with
        sched := (t.sched.modify i fun q => { q with cancelled := true }).markFinished i .cancelled }

theorem Ordered.effect (h : Ordered t) (ha : t.apply cfg e = some t') : Effect cfg t e t' := by
  cases e with
  | addRequest r stopTokenIds m =>
    simp only [apply,Scheduler.addRequest] at ha
    split_ifs at ha
    · obtain rfl := Option.some.inj ha
      exact .none _
    · obtain rfl := Option.some.inj ha
      exact .none _
    · obtain rfl := Option.some.inj ha
      exact .added r stopTokenIds m
  | step =>
    obtain rfl := Option.some.inj ha
    exact .stepped
  | updateAfterPrefill i pastKv blocks =>
    simp only [apply] at ha
    split_ifs at ha
    obtain rfl := Option.some.inj ha
    exact .updated _ i _ (fun _ => rfl) (fun _ => rfl) fun _ => rfl
  | updateAfterDecode i tok alreadyAppended pastKv blocks =>
    by_cases hi : i < t.sched.seqs.length
    · rw [apply,if_pos hi] at ha
      obtain rfl := Option.some.inj ha
      exact .updated _ i _ (fun _ => rfl) (fun _ => rfl) fun _ => rfl
    · rw [apply,if_neg hi] at ha
      cases ha
  | markFinished i reason =>
    simp only [apply] at ha
    split_ifs at ha with hi
    obtain rfl := Option.some.inj ha
    rw [h.toNumbered.markFinished_eq hi]
    exact .finished i reason
  | cancel r =>
    simp only [apply] at ha
    split at ha
    · obtain rfl := Option.some.inj ha
      exact .none _
    · rename_i i hi
      obtain rfl := Option.some.inj ha
      have hlt := Scheduler.lt_of_unfinished (h.kept.byRequest r i hi).2
      have hnum : Numbered { t with sched := t.sched.modify i fun q => { q with cancelled := true } } :=
        ⟨by simpa using h.length,h.nodup,h.below,fun j hj => by simpa using h.inside j hj⟩
      rw [hnum.markFinished_eq (by simpa using hlt)]
      exact .cancelled r i hi

theorem Ordered.apply (h : Ordered t) (ha : t.apply cfg e = some t') : Ordered t' := by
  have hmod : ∀ (i : SeqId) (f : Sequence → Sequence),
      (t.sched.modify i f).seqs.length = t.sched.seqs.length := fun i f => by simp
  cases h.effect ha with
  | none => exact h
  | added r stopTokenIds m =>
    have hk := h.kept.add (q := r.admitted stopTokenIds m) rfl rfl
    refine ⟨⟨by simp [h.length],?_,fun n hn => ?_,fun i hi => ?_⟩,hk⟩
    · refine List.nodup_append.mpr ⟨h.nodup,by simp,fun n hn k hk => ?_⟩
      have := h.below n hn
      rw [List.mem_singleton.mp hk]
      omega
    · show n < t.nextSeqId+1
      rcases List.mem_append.mp hn with hn | hn
      · have := h.below n hn
        omega
      · rw [List.mem_singleton.mp hn]
        omega
    · exact Scheduler.lt_of_unfinished ((hk.queued i).mp hi)
  | stepped => exact h.sched (h.kept.step _).1 rfl
  | updated e i f hr hf hc => exact h.sched (h.kept.modify i hr hf hc) (hmod i f)
  | finished i reason =>
    have hk := h.kept.markFinished i (f := id) (fun _ => rfl) reason
    rw [Scheduler.modify_same (f := id) fun _ => rfl] at hk
    exact h.sched hk (hmod i _)
  | cancelled r i hi =>
    have hk := h.kept.markFinished i (f := fun q => { q with cancelled := true }) (fun _ => rfl) .cancelled
    refine h.sched hk ?_
    show ((t.sched.modify i _).modify i _).seqs.length = _
    rw [Scheduler.length_modify,Scheduler.length_modify]

section Lifecycle

def Exact (t : Table) : Prop :=
  ∀ i, (t.sched.seq i).finished = false → t.sched.byRequest (t.sched.seq i).requestId = some i

/-- The joint invariant of the scheduler's structures, and of the batch that
`step` returns. -/
structure Lifecycle (cfg : SchedConfig) (t : Table) : Prop where
  placed : ∀ i < t.sched.seqs.length, (t.sched.seq i).finished = false →
    t.sched.waiting.count i+t.sched.running.count i = 1
  ended : ∀ i ∈ t.sched.waiting ++ t.sched.running,
    i < t.sched.seqs.length ∧ (t.sched.seq i).finished = false
  found : ∀ r i, t.sched.byRequest r = some i ↔
    i < t.sched.seqs.length ∧ (t.sched.seq i).finished = false ∧ (t.sched.seq i).requestId = r
  numbered : t.seqIds.length = t.sched.seqs.length ∧ t.seqIds.Nodup
  batch : ((t.sched.step cfg).2.map Prod.fst).Nodup ∧
    ∀ m ∈ (t.sched.step cfg).2, (t.sched.seq m.1).finished = false ∧ (t.sched.seq m.1).cancelled = false

theorem Ordered.lifecycle (h : Ordered t) (hx : Exact t) : Lifecycle cfg t := by
  obtain ⟨_,hnd,hbatch,_⟩ := h.kept.step cfg
  refine ⟨fun i _ hl => ?_,fun i hi => ?_,fun r i => ⟨fun hr => ?_,fun hr => ?_⟩,⟨h.length,h.nodup⟩,hnd,
    fun m hm => (hbatch m hm).2⟩
  · have hcount := List.count_eq_one_of_mem h.kept.once ((h.kept.queued i).mpr hl)
    rwa [List.count_append] at hcount
  · exact ⟨h.inside i hi,(h.kept.queued i).mp hi⟩
  · obtain ⟨h1,h2⟩ := h.kept.byRequest r i hr
    exact ⟨Scheduler.lt_of_unfinished h2,h2,h1⟩
  · rw [← hr.2.2]
    exact hx i hr.2.1

/-- A request is added under an id that no unfinished one has. -/
def Distinct (t : Table) : Op → Prop
  | .addRequest r _ _ => ∀ i, (t.sched.seq i).finished = false → (t.sched.seq i).requestId ≠ r.requestId
  | _ => True

/-- A sequence that is finished already is not finished once more while another
one uses its request id. -/
def NotStale (t : Table) : Op → Prop
  | .markFinished i _ => (t.sched.seq i).finished = true →
      ∀ j, (t.sched.seq j).finished = false → (t.sched.seq j).requestId ≠ (t.sched.seq i).requestId
  | _ => True

theorem Exact.markFinished {i : SeqId} {f : Sequence → Sequence} (hx : Exact t)
    (hr : ∀ q, (f q).requestId = q.requestId)
    (hone : ∀ j, j ≠ i → (t.sched.seq j).finished = false →
      (t.sched.seq j).requestId ≠ (t.sched.seq i).requestId) (reason : FinishReason) :
    Exact { t with sched := (t.sched.modify i f).markFinished i reason } := by
  intro j hj
  have hid : ((t.sched.modify i f).seq i).requestId = (t.sched.seq i).requestId := by
    rw [Scheduler.seq_modify]
    split_ifs
    · exact hr _
    · rfl
  have hji : j ≠ i := by
    rintro rfl
    simp only [Scheduler.seq_end] at hj
    split_ifs at hj with hc
    exact hc (by simpa using Scheduler.lt_of_unfinished hj)
  have hold : ((t.sched.modify i f).markFinished i reason).seq j = t.sched.seq j := by
    rw [Scheduler.seq_end,if_neg fun hc => hji hc.1]
  simp only [hold] at hj ⊢
  show Function.update t.sched.byRequest ((t.sched.modify i f).seq i).requestId none _ = some j
  rw [hid,Function.update_of_ne (hone j hji hj)]
  exact hx j hj

theorem Exact.apply (h : Ordered t) (hx : Exact t) (hd : Distinct t e) (hg : NotStale t e)
    (ha : t.apply cfg e = some t') : Exact t' := by
  have hone : ∀ i, (t.sched.seq i).finished = false → ∀ j, j ≠ i → (t.sched.seq j).finished = false →
      (t.sched.seq j).requestId ≠ (t.sched.seq i).requestId := by
    intro i hi j hji hj he
    have := hx i hi
    rw [← he,hx j hj] at this
    exact hji (Option.some.inj this)
  cases h.effect ha with
  | none => exact hx
  | added r stopTokenIds m =>
    intro i hi
    by_cases hn : i = t.sched.seqs.length
    · subst hn
      simp [Scheduler.seq,Request.admitted,Request.sequence]
    · have hold : (t.sched.seqs ++ [r.admitted stopTokenIds m]).getD i default = t.sched.seq i := by
        simp only [Scheduler.seq,List.getD_eq_getElem?_getD]
        rcases Nat.lt_or_gt_of_ne hn with hlt | hgt
        · rw [List.getElem?_append_left hlt]
        · rw [List.getElem?_eq_none (by simp; omega),List.getElem?_eq_none (by omega)]
      simp only [Scheduler.seq,hold] at hi ⊢
      exact (Function.update_of_ne (hd i hi) ..).trans (hx i hi)
  | stepped => exact hx
  | updated e i f hr hf hc =>
    intro j hj
    have hseq : ((t.sched.modify i f).seq j).requestId = (t.sched.seq j).requestId ∧
        ((t.sched.modify i f).seq j).finished = (t.sched.seq j).finished := by
      rw [Scheduler.seq_modify]
      split_ifs with hc'
      · rw [hr,hf,hc'.1]
        exact ⟨rfl,rfl⟩
      · exact ⟨rfl,rfl⟩
    simp only [hseq] at hj ⊢
    exact hx j hj
  | finished i reason =>
    have hother : ∀ j, j ≠ i → (t.sched.seq j).finished = false →
        (t.sched.seq j).requestId ≠ (t.sched.seq i).requestId := by
      intro j hji hj
      cases hfin : (t.sched.seq i).finished with
      | true => exact hg hfin j hj
      | false => exact hone i hfin j hji hj
    have hk := hx.markFinished (f := id) (fun _ => rfl) hother reason
    rwa [Scheduler.modify_same (f := id) fun _ => rfl] at hk
  | cancelled r i hi =>
    exact hx.markFinished (f := fun q => { q with cancelled := true }) (fun _ => rfl)
      (hone i (h.kept.byRequest r i hi).2) .cancelled

theorem Ordered.stale (h : Ordered t) (hg : ¬ NotStale t e) (ha : t.apply cfg e = some t') :
    ¬ Lifecycle cfg t' := by
  cases e with
  | markFinished i reason =>
    simp only [NotStale,not_forall,not_not] at hg
    obtain ⟨hfin,j,hj,hid⟩ := hg
    simp only [Table.apply] at ha
    split_ifs at ha with hi
    obtain rfl := Option.some.inj ha
    rw [h.toNumbered.markFinished_eq hi]
    intro hlife
    have hji : j ≠ i := by
      rintro rfl
      rw [hj] at hfin
      cases hfin
    have hold : (t.sched.markFinished i reason).seq j = t.sched.seq j := by
      rw [Scheduler.seq_markFinished,if_neg fun hc => hji hc.1]
    have hfound := (hlife.found (t.sched.seq i).requestId j).mpr ⟨by
      have := Scheduler.lt_of_unfinished hj
      simpa [Scheduler.markFinished] using this,by simpa [hold] using hj,by simpa [hold] using hid⟩
    have hnone : (t.sched.markFinished i reason).byRequest (t.sched.seq i).requestId = none :=
      Function.update_self ..
    exact absurd (hnone.symm.trans hfound) (by simp)
  | _ => exact absurd trivial hg

/-- In every run that adds requests under distinct ids, the invariant holds
throughout exactly when no stale sequence is finished once more. -/
theorem lifecycle_run (cfg : SchedConfig) (es : List Op) (t : Table)
    (hd : Transition.Guarded (Table.apply cfg) Distinct {} es)
    (h : Transition.exec (Table.apply cfg) {} es = some t) :
    Transition.Always (Table.apply cfg) (Lifecycle cfg) {} es ↔
      Transition.Guarded (Table.apply cfg) NotStale {} es := by
  refine Transition.always_iff_guarded (P := fun t => Ordered t ∧ Exact t) (fun t h => h.1.lifecycle h.2)
    (fun t e t' h hd hg ha => ⟨h.1.apply ha,h.2.apply h.1 hd hg ha⟩) (fun t e t' h hg ha => h.1.stale hg ha)
    ⟨ordered_empty,fun i hi => ?_⟩ hd h
  exact absurd (Scheduler.lt_of_unfinished hi) (by simp)

def allUnfinished (t : Table) (p : Sequence → Bool) : Bool :=
  (List.range t.sched.seqs.length).all fun i => (t.sched.seq i).finished || p (t.sched.seq i)

theorem allUnfinished_spec {p : Sequence → Bool} (h : t.allUnfinished p = true) {i : SeqId}
    (hi : (t.sched.seq i).finished = false) : p (t.sched.seq i) = true := by
  have := List.all_eq_true.mp h i (List.mem_range.mpr (Scheduler.lt_of_unfinished hi))
  simpa [hi] using this

def distinct (t : Table) : Op → Bool
  | .addRequest r _ _ => t.allUnfinished fun q => decide (q.requestId ≠ r.requestId)
  | _ => true

def notStale (t : Table) : Op → Bool
  | .markFinished i _ => !(t.sched.seq i).finished ||
      t.allUnfinished fun q => decide (q.requestId ≠ (t.sched.seq i).requestId)
  | _ => true

theorem Distinct.of_test (h : distinct t e = true) : Distinct t e := by
  cases e with
  | addRequest r stopTokenIds m =>
    intro i hi
    simp only [distinct] at h
    exact of_decide_eq_true (allUnfinished_spec h hi)
  | _ => trivial

theorem NotStale.of_test (h : notStale t e = true) : NotStale t e := by
  cases e with
  | markFinished i reason =>
    intro hfin j hj
    simp only [notStale,hfin,Bool.not_true,Bool.false_or] at h
    exact of_decide_eq_true (allUnfinished_spec h hj)
  | _ => trivial

def add (r : RequestId) : Op := .addRequest { requestId := r, inputIds := [1,2] } [] {}

def usedAgain : List Op :=
  [add "a",add "b",.step,.updateAfterPrefill 0 true [],.markFinished 0 .stop,.markFinished 0 .length,
    add "a",.step,.cancel "b"]

theorem lifecycle_usedAgain : ∃ t, Transition.exec (Table.apply {}) {} usedAgain = some t ∧
    Transition.Always (Table.apply {}) (Lifecycle {}) {} usedAgain := by
  have hrun : (Transition.exec (Table.apply {}) {} usedAgain).isSome = true ∧
      Transition.checks (Table.apply {}) distinct {} usedAgain = true ∧
      Transition.checks (Table.apply {}) notStale {} usedAgain = true := by
    decide +kernel
  obtain ⟨t,ht⟩ := Option.isSome_iff_exists.mp hrun.1
  exact ⟨t,ht,(lifecycle_run {} usedAgain t (.of_checks (fun _ _ => Distinct.of_test) hrun.2.1) ht).mpr
    (.of_checks (fun _ _ => NotStale.of_test) hrun.2.2)⟩

/-- The second end of the first request takes the entry of the second. -/
def finishedTwice : List Op := [add "a",.markFinished 0 .stop,add "a",.markFinished 0 .stop]

theorem finishedTwice_unmaps :
    Transition.Guarded (Table.apply {}) Distinct {} finishedTwice ∧
      (∃ t, Transition.exec (Table.apply {}) {} finishedTwice = some t ∧
        (t.sched.seq 1).finished = false ∧ t.sched.byRequest (t.sched.seq 1).requestId = none) ∧
      ¬ Transition.Always (Table.apply {}) (Lifecycle {}) {} finishedTwice := by
  have hrun : ((Transition.exec (Table.apply {}) {} finishedTwice).map fun t =>
        ((t.sched.seq 1).finished,decide (t.sched.byRequest (t.sched.seq 1).requestId = none))) =
          some (false,true) ∧
      Transition.checks (Table.apply {}) distinct {} finishedTwice = true := by
    decide +kernel
  obtain ⟨t,ht,hv⟩ := Option.map_eq_some_iff.mp hrun.1
  simp only [Prod.mk.injEq,decide_eq_true_eq] at hv
  refine ⟨.of_checks (fun _ _ => Distinct.of_test) hrun.2,⟨t,ht,hv⟩,fun hall => ?_⟩
  have hfound := ((hall.last ht).found (t.sched.seq 1).requestId 1).mpr
    ⟨Scheduler.lt_of_unfinished hv.1,hv.1,rfl⟩
  rw [hv.2] at hfound
  cases hfound

end Lifecycle

section Capacity

def Fits (cfg : SchedConfig) (s : Scheduler) : Prop :=
  s.running.length ≤ min cfg.maxBatchSize cfg.maxTokensPerBatch

theorem takeRunning_all {s : Scheduler} {l : List SeqId} (batch : List (SeqId × Bool)) (budget : Nat)
    (hl : ∀ i ∈ l, s.Runnable i) (hsize : batch.length+l.length ≤ cfg.maxBatchSize)
    (hcost : l.length ≤ budget) :
    Scheduler.takeRunning cfg s l batch budget = (batch ++ l.map (·,false),budget-l.length) := by
  induction l generalizing batch budget with
  | nil => simp [Scheduler.takeRunning]
  | cons i l ih =>
    simp only [List.length_cons] at hsize hcost
    have hgo : ¬ (cfg.maxBatchSize ≤ batch.length ∨ budget = 0) := by omega
    have hi := hl i (by simp)
    have hlive : ¬ ((s.seq i).finished = true ∨ (s.seq i).cancelled = true) := by
      simp [hi.1,hi.2]
    rw [Scheduler.takeRunning,if_neg hgo,if_neg hlive,ih _ _ (fun j hj => hl j (by simp [hj]))
      (by simp; omega) (by omega)]
    simp
    omega

/-- Every sequence taken from `waiting` costs a place and a part of the budget. -/
theorem takeWaiting_length (s : Scheduler) (l : List SeqId) (batch : List (SeqId × Bool)) (budget : Nat)
    (hb : batch.length ≤ cfg.maxBatchSize) :
    (Scheduler.takeWaiting cfg s l batch budget).1.length ≤ cfg.maxBatchSize ∧
      (Scheduler.takeWaiting cfg s l batch budget).1.length ≤ batch.length+budget := by
  induction l generalizing batch budget with
  | nil => simp [Scheduler.takeWaiting,hb]
  | cons i l ih =>
    have hcost : 1 ≤ (if 0 < Scheduler.remainingPrompt (s.seq i) then
        max 1 (Scheduler.remainingPrompt (s.seq i)) else 1) := by
      split_ifs <;> omega
    simp only [Scheduler.takeWaiting]
    by_cases hgo : batch.length < cfg.maxBatchSize ∧ 0 < budget
    · rw [if_pos hgo]
      by_cases hskip : (s.seq i).finished = true ∨ (s.seq i).cancelled = true
      · rw [if_pos hskip]
        exact ih batch budget hb
      · rw [if_neg hskip]
        generalize (if 0 < Scheduler.remainingPrompt (s.seq i) then
          max 1 (Scheduler.remainingPrompt (s.seq i)) else 1) = cost at hcost ⊢
        by_cases hstop : budget < cost ∧ batch ≠ []
        · rw [if_pos hstop]
          exact ⟨hb,Nat.le_add_right ..⟩
        · rw [if_neg hstop]
          have hlen : (batch ++ [(i,decide (0 < Scheduler.remainingPrompt (s.seq i)))]).length =
              batch.length+1 := by simp
          obtain ⟨h1,h2⟩ := ih (batch ++ [(i,decide (0 < Scheduler.remainingPrompt (s.seq i)))])
            (budget-min cost budget) (by omega)
          exact ⟨h1,by omega⟩
    · rw [if_neg hgo]
      exact ⟨hb,Nat.le_add_right ..⟩

theorem batch_running {s : Scheduler} (hk : s.Kept) (hf : Fits cfg s) :
    ∃ ws : List SeqId, (s.step cfg).2.map Prod.fst = s.running ++ ws ∧ ws.Sublist s.waiting ∧
      (s.step cfg).2.length ≤ min cfg.maxBatchSize cfg.maxTokensPerBatch := by
  unfold Fits at hf
  have hrun : Scheduler.takeRunning cfg s s.running [] cfg.maxTokensPerBatch =
      (s.running.map (·,false),cfg.maxTokensPerBatch-s.running.length) := by
    refine (takeRunning_all [] cfg.maxTokensPerBatch
      (fun i hi => hk.runnable (List.mem_append_right s.waiting hi)) (by simp; omega) (by omega)).trans ?_
    rw [List.nil_append]
  have hbatch : (s.step cfg).2 = (Scheduler.takeWaiting cfg s s.waiting (s.running.map (·,false))
      (cfg.maxTokensPerBatch-s.running.length)).1 := by
    show (s.formBatch cfg).1 = _
    rw [Scheduler.formBatch,hrun]
  obtain ⟨ws,hws,hsub⟩ := Scheduler.takeWaiting_spec cfg s s.waiting (s.running.map (·,false))
    (cfg.maxTokensPerBatch-s.running.length)
  have hroom : (s.running.map fun i => (i,false)).length ≤ cfg.maxBatchSize := by
    simp
    omega
  obtain ⟨h1,h2⟩ := takeWaiting_length s s.waiting _ (cfg.maxTokensPerBatch-s.running.length) hroom
  refine ⟨ws,?_,(List.sublist_append_left ..).trans hsub,?_⟩
  · rw [hbatch,hws]
    simp [Scheduler.waitFlag,Function.comp_def]
  · rw [hbatch]
    simp only [List.length_map] at h2
    omega

theorem Fits.step {s : Scheduler} (hk : s.Kept) (hf : Fits cfg s) : Fits cfg (s.step cfg).1 := by
  obtain ⟨ws,hbatch,_,hlen⟩ := batch_running hk hf
  have hnil : s.running.filter (fun i => i ∉ s.running ∧ ¬ (s.seq i).finished) = [] :=
    List.filter_eq_nil_iff.mpr fun i hi => by simp [hi]
  have hle : (s.step cfg).1.running.length ≤ (s.running ++ ws).length := by
    have hnew : (s.running ++ ws).filter (fun i => i ∉ s.running ∧ ¬ (s.seq i).finished) =
        ws.filter fun i => i ∉ s.running ∧ ¬ (s.seq i).finished := by
      rw [List.filter_append,hnil,List.nil_append]
    show ((s.running ++ ((s.step cfg).2.map Prod.fst).filter _).filter _).length ≤ _
    rw [hbatch,hnew]
    refine (List.length_filter_le ..).trans ?_
    simp only [List.length_append]
    have := List.length_filter_le (fun i => decide (i ∉ s.running ∧ ¬ (s.seq i).finished)) ws
    omega
  have htotal := congrArg List.length hbatch
  simp only [List.length_map] at htotal
  unfold Fits
  omega

theorem Fits.apply (h : Ordered t) (hf : Fits cfg t.sched) (ha : t.apply cfg e = some t') :
    Fits cfg t'.sched := by
  have hmark : ∀ (i : SeqId) (s : Scheduler) (reason : FinishReason), s.running = t.sched.running →
      Fits cfg (s.markFinished i reason) := by
    intro i s reason hs
    refine Nat.le_trans ?_ hf
    show (s.running.erase i).length ≤ _
    rw [hs]
    exact List.length_erase_le
  cases h.effect ha with
  | none => exact hf
  | added => exact hf
  | stepped => exact hf.step h.kept
  | updated => exact hf
  | finished i reason => exact hmark i _ reason rfl
  | cancelled r i hi => exact hmark i _ .cancelled rfl

/-- What runs fits into a batch, and every batch begins with it. -/
theorem none_skipped (cfg : SchedConfig) (es : List Op) (t : Table)
    (h : Transition.exec (Table.apply cfg) {} es = some t) :
    t.sched.running.length ≤ min cfg.maxBatchSize cfg.maxTokensPerBatch ∧
    ∃ ws : List SeqId,
      (t.sched.step cfg).2.map Prod.fst =
        (t.sched.running.filter fun i => !(t.sched.seq i).finished) ++ ws ∧
      ws.Sublist t.sched.waiting ∧ ∀ i ∈ ws, i ∉ t.sched.running := by
  have hall : Ordered t ∧ Fits cfg t.sched := by
    refine Transition.exec_always (P := fun t : Table => Ordered t ∧ Fits cfg t.sched)
      (fun t e t' ht ha => ⟨ht.1.apply ha,ht.2.apply ht.1 ha⟩) ⟨ordered_empty,?_⟩ h
    simp [Fits]
  obtain ⟨ws,hbatch,hsub,_⟩ := batch_running hall.1.kept hall.2
  refine ⟨hall.2,ws,?_,hsub,fun i hi hr => ?_⟩
  · rw [hbatch,List.filter_eq_self.mpr]
    intro i hi
    simp [(hall.1.kept.queued i).mp (List.mem_append_right _ hi)]
  · exact (List.nodup_append.mp hall.1.kept.once).2.2 i (hsub.subset hi) i hr rfl

/-- Two places and a budget of three tokens: a long prompt is admitted alone, and the
next one when it decodes. -/
theorem none_skipped_long : ∃ t, Transition.exec (Table.apply { maxBatchSize := 2, maxTokensPerBatch := 3 }) {}
      [.addRequest { requestId := "a", inputIds := [1,2,3,4,5] } [] {},
        .addRequest { requestId := "b", inputIds := [1,2] } [] {},.step,.step] = some t ∧
    t.sched.running = [0,1] ∧ t.sched.running.length ≤ min 2 3 := by
  have hrun : ((Transition.exec (Table.apply { maxBatchSize := 2, maxTokensPerBatch := 3 }) {}
      [.addRequest { requestId := "a", inputIds := [1,2,3,4,5] } [] {},
        .addRequest { requestId := "b", inputIds := [1,2] } [] {},.step,.step]).map fun t =>
        t.sched.running) = some [0,1] := by
    decide +kernel
  obtain ⟨t,ht,hv⟩ := Option.map_eq_some_iff.mp hrun
  exact ⟨t,ht,hv,(none_skipped { maxBatchSize := 2, maxTokensPerBatch := 3 } _ t ht).1⟩

end Capacity

end Invariant

end Table

end SglangLite.Sched
