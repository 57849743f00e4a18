import SglangLite.Paged.Coherence

set_option autoImplicit false

namespace SglangLite.Paged
open Kv Sched Text

namespace Engine

variable {V : Type} {cfg : Config V} {e e' : Engine V}

section Phases

theorem SamePhase.ready {q q' : Sequence} (h : SamePhase q q') (hq : Ready q) : Ready q' := by
  obtain ⟨h1,h2,h3,_⟩ := h
  simpa only [Ready,Sequence.tokens,h1,h2,h3] using hq

theorem SamePhase.done {q q' : Sequence} (h : SamePhase q q') (hq : Done q) : Done q' := by
  obtain ⟨h1,h2,h3,_⟩ := h
  simpa only [Done,Sequence.tokens,h1,h2,h3] using hq

theorem SamePhase.op {q q' : Sequence} {op : Op} (h : SamePhase q q') (hq : OpPhase q op) :
    OpPhase q' op := by
  obtain ⟨h1,h2,h3,h4⟩ := h
  cases op with
  | sample i => simpa only [OpPhase,h1,h2,h3] using hq
  | commitPrefill i => simpa only [OpPhase,h1,h2,h3] using hq
  | commitDecode i => exact SamePhase.ready ⟨h1,h2,h3,h4⟩ hq
  | _ => exact hq.elim

theorem Ended.sched (h : Ended e e') : Scheduler.Ended e.sched e'.sched :=
  ⟨h.length,fun _ hi => h.live hi,h.waiting,h.running⟩

structure Working (cfg : Config V) (e : Engine V) (batch : List (SeqId × Bool)) (todo : List Op)
    (results : SeqId → Option Token) : Prop where
  once : (resultsOf todo).Nodup
  member : ∀ op ∈ todo, ∀ i, op.target = some i →
    i ∈ batch.map Prod.fst ∧ i < e.sched.seqs.length
  plain : ∀ op ∈ todo, op.ofBurst = false
  copies : CowFirst (PageAlone cfg e) todo
  prompt : ∀ i, (i,true) ∈ batch → (e.seq i).finished = false → (e.seq i).outputIds = []
  done : ∀ i ∈ batch.map Prod.fst, (e.seq i).finished = false →
    i ∈ resultsOf todo ∨ Done (e.seq i) ∧ results i ≠ none
  phase : ∀ op ∈ todo, ∀ i, op.result = some i → (e.seq i).finished = false →
    OpPhase (e.seq i) op

def Phased (cfg : Config V) (e : Engine V) : Prop :=
  match e.pc with
  | .idle => e.sched.Split []
  | .stepped batch => e.sched.Split (batch.map Prod.fst) ∧
      ∀ i pre, (i,pre) ∈ batch → (e.seq i).finished = false → BatchPhase (e.seq i) pre
  | .inBatch batch todo results =>
      e.sched.Split (batch.map Prod.fst) ∧ Working cfg e batch todo results
  | .posting todo => e.sched.Split (todo.map Prod.fst) ∧
      ∀ i tok pre, (i,tok,pre) ∈ todo → (e.seq i).finished = false →
        tok ≠ none ∧ Done (e.seq i) ∧ (pre = true → (e.seq i).outputIds = [])
  | .bursting _ _ _ => False

theorem PageAlone.ended {j : SeqId} (h : PageAlone cfg e j) (hend : Ended e e') :
    PageAlone cfg e' j := by
  intro b hb
  rcases hend.seqs j with heq | ⟨_,ht,_⟩
  · rw [heq] at hb
    obtain ⟨h0,h1⟩ := h b hb
    exact ⟨(hend.held_le b).trans h0,by rw [hend.tree]; exact h1⟩
  · simp [ht] at hb

theorem Working.ended {batch : List (SeqId × Bool)} {todo : List Op}
    {results : SeqId → Option Token} (h : Working cfg e batch todo results) (hend : Ended e e') :
    Working cfg e' batch todo results := by
  refine ⟨h.once,fun op hop i hi => ?_,h.plain,h.copies.mono fun j _ ha => ha.ended hend,
    fun i hi hl => ?_,fun i hi hl => ?_,fun op hop i hi hl => ?_⟩
  · rw [hend.length]
    exact h.member op hop i hi
  all_goals
    have heq := hend.live hl
    rw [heq] at hl ⊢
  · exact h.prompt i hi hl
  · exact h.done i hi hl
  · exact h.phase op hop i hi hl

theorem Phased.ended (h : Phased cfg e) (hend : Ended e e') (hpc : e'.pc = e.pc) :
    Phased cfg e' := by
  unfold Phased at *
  rw [hpc]
  split at h
  · exact h.ended hend.sched
  · refine ⟨h.1.ended hend.sched,fun i pre hi hl => ?_⟩
    have heq := hend.live hl
    rw [heq] at hl ⊢
    exact h.2 i pre hi hl
  · exact ⟨h.1.ended hend.sched,h.2.ended hend⟩
  · refine ⟨h.1.ended hend.sched,fun i tok pre hi hl => ?_⟩
    have heq := hend.live hl
    rw [heq] at hl ⊢
    exact h.2 i tok pre hi hl
  · exact h

end Phases

section Steps

/-- The condition on a run: every prefill that is about to write agrees with
the other owners of the slots that it hits. -/
def PrefillSafe (cfg : Config V) (e : Engine V) : Event → Prop
  | .exec _ _ _ => ∀ i rest, e.pc.todo = .commitPrefill i :: rest → (e.seq i).finished = false →
      PrefillAgrees cfg e i
  | _ => True

structure Serving (cfg : Config V) (e : Engine V) : Prop where
  core : Core cfg e
  phased : Phased cfg e

theorem Serving.addRequest {r : Request} (h : Serving cfg e) (hpc : e.pc = .idle)
    (hr : e.addRequest cfg r = some e') : Serving cfg e' := by
  obtain ⟨q,m,ha⟩ := h.core.base.addRequest hr
  obtain ⟨hid,hin,hout,hcl,htab,hfin,_,hlog,hkv,_⟩ := ha.fields
  have hm := ha.matched
  have hph := h.phased
  simp only [Phased,hpc] at hph
  have hnotin : e.sched.seqs.length ∉ e.sched.running ++ e.sched.waiting :=
    fun hc => Nat.lt_irrefl _ (h.core.queue_lt _ hc)
  have hold : ∀ i, i ≠ e.sched.seqs.length → (e.seq i).finished = (e'.seq i).finished :=
    fun i hi => by rw [ha.seq_old i hi]
  have hheld : ∀ b, e'.sched.held b = e.sched.held b+m.blockIds.count b := by
    intro b
    rw [ha.sched,← htab]
    simp [Scheduler.held]
  have hpast : m.pastKv = false := by
    by_contra hp
    obtain ⟨n,k,hn,hnp⟩ := hm.past (by simpa using hp)
    rw [h.core.noPast _ n k hn] at hnp
    exact absurd hnp (by simp)
  -- the hit hands out the first pages of the node at the matched prefix
  have hhit : Holds cfg e'.radix.pages q.blockTable q.tokens q.cachedLen := by
    rw [hm.pages,htab,hcl,Sequence.tokens,hout,List.append_nil,hin]
    by_cases hz : m.len = 0
    · rw [hz]; exact .zero
    · obtain ⟨hb,hlen⟩ := hm.hit (by omega)
      have hne : e.radix.tree.blocksAt (r.inputIds.take m.len) ≠ [] := by
        intro h0
        rw [h0,List.length_nil] at hlen
        have := lt_pages cfg.cache (Nat.pos_of_ne_zero hz)
        rw [Nat.zero_div] at this
        omega
      have hnode := h.core.coherent.nodes _ hne
      rw [List.length_take,Nat.min_eq_left hm.len_le] at hnode
      rw [hb]
      exact hnode.of_hit
  refine ⟨⟨ha.base,⟨fun i hi => ?_,?_⟩,fun i hi b hb => ?_,fun i hi => ?_,?_,?_,fun i hi => ?_⟩,?_⟩
  · by_cases hnew : i = e.sched.seqs.length
    · rw [hnew,ha.seq_new]
      exact hhit
    · rw [ha.seq_old i hnew] at hi ⊢
      rw [hm.pages]
      exact h.core.coherent.seqs i hi
  · rw [hm.tree,hm.pages]
    exact h.core.coherent.nodes
  · by_cases hnew : i = e.sched.seqs.length
    · rw [hnew,ha.seq_new,hfin] at hi
      exact absurd hi (by simp)
    · rw [ha.seq_old i hnew] at hi hb
      obtain ⟨h0,h1⟩ := h.core.alone i hi b hb
      have hnot : m.blockIds.count b = 0 := by
        refine List.count_eq_zero.mpr fun hbm => ?_
        by_cases hz : m.len = 0
        · rw [hm.miss hz] at hbm
          simp at hbm
        · rw [(hm.hit (by omega)).1] at hbm
          have := Children.mem_blocksAt_count (List.mem_of_mem_take hbm)
          omega
      exact ⟨by rw [hheld,hnot]; exact h0,by rw [hm.tree]; exact h1⟩
  · rw [ha.sched] at hi ⊢
    simp only [List.mem_append,List.length_append,List.length_singleton,List.mem_singleton] at hi ⊢
    rcases hi with hi | hi | hi
    · exact Nat.lt_succ_of_lt (h.core.queue_lt i (by simp [hi]))
    · exact Nat.lt_succ_of_lt (h.core.queue_lt i (by simp [hi]))
    · exact hi ▸ Nat.lt_succ_self _
  · rw [ha.sched]
    simp only [← List.append_assoc]
    exact h.core.queue_nodup.append (by simp) (by simpa using hnotin)
  · rw [hm.tree]
    exact h.core.noPast
  · by_cases hnew : i = e.sched.seqs.length
    · rw [hnew,ha.seq_new,hkv,hpast]
    · rw [ha.seq_old i hnew] at hi ⊢
      exact h.core.noState i hi
  · simp only [Phased,ha.pc,hpc]
    refine hph.joined ⟨h.core.queue_lt,h.core.queue_nodup⟩ (q := q) ⟨?_,?_,?_⟩
      ⟨hout,by rw [hcl,hin]; exact hm.len_le,fun heq => ?_⟩
    · rw [ha.sched]
    · rw [ha.sched]
    · rw [ha.sched]
    · rw [hcl,hin] at heq
      have hpos : 0 < m.len := by
        rw [heq]
        exact List.length_pos_of_ne_nil ha.prompt
      rw [hlog]
      exact (hm.exact_logits hpos heq).resolve_right (by simp [hpast])

theorem Serving.step (h : Serving cfg e) (hpc : e.pc = .idle) {pc : Pc}
    (hpc' : pc = if (e.sched.step cfg.sched).2 = [] then .idle
      else .stepped (e.sched.step cfg.sched).2) :
    Serving cfg { e with sched := (e.sched.step cfg.sched).1, pc := pc } := by
  have hph := h.phased
  simp only [Phased,hpc] at hph
  have hq : e.sched.Queued := ⟨h.core.queue_lt,h.core.queue_nodup⟩
  have hqueue := hq.step cfg.sched
  obtain ⟨hsplit,hphase⟩ := hph.step hq cfg.sched
  refine ⟨⟨⟨h.core.base.owned,h.core.base.nodup,h.core.base.prompt⟩,
    ⟨h.core.coherent.seqs,h.core.coherent.nodes⟩,h.core.alone,hqueue.lt,hqueue.nodup,h.core.noPast,
    h.core.noState⟩,?_⟩
  simp only [Phased]
  rw [hpc']
  by_cases hnil : (e.sched.step cfg.sched).2 = []
  · rw [if_pos hnil]
    rw [hnil,List.map_nil] at hsplit
    exact hsplit
  · rw [if_neg hnil]
    exact ⟨hsplit,hphase⟩

theorem Serving.check (hm : cfg.mode = .hfRebuild) (h : Serving cfg e)
    {batch : List (SeqId × Bool)} (hpc : e.pc = .stepped batch) :
    Serving cfg { e with pc := .inBatch batch (runBatch cfg e.sched batch) (fun _ => none) } := by
  have hph := h.phased
  simp only [Phased,hpc] at hph
  obtain ⟨hsplit,hphase⟩ := hph
  refine ⟨h.core.withPc _,hsplit,?_⟩
  have hperm := @resultsOf_runBatch V cfg e.sched batch
  refine ⟨?_,fun op hop i hi => ?_,fun op hop => (runBatch_phase hphase hop).1,
    cowFirst_runBatch (by rw [hm]; simp),fun i hi hl => ?_,fun i hi hl => .inl ?_,
    fun op hop i hi _ => (runBatch_phase hphase hop).2 i hi⟩
  · exact hperm.nodup_iff.mpr ((List.filter_sublist.map _).nodup hsplit.nodup)
  · obtain ⟨hl,hmem⟩ := target_runBatch hop hi
    exact ⟨hmem,lt_of_unfinished hl⟩
  · exact (fresh_flag (hphase i true hi hl)).1
  · obtain ⟨b,hb,rfl⟩ := List.mem_map.mp hi
    have hl : (e.sched.seq b.1).finished = false := hl
    exact hperm.mem_iff.mpr (List.mem_map_of_mem (List.mem_filter.mpr ⟨hb,by simpa using hl⟩))

variable [Zero V]

theorem Serving.called {batch : List (SeqId × Bool)} {op : Op} {rest todo : List Op}
    {results : SeqId → Option Token} {tok : Token} {raises ok : Bool} {e₁ : Engine V}
    (hm : cfg.mode = .hfRebuild) (h : Serving cfg e)
    (hpc : e.pc = .inBatch batch (op :: rest) results)
    (hsafe : ∀ i, op = .commitPrefill i → (e.seq i).finished = false → PrefillAgrees cfg e i)
    (hx : execOp cfg e rest tok raises op = (e₁,ok,todo)) :
    Called cfg e op ok e₁ ∧ todo = rest := by
  have hph := h.phased
  simp only [Phased,hpc] at hph
  obtain ⟨_,hw⟩ := hph
  refine h.core.execOp hm (fun i hi => (hw.member op (by simp) i hi).2) (hw.plain op (by simp))
    (hw.phase op (by simp)) (fun i hi => ?_) hsafe hx
  have := hw.copies
  rw [hi] at this
  exact this.1

omit [Zero V] in
theorem Called.split {ids : List SeqId} {op : Op} {ok : Bool} (hc : Called cfg e op ok e')
    (h : e.sched.Split ids) (hmem : ∀ i, op.target = some i → i ∈ ids) : e'.sched.Split ids :=
  h.members hc.acted.waiting hc.acted.running
    fun i hn => hc.acted.others i fun ht => hn (hmem i ht)

omit [Zero V] in
theorem CowFirst.called {op : Op} {rest : List Op} (hnd : (resultsOf (op :: rest)).Nodup)
    (h : CowFirst (PageAlone cfg e) (op :: rest)) (hc : Called cfg e op true e') :
    CowFirst (PageAlone cfg e') rest := by
  have hkeep : ∀ j, .commitDecode j ∈ rest → PageAlone cfg e j → PageAlone cfg e' j := by
    intro j hj ha
    refine hc.alone j (fun hr => ?_) ha
    have hmem : j ∈ resultsOf rest := List.mem_filterMap.mpr ⟨_,hj,rfl⟩
    simp only [resultsOf,List.filterMap_cons,hr,List.nodup_cons] at hnd
    exact hnd.1 hmem
  cases op with
  | cow i =>
    refine CowFirst.mono h fun j hj ha => ?_
    rcases ha with rfl | ha
    · exact hc.copied j rfl rfl
    · exact hkeep j hj ha
  | commitDecode i => exact CowFirst.mono h.2 hkeep
  | _ => exact CowFirst.mono h hkeep

theorem Serving.call {batch : List (SeqId × Bool)} {op : Op} {rest todo : List Op}
    {results results' : SeqId → Option Token} {tok : Token} {raises : Bool} {e₁ : Engine V}
    (hm : cfg.mode = .hfRebuild) (h : Serving cfg e)
    (hpc : e.pc = .inBatch batch (op :: rest) results)
    (hsafe : ∀ i, op = .commitPrefill i → (e.seq i).finished = false → PrefillAgrees cfg e i)
    (hx : execOp cfg e rest tok raises op = (e₁,true,todo))
    (hr : results' = match Op.result op with
      | some i => Function.update results i (some tok)
      | none => results) :
    Serving cfg { e₁ with pc := .inBatch batch todo results' } := by
  obtain ⟨hc,rfl⟩ := h.called hm hpc hsafe hx
  have hph := h.phased
  simp only [Phased,hpc] at hph
  obtain ⟨hsplit,hw⟩ := hph
  have hmem : ∀ i, op.target = some i → i ∈ batch.map Prod.fst :=
    fun i hi => (hw.member op (by simp) i hi).1
  have hs := hc.split hsplit hmem
  refine ⟨hc.core.withPc _,hs,?_⟩
  have hcopies := CowFirst.called hw.once hw.copies hc
  -- the call yields one token at most, and nobody waits for a second one
  have hone : ∀ i, op.result = some i → i ∉ resultsOf todo := by
    intro i hi hmem
    have := hw.once
    simp only [resultsOf,List.filterMap_cons,hi,List.nodup_cons] at this
    exact this.1 hmem
  have honce : (resultsOf todo).Nodup :=
    (List.Sublist.filterMap _ (List.sublist_cons_self op todo)).nodup hw.once
  refine ⟨honce,fun op' hop' i hi => ?_,fun op' hop' => hw.plain op' (List.mem_cons_of_mem _ hop'),
    hcopies,fun i hi hl => ?_,fun i hi hl => ?_,fun op' hop' i hi hl => ?_⟩
  · show _ ∧ i < e₁.sched.seqs.length
    rw [hc.acted.length]
    exact hw.member op' (List.mem_cons_of_mem _ hop') i hi
  · have hl' : (e.seq i).finished = false := (hc.acted.finished i).symm.trans hl
    show (e₁.seq i).outputIds = []
    by_cases hres : op.result = some i
    · rw [(hc.done i hres rfl hl').2]
      exact hw.prompt i hi hl'
    · rw [(hc.phase i hres).2.1]
      exact hw.prompt i hi hl'
  · have hl' : (e.seq i).finished = false := (hc.acted.finished i).symm.trans hl
    show _ ∨ Done (e₁.seq i) ∧ _
    by_cases hres : op.result = some i
    · refine .inr ⟨(hc.done i hres rfl hl').1,?_⟩
      rw [hr,hres]
      simp
    · rcases hw.done i hi hl' with hin | ⟨hd,hsome⟩
      · refine .inl ?_
        obtain ⟨op',hop',hr'⟩ := List.mem_filterMap.mp hin
        rcases List.mem_cons.mp hop' with rfl | hop'
        · exact absurd hr' hres
        · exact List.mem_filterMap.mpr ⟨op',hop',hr'⟩
      · refine .inr ⟨(hc.phase i hres).done hd,?_⟩
        rw [hr]
        cases hop : op.result with
        | none => exact hsome
        | some j =>
          have hij : i ≠ j := fun he => hres (he ▸ hop)
          simpa [Function.update_of_ne hij] using hsome
  · have hl' : (e.seq i).finished = false := (hc.acted.finished i).symm.trans hl
    have hres : op.result ≠ some i :=
      fun hres => hone i hres (List.mem_filterMap.mpr ⟨op',hop',hi⟩)
    exact (hc.phase i hres).op (hw.phase op' (List.mem_cons_of_mem _ hop') i hi hl')

theorem finished_abortBatch {full : RequestId → Bool} {batch : List (SeqId × Bool)} {i : SeqId}
    (h : Base cfg e) (hi : i ∈ batch.map Prod.fst) :
    ((abortBatch full e batch).seq i).finished = true := by
  induction batch generalizing e with
  | nil => simp at hi
  | cons b batch ih =>
    obtain ⟨h₁,_⟩ := h.mark b.1 .error
    obtain ⟨h₂,hend⟩ := h₁.emit (full (e.seq b.1).requestId) (e.seq b.1).requestId
    rcases List.mem_cons.mp hi with rfl | hi
    · obtain ⟨_,hend'⟩ := h₂.abortBatch full batch
      refine hend'.finished (hend.finished ?_)
      rw [seq_mark]
      split_ifs with hlt
      · rfl
      · have hge : e.sched.seqs.length ≤ b.1 := Nat.le_of_not_lt fun hc => hlt ⟨rfl,hc⟩
        show (e.sched.seq b.1).finished = true
        rw [Scheduler.seq_of_ge hge]
        rfl
    · exact ih h₂ hi

theorem Serving.abort {batch : List (SeqId × Bool)} {op : Op} {rest todo : List Op}
    {results : SeqId → Option Token} {tok : Token} {raises : Bool} {full : RequestId → Bool}
    {e₁ : Engine V} (hm : cfg.mode = .hfRebuild) (h : Serving cfg e)
    (hpc : e.pc = .inBatch batch (op :: rest) results)
    (hsafe : ∀ i, op = .commitPrefill i → (e.seq i).finished = false → PrefillAgrees cfg e i)
    (hx : execOp cfg e rest tok raises op = (e₁,false,todo)) :
    Serving cfg (abortBatch full e₁ batch) := by
  obtain ⟨hc,_⟩ := h.called hm hpc hsafe hx
  have hph := h.phased
  simp only [Phased,hpc] at hph
  obtain ⟨hsplit,hw⟩ := hph
  have hs := hc.split hsplit fun i hi => (hw.member op (by simp) i hi).1
  obtain ⟨hb,hend⟩ := hc.core.base.abortBatch full batch
  refine ⟨hc.core.ended hb hend,?_⟩
  simp only [Phased,pc_abortBatch]
  exact (hs.ended hend.sched).dissolve fun i hi => finished_abortBatch hc.core.base hi

omit [Zero V] in
theorem Serving.finishBatch {batch : List (SeqId × Bool)} {results : SeqId → Option Token}
    (hb : cfg.burst ≤ 1) (h : Serving cfg e) (hpc : e.pc = .inBatch batch [] results) :
    Serving cfg (leaveBatch cfg e batch results) := by
  have hleave : leaveBatch cfg e batch results =
      { e with pc := .posting (batch.map fun b => (b.1,results b.1,b.2)) } := by
    have hb' : ∀ i, ¬ (1 < cfg.burst ∧ ¬ (e.seq i).finished = true) := fun i hc => by omega
    unfold leaveBatch
    simp only
    split
    · split
      · rw [if_neg (hb' _)]
      · rfl
    · rfl
  have hph := h.phased
  simp only [Phased,hpc] at hph
  obtain ⟨hsplit,hw⟩ := hph
  rw [hleave]
  have hids : (batch.map fun b => (b.1,results b.1,b.2)).map Prod.fst = batch.map Prod.fst := by
    simp [Function.comp_def]
  refine ⟨h.core.withPc _,?_,fun i tok pre hi hl => ?_⟩
  · rw [hids]
    exact hsplit
  · obtain ⟨b,hbm,heq⟩ := List.mem_map.mp hi
    simp only [Prod.mk.injEq] at heq
    obtain ⟨rfl,rfl,rfl⟩ := heq
    rcases hw.done b.1 (List.mem_map_of_mem hbm) hl with hin | ⟨hd,hsome⟩
    · simp [resultsOf] at hin
    · exact ⟨hsome,hd,fun hp => hw.prompt b.1 (hp ▸ hbm) hl⟩

theorem Base.modify_mark {i : SeqId} {f : Sequence → Sequence} (h : Base cfg e)
    (ht : ∀ q, (f q).blockTable = q.blockTable) (hp : ∀ q, (f q).inputIds = q.inputIds)
    (reason : FinishReason) :
    Base cfg ((e.modify i f).mark i reason) ∧ Ended e ((e.modify i f).mark i reason) := by
  obtain ⟨hb,he⟩ := (h.modify i ht hp).mark i reason
  have hlen : (e.modify i f).sched.seqs.length = e.sched.seqs.length :=
    Scheduler.length_modify _ _ _
  refine ⟨hb,he.tree,he.pages,fun b => ?_,he.length.trans hlen,fun j => ?_,he.waiting,he.running⟩
  · refine (he.held_le b).trans (Nat.le_of_eq ?_)
    exact Scheduler.held_modify_same e.sched i f b ht
  · rw [seq_mark,hlen]
    split_ifs with hji
    · refine .inr ⟨rfl,rfl,?_⟩
      rw [hji.1,seq_modify_self hji.2]
      exact hp _
    · refine .inl ?_
      rw [seq_modify,if_neg hji]

omit [Zero V] in
theorem modify_output_same {i : SeqId} {ids : List Token} (h : ids = (e.seq i).outputIds) :
    (e.modify i fun q => { q with outputIds := ids }) = e :=
  modify_fixed (by rw [h])

theorem Base.applyPost_ended {i : SeqId} {p : Post} (full : Bool) (h : Base cfg e)
    (hp : p.reason = none → p.outputIds = (e.seq i).outputIds) :
    Base cfg (e.applyPost i p full) ∧ Ended e (e.applyPost i p full) := by
  unfold Engine.applyPost
  simp only
  cases hr : p.reason with
  | none =>
    simp only
    rw [modify_output_same (hp hr)]
    exact h.emit full _
  | some reason =>
    obtain ⟨h₁,he₁⟩ := h.modify_mark (i := i) (f := fun q => { q with outputIds := p.outputIds })
      (fun _ => rfl) (fun _ => rfl) reason
    obtain ⟨h₂,he₂⟩ := h₁.emit full (e.seq i).requestId
    exact ⟨h₂,he₁.trans he₂⟩

theorem Core.updateAfterPrefill {i : SeqId} (h : Core cfg e) (hl : (e.seq i).finished = false)
    (hd : Done (e.seq i)) (hout : (e.seq i).outputIds = []) :
    Core cfg (e.updateAfterPrefill i) := by
  obtain ⟨hb,hc⟩ := h.base.updateAfterPrefill (lt_of_unfinished hl)
  have hcl : (e.seq i).cachedLen = (e.seq i).inputIds.length := by
    simpa [Done,Sequence.tokens,hout] using hd
  have hm := h.modify (i := i) (f := fun q => { q with cachedLen := q.inputIds.length })
    (fun _ => rfl) (fun _ => rfl) (fun _ => rfl) (h.noState i) (fun hl => by
      have := h.coherent.seqs i hl
      rw [hcl] at this
      exact this)
  have hheld : ∀ b, (e.updateAfterPrefill i).sched.held b = e.sched.held b := fun b =>
    Scheduler.held_modify_same e.sched i (fun q => { q with cachedLen := q.inputIds.length }) b
      (fun _ => rfl)
  have hpages : ∀ b, 0 < e.sched.held b+(e.updateAfterPrefill i).radix.tree.count b →
      (e.updateAfterPrefill i).radix.pages b = e.radix.pages b := hc.pages
  have hseq : ∀ j, (e.updateAfterPrefill i).seq j =
      (e.modify i fun q => { q with cachedLen := q.inputIds.length }).seq j := fun _ => rfl
  have htable : ∀ j, ((e.updateAfterPrefill i).seq j).blockTable = (e.seq j).blockTable := fun j =>
    seq_modify_field (e := e) (·.blockTable) (f := fun q => { q with cachedLen := q.inputIds.length })
      (fun _ => rfl) i j
  refine ⟨hb,⟨fun j hj => ?_,fun p hp => ?_⟩,fun j hj b hbm => ?_,hm.queue_lt,hm.queue_nodup,?_,
    hm.noState⟩
  · refine (hm.coherent.seqs j hj).congr fun b hbm => hpages b ?_
    have := held_pos (e := e.updateAfterPrefill i) hbm
    rw [hheld] at this
    omega
  · rw [hc.blocksAt] at hp ⊢
    by_cases hpi : p = (e.seq i).inputIds
    · rw [if_pos hpi]
      have hH := h.coherent.seqs i hl
      rw [hcl,Sequence.tokens,hout,List.append_nil] at hH
      rw [hpi]
      refine hH.congr fun b hbm => hpages b ?_
      have := held_pos hbm
      omega
    · rw [if_neg hpi] at hp ⊢
      refine (h.coherent.nodes p hp).congr fun b hbm => hpages b ?_
      have hb' : b ∈ (e.updateAfterPrefill i).radix.tree.blocksAt p := by
        rw [hc.blocksAt,if_neg hpi]
        exact hbm
      have := Children.mem_blocksAt_count hb'
      omega
  · rw [htable] at hbm
    have hj' : (e.seq j).finished = true := by
      rw [hseq,seq_modify_field (e := e) (·.finished)
        (f := fun q => { q with cachedLen := q.inputIds.length }) (fun _ => rfl)] at hj
      exact hj
    have ha := h.alone j hj' b hbm
    refine ⟨by rw [hheld]; exact ha.1,?_⟩
    -- the committed pages are those of a live table
    by_contra hpos
    obtain ⟨p,hp⟩ := Children.exists_blocksAt hb.owned.wf (Nat.pos_of_ne_zero hpos)
    rw [hc.blocksAt] at hp
    split_ifs at hp
    · obtain rfl := ha.unique hbm hp
      rw [hl] at hj'
      exact absurd hj' (by simp)
    · exact ha.not_node hp
  · simp only [Engine.updateAfterPrefill,h.noState i hl]
    exact RadixCache.noPast_insertOrUpdate h.noPast _ _ _

omit [Zero V] in
theorem Core.append {i : SeqId} (h : Core cfg e) (hd : Done (e.seq i)) (t : Token) :
    Core cfg (e.modify i fun q => { q with outputIds := q.outputIds ++ [t] }) := by
  refine h.modify (fun _ => rfl) (fun _ => rfl) (fun _ => rfl) (h.noState i) (fun hl => ?_)
  refine (h.coherent.seqs i hl).retoken ?_
  simp only [Sequence.tokens,← List.append_assoc]
  rw [List.take_append_of_le_length]
  exact Nat.le_of_eq hd

theorem updateAfterPrefill_append {i : SeqId} {pre : Bool} (t : Token)
    (hp : pre = true → (e.seq i).cachedLen = (e.seq i).inputIds.length) :
    ((if pre then e.updateAfterPrefill i else e).modify i
      fun q => { q with outputIds := q.outputIds ++ [t] }).sched =
      e.sched.modify i fun q => { q with outputIds := q.outputIds ++ [t] } := by
  cases pre with
  | false => rfl
  | true =>
    simp only [if_true,Engine.updateAfterPrefill,Engine.modify,Scheduler.modify,
      List.modify_modify_eq]
    congr 1
    refine List.ext_getElem? fun j => ?_
    rw [List.getElem?_modify,List.getElem?_modify]
    cases hj : e.sched.seqs[j]? with
    | none => rfl
    | some q =>
      by_cases hij : i = j
      · subst hij
        have hq : e.seq i = q := by simp [Engine.seq,Scheduler.seq,hj]
        have := hp rfl
        rw [hq] at this
        simp [this.symm]
      · simp [hij]

omit [Zero V] in
/-- One round of the post-processing loop is over when the rest of the batch is
as before and the sequence, if it is still live, is ready to decode. -/
theorem Serving.posted {i : SeqId} {tok : Option Token} {pre : Bool}
    {rest : List (SeqId × Option Token × Bool)} (h : Serving cfg e)
    (hpc : e.pc = .posting ((i,tok,pre) :: rest)) (hc : Core cfg e')
    (hwait : e'.sched.waiting.Sublist e.sched.waiting)
    (hrun : e'.sched.running.Sublist e.sched.running)
    (hne : ∀ j, j ≠ i → (e'.seq j).finished = false → e'.seq j = e.seq j)
    (hi : (e'.seq i).finished = false → Ready (e'.seq i)) :
    Serving cfg { e' with pc := .posting rest } := by
  have hph := h.phased
  simp only [Phased,hpc,List.map_cons] at hph
  obtain ⟨hsplit,hrest⟩ := hph
  obtain ⟨hnot,_⟩ := List.nodup_cons.mp hsplit.nodup
  refine ⟨hc.withPc _,hsplit.posted hwait hrun hne hi,fun j tok' pre' hj hl => ?_⟩
  have hji : j ≠ i := by
    rintro rfl
    exact hnot (List.mem_map_of_mem hj)
  have heq := hne j hji hl
  rw [seq_withPc,heq] at hl ⊢
  exact hrest j tok' pre' (List.mem_cons_of_mem _ hj) hl

theorem Serving.post {i : SeqId} {tok : Option Token} {pre cancelled full : Bool} {prev : Text}
    {rest : List (SeqId × Option Token × Bool)} (h : Serving cfg e)
    (hpc : e.pc = .posting ((i,tok,pre) :: rest)) :
    Serving cfg { postOne cfg e i tok pre cancelled prev full with pc := .posting rest } := by
  have hph := h.phased
  simp only [Phased,hpc] at hph
  have hmember := hph.2 i tok pre (by simp)
  have hsame : ((e.seq i).finished = false → Ready (e.seq i)) →
      Serving cfg { e with pc := .posting rest } :=
    fun hi => h.posted hpc h.core (.refl _) (.refl _) (fun _ _ _ => rfl) hi
  unfold Engine.postOne
  cases tok with
  | none => exact hsame fun hl => absurd rfl (hmember hl).1
  | some t =>
    simp only
    by_cases hf : (e.seq i).finished = true
    · rw [if_pos hf]
      exact hsame fun hl => by simp [hl] at hf
    rw [if_neg hf]
    have hl : (e.seq i).finished = false := by simpa using hf
    obtain ⟨_,hd,hout⟩ := hmember hl
    by_cases hcan : cancelled = true
    · rw [if_pos hcan]
      obtain ⟨h₁,he₁⟩ := h.core.base.mark i .cancelled
      obtain ⟨h₂,he₂⟩ := h₁.emit full (e.seq i).requestId
      have hend := he₁.trans he₂
      refine h.posted hpc (h.core.ended h₂ hend) hend.waiting hend.running
        (fun j _ hj => hend.live hj) (fun hj => ?_)
      have hmark : ((e.mark i .cancelled).seq i).finished = true := by
        rw [seq_mark,if_pos ⟨rfl,lt_of_unfinished hl⟩]
      rw [he₂.finished hmark] at hj
      exact absurd hj (by simp)
    rw [if_neg hcan]
    have hcl : pre = true → (e.seq i).cachedLen = (e.seq i).inputIds.length := by
      intro hp
      simpa [Done,Sequence.tokens,hout hp] using hd
    have hcore₁ : Core cfg (if pre then e.updateAfterPrefill i else e) := by
      split_ifs with hp
      · exact h.core.updateAfterPrefill hl hd (hout hp)
      · exact h.core
    have hd₁ : Done ((if pre then e.updateAfterPrefill i else e).seq i) := by
      split_ifs with hp
      · have heq : (e.updateAfterPrefill i).seq i =
            { e.seq i with cachedLen := (e.seq i).inputIds.length } :=
          seq_modify_self (e := e) (lt_of_unfinished hl) _
        rw [heq]
        simp [Done,Sequence.tokens,hout hp]
      · exact hd
    have hcore₂ := hcore₁.append hd₁ t
    have hsched := updateAfterPrefill_append (e := e) t hcl
    generalize ((if pre then e.updateAfterPrefill i else e).modify i
      fun q => { q with outputIds := q.outputIds ++ [t] }) = e₂ at hcore₂ hsched ⊢
    obtain ⟨h₃,hend⟩ := hcore₂.base.applyPost_ended full (i := i)
      (p := postToken cfg.tk (e₂.seq i) t prev) (fun hr => postToken_output hr)
    have hq : e₂.sched.waiting = e.sched.waiting ∧ e₂.sched.running = e.sched.running := by
      rw [hsched]
      exact ⟨rfl,rfl⟩
    refine h.posted hpc (hcore₂.ended h₃ hend) (hq.1 ▸ hend.waiting) (hq.2 ▸ hend.running)
      (fun j hji hj => ?_) (fun hj => ?_)
    · rw [hend.live hj]
      unfold Engine.seq
      rw [hsched,Scheduler.seq_modify_ne hji]
    · rw [hend.live hj]
      have heq : e₂.seq i = { e.seq i with outputIds := (e.seq i).outputIds ++ [t] } := by
        unfold Engine.seq
        rw [hsched,Scheduler.seq_modify_self (lt_of_unfinished hl)]
      rw [heq]
      refine ⟨by simp,?_⟩
      have : (e.seq i).cachedLen = (e.seq i).tokens.length := hd
      simp only [Sequence.tokens,List.length_append,List.length_singleton] at this ⊢
      omega

omit [Zero V] in
theorem Serving.postDone (h : Serving cfg e) (hpc : e.pc = .posting []) :
    Serving cfg { e with sched := e.sched.dropFinished, pc := .idle } := by
  have hph := h.phased
  simp only [Phased,hpc,List.map_nil] at hph
  have hsub : e.sched.dropFinished.running.Sublist e.sched.running := List.filter_sublist
  refine ⟨⟨⟨h.core.base.owned,h.core.base.nodup,h.core.base.prompt⟩,
    ⟨h.core.coherent.seqs,h.core.coherent.nodes⟩,h.core.alone,
    fun i hi => h.core.queue_lt i ((hsub.append_right _).subset hi),
    (hsub.append_right _).nodup h.core.queue_nodup,h.core.noPast,h.core.noState⟩,
    ⟨List.nodup_nil,by simp,fun i hi hn => ?_⟩⟩
  obtain ⟨h1,h2⟩ := hph.1.outside i hi (by simp)
  exact ⟨h1,fun hr => h2 (hsub.subset hr)⟩

theorem Serving.next {ev : Event} (hm : cfg.mode = .hfRebuild) (hb : cfg.burst ≤ 1)
    (h : Serving cfg e) (hsafe : PrefillSafe cfg e ev) (hs : e.step cfg ev = some e') :
    Serving cfg e' := by
  cases step_moves hs with
  | addRequest hpc hr => exact h.addRequest hpc hr
  | cancel =>
    obtain ⟨hbase,hend⟩ := h.core.base.cancelRequest _
    exact ⟨h.core.ended hbase hend,h.phased.ended hend (pc_cancelRequest _)⟩
  | step hpc hpc' => exact h.step hpc hpc'
  | check hpc => exact h.check hm hpc
  | @call _ op rest _ _ _ _ _ _ _ hpc hx hr =>
    exact h.call hm hpc (fun i hi => hsafe i rest (by rw [hpc,← hi]; rfl)) hx hr
  | @abort _ op rest _ _ _ _ _ _ hpc hx =>
    exact h.abort hm hpc (fun i hi => hsafe i rest (by rw [hpc,← hi]; rfl)) hx
  | burstCall hpc _ => exact absurd h.phased (by simp [Phased,hpc])
  | burstAbort hpc _ => exact absurd h.phased (by simp [Phased,hpc])
  | finishBatch hpc => exact h.finishBatch hb hpc
  | post hpc => exact h.post hpc
  | postDone hpc => exact h.postDone hpc
  | finishBurst hpc _ => exact absurd h.phased (by simp [Phased,hpc])

/-- In every serving run whose prefills agree with the other owners of the
slots that they write, every state is coherent. -/
theorem coherent_run (cfg : Config V) (hm : cfg.mode = .hfRebuild) (hb : cfg.burst ≤ 1)
    (es : List Event) (e : Engine V)
    (hg : Transition.Guarded (Engine.step cfg) (PrefillSafe cfg) init es)
    (h : Transition.exec (Engine.step cfg) init es = some e) : Coherent cfg e := by
  have hinit : Serving cfg (init : Engine V) :=
    ⟨core_init cfg,List.nodup_nil,by simp,fun i hi => absurd (lt_of_unfinished hi) (by simp [init])⟩
  exact (Transition.exec_invariant (fun _ _ _ hi hc hs => Serving.next hm hb hi hc hs)
    hinit hg h).core.coherent

end Steps

section Examples

theorem prefillAgrees_of_alone {i : SeqId} (h : ∀ b ∈ (e.seq i).blockTable, Alone e b) :
    PrefillAgrees cfg e i := by
  intro pos b _ _ hb
  have ha := h b (List.mem_of_getElem? hb)
  refine ⟨fun k _ hki l _ hl _ => ?_,fun p l _ hl _ => ?_⟩
  · exact absurd (ha.unique (List.mem_of_getElem? hl) (List.mem_of_getElem? hb)) hki
  · exact absurd (List.mem_of_getElem? hl) ha.not_node

/-- Four tokens a page; the KV of a token prefix is its decimal number. -/
def decimalKv : Config Int where
  cache := ⟨4,8,pos_four,pos_eight⟩
  sched := {}
  mode := .hfRebuild
  burst := 1
  eos := none
  tk := ⟨none⟩
  kv := fun p => p.foldl (fun a t => a*10+t) 0

def hitThenDecode : List Event :=
  [.addRequest { requestId := "a", inputIds := [1,2], maxTokens := 1 },.step,.check,
    call 0,call 0,call 7,.finishBatch,.post false [] false,.post false [] false,
    .addRequest { requestId := "b", inputIds := [1,2] },.step,.check,
    call 7,.finishBatch,.post false [] false,.post false [] false,
    .step,.check,call 0,call 0,call 0,call 8]

def aloneTest (e : Engine Int) : Event → Bool
  | .exec _ _ _ => match e.pc.todo with
      | .commitPrefill i :: _ => (e.seq i).blockTable.all fun b =>
          decide (e.sched.held b ≤ 1) && decide (e.radix.tree.count b = 0)
      | _ => true
  | _ => true

theorem coherent_hitThenDecode :
    ∃ e, Transition.exec (Engine.step decimalKv) init hitThenDecode = some e ∧
      Coherent decimalKv e := by
  have hrun : (Transition.exec (Engine.step decimalKv) init hitThenDecode).isSome = true := by
    decide +kernel
  have hchecks : Transition.checks (Engine.step decimalKv) aloneTest init hitThenDecode = true := by
    decide +kernel
  obtain ⟨e,he⟩ := Option.isSome_iff_exists.mp hrun
  refine ⟨e,he,coherent_run decimalKv rfl (by decide) hitThenDecode e
    (.of_checks (fun s ev hok => ?_) hchecks) he⟩
  cases ev with
  | exec tok raises full =>
    intro i rest htodo _
    refine prefillAgrees_of_alone fun b hb => ?_
    simp only [aloneTest,htodo,List.all_eq_true,Bool.and_eq_true,decide_eq_true_eq] at hok
    exact hok b hb
  | _ => trivial

/-- Two prompts extend the same cached prefix, whose last page is half full. -/
def twoExtensions : List Event :=
  [.addRequest { requestId := "a", inputIds := [1,2], maxTokens := 1 },.step,.check,
    call 0,call 0,call 7,.finishBatch,.post false [] false,.post false [] false,
    .addRequest { requestId := "b", inputIds := [1,2,3] },
    .addRequest { requestId := "c", inputIds := [1,2,5] },.step,.check,
    call 0,call 0,call 0,call 7,call 8,.finishBatch,
    .post false [] false,.post false [] false,.post false [] false]

theorem twoExtensions_corrupts :
    ∃ e, Transition.exec (Engine.step decimalKv) init twoExtensions = some e ∧
      ¬ Coherent decimalKv e := by
  have hrun : ((Transition.exec (Engine.step decimalKv) init twoExtensions).map fun e =>
      ((e.seq 1).finished,(e.seq 1).cachedLen,(e.seq 1).blockTable,(e.seq 1).tokens,
        e.radix.pages 0 2)) = some (false,3,[0],[1,2,3,7],125) := by
    decide +kernel
  obtain ⟨e,he,hv⟩ := Option.map_eq_some_iff.mp hrun
  simp only [Prod.mk.injEq] at hv
  obtain ⟨hfin,hlen,htab,htok,hpage⟩ := hv
  refine ⟨e,he,fun hc => ?_⟩
  obtain ⟨b,hb,hval⟩ := hc.seqs 1 hfin 2 (by omega)
  rw [htab] at hb
  obtain rfl : 0 = b := Option.some.inj hb
  rw [htok] at hval
  exact absurd (hpage.symm.trans hval) (by decide)

end Examples

end Engine

end SglangLite.Paged
