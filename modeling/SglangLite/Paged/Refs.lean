import SglangLite.Paged.Plan

set_option autoImplicit false

namespace SglangLite.Paged
open Kv Sched Text

namespace Engine

variable {V : Type} {cfg : Config V} {e e' : Engine V}

/-- Exact counts, and no pages for finished sequences. -/
structure Clean (cfg : Config V) (e : Engine V) : Prop where
  base : Base cfg e
  emptied : ∀ i, (e.seq i).finished = true → (e.seq i).blockTable = []

namespace Clean

theorem init [Zero V] (cfg : Config V) : Clean cfg (init : Engine V) where
  base := base_init cfg
  emptied := fun i _ => by
    simp [Engine.init,seq,Scheduler.seq,show (default : Sequence).blockTable = [] from rfl]

theorem withPc (h : Clean cfg e) (pc : Pc) : Clean cfg { e with pc := pc } :=
  ⟨h.base.withPc pc,h.emptied⟩

theorem ended (h : Clean cfg e) (hb : Base cfg e') (hend : Ended e e') : Clean cfg e' := by
  refine ⟨hb,fun i hi => ?_⟩
  rcases hend.seqs i with heq | ⟨_,ht,_⟩
  · rw [heq] at hi ⊢
    exact h.emptied i hi
  · exact ht

theorem modify {i : SeqId} {f : Sequence → Sequence} (h : Clean cfg e)
    (ht : ∀ q, (f q).blockTable = q.blockTable) (hp : ∀ q, (f q).inputIds = q.inputIds)
    (hf : ∀ q, (f q).finished = q.finished) : Clean cfg (e.modify i f) := by
  refine ⟨h.base.modify i ht hp,fun j hj => ?_⟩
  rw [seq_modify_field (·.finished) hf] at hj
  rw [seq_modify_field (·.blockTable) ht]
  exact h.emptied j hj

theorem acted {op : Op} (h : Clean cfg e) (hact : Acted cfg e op e')
    (hlive : allocates cfg e op = true → ∀ i, op.target = some i → (e.seq i).finished = false) :
    Clean cfg e' := by
  refine ⟨hact.base,fun j hj => ?_⟩
  rw [hact.finished] at hj
  cases ha : allocates cfg e op with
  | false => exact hact.table ha j (h.emptied j hj)
  | true =>
    have hne : op.target ≠ some j := by
      intro ht
      rw [hlive ha j ht] at hj
      exact absurd hj (by simp)
    rw [hact.others j hne]
    exact h.emptied j hj

variable [Zero V]

theorem updateAfterPrefill {i : SeqId} (h : Clean cfg e) (hi : i < e.sched.seqs.length) :
    Clean cfg (e.updateAfterPrefill i) :=
  ⟨(h.base.updateAfterPrefill hi).1,
    (h.modify (i := i) (f := fun q => { q with cachedLen := q.inputIds.length })
      (fun _ => rfl) (fun _ => rfl) (fun _ => rfl)).emptied⟩

theorem applyPost {i : SeqId} (p : Post) (full : Bool) (h : Clean cfg e) :
    Clean cfg (e.applyPost i p full) := by
  obtain ⟨hb,hend⟩ := h.base.applyPost (i := i) p full
  exact (h.modify (i := i) (f := fun q => { q with outputIds := p.outputIds })
    (fun _ => rfl) (fun _ => rfl) (fun _ => rfl)).ended hb hend

theorem postOne {i : SeqId} {tok : Option Token} {pre cancelled : Bool} {prev : Text}
    {full : Bool} (h : Clean cfg e) : Clean cfg (postOne cfg e i tok pre cancelled prev full) := by
  unfold Engine.postOne
  cases tok with
  | none => exact h
  | some t =>
    simp only
    by_cases hf : (e.seq i).finished = true
    · rw [if_pos hf]; exact h
    rw [if_neg hf]
    by_cases hc : cancelled = true
    · rw [if_pos hc]
      obtain ⟨h₁,he₁⟩ := h.base.mark i .cancelled
      obtain ⟨h₂,he₂⟩ := h₁.emit full (e.seq i).requestId
      exact h.ended h₂ (he₁.trans he₂)
    rw [if_neg hc]
    have h₁ : Clean cfg (if pre then e.updateAfterPrefill i else e) := by
      split_ifs
      · exact h.updateAfterPrefill (lt_of_unfinished (by simpa using hf))
      · exact h
    exact (h₁.modify (i := i) (f := fun q => { q with outputIds := q.outputIds ++ [t] })
      (fun _ => rfl) (fun _ => rfl) (fun _ => rfl)).applyPost _ full

end Clean

/-- A clean state in which no pending call takes pages for a finished
sequence. -/
structure Tidy (cfg : Config V) (e : Engine V) : Prop where
  clean : Clean cfg e
  inScope : Scoped e
  live : ∀ op ∈ e.pc.todo, allocates cfg e op = true → ∀ i, op.target = some i →
    (e.seq i).finished = false

theorem Clean.tidy (h : Clean cfg e) (hpc : e.pc.todo = []) : Tidy cfg e :=
  ⟨h,by simp [Scoped,hpc],by simp [hpc]⟩

theorem allocates_congr {op : Op} (hg : ∀ j, (e'.seq j).greedy = (e.seq j).greedy) :
    allocates cfg e' op = allocates cfg e op := by
  cases op <;> simp [allocates,hg]

theorem allocates_burstOps {i : SeqId} {n : Nat} {op : Op}
    (hop : op ∈ burstOps cfg (e.seq i) i n) (ha : allocates cfg e op = true)
    (hb : allocates cfg e (.burst i n) = true → (e.seq i).finished = false) :
    (e.seq i).finished = false := by
  cases n with
  | zero => simp [burstOps] at hop
  | succ n =>
    by_cases hm : cfg.mode = .pagedAttention ∧ (e.seq i).greedy = true
    · exact hb (by simp [allocates,hm.1,hm.2])
    · by_cases hc : cfg.mode = .hfCache
      · -- without pages, no call of a burst takes any
        exfalso
        by_cases hk : (e.seq i).greedy = true ∧ (e.seq i).kvState = true
        · simp [burstOps,hc,hk] at hop
          rcases hop with rfl | rfl | rfl <;> simp [allocates,hc] at ha
        · simp [burstOps,hc,hk,paged] at hop
          rcases hop.2 with rfl | rfl | rfl <;> simp [allocates,hc] at ha
      · by_contra hf
        simp only [Bool.not_eq_false] at hf
        simp [burstOps,hm,hc,hf] at hop

theorem seq_withPc (e : Engine V) (pc : Pc) (i : SeqId) :
    ({ e with pc := pc } : Engine V).seq i = e.seq i := rfl

section Step

variable [Zero V]

theorem todo_execOp {op op' : Op} {rest : List Op} {tok : Token} {raises : Bool}
    (h : op' ∈ (execOp cfg e rest tok raises op).2.2) :
    op' ∈ rest ∨ ∃ i n, op = .burst i n ∧ op' ∈ burstOps cfg (e.seq i) i n := by
  cases op with
  | ensure i total => exact .inl h
  | cow i => exact .inl h
  | forward g => exact .inl h
  | sample i =>
    simp only [execOp] at h
    split_ifs at h <;> exact .inl h
  | commitPrefill i =>
    simp only [execOp] at h
    split at h <;> exact .inl h
  | commitDecode i =>
    simp only [execOp] at h
    split at h <;> exact .inl h
  | burst i n =>
    rcases List.mem_append.mp h with h | h
    · exact .inr ⟨i,n,rfl,h⟩
    · exact .inl h
  | commitBurst i =>
    simp only [execOp] at h
    split at h
    · exact .inl h
    · simp only at h
      by_cases hb : burstStops cfg (e.seq i) tok
      · simp [hb] at h
      · exact .inl (by simpa [hb] using h)

omit [Zero V] in
theorem Tidy.acted {op : Op} {rest : List Op} {pc : Pc} (h : Tidy cfg e)
    (hpc : e.pc.todo = op :: rest) (hact : Acted cfg e op e')
    (hpc' : ∀ op' ∈ pc.todo,
      op' ∈ rest ∨ ∃ i n, op = .burst i n ∧ op' ∈ burstOps cfg (e.seq i) i n) :
    Tidy cfg { e' with pc := pc } := by
  have hlive := h.live op (by simp [hpc])
  refine ⟨(h.clean.acted hact hlive).withPc pc,?_,?_⟩
  · intro op' hop' j hj
    rw [hact.length]
    rcases hpc' op' hop' with hr | ⟨i,n,rfl,hb⟩
    · exact h.inScope op' (by simp [hpc,hr]) j hj
    · rw [target_burstOps hb hj]
      exact h.inScope (.burst i n) (by simp [hpc]) i rfl
  · intro op' hop' ha j hj
    rw [seq_withPc,hact.finished j]
    have hcongr : allocates cfg { e' with pc := pc } op' = allocates cfg e op' :=
      allocates_congr hact.greedy
    rw [hcongr] at ha
    rcases hpc' op' hop' with hr | ⟨i,n,rfl,hb⟩
    · exact h.live op' (by simp [hpc,hr]) ha j hj
    · rw [target_burstOps hb hj]
      exact allocates_burstOps hb ha (fun h' => hlive h' i rfl)

/-- A cancel that hits no sequence for which the loop thread is still going to
take pages. -/
def CancelSafe (cfg : Config V) (e : Engine V) : Event → Prop
  | .cancel r => ∀ i, e.sched.byRequest r = some i → ∀ op ∈ e.pc.todo, op.target = some i →
      allocates cfg e op = false
  | _ => True

theorem seq_cancelRequest_of_ne {r : RequestId} {j : SeqId} (hj : e.sched.byRequest r ≠ some j) :
    (e.cancelRequest r).seq j = e.seq j := by
  unfold Engine.cancelRequest
  cases hr : e.sched.byRequest r with
  | none => rfl
  | some i =>
    have hji : j ≠ i := fun h => hj (h ▸ hr)
    simp only
    rw [seq_mark,if_neg (fun h => hji h.1),seq_modify_ne hji]

theorem greedy_cancelRequest (r : RequestId) (j : SeqId) :
    ((e.cancelRequest r).seq j).greedy = (e.seq j).greedy := by
  unfold Engine.cancelRequest
  cases hr : e.sched.byRequest r with
  | none => rfl
  | some i =>
    have hm := seq_modify_field (e := e) (·.greedy) (f := fun q => { q with cancelled := true })
      (fun _ => rfl) i
    simp only [seq_mark]
    split_ifs with h
    · rw [h.1]; exact hm i
    · exact hm j

theorem pc_cancelRequest (r : RequestId) : (e.cancelRequest r).pc = e.pc := by
  unfold Engine.cancelRequest
  split <;> rfl

theorem Tidy.cancel {r : RequestId} (h : Tidy cfg e) (hc : CancelSafe cfg e (.cancel r)) :
    Tidy cfg (e.cancelRequest r) := by
  obtain ⟨hb,hend⟩ := h.clean.base.cancelRequest r
  refine ⟨h.clean.ended hb hend,?_,?_⟩
  · intro op hop i hi
    rw [pc_cancelRequest] at hop
    rw [hend.length]
    exact h.inScope op hop i hi
  · intro op hop ha i hi
    rw [pc_cancelRequest] at hop
    rw [allocates_congr (greedy_cancelRequest r)] at ha
    have hne : e.sched.byRequest r ≠ some i := by
      intro hr
      rw [hc i hr op hop hi] at ha
      exact absurd ha (by simp)
    rw [seq_cancelRequest_of_ne hne]
    exact h.live op hop ha i hi

theorem pc_abortBatch (full : RequestId → Bool) (batch : List (SeqId × Bool)) :
    (abortBatch full e batch).pc = .idle := by
  induction batch generalizing e with
  | nil => rfl
  | cons b batch ih => exact ih

theorem Tidy.execOp {op : Op} {rest todo : List Op} {tok : Token} {raises ok : Bool}
    (h : Tidy cfg e) (hpc : e.pc.todo = op :: rest)
    (hx : Engine.execOp cfg e rest tok raises op = (e',ok,todo)) :
    Clean cfg e' ∧ ∀ pc : Pc, pc.todo = todo → Tidy cfg { e' with pc := pc } := by
  have hact := h.clean.base.execOp rest tok raises
    (fun i hi => h.inScope op (by simp [hpc]) i hi)
  rw [hx] at hact
  refine ⟨h.clean.acted hact (h.live op (by simp [hpc])),fun pc hpc' => h.acted hpc hact ?_⟩
  intro op' hop'
  have hmem : op' ∈ (Engine.execOp cfg e rest tok raises op).2.2 := by
    rw [hx]
    exact hpc' ▸ hop'
  exact todo_execOp hmem

omit [Zero V] in
theorem Tidy.leaveBatch {batch : List (SeqId × Bool)} {results : SeqId → Option Token}
    (h : Tidy cfg e) : Tidy cfg (leaveBatch cfg e batch results) := by
  have hpost := (h.clean.withPc (.posting (batch.map fun b => (b.1,results b.1,b.2)))).tidy rfl
  unfold Engine.leaveBatch
  simp only
  split
  · rename_i i
    split
    · rename_i first _
      by_cases hb : 1 < cfg.burst ∧ ¬ (e.seq i).finished = true
      · rw [if_pos hb]
        have hlive : (e.seq i).finished = false := by simpa using hb.2
        have hm := (h.clean.modify (i := i) (f := fun q => { q with outputIds := q.outputIds ++ [first] })
          (fun _ => rfl) (fun _ => rfl) (fun _ => rfl))
        have htarget : ∀ n, ∀ op ∈ (if 0 < n then [Op.burst i n] else []), ∀ j,
            op.target = some j → j = i := by
          intro n op hop j hj
          split_ifs at hop
          · obtain rfl := List.mem_singleton.mp hop
            exact (Option.some.inj hj).symm
          · simp at hop
        refine ⟨hm.withPc _,fun op hop j hj => ?_,fun op hop _ j hj => ?_⟩
        · rw [htarget _ op hop j hj]
          simpa [Engine.modify] using lt_of_unfinished hlive
        · rw [htarget _ op hop j hj,seq_withPc,seq_modify_self (lt_of_unfinished hlive)]
          exact hlive
      · rw [if_neg hb]; exact hpost
    · exact hpost
  · exact hpost

omit [Zero V] in
theorem Clean.withQueues (h : Clean cfg e) (waiting running : List SeqId) :
    Clean cfg { e with sched := { e.sched with waiting := waiting, running := running } } :=
  ⟨⟨h.base.owned,h.base.nodup,h.base.prompt⟩,h.emptied⟩

/-- Every step keeps a tidy state tidy, as long as cancels stay out of the
window in which pages are still going to be taken. -/
theorem Tidy.step {ev : Event} (h : Tidy cfg e) (hc : CancelSafe cfg e ev)
    (hs : e.step cfg ev = some e') : Tidy cfg e' := by
  cases step_moves hs with
  | addRequest hpc hr =>
    obtain ⟨q,m,ha⟩ := h.clean.base.addRequest hr
    refine Clean.tidy ⟨ha.base,fun i hi => ?_⟩ (by rw [ha.pc,hpc]; rfl)
    by_cases hin : i = e.sched.seqs.length
    · rw [hin,ha.seq_new,ha.fields.2.2.2.2.2.1] at hi
      exact absurd hi (by simp)
    · rw [ha.seq_old i hin] at hi ⊢
      exact h.clean.emptied i hi
  | cancel => exact h.cancel hc
  | step hpc hpc' =>
    refine ((h.clean.withQueues _ _).withPc _).tidy ?_
    rw [hpc']
    split_ifs <;> rfl
  | check hpc =>
    exact ⟨h.clean.withPc _,fun op hop i hi => lt_of_unfinished (target_runBatch hop hi).1,
      fun op hop _ i hi => (target_runBatch hop hi).1⟩
  | call hpc hx => exact (h.execOp (by rw [hpc]; rfl) hx).2 _ rfl
  | @abort batch _ _ _ _ _ _ full _ hpc hx =>
    have hclean := (h.execOp (by rw [hpc]; rfl) hx).1
    obtain ⟨hb,hend⟩ := hclean.base.abortBatch full batch
    exact (hclean.ended hb hend).tidy (by rw [pc_abortBatch]; rfl)
  | burstCall hpc hx => exact (h.execOp (by rw [hpc]; rfl) hx).2 _ rfl
  | burstAbort hpc hx => exact ((h.execOp (by rw [hpc]; rfl) hx).1.withPc .idle).tidy rfl
  | finishBatch hpc => exact h.leaveBatch
  | post hpc => exact (h.clean.postOne.withPc _).tidy rfl
  | postDone hpc => exact ((h.clean.withQueues _ _).withPc .idle).tidy rfl
  | finishBurst hpc h₁ =>
    subst h₁
    exact (((h.clean.applyPost _ _).withQueues _ _).withPc .idle).tidy rfl

end Step

section Exact

def nodesWith (b : BlockId) : Children → Nat
  | .nil => 0
  | .cons _ n k r => (if b ∈ n.blockIds then 1 else 0)+nodesWith b k+nodesWith b r

def unfinishedWith (s : Scheduler) (b : BlockId) : Nat :=
  s.seqs.countP fun q => !q.finished && decide (b ∈ q.blockTable)

/-- The reference counts of `_allocated_blocks` against their owners. -/
structure RefsExact (e : Engine V) : Prop where
  refs : ∀ b r, e.radix.refs b = some r →
    r = unfinishedWith e.sched b+nodesWith b e.radix.tree
  tables : ∀ i b, (e.seq i).finished = false → b ∈ (e.seq i).blockTable → e.radix.refs b ≠ none
  nodes : ∀ p b, b ∈ e.radix.tree.blocksAt p → e.radix.refs b ≠ none
  tables_nodup : ∀ i, (e.seq i).finished = false → (e.seq i).blockTable.Nodup
  nodes_nodup : ∀ p, (e.radix.tree.blocksAt p).Nodup

theorem count_eq_ite {l : List BlockId} (h : l.Nodup) (b : BlockId) :
    l.count b = if b ∈ l then 1 else 0 := by
  split_ifs with hb
  · exact List.count_eq_one_of_mem h hb
  · exact List.count_eq_zero.mpr hb

theorem nodesWith_eq_count {f : Children} (hf : f.WF) (hn : ∀ p, (f.blocksAt p).Nodup)
    (b : BlockId) : nodesWith b f = f.count b := by
  induction f with
  | nil => rfl
  | cons u n k r hk hr =>
    obtain ⟨hu,hkw,hrw⟩ := hf
    have hhere : n.blockIds.Nodup := by simpa [Children.blocksAt_cons] using hn [u]
    have hbelow : ∀ p, (k.blocksAt p).Nodup := by
      intro p
      cases p with
      | nil => simp [Children.blocksAt_empty]
      | cons t ts => simpa [Children.blocksAt_cons] using hn (u :: t :: ts)
    have hlater : ∀ p, (r.blocksAt p).Nodup := by
      intro p
      cases p with
      | nil => simp [Children.blocksAt_empty]
      | cons t ts =>
        by_cases hut : u = t
        · simp [Children.blocksAt,← hut,Children.nodeAt_none_extend hu ts]
        · simpa [Children.blocksAt_cons,hut] using hn (t :: ts)
    rw [nodesWith,Children.count,hk hkw hbelow,hr hrw hlater,count_eq_ite hhere]

theorem unfinishedWith_eq_held {s : Scheduler} (hn : ∀ i, (s.seq i).blockTable.Nodup)
    (he : ∀ i, (s.seq i).finished = true → (s.seq i).blockTable = []) (b : BlockId) :
    unfinishedWith s b = s.held b := by
  have key : ∀ l : List Sequence, (∀ q ∈ l, q.blockTable.Nodup) →
      (∀ q ∈ l, q.finished = true → q.blockTable = []) →
      l.countP (fun q => !q.finished && decide (b ∈ q.blockTable)) =
        (l.map fun q => q.blockTable.count b).sum := by
    intro l
    induction l with
    | nil => intros; rfl
    | cons q l ih =>
      intro hn he
      have hq := count_eq_ite (hn q (by simp)) b
      have ih := ih (fun x hx => hn x (List.mem_cons_of_mem q hx))
        (fun x hx => he x (List.mem_cons_of_mem q hx))
      rw [List.countP_cons,List.map_cons,List.sum_cons,ih,hq]
      cases hf : q.finished with
      | false => simp; omega
      | true => simp [he q (by simp) hf]
  have hget : ∀ q ∈ s.seqs, ∃ i, s.seq i = q := by
    intro q hq
    obtain ⟨i,hi,rfl⟩ := List.getElem_of_mem hq
    exact ⟨i,by simp [Scheduler.seq,List.getElem?_eq_getElem hi]⟩
  refine key s.seqs (fun q hq => ?_) (fun q hq hf => ?_)
  · obtain ⟨i,rfl⟩ := hget q hq
    exact hn i
  · obtain ⟨i,rfl⟩ := hget q hq
    exact he i hf

theorem Clean.refsExact (h : Clean cfg e) : RefsExact e where
  refs := fun b r hr => by
    rw [unfinishedWith_eq_held h.base.nodup h.emptied,
      nodesWith_eq_count h.base.owned.wf h.base.owned.nodup]
    exact h.base.owned.refs_eq b r hr
  tables := fun i b _ hb => by
    have := Scheduler.count_le_held e.sched i b
    have := List.count_pos_iff.mpr (show b ∈ (e.sched.seq i).blockTable from hb)
    rw [h.base.owned.refs_of_pos (by omega)]
    simp
  nodes := fun p b hb => by
    have := Children.mem_blocksAt_count hb
    rw [h.base.owned.refs_of_pos (by omega)]
    simp
  tables_nodup := fun i _ => h.base.nodup i
  nodes_nodup := h.base.owned.nodup

end Exact

section Runs

variable [Zero V]

/-- Cancels and timeouts are delivered between the iterations of the loop. -/
def CancelsAtIdle (e : Engine V) : Event → Prop
  | .cancel _ => e.pc = .idle
  | _ => True

theorem Tidy.run {es : List Event} (hg : Transition.Guarded (Engine.step cfg) (CancelSafe cfg) init es)
    (h : Transition.exec (Engine.step cfg) init es = some e) : Tidy cfg e :=
  Transition.exec_invariant (fun _ _ _ hi hc hs => Tidy.step hi hc hs)
    ((Clean.init cfg).tidy rfl) hg h

/-- In every run in which cancels arrive between iterations, whichever calls
raise on the way, the reference counts are exact after every step. -/
theorem refs_exact (cfg : Config V) (es : List Event) (e : Engine V)
    (hg : Transition.Guarded (Engine.step cfg) CancelsAtIdle init es)
    (h : Transition.exec (Engine.step cfg) init es = some e) : RefsExact e := by
  refine (Tidy.run (hg.mono fun s ev hs => ?_) h).clean.refsExact
  cases ev with
  | cancel r =>
    have hs : s.pc = .idle := hs
    simp [CancelSafe,hs,Pc.todo]
  | _ => trivial

def onePage : Config Nat where
  cache := ⟨2,1,Nat.two_pos,Nat.one_pos⟩
  sched := {}
  mode := .hfRebuild
  burst := 1
  eos := none
  tk := ⟨none⟩
  kv := List.length

def outOfPages : List Event :=
  [.cancel "b",.addRequest { requestId := "a", inputIds := [1,2,3] },.step,.check,
    .exec 0 false (fun _ => false)]

theorem refs_exact_outOfPages :
    ∃ e, Transition.exec (Engine.step onePage) init outOfPages = some e ∧ RefsExact e := by
  have hrun : (Transition.exec (Engine.step onePage) init outOfPages).isSome = true := by
    decide +kernel
  obtain ⟨e,he⟩ := Option.isSome_iff_exists.mp hrun
  exact ⟨e,he,refs_exact onePage outOfPages e
    (by simp [Transition.Guarded,outOfPages,CancelsAtIdle,init]) he⟩

end Runs

end Engine

end SglangLite.Paged
