import SglangLite.Kv.Reclaim
import SglangLite.Paged.Cancel

set_option autoImplicit false

namespace SglangLite.Paged
open Kv Sched Text

namespace Engine

variable {V : Type} [Zero V] {cfg : Config V} {e e' : Engine V}

/-- A prompt is committed to a path that is new to the tree. -/
def InsertSafe (e : Engine V) : Event → Prop
  | .post false _ _ =>
      match e.pc with
      | .posting ((i,some _,true) :: _) => (e.seq i).finished = false →
          RadixCache.FreshPath e.radix.tree (e.seq i).inputIds (e.seq i).blockTable
      | _ => True
  | _ => True

section Evictable

open RadixCache (Evictable)

omit [Zero V] in
theorem evictable_grown {i : SeqId} {new : List BlockId} (h : Evictable e.radix.tree)
    (hg : Grown cfg e i new e') : Evictable e'.radix.tree :=
  h.pruned hg.evolves.pruned hg.evolves.count_le

theorem evictable_commitPages {i : SeqId} (vals : List V) (hb : Base cfg e)
    (h : Evictable e.radix.tree) (hi : i < e.sched.seqs.length) :
    Evictable (commitPages cfg e i vals).1.radix.tree := by
  obtain ⟨new,e₁,pages,hg,_,heq⟩ := hb.commitPages vals hi
  have := evictable_grown h hg
  rw [heq]
  exact this

theorem evictable_execOp {op : Op} (rest : List Op) (tok : Token) (raises : Bool) (hb : Base cfg e)
    (h : Evictable e.radix.tree) (hs : ∀ i, op.target = some i → i < e.sched.seqs.length) :
    Evictable (execOp cfg e rest tok raises op).1.radix.tree := by
  cases op with
  | ensure i total =>
    obtain ⟨new,hg,_⟩ := hb.ensureBlocks total (hs i rfl)
    exact evictable_grown h hg
  | cow i =>
    rcases hb.cowPage (hs i rfl) with ⟨_,_,_,hev,_⟩ | ⟨b,b',hsw⟩
    · exact h.pruned hev.pruned hev.count_le
    · exact h.pruned hsw.cowed.pruned hsw.cowed.count_le
  | forward g => exact h
  | sample i =>
    simp only [execOp]
    split_ifs <;> exact h
  | burst i n => exact h
  | commitPrefill i =>
    have := evictable_commitPages (prefillKv cfg (e.seq i)) hb h (hs i rfl)
    simp only [execOp]
    split <;> rename_i heq <;> rw [heq] at this <;> exact this
  | commitDecode i =>
    have := evictable_commitPages (decodeKv cfg (e.seq i)) hb h (hs i rfl)
    simp only [execOp]
    split <;> rename_i heq <;> rw [heq] at this <;> exact this
  | commitBurst i =>
    have := evictable_commitPages (decodeKv cfg (e.seq i)) hb h (hs i rfl)
    simp only [execOp]
    split <;> rename_i heq <;> rw [heq] at this <;> exact this

theorem evictable_applyPost {i : SeqId} (p : Post) (full : Bool) (hb : Base cfg e)
    (h : Evictable e.radix.tree) : Evictable (e.applyPost i p full).radix.tree := by
  rw [(hb.applyPost (i := i) p full).2.tree]
  exact h

theorem evictable_postOne {i : SeqId} {tok : Option Token} {pre cancelled : Bool} {prev : Text}
    {full : Bool} (hb : Base cfg e) (h : Evictable e.radix.tree)
    (hf : tok ≠ none → pre = true → cancelled = false → (e.seq i).finished = false →
      RadixCache.FreshPath e.radix.tree (e.seq i).inputIds (e.seq i).blockTable) :
    Evictable (postOne cfg e i tok pre cancelled prev full).radix.tree := by
  unfold postOne
  cases tok with
  | none => exact h
  | some t =>
    simp only
    by_cases hfin : (e.seq i).finished = true
    · rw [if_pos hfin]; exact h
    rw [if_neg hfin]
    have hlive : (e.seq i).finished = false := by simpa using hfin
    have hi := lt_of_unfinished hlive
    cases cancelled with
    | true =>
      obtain ⟨h₁,he₁⟩ := hb.mark i .cancelled
      obtain ⟨_,he₂⟩ := h₁.emit full (e.seq i).requestId
      rw [if_pos rfl,(he₁.trans he₂).tree]
      exact h
    | false =>
      rw [if_neg (by simp)]
      cases pre with
      | false =>
        rw [if_neg (by simp)]
        exact evictable_applyPost _ full
          (hb.modify i (f := fun q => { q with outputIds := q.outputIds ++ [t] })
            (fun _ => rfl) (fun _ => rfl)) h
      | true =>
        rw [if_pos rfl]
        refine evictable_applyPost _ full
          ((hb.updateAfterPrefill hi).1.modify i
            (f := fun q => { q with outputIds := q.outputIds ++ [t] })
            (fun _ => rfl) (fun _ => rfl)) ?_
        exact h.insertOrUpdate (hb.prompt i hi) (hb.nodup i) (hf (by simp) rfl rfl hlive)

theorem evictable_step {ev : Event} (ht : Tidy cfg e) (h : Evictable e.radix.tree)
    (hs : InsertSafe e ev) (hstep : e.step cfg ev = some e') : Evictable e'.radix.tree := by
  have hb := ht.clean.base
  cases step_moves hstep with
  | addRequest _ hr =>
    obtain ⟨q,m,ha⟩ := hb.addRequest hr
    rw [ha.matched.tree]
    exact h
  | cancel =>
    rw [(hb.cancelRequest _).2.tree]
    exact h
  | step _ _ => exact h
  | check _ => exact h
  | @call _ op rest _ _ _ tok raises _ _ hpc hx =>
    have := evictable_execOp rest tok raises hb h (ht.inScope op (by rw [hpc]; simp [Pc.todo]))
    rw [hx] at this
    exact this
  | @abort batch op rest _ _ tok raises full _ hpc hx =>
    have hsc := ht.inScope op (by rw [hpc]; simp [Pc.todo])
    have hev := evictable_execOp rest tok raises hb h hsc
    have hb₁ := (hb.execOp rest tok raises hsc).base
    rw [hx] at hev hb₁
    rw [(hb₁.abortBatch full batch).2.tree]
    exact hev
  | @burstCall _ op rest _ _ _ tok raises _ _ hpc hx =>
    have := evictable_execOp rest tok raises hb h (ht.inScope op (by rw [hpc]; simp [Pc.todo]))
    rw [hx] at this
    exact this
  | @burstAbort _ op rest _ _ tok raises _ _ hpc hx =>
    have := evictable_execOp rest tok raises hb h (ht.inScope op (by rw [hpc]; simp [Pc.todo]))
    rw [hx] at this
    exact this
  | finishBatch _ =>
    unfold leaveBatch
    simp only
    split
    · split
      · split_ifs <;> exact h
      · exact h
    · exact h
  | @post i tok pre cancelled full prev rest hpc =>
    refine evictable_postOne hb h (fun htok hpre hc hlive => ?_)
    subst hpre hc
    obtain ⟨t,rfl⟩ := Option.ne_none_iff_exists'.mp htok
    simp only [InsertSafe,hpc] at hs
    exact hs hlive
  | postDone _ => exact h
  | finishBurst _ h₁ =>
    subst h₁
    exact evictable_applyPost _ _ hb h

end Evictable

section Reclaimable

/-- Every event of the run commits its prompts to fresh paths, copies no page
whose last other owner it evicts, and cancels nothing that still takes pages. -/
def ReclaimSafe (cfg : Config V) (e : Engine V) (ev : Event) : Prop :=
  CancelSafe cfg e ev ∧ CopySafe cfg e ev ∧ InsertSafe e ev

/-- With no live request, the pool gives back all of its pages. -/
def Reclaimable (cfg : Config V) (e : Engine V) : Prop :=
  (∀ i, i < e.sched.seqs.length → (e.seq i).finished = true) →
    ∀ n, n ≤ cfg.cache.numBlocks → (e.radix.allocateBlocks cfg.cache n).2 ≠ none

omit [Zero V] in
theorem held_of_finished (h : Clean cfg e)
    (hf : ∀ i, i < e.sched.seqs.length → (e.seq i).finished = true) (b : BlockId) :
    e.sched.held b = 0 := by
  by_contra hpos
  obtain ⟨i,hi⟩ := exists_table (Nat.pos_of_ne_zero hpos)
  by_cases hlt : i < e.sched.seqs.length
  · rw [show (e.sched.seq i).blockTable = [] from h.emptied i (hf i hlt)] at hi
    simp at hi
  · rw [Scheduler.seq_of_ge (Nat.le_of_not_lt hlt)] at hi
    simp [show (default : Sequence).blockTable = [] from rfl] at hi

/-- Cached prefixes stay reclaimable as long as prompts are committed only to
paths on which no prompt has been committed before. -/
theorem reclaimable_run (cfg : Config V) (es : List Event) (e : Engine V)
    (hg : Transition.Guarded (Engine.step cfg) (ReclaimSafe cfg) init es)
    (h : Transition.exec (Engine.step cfg) init es = some e) : Reclaimable cfg e := by
  have hinv : Tidy cfg e ∧ RadixCache.Counted e.radix ∧ RadixCache.Evictable e.radix.tree := by
    refine Transition.exec_invariant (P := fun e => Tidy cfg e ∧ RadixCache.Counted e.radix ∧
      RadixCache.Evictable e.radix.tree) (fun s ev s' hi hc hs => ?_)
      ⟨(Clean.init cfg).tidy rfl,RadixCache.counted_empty,RadixCache.evictable_nil⟩ hg h
    obtain ⟨ht,hn,he⟩ := hi
    obtain ⟨hcancel,hcopy,hins⟩ := hc
    exact ⟨ht.step hcancel hs,counted_step ht.clean.base hn hcopy hs,evictable_step ht he hins hs⟩
  obtain ⟨ht,hn,he⟩ := hinv
  intro hf n hle
  have hzero := held_of_finished ht.clean hf
  exact RadixCache.allocateBlocks_succeeds (ht.clean.base.owned.congr hzero) hn he hle

def twoPages : Config Nat where
  cache := ⟨2,2,Nat.two_pos,Nat.two_pos⟩
  sched := {}
  mode := .hfRebuild
  burst := 1
  eos := none
  tk := ⟨none⟩
  kv := List.length

def serveOne (r : RequestId) (inputIds : List Token) : List Event :=
  [.addRequest { requestId := r, inputIds := inputIds, maxTokens := 1 },.step,.check,
    call 0,call 0,call 7,.finishBatch,.post false [] false,.post false [] false]

def coldTest (e : Engine Nat) (ev : Event) : Bool :=
  match ev,e.pc with
  | .cancel _,_ => false
  | .exec _ _ _,_ => (copyTarget twoPages e).isNone
  | .post _ _ _,.posting ((i,some _,true) :: _) =>
      (e.seq i).inputIds.inits.all (fun p => decide (e.radix.tree.blocksAt p = [])) &&
        (e.radix.tree.nodeAt (e.seq i).inputIds).isNone &&
        (e.seq i).blockTable.all fun b => decide (e.radix.tree.count b = 0)
  | _,_ => true

theorem reclaimable_coldPrompts :
    ∃ e, Transition.exec (Engine.step twoPages) init
        (serveOne "a" [1,2] ++ serveOne "b" [3,4] ++ serveOne "c" [5,6]) = some e ∧
      Reclaimable twoPages e := by
  have hrun : (Transition.exec (Engine.step twoPages) init
      (serveOne "a" [1,2] ++ serveOne "b" [3,4] ++ serveOne "c" [5,6])).isSome = true := by
    decide +kernel
  have hchecks : Transition.checks (Engine.step twoPages) coldTest init
      (serveOne "a" [1,2] ++ serveOne "b" [3,4] ++ serveOne "c" [5,6]) = true := by
    decide +kernel
  obtain ⟨e,he⟩ := Option.isSome_iff_exists.mp hrun
  refine ⟨e,he,reclaimable_run twoPages _ e (.of_checks (fun s ev hok => ?_) hchecks) he⟩
  cases ev with
  | cancel r => simp [coldTest] at hok
  | exec tok raises full =>
    have hnone : copyTarget twoPages s = none := by simpa [coldTest] using hok
    exact ⟨trivial,by simp [CopySafe,hnone],trivial⟩
  | post cancelled prev full =>
    refine ⟨trivial,trivial,?_⟩
    unfold InsertSafe
    split
    · split
      · rename_i heq
        intro _
        simp only [coldTest,heq,Bool.and_eq_true,List.all_eq_true,List.mem_inits,decide_eq_true_eq,
          Option.isNone_iff_eq_none] at hok
        exact ⟨hok.1.1,fun _ => hok.1.2,hok.2⟩
      · trivial
    · trivial
  | _ => exact ⟨trivial,trivial,trivial⟩

/-- A second prompt continues the first: the node of the first has been
inserted twice, and eviction never takes it again. -/
theorem continuedPrompt_stuck :
    ∃ e, Transition.exec (Engine.step twoPages) init
        (serveOne "a" [1,2] ++ serveOne "b" [1,2,3]) = some e ∧
      ¬ Reclaimable twoPages e := by
  have hrun : ((Transition.exec (Engine.step twoPages) init
      (serveOne "a" [1,2] ++ serveOne "b" [1,2,3])).map fun e =>
        (e.sched.seqs.map (·.finished),(e.radix.allocateBlocks twoPages.cache 2).2)) =
        some ([true,true],none) := by
    decide +kernel
  obtain ⟨e,he,hv⟩ := Option.map_eq_some_iff.mp hrun
  obtain ⟨hfin,hnone⟩ := Prod.mk.inj hv
  refine ⟨e,he,fun hr => hr (fun i hi => ?_) 2 (by decide) hnone⟩
  have hget : (e.sched.seqs.map (·.finished))[i]? = some (e.seq i).finished := by
    simp [seq,Scheduler.seq,List.getElem?_eq_getElem hi]
  rw [hfin] at hget
  have := List.mem_of_getElem? hget
  simpa using this

end Reclaimable

end Engine

end SglangLite.Paged
