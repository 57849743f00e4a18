import SglangLite.Kv.Counted
import SglangLite.Paged.Refs

set_option autoImplicit false

namespace SglangLite.Paged
open Kv Sched Text

namespace Engine

variable {V : Type} [Zero V] {cfg : Config V} {e e' : Engine V}

def copyTarget (cfg : Config V) (e : Engine V) : Option BlockId :=
  match e.pc.todo with
  | .cow i :: _ => (e.seq i).blockTable[(e.seq i).cachedLen/cfg.cache.blockSize]?
  | _ => none

/-- A call that copies no page whose last other reference the copy evicts. -/
def CopySafe (cfg : Config V) (e : Engine V) : Event → Prop
  | .exec _ _ _ => ∀ b, copyTarget cfg e = some b → ¬ RadixCache.CopyLoses cfg.cache e.radix b
  | _ => True

section Counted

open RadixCache (Counted)

theorem counted_mark (h : Counted e.radix) (i : SeqId) (reason : FinishReason) :
    Counted (e.mark i reason).radix := h.releaseBlocks _

theorem counted_cancelRequest (h : Counted e.radix) (r : RequestId) :
    Counted (e.cancelRequest r).radix := by
  unfold cancelRequest
  split
  · exact h
  · exact counted_mark (e := e.modify _ _) h _ _

theorem counted_emit (h : Counted e.radix) (full : Bool) (r : RequestId) :
    Counted (e.emit full r).radix := by
  unfold emit
  split_ifs
  · exact counted_cancelRequest h r
  · exact h

theorem counted_abortBatch (h : Counted e.radix) (full : RequestId → Bool)
    (batch : List (SeqId × Bool)) : Counted (abortBatch full e batch).radix := by
  induction batch generalizing e with
  | nil => exact h
  | cons b batch ih => exact ih (counted_emit (counted_mark h b.1 .error) _ _)

theorem counted_ensureLoop (h : Counted e.radix) (i : SeqId) (n : Nat) :
    Counted (ensureLoop cfg i n e).1.radix := by
  induction n generalizing e with
  | zero => exact h
  | succ n ih =>
    have hal : Counted (e.radix.allocateBlocks cfg.cache 1).1 := Counted.allocateLoop 1 1 h
    simp only [ensureLoop]
    cases hc : e.radix.allocateBlocks cfg.cache 1 with
    | mk radix o =>
      rw [hc] at hal
      cases o with
      | none => exact hal
      | some ids => exact ih (e := ({ e with radix := radix }).modify i _) hal

theorem counted_commitPages (h : Counted e.radix) (i : SeqId) (vals : List V) :
    Counted (commitPages cfg e i vals).1.radix := by
  have hens : Counted (ensureBlocks cfg e i ((e.seq i).cachedLen+vals.length)).1.radix :=
    counted_ensureLoop h i _
  unfold commitPages
  simp only
  split
  · exact h
  · rw [writeKv_eq]; exact h
  · cases hx : ensureBlocks cfg e i ((e.seq i).cachedLen+vals.length) with
    | mk e₁ ok =>
      rw [hx] at hens
      cases ok with
      | false => exact hens
      | true => simp only; rw [writeKv_eq]; exact hens

theorem counted_cowPage {i : SeqId} (hb : Base cfg e) (h : Counted e.radix)
    (hs : ∀ b, (e.seq i).blockTable[(e.seq i).cachedLen/cfg.cache.blockSize]? = some b →
      ¬ RadixCache.CopyLoses cfg.cache e.radix b) : Counted (cowPage cfg e i).1.radix := by
  unfold cowPage
  simp only
  cases ht : (e.seq i).blockTable[(e.seq i).cachedLen/cfg.cache.blockSize]? with
  | none => exact h
  | some b =>
    have hcow := h.cowBlockIfShared hb.owned (hs b ht)
    simp only
    cases hc : e.radix.cowBlockIfShared cfg.cache b with
    | mk radix o =>
      rw [hc] at hcow
      cases o with
      | none => exact hcow
      | some b' => exact hcow

theorem counted_execOp {op : Op} {rest : List Op} (hb : Base cfg e) (h : Counted e.radix)
    (tok : Token) (raises : Bool) (hpc : e.pc.todo = op :: rest)
    (hs : ∀ b, copyTarget cfg e = some b → ¬ RadixCache.CopyLoses cfg.cache e.radix b) :
    Counted (execOp cfg e rest tok raises op).1.radix := by
  have hcommit := fun i vals => @counted_commitPages V _ cfg e h i vals
  cases op with
  | ensure i total => exact counted_ensureLoop h i _
  | cow i => exact counted_cowPage hb h (by simpa [copyTarget,hpc] using hs)
  | forward g => exact h
  | sample i =>
    simp only [execOp]
    split_ifs <;> exact h
  | burst i n => exact h
  | commitPrefill i =>
    have := hcommit i (prefillKv cfg (e.seq i))
    simp only [execOp]
    split <;> rename_i heq <;> rw [heq] at this <;> exact this
  | commitDecode i =>
    have := hcommit i (decodeKv cfg (e.seq i))
    simp only [execOp]
    split <;> rename_i heq <;> rw [heq] at this <;> exact this
  | commitBurst i =>
    have := hcommit i (decodeKv cfg (e.seq i))
    simp only [execOp]
    split <;> rename_i heq <;> rw [heq] at this <;> exact this

theorem counted_applyPost (h : Counted e.radix) (i : SeqId) (p : Post) (full : Bool) :
    Counted (e.applyPost i p full).radix := by
  unfold applyPost
  simp only
  refine counted_emit ?_ _ _
  split
  · exact counted_mark (e := e.modify i _) h _ _
  · exact h

theorem counted_postOne (h : Counted e.radix) (i : SeqId) (tok : Option Token)
    (pre cancelled : Bool) (prev : Text) (full : Bool) :
    Counted (postOne cfg e i tok pre cancelled prev full).radix := by
  unfold postOne
  cases tok with
  | none => exact h
  | some t =>
    simp only
    by_cases hf : (e.seq i).finished = true
    · rw [if_pos hf]; exact h
    rw [if_neg hf]
    by_cases hc : cancelled = true
    · rw [if_pos hc]; exact counted_emit (counted_mark h i .cancelled) _ _
    rw [if_neg hc]
    refine counted_applyPost ?_ _ _ _
    cases pre with
    | true => exact h.insertOrUpdate _ _ _ _
    | false => exact h

omit [Zero V] in
theorem counted_addRequest {r : Request} (h : Counted e.radix)
    (hr : e.addRequest cfg r = some e') : Counted e'.radix := by
  have hm := @RadixCache.Counted.matchPrefix V cfg.cache e.radix h r.inputIds
  unfold addRequest at hr
  by_cases hno : r.inputIds = [] ∨ r.maxTokens = 0
  · simp [hno] at hr
  rw [if_neg hno] at hr
  obtain ⟨sched,_,rfl⟩ := Option.map_eq_some_iff.mp hr
  exact hm

theorem counted_step {ev : Event} (hb : Base cfg e) (h : Counted e.radix) (hs : CopySafe cfg e ev)
    (hstep : e.step cfg ev = some e') : Counted e'.radix := by
  cases step_moves hstep with
  | addRequest _ hr => exact counted_addRequest h hr
  | cancel => exact counted_cancelRequest h _
  | step _ _ => exact h
  | check _ => exact h
  | @call _ op rest _ _ _ tok raises _ _ hpc hx =>
    have := counted_execOp hb h tok raises (by rw [hpc]; rfl) hs
    rw [hx] at this
    exact this
  | @abort batch op rest _ _ tok raises full _ hpc hx =>
    have := counted_execOp hb h tok raises (by rw [hpc]; rfl) hs
    rw [hx] at this
    exact counted_abortBatch this full batch
  | @burstCall _ op rest _ _ _ tok raises _ _ hpc hx =>
    have := counted_execOp hb h tok raises (by rw [hpc]; rfl) hs
    rw [hx] at this
    exact this
  | @burstAbort _ op rest _ _ tok raises _ _ hpc hx =>
    have := counted_execOp hb h tok raises (by rw [hpc]; rfl) hs
    rw [hx] at this
    exact this
  | finishBatch _ =>
    unfold leaveBatch
    simp only
    split
    · split
      · split_ifs <;> exact h
      · exact h
    · exact h
  | post _ => exact counted_postOne h _ _ _ _ _ _
  | postDone _ => exact h
  | finishBurst _ h₁ => exact h₁ ▸ counted_applyPost h _ _ _

end Counted

section Leaks

/-- Finished requests own no pages, and every allocated page has an owner. -/
structure NoLeak (e : Engine V) : Prop where
  emptied : ∀ i, (e.seq i).finished = true → (e.seq i).blockTable = []
  owner : ∀ b, e.radix.refs b ≠ none →
    (∃ i, (e.seq i).finished = false ∧ b ∈ (e.seq i).blockTable) ∨
      ∃ p, b ∈ e.radix.tree.blocksAt p

theorem exists_table {s : Scheduler} {b : BlockId} (h : 0 < s.held b) :
    ∃ i, b ∈ (s.seq i).blockTable := by
  obtain ⟨n,hn,hpos⟩ : ∃ n ∈ s.seqs.map (fun q => q.blockTable.count b), 0 < n := by
    by_contra hno
    simp only [not_exists,not_and,Nat.not_lt,Nat.le_zero] at hno
    rw [Scheduler.held,List.sum_eq_zero hno] at h
    omega
  obtain ⟨q,hq,rfl⟩ := List.mem_map.mp hn
  obtain ⟨i,hi,rfl⟩ := List.getElem_of_mem hq
  exact ⟨i,by simpa [Scheduler.seq,List.getElem?_eq_getElem hi] using List.count_pos_iff.mp hpos⟩

omit [Zero V] in
theorem Clean.noLeak (h : Clean cfg e) (hc : RadixCache.Counted e.radix) : NoLeak e := by
  refine ⟨h.emptied,fun b hb => ?_⟩
  obtain ⟨r,hr⟩ := Option.ne_none_iff_exists'.mp hb
  have hpos : r ≠ 0 := fun h0 => hc b (h0 ▸ hr)
  have heq := h.base.owned.refs_eq b r hr
  by_cases hheld : 0 < e.sched.held b
  · obtain ⟨i,hi⟩ := exists_table hheld
    refine .inl ⟨i,?_,hi⟩
    by_contra hf
    rw [Bool.not_eq_false] at hf
    rw [show (e.sched.seq i).blockTable = [] from h.emptied i hf] at hi
    simp at hi
  · exact .inr (Children.exists_blocksAt h.base.owned.wf (by omega))

/-- Whatever the interleaving, no page is leaked as long as no cancel arrives
while the loop thread is still going to take pages for the request, and no
copy-on-write evicts the last other owner of the page that it copies. -/
theorem no_leak (cfg : Config V) (es : List Event) (e : Engine V)
    (hg : Transition.Guarded (Engine.step cfg)
      (fun e ev => CancelSafe cfg e ev ∧ CopySafe cfg e ev) init es)
    (h : Transition.exec (Engine.step cfg) init es = some e) : NoLeak e := by
  have hinv : Tidy cfg e ∧ RadixCache.Counted e.radix := by
    refine Transition.exec_invariant (P := fun e => Tidy cfg e ∧ RadixCache.Counted e.radix)
      (fun s ev s' hi hc hs => ?_) ⟨(Clean.init cfg).tidy rfl,RadixCache.counted_empty⟩ hg h
    exact ⟨hi.1.step hc.1 hs,counted_step hi.1.clean.base hi.2 hc.2 hs⟩
  exact hinv.1.clean.noLeak hinv.2

def fourPages : Config Nat where
  cache := ⟨2,4,Nat.two_pos,pos_four⟩
  sched := {}
  mode := .hfRebuild
  burst := 1
  eos := none
  tk := ⟨none⟩
  kv := List.length

def call (tok : Token) : Event := .exec tok false (fun _ => false)

def earlyCancel : List Event :=
  [.addRequest { requestId := "a", inputIds := [1,2,3], maxTokens := 1 },.step,.check,
    call 0,call 0,call 7,.finishBatch,.post false [] false,.post false [] false,
    .addRequest { requestId := "b", inputIds := [1,2,3] },.step,.check,
    call 7,.finishBatch,.post false [] false,.post false [] false,
    .step,.check,call 0,call 0,call 0,call 8,.finishBatch,.post false [] false,.post false [] false,
    .step,.cancel "b",.check,.finishBatch,.post false [] false,.post false [] false]

def cancelTest (e : Engine Nat) : Event → Bool
  | .cancel _ => e.pc.todo.isEmpty
  | .exec _ _ _ => (copyTarget fourPages e).all fun b =>
      !decide (RadixCache.CopyLoses fourPages.cache e.radix b)
  | _ => true

theorem no_leak_earlyCancel :
    ∃ e, Transition.exec (Engine.step fourPages) init earlyCancel = some e ∧ NoLeak e := by
  have hrun : (Transition.exec (Engine.step fourPages) init earlyCancel).isSome = true := by
    decide +kernel
  have hchecks : Transition.checks (Engine.step fourPages) cancelTest init earlyCancel = true := by
    decide +kernel
  obtain ⟨e,he⟩ := Option.isSome_iff_exists.mp hrun
  refine ⟨e,he,no_leak fourPages earlyCancel e (.of_checks (fun s ev hok => ?_) hchecks) he⟩
  cases ev with
  | cancel r =>
    have hnil : s.pc.todo = [] := by simpa [cancelTest] using hok
    exact ⟨by simp [CancelSafe,hnil],trivial⟩
  | exec tok raises full =>
    refine ⟨trivial,fun b hb => ?_⟩
    simpa [cancelTest,hb] using hok
  | _ => exact ⟨trivial,trivial⟩

/-- The cancel arrives after `_ensure_blocks`, during the forward: the commit
takes new pages for the finished request. -/
def lateCancel : List Event :=
  [.addRequest { requestId := "a", inputIds := [1,2,3] },.step,.check,
    call 0,.cancel "a",call 0,call 7,.finishBatch,.post false [] false,.post false [] false]

def isIdle : Pc → Bool
  | .idle => true
  | _ => false

theorem lateCancel_leaks :
    ∃ e, Transition.exec (Engine.step fourPages) init lateCancel = some e ∧ e.pc = .idle ∧
      ¬ NoLeak e := by
  have hrun : ((Transition.exec (Engine.step fourPages) init lateCancel).map fun e =>
      (isIdle e.pc,(e.seq 0).finished,(e.seq 0).blockTable)) =
        some (true,true,[1,0]) := by
    decide +kernel
  obtain ⟨e,he,hv⟩ := Option.map_eq_some_iff.mp hrun
  simp only [Prod.mk.injEq] at hv
  obtain ⟨hpc,hfin,htab⟩ := hv
  refine ⟨e,he,?_,fun hl => ?_⟩
  · cases hp : e.pc with
    | idle => rfl
    | _ => simp [hp,isIdle] at hpc
  · rw [hl.emptied 0 hfin] at htab
    simp at htab

end Leaks

end Engine

end SglangLite.Paged
