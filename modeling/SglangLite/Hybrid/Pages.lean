import SglangLite.Sched.Lifecycle
import SglangLite.Sched.Phases
import SglangLite.Hybrid.Stocked
import SglangLite.Hybrid.Calls

set_option autoImplicit false

namespace SglangLite.Hybrid
open Kv Sched Text

theorem filterMap_modify {α β : Type} (g : α → Option β) {l : List α} {i : Nat} {a : α}
    (hi : l[i]? = some a) :
    ∃ rest, (l.filterMap g).Perm ((g a).toList ++ rest) ∧
      ∀ f : α → α, ((l.modify i f).filterMap g).Perm ((g (f a)).toList ++ rest) := by
  induction l generalizing i with
  | nil => simp at hi
  | cons b l ih =>
    have hcons : ∀ x, (x :: l).filterMap g = (g x).toList ++ l.filterMap g := by
      intro x
      cases hx : g x <;> simp [hx]
    cases i with
    | zero =>
      obtain rfl : b = a := by simpa using hi
      exact ⟨l.filterMap g,by rw [hcons],fun f => by rw [List.modify_zero_cons]; cases hx : g (f b) <;> simp [hx]⟩
    | succ i =>
      obtain ⟨rest,hp,hf⟩ := ih (by simpa using hi)
      have hswap : ∀ (o : Option β) (xs : List β), xs.Perm (o.toList ++ rest) →
          ((g b).toList ++ xs).Perm (o.toList ++ ((g b).toList ++ rest)) := by
        intro o xs hxs
        refine (hxs.append_left _).trans ?_
        rw [← List.append_assoc,← List.append_assoc]
        exact List.perm_append_comm.append_right rest
      refine ⟨(g b).toList ++ rest,?_,fun f => ?_⟩
      · rw [hcons]
        exact hswap _ _ hp
      · rw [List.modify_succ_cons]
        have : (b :: l.modify i f).filterMap g = (g b).toList ++ (l.modify i f).filterMap g := by
          cases hx : g b <;> simp [hx]
        rw [this]
        exact hswap _ _ (hf f)

namespace Engine

variable {cfg : Config} {e e' : Engine}

def held (e : Engine) : List (List BlockId) := (e.v4.filterMap (·.handle)).map (·.swaBlocks)

def tableOf (q : V4Seq) : List (List BlockId) := (q.handle.map (·.swaBlocks)).toList

def free (e : Engine) (i : SeqId) : Bool := (e.v4Seq i).handle.isNone

theorem held_attach (e : Engine) {i : SeqId} (hi : i < e.v4.length) :
    ∃ rest, e.held.Perm (tableOf (e.v4Seq i) ++ rest) ∧
      ∀ f, (e.attach i f).held.Perm (tableOf (f (e.v4Seq i)) ++ rest) := by
  have hget : e.v4[i]? = some (e.v4Seq i) := by
    rw [v4Seq,List.getD_eq_getElem?_getD,List.getElem?_eq_getElem hi,Option.getD_some]
  obtain ⟨rest,hp,hf⟩ := filterMap_modify (·.handle) hget
  refine ⟨rest.map (·.swaBlocks),(hp.map _).trans ?_,fun f => ((hf f).map _).trans ?_⟩
  · cases hh : (e.v4Seq i).handle <;> simp [tableOf,hh]
  · cases hh : (f (e.v4Seq i)).handle <;> simp [tableOf,hh]

/-- The page counts are exact over the entries and the handles of the sequences,
and no finished sequence has a handle. -/
structure Accounts (cfg : Config) (e : Engine) : Prop where
  pool : Stocked cfg.cache e.radix e.held e.cache
  sched : e.sched.Kept
  length : e.v4.length = e.sched.seqs.length
  tables : ∀ i, (e.seq i).blockTable = []
  handles : ∀ i h, (e.v4Seq i).handle = some h → h.compBlocks = h.swaBlocks ∧ h.swaBlocks ≠ []
  ended : ∀ i, (e.seq i).finished = true → (e.v4Seq i).handle = none

theorem accounts_init (cfg : Config) : Accounts cfg {} where
  pool := stocked_empty
  sched := Scheduler.kept_empty
  length := rfl
  tables := fun i => by simp [seq,Scheduler.seq,show (default : Sequence).blockTable = [] from rfl]
  handles := fun i h => by simp [v4Seq,show (default : V4Seq).handle = none from rfl]
  ended := fun i _ => by simp [v4Seq,show (default : V4Seq).handle = none from rfl]

namespace Accounts

theorem resched {s : Scheduler} (h : Accounts cfg e) (hk : s.Kept) (hl : s.seqs.length = e.sched.seqs.length)
    (ht : ∀ i, (s.seq i).blockTable = [])
    (ho : ∀ i, (s.seq i).finished = true → (e.v4Seq i).handle = none) :
    Accounts cfg { e with sched := s } :=
  ⟨h.pool,hk,h.length.trans hl.symm,ht,h.handles,ho⟩

theorem withPc (h : Accounts cfg e) (pc : Pc) : Accounts cfg { e with pc := pc } :=
  ⟨h.pool,h.sched,h.length,h.tables,h.handles,h.ended⟩

theorem setRow (h : Accounts cfg e) (slot : Nat) (row : Row) (use : Option (SeqId × Nat)) :
    Accounts cfg (e.setRow slot row use) :=
  ⟨h.pool,h.sched,h.length,h.tables,h.handles,h.ended⟩

theorem modify (h : Accounts cfg e) (i : SeqId) {f : Sequence → Sequence}
    (hr : ∀ q, (f q).requestId = q.requestId) (hf : ∀ q, (f q).finished = q.finished)
    (hc : ∀ q, (f q).cancelled = q.cancelled) (ht : ∀ q, (f q).blockTable = q.blockTable) :
    Accounts cfg (e.modify i f) := by
  refine h.resched (h.sched.modify i hr hf hc) (by simp) (fun j => ?_) (fun j hj => h.ended j ?_)
  · exact (seq_modify_field (·.blockTable) ht i j).trans (h.tables j)
  · exact (seq_modify_field (·.finished) hf i j).symm.trans hj

theorem setOutput (h : Accounts cfg e) (i : SeqId) (out : List Token) : Accounts cfg (e.setOutput i out) := by
  have hm := h.modify i (f := fun q => { q with outputIds := out })
    (fun _ => rfl) (fun _ => rfl) (fun _ => rfl) (fun _ => rfl)
  exact ⟨hm.pool,hm.sched,hm.length,hm.tables,hm.handles,hm.ended⟩

theorem rehandle {c : PagePool} {l : List V4PrefixEntry} (h : Accounts cfg e) {i : SeqId}
    (hi : i < e.v4.length) (f : V4Seq → V4Seq)
    (hp : ∀ rest, e.held.Perm (tableOf (e.v4Seq i) ++ rest) →
      Stocked cfg.cache c (tableOf (f (e.v4Seq i)) ++ rest) l)
    (hf : ∀ h', (f (e.v4Seq i)).handle = some h' → h'.compBlocks = h'.swaBlocks ∧ h'.swaBlocks ≠ [])
    (ho : (e.seq i).finished = true → (f (e.v4Seq i)).handle = none) :
    Accounts cfg (({ e with radix := c, cache := l }).attach i f) := by
  obtain ⟨rest,hold,hnew⟩ := held_attach e hi
  have hv : ∀ j, (({ e with radix := c, cache := l }).attach i f).v4Seq j =
      if j = i ∧ i < e.v4.length then f (e.v4Seq i) else e.v4Seq j := fun j => v4Seq_attach e i j f
  refine ⟨(hp rest hold).perm (hnew f).symm,h.sched,?_,h.tables,fun j h' hj => ?_,fun j hj => ?_⟩
  · exact (List.length_modify _ _ _).trans h.length
  · rw [hv] at hj
    split_ifs at hj
    · exact hf h' hj
    · exact h.handles j h' hj
  · rw [hv]
    split_ifs with hji
    · exact ho (hji.1 ▸ hj)
    · exact h.ended j hj

theorem attach (h : Accounts cfg e) (i : SeqId) {f : V4Seq → V4Seq} (hf : ∀ q, (f q).handle = q.handle) :
    Accounts cfg (e.attach i f) := by
  by_cases hi : i < e.v4.length
  · refine h.rehandle hi f (fun rest hr => h.pool.perm ?_) (fun h' hh => ?_) (fun ho => ?_)
    · rwa [tableOf,hf]
    · exact h.handles i h' (by rwa [hf] at hh)
    · rw [hf]
      exact h.ended i ho
  · have : e.attach i f = e := by
      simp [Engine.attach,List.modify_eq_self (Nat.le_of_not_lt hi)]
    rwa [this]

theorem finish (h : Accounts cfg e) {i : SeqId} {f : Sequence → Sequence}
    (hr : ∀ q, (f q).requestId = q.requestId) (ht : ∀ q, (f q).blockTable = q.blockTable)
    (hi : e.free i = true) (reason : FinishReason) : Accounts cfg ((e.modify i f).mark i reason) := by
  have hnil : ((e.modify i f).seq i).blockTable = [] :=
    (seq_modify_field (·.blockTable) ht i i).trans (h.tables i)
  have hend := fun j => Scheduler.seq_end e.sched i j f reason
  have hrel : ((e.modify i f).mark i reason).radix = e.radix := by
    show e.radix.releaseBlocks ((e.modify i f).seq i).blockTable = e.radix
    rw [hnil]
    rfl
  have hfree : (e.v4Seq i).handle = none := Option.isNone_iff_eq_none.mp hi
  have hre := h.resched (s := (e.sched.modify i f).markFinished i reason) (h.sched.markFinished i hr reason)
    (by simp [Scheduler.markFinished,Scheduler.modify]) (fun j => ?_) (fun j hj => ?_)
  · exact ⟨by rw [hrel]; exact hre.pool,hre.sched,hre.length,hre.tables,hre.handles,hre.ended⟩
  · rw [hend]
    split_ifs
    · rfl
    · exact h.tables j
  · rw [hend] at hj
    split_ifs at hj with hji
    · rw [hji.1]
      exact hfree
    · exact h.ended j hj

theorem mark (h : Accounts cfg e) {i : SeqId} (hi : e.free i = true) (reason : FinishReason) :
    Accounts cfg (e.mark i reason) := by
  have := h.finish (f := id) (fun _ => rfl) (fun _ => rfl) hi reason
  rwa [Engine.modify,Scheduler.modify_same (f := id) fun _ => rfl] at this

end Accounts

def cancelFree (e : Engine) (r : RequestId) : Bool :=
  match e.sched.byRequest r with
  | some i => e.free i
  | none => true

def emitFree (e : Engine) (d : Delta) (r : RequestId) : Bool := d ≠ .full || e.cancelFree r

namespace Accounts

theorem schedCancel {r : RequestId} (h : Accounts cfg e) (hr : e.cancelFree r = true) :
    Accounts cfg (e.schedCancel r) := by
  unfold Engine.schedCancel
  unfold cancelFree at hr
  cases hb : e.sched.byRequest r with
  | none => exact h
  | some i =>
    rw [hb] at hr
    exact h.finish (f := fun q => { q with cancelled := true }) (fun _ => rfl) (fun _ => rfl) hr .cancelled

theorem lt_of_queued (h : Accounts cfg e) {i : SeqId} (hi : i ∈ e.sched.running ++ e.sched.waiting) :
    i < e.v4.length := by
  rw [h.length]
  exact Scheduler.lt_of_unfinished ((h.sched.queued i).mp (List.perm_append_comm.mem_iff.mp hi))

theorem releaseSeq (h : Accounts cfg e) {i : SeqId} (hi : i < e.v4.length) :
    Accounts cfg (e.releaseSeq i) := by
  have h₁ := h.setRow 0 {} none
  have hv : (e.setRow 0 {} none).v4Seq i = e.v4Seq i := rfl
  unfold Engine.releaseSeq
  cases hh : (e.v4Seq i).handle with
  | none =>
    refine h₁.rehandle (c := e.radix) (l := e.cache) hi _ (fun rest hr => ?_) (fun h' hh' => by simp at hh')
      (fun _ => rfl)
    have hp := h.pool.perm hr
    rw [hv,tableOf,hh] at hp
    exact hp
  | some h₀ =>
    refine h₁.rehandle (c := releaseHandle e.radix h₀) (l := e.cache) hi _ (fun rest hr => ?_)
      (fun h' hh' => by simp at hh') (fun _ => rfl)
    have hp := h.pool.perm hr
    rw [hv,tableOf,hh] at hp
    exact hp.releaseHandle (h.handles i h₀ hh).2

theorem emit {d : Delta} {r : RequestId} (h : Accounts cfg e) (hr : e.emitFree d r = true)
    (final : Bool) : Accounts cfg (e.emit d r final) := by
  have hclose : ∀ {e : Engine}, Accounts cfg e → Accounts cfg (if final then
      match (e.sched.running ++ e.sched.waiting).find? fun i => (e.seq i).requestId = r with
      | some i => e.releaseSeq i
      | none => e
    else e) := by
    intro e h
    split
    · split
      next i hi => exact h.releaseSeq (h.lt_of_queued (List.mem_of_find?_eq_some hi))
      next => exact h
    · exact h
  unfold Engine.emit
  cases d with
  | gone => exact h
  | room => exact hclose h
  | full => exact hclose (h.schedCancel (by simpa [emitFree] using hr))

end Accounts

/-- A handle that the save of a prefix makes is the only one of a live sequence. -/
def saveFree (cfg : Config) (e : Engine) (i : SeqId) (slot : Nat) (fails : Bool) : Bool :=
  let q := e.seq i
  (q.cachedLen ≠ q.inputIds.length || !cfg.dual ||
    (dualWrite cfg.cache e.radix (e.rows slot) q.cachedLen fails).2.isNone) || (!q.finished && e.free i)

def opFree (cfg : Config) (e : Engine) (fails : Bool) : Op → Bool
  | .save i slot => e.saveFree cfg i slot fails
  | _ => true

namespace Accounts

theorem lt_of_handle (h : Accounts cfg e) {i : SeqId} {h₀ : DualPoolHandle}
    (hh : (e.v4Seq i).handle = some h₀) : i < e.v4.length ∧ (e.seq i).finished = false := by
  constructor
  · by_contra hge
    simp [v4Seq,List.getElem?_eq_none (Nat.le_of_not_lt hge),show (default : V4Seq).handle = none from rfl] at hh
  · cases hf : (e.seq i).finished with
    | false => rfl
    | true => simp [h.ended i hf] at hh

theorem savePrefix {i : SeqId} {slot : Nat} {fails : Bool} (h : Accounts cfg e)
    (hs : e.saveFree cfg i slot fails = true) : Accounts cfg (savePrefix cfg e i slot fails) := by
  unfold Engine.savePrefix
  unfold saveFree at hs
  simp only at hs ⊢
  by_cases hlen : (e.seq i).cachedLen = (e.seq i).inputIds.length
  · rw [if_neg (not_not.mpr hlen)]
    have hplain : ∀ {c : PagePool} (en : V4PrefixEntry), Stocked cfg.cache c e.held e.cache →
        en.compBlockIds = en.swaBlockIds → en.swaBlockIds = [] →
        Accounts cfg { e with
          radix := (Hybrid.insert cfg.maxEntries c e.cache en).1
          cache := (Hybrid.insert cfg.maxEntries c e.cache en).2 } := fun en hp he hnil =>
      ⟨hp.insert cfg.maxEntries en he (.inl hnil),h.sched,h.length,h.tables,h.handles,h.ended⟩
    cases hd : cfg.dual with
    | false => exact hplain _ h.pool rfl rfl
    | true =>
      have hw := h.pool.dualWrite (e.rows slot) (e.seq i).cachedLen fails
      cases hc : dualWrite cfg.cache e.radix (e.rows slot) (e.seq i).cachedLen fails with
      | mk c₁ o =>
        rw [hc] at hw hs
        simp only [if_true]
        cases o with
        | none => exact hplain _ hw rfl rfl
        | some h₁ =>
          obtain ⟨hst,hsame,hne⟩ := hw
          simp only [hlen,hd,Option.isNone_some,ne_eq,not_true_eq_false,decide_false,Bool.not_true,Bool.or_self,
            Bool.false_or,Bool.and_eq_true,Bool.not_eq_true'] at hs
          obtain ⟨hlive,hfree⟩ := hs
          have hi : i < e.v4.length := h.length ▸ Scheduler.lt_of_unfinished hlive
          have hnone : (e.v4Seq i).handle = none := Option.isNone_iff_eq_none.mp hfree
          refine h.rehandle hi _ (fun rest hr => ?_) (fun h' hh => ?_) (fun hf => ?_)
          · rw [tableOf,hnone] at hr
            exact (hst.insert cfg.maxEntries _ hsame (.inr (by simp))).perm (hr.cons _)
          · obtain rfl := Option.some.inj hh
            exact ⟨hsame,hne⟩
          · rw [hlive] at hf
            exact absurd hf (by simp)
  · rw [if_pos hlen]
    exact h

theorem dualAppend (h : Accounts cfg e) (i : SeqId) (slot : Nat) (fails : Bool) :
    Accounts cfg (dualAppend cfg e i slot fails) := by
  unfold Engine.dualAppend
  cases hh : (e.v4Seq i).handle with
  | none => exact h
  | some h₀ =>
    simp only
    split
    · obtain ⟨hi,hlive⟩ := h.lt_of_handle hh
      obtain ⟨hsame,hne⟩ := h.handles i h₀ hh
      -- what the write of the new position adds to the handle is not a page
      refine h.rehandle hi _ (fun rest hr => ?_) (fun h' hh' => ?_) (fun hf => ?_)
      · have hp := h.pool.perm hr
        rw [tableOf,hh] at hp
        have := (Stocked.ensureCapacity hp hsame hne (e.seq i).cachedLen).1
        simp only [tableOf,Option.map_some,Option.toList_some]
        split <;> exact this
      · obtain ⟨rest,hr,_⟩ := held_attach e hi
        have hp := h.pool.perm hr
        rw [tableOf,hh] at hp
        have := (Stocked.ensureCapacity hp hsame hne (e.seq i).cachedLen).2
        obtain rfl := Option.some.inj hh'
        split <;> exact this
      · rw [hlive] at hf
        exact absurd hf (by simp)
    · exact h

theorem ensureRestored (h : Accounts cfg e) (i : SeqId) (slot : Nat) :
    Accounts cfg (ensureRestored cfg e i slot) := by
  have hpending := h.attach i (f := fun q => { q with pendingRestore := false }) (fun _ => rfl)
  unfold Engine.ensureRestored
  simp only
  split
  · split
    · exact hpending
    · split
      · exact (hpending.setRow ..).attach i fun _ => rfl
      · exact (hpending.setRow ..).attach i fun _ => rfl
  · split
    · exact (h.setRow ..).attach i fun _ => rfl
    · exact h

theorem stagePages (h : Accounts cfg e) (i : SeqId) (slot : Nat) :
    Accounts cfg (stagePages cfg e i slot) := by
  unfold Engine.stagePages
  simp only
  split
  · split
    · exact h
    next h₁ _ =>
      generalize (if h₁.nTokens ≠ 0 then h₁.nTokens else (e.seq i).cachedLen) = n
      split
      · exact h
      · exact (h.setRow ..).attach i fun _ => rfl
  · exact h

theorem forward (h : Accounts cfg e) (start : Nat) (ok : Bool) (b : Nat)
    (ins : List (SeqId × List Token)) : Accounts cfg (forward start ok b ins e) := by
  induction ins generalizing b e with
  | nil => exact h
  | cons m ins ih =>
    obtain ⟨i,ts⟩ := m
    have hr := h.setRow b ((e.rows b).feed start ts) (if ok then some (i,start+ts.length) else none)
    have hc : Accounts cfg
        { e.setRow b ((e.rows b).feed start ts) (if ok then some (i,start+ts.length) else none) with
          calls := e.calls ++ [⟨i,b,start,e.rows b,(e.seq i).tokens⟩] } :=
      ⟨hr.pool,hr.sched,hr.length,hr.tables,hr.handles,hr.ended⟩
    exact ih hc (b+1)

theorem execOp {op : Op} {rest : List Op} {tok : Token} {raises : Bool} (h : Accounts cfg e)
    (hs : e.opFree cfg raises op = true) : Accounts cfg (execOp cfg e rest tok raises op).1 := by
  cases op with
  | restore i slot => exact h.ensureRestored i slot
  | stage i slot always =>
    simp only [Engine.execOp]
    split
    · exact h.stagePages i slot
    · exact h
  | forward start ins => exact h.forward start _ 0 ins
  | sample i =>
    simp only [Engine.execOp]
    split
    · exact h.modify i (fun _ => rfl) (fun _ => rfl) (fun _ => rfl) (fun _ => rfl)
    · exact h
  | prefilled i n => exact h.modify i (fun _ => rfl) (fun _ => rfl) (fun _ => rfl) (fun _ => rfl)
  | decoded i => exact h.modify i (fun _ => rfl) (fun _ => rfl) (fun _ => rfl) (fun _ => rfl)
  | save i slot => exact h.savePrefix hs
  | append i slot => exact h.dualAppend i slot raises
  | burst i n => exact h
  | greedy i n => cases n <;> exact h
  | single i n =>
    cases n with
    | zero => exact h
    | succ n =>
      simp only [Engine.execOp]
      split <;> exact h
  | advance i => exact h.modify i (fun _ => rfl) (fun _ => rfl) (fun _ => rfl) (fun _ => rfl)
  | output i => exact h.modify i (fun _ => rfl) (fun _ => rfl) (fun _ => rfl) (fun _ => rfl)

theorem join {s : Scheduler} {q : Sequence} (h : Accounts cfg e) (ha : e.sched.addRequest cfg.sched q = some s)
    (hf : q.finished = false) (hc : q.cancelled = false) (ht : q.blockTable = []) :
    Accounts cfg { e with sched := s, v4 := e.v4 ++ [{}] } := by
  have hadm := Scheduler.admits_addRequest ha
  have hk : s.Kept := by
    unfold Scheduler.addRequest at ha
    split_ifs at ha
    obtain rfl := Option.some.inj ha
    exact h.sched.add hf hc
  have hv : ∀ j, (e.v4 ++ [({} : V4Seq)]).getD j default = e.v4Seq j := by
    intro j
    simp only [v4Seq,List.getD_eq_getElem?_getD]
    rcases Nat.lt_trichotomy j e.v4.length with hlt | heq | hgt
    · rw [List.getElem?_append_left hlt]
    · simp [heq,show (default : V4Seq) = {} from rfl]
    · rw [List.getElem?_eq_none (by simp; omega),List.getElem?_eq_none (by omega)]
  have hheld : ({ e with sched := s, v4 := e.v4 ++ [{}] } : Engine).held = e.held := by
    simp [held]
  refine ⟨by rw [hheld]; exact h.pool,hk,?_,fun j => ?_,fun j h₀ hj => ?_,fun j hj => ?_⟩
  · simp [hadm.seqs,h.length]
  · show (s.seq j).blockTable = []
    by_cases hnew : j = e.sched.seqs.length
    · rw [hnew,hadm.seq_new,ht]
    · rw [hadm.seq_old hnew]
      exact h.tables j
  · exact h.handles j h₀ ((congrArg V4Seq.handle (hv j)).symm.trans hj)
  · refine (congrArg V4Seq.handle (hv j)).trans ?_
    by_cases hnew : j = e.sched.seqs.length
    · simp [hnew,v4Seq,← h.length,show (default : V4Seq).handle = none from rfl]
    · exact h.ended j (by rw [seq,← hadm.seq_old hnew]; exact hj)

theorem attachDualPool {i : SeqId} {en : V4PrefixEntry} (h : Accounts cfg e) (hen : en ∈ e.cache)
    (hlive : (e.seq i).finished = false) (hfree : e.free i = true) :
    Accounts cfg (e.attachDualPool i en) := by
  have hi : i < e.v4.length := h.length ▸ Scheduler.lt_of_unfinished hlive
  have hnone : (e.v4Seq i).handle = none := Option.isNone_iff_eq_none.mp hfree
  have hfork := h.pool.forkForHit hen
  unfold Engine.attachDualPool
  cases hc : forkForHit e.radix en with
  | mk c o =>
    rw [hc] at hfork
    cases o with
    | none => exact h
    | some h₁ =>
      obtain ⟨hst,hsame,hne⟩ := hfork
      refine h.rehandle hi _ (fun rest hr => ?_) (fun h' hh => ?_) (fun hf => ?_)
      · rw [tableOf,hnone] at hr
        exact hst.perm (hr.cons _)
      · obtain rfl := Option.some.inj hh
        exact ⟨hsame,hne⟩
      · rw [hlive] at hf
        exact absurd hf (by simp)

end Accounts

theorem matchPrefix_bare {c : PagePool} (h : Bare c) (cc : CacheConfig) (q : List Token) :
    (c.matchPrefix cc q).1 = c := by
  have hwalk : Children.walk {} .nil q = ({},0) := by cases q <;> rfl
  simp [RadixCache.matchPrefix,RadixCache.matchNode,h.tree,hwalk]

theorem Accounts.addRequest {r : Request} (h : Accounts cfg e) (hr : e.addRequest cfg r = some e') :
    Accounts cfg e' := by
  unfold Engine.addRequest at hr
  split at hr
  · exact absurd hr (by simp)
  · simp only [matchPrefix_bare h.pool.bare] at hr
    obtain ⟨s,hs,rfl⟩ := Option.map_eq_some_iff.mp hr
    have hj := h.join hs rfl rfl rfl
    have hadm := Scheduler.admits_addRequest hs
    cases hm : matchEntry e.cache r.inputIds with
    | none => exact hj
    | some en =>
      have hnew : s.seq e.sched.seqs.length = _ := hadm.seq_new
      refine (hj.attach e.sched.seqs.length (f := fun v => { v with entry := some en, pendingRestore := true })
        fun _ => rfl).attachDualPool (matchEntry_spec hm).1 ?_ ?_
      · show (s.seq e.sched.seqs.length).finished = false
        rw [hnew]
        rfl
      · refine Option.isNone_iff_eq_none.mpr ((v4Seq_attach_field (·.handle)
          (f := fun v => { v with entry := some en, pendingRestore := true }) (fun _ => rfl) _ _).trans ?_)
        simp [v4Seq,← h.length]

/-- The members of a batch that a call has left by an exception are free, each
when it is its turn. -/
def abortFree (ds : RequestId → Delta) (e : Engine) : List (SeqId × Bool) → Bool
  | [] => true
  | (i,_) :: rest =>
      e.free i &&
        abortFree ds ((e.mark i .error).emit (ds (e.seq i).requestId) (e.seq i).requestId true) rest

def postFree (e : Engine) (i : SeqId) (p : Post) (d : Delta) : Bool :=
  match p.reason with
  | some _ => e.free i
  | none => e.emitFree d (e.seq i).requestId

namespace Accounts

theorem emitFree_mark (e : Engine) (d : Delta) (i : SeqId) (reason : FinishReason) :
    (e.mark i reason).emitFree d (e.seq i).requestId = true := by
  have : (e.mark i reason).sched.byRequest (e.seq i).requestId = none := by
    simp [Engine.mark,Scheduler.markFinished,seq]
  simp [emitFree,cancelFree,this]

theorem cancelRequest {r : RequestId} {d : Delta} (h : Accounts cfg e) (hr : e.cancelFree r = true) :
    Accounts cfg (e.cancelRequest r d) := by
  refine (h.schedCancel hr).emit ?_ true
  have hnone : (e.schedCancel r).sched.byRequest r = none := by
    unfold Engine.schedCancel
    cases hb : e.sched.byRequest r with
    | none => exact hb
    | some i =>
      have hid : ((e.modify i fun q => { q with cancelled := true }).seq i).requestId = r := by
        rw [seq_modify_field (·.requestId) (f := fun q => { q with cancelled := true }) fun _ => rfl]
        exact (h.sched.byRequest r i hb).1
      show Function.update e.sched.byRequest ((e.modify i fun q => { q with cancelled := true }).seq i).requestId
        none r = none
      rw [hid,Function.update_self]
  simp [emitFree,cancelFree,hnone]

theorem abortBatch {ds : RequestId → Delta} {batch : List (SeqId × Bool)} (h : Accounts cfg e)
    (hf : abortFree ds e batch = true) : Accounts cfg (abortBatch ds e batch) := by
  induction batch generalizing e with
  | nil => exact h.withPc _
  | cons b batch ih =>
    obtain ⟨i,pre⟩ := b
    obtain ⟨hi,hrest⟩ := Bool.and_eq_true_iff.mp hf
    exact ih ((h.mark hi .error).emit (emitFree_mark e _ i .error) true) hrest

theorem applyPost {i : SeqId} {p : Post} {d : Delta} (h : Accounts cfg e) (hp : e.postFree i p d = true) :
    Accounts cfg (e.applyPost i p d) := by
  have hs := h.setOutput i p.outputIds
  have hid : ((e.setOutput i p.outputIds).seq i).requestId = (e.seq i).requestId :=
    seq_modify_field (·.requestId) (f := fun q => { q with outputIds := p.outputIds }) (fun _ => rfl) i i
  unfold Engine.applyPost
  unfold postFree at hp
  cases hr : p.reason with
  | none =>
    rw [hr] at hp
    exact hs.emit hp p.finished
  | some reason =>
    rw [hr] at hp
    refine (hs.mark hp reason).emit ?_ p.finished
    rw [← hid]
    exact emitFree_mark (e.setOutput i p.outputIds) d i reason

end Accounts

def posted (e : Engine) (i : SeqId) (t : Token) (pre : Bool) : Engine :=
  (if pre then e.modify i fun q => { q with cachedLen := q.inputIds.length, kvState := false } else e).modify i
    fun q => { q with outputIds := q.outputIds ++ [t] }

/-- No sequence ends while it holds a handle, and a handle that the save of a
prefix makes goes to a live sequence without one. -/
def returns (cfg : Config) (e : Engine) : Event → Bool
  | .reject r d => e.emitFree d r
  | .cancel r _ => e.cancelFree r
  | .timeout r _ => e.cancelFree r
  | .exec tok raises ds =>
      match e.pc with
      | .inBatch batch (op :: rest) _ =>
          e.opFree cfg raises op && match execOp cfg e rest tok raises op with
            | (_,true,_) => true
            | (e',false,_) => abortFree ds e' batch
      | .bursting _ _ (op :: _) _ => e.opFree cfg raises op
      | _ => true
  | .post cancelled prev d =>
      match e.pc with
      | .posting ((i,some t,pre) :: _) =>
          (e.seq i).finished ||
            if cancelled then e.free i
            else (e.posted i t pre).postFree i (postToken cfg.tk ((e.posted i t pre).seq i) t prev) d
      | _ => true
  | .finishBurst prev d =>
      match e.pc with
      | .bursting i _ [] toks => e.postFree i (postBurst cfg.tk cfg.eos (e.seq i) toks prev) d
      | _ => true
  | _ => true

namespace Accounts

theorem executed {op : Op} {rest todo : List Op} {tok : Token} {raises ok : Bool} (h : Accounts cfg e)
    (hs : e.opFree cfg raises op = true) (hx : Engine.execOp cfg e rest tok raises op = (e',ok,todo)) :
    Accounts cfg e' := by
  have hop : Accounts cfg (Engine.execOp cfg e rest tok raises op).1 := h.execOp hs
  rwa [hx] at hop

theorem appendOutput (h : Accounts cfg e) (i : SeqId) (t : Token) :
    Accounts cfg (e.modify i fun q => { q with outputIds := q.outputIds ++ [t] }) :=
  h.modify i (fun _ => rfl) (fun _ => rfl) (fun _ => rfl) (fun _ => rfl)

theorem posted (h : Accounts cfg e) (i : SeqId) (t : Token) (pre : Bool) : Accounts cfg (e.posted i t pre) := by
  unfold Engine.posted
  refine Accounts.appendOutput ?_ i t
  split
  · exact h.modify i (fun _ => rfl) (fun _ => rfl) (fun _ => rfl) (fun _ => rfl)
  · exact h

theorem leaveBurst (h : Accounts cfg e) (i : SeqId) (before : Nat) : Accounts cfg (leaveBurst cfg e i before) := by
  unfold Engine.leaveBurst
  refine Accounts.withPc ?_ _
  split
  · exact h.setOutput i _
  · exact h

theorem leaveBatch (h : Accounts cfg e) (batch : List (SeqId × Bool)) (results : SeqId → Option Token) :
    Accounts cfg (leaveBatch cfg e batch results) := by
  unfold Engine.leaveBatch
  simp only
  split
  · split
    · split
      · exact (h.appendOutput _ _).withPc _
      · exact h.withPc _
    · exact h.withPc _
  · exact h.withPc _

theorem dropFinished (h : Accounts cfg e) : Accounts cfg { e with sched := e.sched.dropFinished } :=
  h.resched h.sched.dropFinished rfl h.tables h.ended

theorem postOne {i : SeqId} {tok : Option Token} {pre cancelled : Bool} {prev : Text} {d : Delta}
    {rest : List (SeqId × Option Token × Bool)} (h : Accounts cfg e)
    (hpc : e.pc = .posting ((i,tok,pre) :: rest)) (hg : e.returns cfg (.post cancelled prev d) = true) :
    Accounts cfg (postOne cfg e i tok pre cancelled prev d) := by
  unfold Engine.postOne
  cases tok with
  | none => exact h
  | some t =>
    simp only [returns,hpc,Bool.or_eq_true] at hg
    simp only
    split
    · exact h
    next hlive =>
      have hg := hg.resolve_left hlive
      split
      next hc =>
        rw [if_pos hc] at hg
        exact (h.mark hg .cancelled).emit (emitFree_mark e d i .cancelled) true
      next hc =>
        rw [if_neg hc] at hg
        exact (h.posted i t pre).applyPost hg

theorem step {ev : Event} (h : Accounts cfg e) (hg : e.returns cfg ev = true)
    (hs : e.step cfg ev = some e') : Accounts cfg e' := by
  cases step_moves hs with
  | addRequest hpc hr => exact h.addRequest hr
  | reject hpc => exact h.emit hg true
  | cancel => exact h.cancelRequest hg
  | timeout hpc => exact h.cancelRequest hg
  | step hpc hpc' =>
    obtain ⟨hk,_⟩ := h.sched.step cfg.sched
    exact (h.resched hk rfl h.tables h.ended).withPc _
  | check hpc => exact h.withPc _
  | call hpc hx hr =>
    simp only [returns,hpc,Bool.and_eq_true] at hg
    exact (h.executed hg.1 hx).withPc _
  | abort hpc hx =>
    simp only [returns,hpc,hx,Bool.and_eq_true] at hg
    exact (h.executed hg.1 hx).abortBatch hg.2
  | burstCall hpc hx =>
    simp only [returns,hpc] at hg
    exact (h.executed hg hx).withPc _
  | burstAbort hpc hx =>
    simp only [returns,hpc] at hg
    exact (h.executed hg hx).leaveBurst _ _
  | finishBatch hpc => exact h.leaveBatch _ _
  | post hpc => exact (h.postOne hpc hg).withPc _
  | postDone hpc => exact h.dropFinished.withPc _
  | finishBurst hpc h₁ =>
    simp only [returns,hpc] at hg
    subst h₁
    exact (h.applyPost hg).dropFinished.withPc _

end Accounts

def stores (e : Engine) (b : BlockId) : Nat :=
  e.cache.countP fun en => decide (b ∈ en.swaBlockIds ∨ b ∈ en.compBlockIds)

/-- With nothing waiting and nothing running, exactly the entries hold pages. -/
def Settled (e : Engine) : Prop :=
  e.sched.waiting = [] → e.sched.running = [] →
    ∀ b, e.radix.refs b = if e.stores b = 0 then none else some (e.stores b)

theorem listed_entries {es : List V4PrefixEntry} (hs : ∀ en ∈ es, en.compBlockIds = en.swaBlockIds)
    (hn : ∀ en ∈ es, en.swaBlockIds.Nodup) (b : BlockId) :
    listed (es.map (·.swaBlockIds)) b =
      es.countP fun en => decide (b ∈ en.swaBlockIds ∨ b ∈ en.compBlockIds) := by
  induction es with
  | nil => rfl
  | cons en es ih =>
    rw [List.map_cons,listed_cons,List.countP_cons,
      ih (fun x hx => hs x (List.mem_cons_of_mem _ hx)) (fun x hx => hn x (List.mem_cons_of_mem _ hx)),
      hs en (by simp),(hn en (by simp)).count]
    by_cases hb : b ∈ en.swaBlockIds
    · simp [hb,Nat.add_comm]
    · simp [hb]

theorem Accounts.settled (h : Accounts cfg e) : Settled e := by
  intro hw hr b
  have hnone : ∀ q ∈ e.v4, q.handle = none := by
    intro q hq
    obtain ⟨i,hi⟩ := List.mem_iff_getElem?.mp hq
    have hqi : e.v4Seq i = q := by simp [v4Seq,hi]
    have hqueue := h.sched.queued i
    rw [hw,hr] at hqueue
    have hfin : (e.seq i).finished = true := by
      cases hf : (e.seq i).finished with
      | true => rfl
      | false => exact absurd (hqueue.mpr hf) (by simp)
    rw [← hqi]
    exact h.ended i hfin
  have hheld : e.held = [] := by
    simp only [held,List.map_eq_nil_iff,List.filterMap_eq_nil_iff]
    exact hnone
  have hpool := h.pool
  rw [hheld] at hpool
  have htab := hpool.shelf.tabled
  rw [List.nil_append] at htab
  have hlisted := listed_entries hpool.shelf.same (fun en hen => htab.nodup (List.mem_map_of_mem hen)) b
  have hstores : e.stores b = listed (e.cache.map (·.swaBlockIds)) b := hlisted.symm
  rw [hstores]
  cases hrefs : e.radix.refs b with
  | none => rw [if_pos (htab.owned.refs_none b hrefs).1]
  | some r =>
    have hr := htab.owned.refs_eq b r hrefs
    have hpos : r ≠ 0 := fun h0 => hpool.bare.counted b (h0 ▸ hrefs)
    rw [hpool.bare.tree,show Children.count b .nil = 0 from rfl,Nat.add_zero] at hr
    rw [← hr,if_neg hpos]

/-- The pages of the dual pool are accounted for whenever nothing is waiting or
running, as long as no sequence ends while it holds some. -/
theorem pages_settled (cfg : Config) (es : List Event) (e : Engine)
    (hg : Transition.Guarded (step cfg) (fun e ev => e.returns cfg ev = true) {} es)
    (h : Transition.exec (step cfg) {} es = some e) : Settled e :=
  (Transition.exec_invariant (fun _ _ _ hi hg hs => Accounts.step hi hg hs) (accounts_init cfg) hg h).settled

section Runs

def eightPages : Config where
  cache := ⟨4,8,pos_four,pos_eight⟩
  sched := {}
  burst := 1
  eos := none
  tk := ⟨none⟩

def call (tok : Token) : Event := .exec tok false fun _ => .room

def refusedTwin : List Event :=
  [.addRequest { requestId := "a", inputIds := [1,2], maxTokens := 2 },.step,.check] ++
    List.replicate 4 (call 7) ++ [.finishBatch,.post false [] .room,.post false [] .room] ++
    [.reject "a" .room,.step,.check] ++
    List.replicate 5 (call 8) ++ [.finishBatch,.post false [] .gone,.post false [] .gone]

theorem pages_settled_twin :
    ∃ e, Transition.exec (step eightPages) {} refusedTwin = some e ∧ e.stores 0 = 1 ∧ Settled e := by
  have hrun : ((Transition.exec (step eightPages) {} refusedTwin).map fun e => e.stores 0) = some 1 ∧
      Transition.checks (step eightPages) (fun e ev => e.returns eightPages ev) {} refusedTwin = true := by
    decide +kernel
  obtain ⟨e,he,hv⟩ := Option.map_eq_some_iff.mp hrun.1
  exact ⟨e,he,hv,pages_settled eightPages refusedTwin e (.of_checks (fun _ _ h => h) hrun.2) he⟩

def served : List Event :=
  [.addRequest { requestId := "a", inputIds := [1,2], maxTokens := 1 },.step,.check] ++
    List.replicate 4 (call 7) ++ [.finishBatch,.post false [] .room,.post false [] .room]

theorem served_keeps_page :
    ∃ e, Transition.exec (step eightPages) {} served = some e ∧ e.sched.waiting = [] ∧
      e.sched.running = [] ∧ e.stores 0 = 1 ∧ e.radix.refs 0 = some 2 ∧ ¬ Settled e := by
  have hrun : ((Transition.exec (step eightPages) {} served).map fun e =>
      (e.sched.waiting,e.sched.running,e.stores 0,e.radix.refs 0)) = some ([],[],1,some 2) := by
    decide +kernel
  obtain ⟨e,he,hv⟩ := Option.map_eq_some_iff.mp hrun
  simp only [Prod.mk.injEq] at hv
  obtain ⟨hw,hr,hs,href⟩ := hv
  refine ⟨e,he,hw,hr,hs,href,fun hset => ?_⟩
  have := hset hw hr 0
  rw [hs,href] at this
  simp at this

end Runs

end Engine

end SglangLite.Hybrid
