import SglangLite.Kv.Tables
import SglangLite.Hybrid.Queues

set_option autoImplicit false

namespace SglangLite.Hybrid
open Kv Sched Text

/-- The snapshot and the pages of an entry are what its tokens leave. -/
structure V4PrefixEntry.Right (en : V4PrefixEntry) : Prop where
  row : en.row.Holds en.tokenIds
  pages : en.dualPoolTokens ≠ 0 → en.dualPoolTokens = en.tokenIds.length
  logits : en.lastLogits = true

structure DualPoolHandle.Keeps (h : DualPoolHandle) (ts : List Token) : Prop where
  table : h.swaBlocks ≠ []
  pos : h.nTokens ≠ 0
  le : h.nTokens ≤ ts.length
  kv : ∀ k, k < h.nTokens → h.kv k = ts[k]?

/-- What a sequence has still to restore or to stage. -/
structure V4Seq.Right (q : Sequence) (v : V4Seq) : Prop where
  pending : v.pendingRestore = true → ∃ en, v.entry = some en ∧ en.Right ∧
    q.cachedLen = en.tokenIds.length ∧ en.tokenIds <+: q.inputIds ∧
    ∀ h, v.handle = some h → h.Keeps q.inputIds ∧ h.nTokens = en.tokenIds.length
  stage : v.needStage = true → ∀ h, v.handle = some h → h.Keeps q.inputIds

def V4Seq.Quiet (cfg : Config) (v : V4Seq) : Prop :=
  v.needStage = true → cfg.paged = true → v.handle = none

theorem V4Seq.Right.congr {q q' : Sequence} {v : V4Seq} (h : v.Right q) (hin : q'.inputIds = q.inputIds)
    (hlen : v.pendingRestore = true → q'.cachedLen = q.cachedLen) : v.Right q' := by
  refine ⟨fun hp => ?_,?_⟩
  · rw [hlen hp,hin]
    exact h.pending hp
  · rw [hin]
    exact h.stage

theorem V4Seq.Right.released {q : Sequence} {v v' : V4Seq} (hr : Released v v') : v'.Right q := by
  refine ⟨fun hp => ?_,fun _ h hh => ?_⟩
  · rw [hr.pendingRestore] at hp
    cases hp
  · rw [hr.handle] at hh
    cases hh

theorem V4Seq.Quiet.released {cfg : Config} {v v' : V4Seq} (hr : Released v v') : v'.Quiet cfg :=
  fun _ _ => hr.handle

structure Steady (f : Sequence → Sequence) : Prop where
  requestId : ∀ q, (f q).requestId = q.requestId
  finished : ∀ q, (f q).finished = q.finished
  cancelled : ∀ q, (f q).cancelled = q.cancelled
  inputIds : ∀ q, (f q).inputIds = q.inputIds

section Insert

variable {V : Type} [Zero V] {x : V4PrefixEntry}

theorem mem_dropOldest {maxEntries : Nat} (c : RadixCache V) (es : List V4PrefixEntry)
    (hx : x ∈ (dropOldest maxEntries c es).2) : x ∈ es := by
  induction es generalizing c with
  | nil => exact hx
  | cons en es ih =>
    unfold dropOldest at hx
    split at hx
    · exact List.mem_cons_of_mem _ (ih _ hx)
    · exact hx

theorem mem_replaceEntry {c : RadixCache V} {new : V4PrefixEntry} {es : List V4PrefixEntry}
    {r : RadixCache V × List V4PrefixEntry} (hr : replaceEntry c new es = some r) (hx : x ∈ r.2) :
    x ∈ es ∨ x = new := by
  induction es generalizing r with
  | nil => simp [replaceEntry] at hr
  | cons old es ih =>
    unfold replaceEntry at hr
    split at hr
    · cases hr
      rcases List.mem_cons.mp hx with hx | hx
      · exact .inr hx
      · exact .inl (List.mem_cons_of_mem _ hx)
    · obtain ⟨r',hr',rfl⟩ := Option.map_eq_some_iff.mp hr
      rcases List.mem_cons.mp hx with hx | hx
      · exact .inl (by simp [hx])
      · exact (ih hr' hx).imp_left (List.mem_cons_of_mem _)

/-- What is stored after an `insert` was there before, or is the new entry with
the tables that were forked. -/
theorem mem_of_insert {maxEntries : Nat} {c : RadixCache V} {es : List V4PrefixEntry} {en : V4PrefixEntry}
    (hx : x ∈ (insert maxEntries c es en).2) : x ∈ es ∨
      x = { en with
        swaBlockIds := (forkTables c en.swaBlockIds en.compBlockIds).2.1
        compBlockIds := (forkTables c en.swaBlockIds en.compBlockIds).2.2 } := by
  unfold insert at hx
  split_ifs at hx
  · exact .inl hx
  · exact .inl hx
  · simp only at hx
    split at hx
    next r hr => exact mem_replaceEntry hr hx
    next =>
      rcases List.mem_append.mp (mem_dropOldest _ _ hx) with hx | hx
      · exact .inl hx
      · exact .inr (List.mem_singleton.mp hx)

end Insert

theorem allocateLoop_length {V : Type} [Zero V] {cfg : CacheConfig} {count n : Nat} {ids ids' : List BlockId}
    {c c' : RadixCache V} (h : RadixCache.allocateLoop cfg count n ids c = (c',some ids')) :
    ids'.length = ids.length+n := by
  induction n generalizing ids c with
  | zero =>
    obtain ⟨_,h⟩ := Prod.mk.inj h
    rw [Option.some.inj h,Nat.add_zero]
  | succ n ih =>
    have hnext : ∀ {b : BlockId} {c'' : RadixCache V},
        RadixCache.allocateLoop cfg count n (ids ++ [b]) c'' = (c',some ids') → ids'.length = ids.length+(n+1) := by
      intro b c'' h
      rw [ih h,List.length_append,List.length_singleton]
      omega
    rw [RadixCache.allocateLoop] at h
    split at h
    · exact hnext h
    · split_ifs at h
      · simp only at h
        split at h
        · split_ifs at h
          · cases h
          · exact hnext h
        · cases h
      · exact hnext h

theorem dualWrite_spec {cfg : CacheConfig} {c c' : PagePool} {row : Row} {n : Nat} {fails : Bool}
    {h : DualPoolHandle} (hw : dualWrite cfg c row n fails = (c',some h)) :
    n ≠ 0 ∧ h.swaBlocks ≠ [] ∧ h.nTokens = n ∧ h.kv = fun k => if k < n then row.kv k else none := by
  unfold dualWrite at hw
  by_cases hn : n = 0
  · rw [if_pos hn] at hw
    cases hw
  · rw [if_neg hn] at hw
    cases hc : c.allocateBlocks cfg (cfg.pages n) with
    | mk c₁ o =>
      rw [hc] at hw
      cases o with
      | none => cases hw
      | some ids =>
        simp only at hw
        split_ifs at hw
        · cases hw
        · obtain ⟨_,hh⟩ := Prod.mk.inj hw
          obtain rfl := Option.some.inj hh
          refine ⟨hn,fun hnil => ?_,rfl,rfl⟩
          obtain rfl : ids = [] := hnil
          have hlen := allocateLoop_length hc
          have := cfg.pages_le_iff.mp (Nat.le_of_eq (show cfg.pages n = 0 by simpa using hlen.symm))
          omega

namespace Engine

variable {cfg : Config} {e e' : Engine}

/-- Every row with a last user holds what that user has processed. -/
def Filled (e : Engine) : Prop :=
  ∀ b i n, e.last b = some (i,n) → i < e.sched.seqs.length ∧ n ≤ (e.seq i).tokens.length ∧
    (e.rows b).Holds ((e.seq i).tokens.take n)

def At (e : Engine) (pos : SeqId → Nat) (live : SeqId → Prop) : Prop :=
  ∀ b i n, e.last b = some (i,n) → live i → n = pos i

/-- A forward past position 0 finds in its row what its sequence has processed
up to there. -/
def Isolated (e : Engine) : Prop :=
  ∀ c ∈ e.calls, 0 < c.start → c.content.Holds (c.tokens.take c.start)

structure Sound (e : Engine) : Prop where
  kept : e.sched.Kept
  attached : e.v4.length = e.sched.seqs.length
  filled : e.Filled
  cache : ∀ en ∈ e.cache, en.Right
  v4 : ∀ i, (e.v4Seq i).Right (e.seq i)
  calls : e.Isolated

structure Tracks (cfg : Config) (e : Engine) (c : Ctx) (live : SeqId → Prop) : Prop where
  pos : e.At c.pos live
  len : ∀ i, (e.seq i).cachedLen = c.len i
  restored : ∀ i, c.restored i → (e.v4Seq i).pendingRestore = false
  staged : ∀ i, c.staged i → (e.v4Seq i).Quiet cfg
  logits : ∀ i, c.logits i → (e.seq i).lastLogits = true
  lt : ∀ i, live i → i < e.sched.seqs.length

theorem setRow_self (e : Engine) (slot : Nat) (row : Row) (use : Option (SeqId × Nat)) :
    (e.setRow slot row use).rows slot = row := Function.update_self ..

theorem setRow_ne (e : Engine) {slot b : Nat} (hb : b ≠ slot) (row : Row) (use : Option (SeqId × Nat)) :
    (e.setRow slot row use).rows b = e.rows b := Function.update_of_ne hb ..

theorem setRow_last {slot b : Nat} {row : Row} {use : Option (SeqId × Nat)} {u : SeqId × Nat}
    (h : (e.setRow slot row use).last b = some u) :
    b = slot ∧ use = some u ∨ b ≠ slot ∧ e.last b = some u ∧ use.map Prod.fst ≠ some u.1 := by
  simp only [setRow] at h
  split_ifs at h with hb
  · exact .inl ⟨hb,h⟩
  · obtain ⟨h₁,h₂⟩ := Option.filter_eq_some_iff.mp h
    exact .inr ⟨hb,h₁,of_decide_eq_true h₂⟩

theorem Filled.setRow (h : e.Filled) {slot : Nat} {row : Row} {use : Option (SeqId × Nat)}
    (huse : ∀ i n, use = some (i,n) → i < e.sched.seqs.length ∧ n ≤ (e.seq i).tokens.length ∧
      row.Holds ((e.seq i).tokens.take n)) : (e.setRow slot row use).Filled := by
  intro b i n hl
  rcases setRow_last hl with ⟨rfl,hu⟩ | ⟨hb,hl,_⟩
  · rw [setRow_self]
    exact huse i n hu
  · rw [setRow_ne e hb]
    exact h b i n hl

theorem At.setRow {pos pos' : SeqId → Nat} {live : SeqId → Prop} (h : e.At pos live) {slot : Nat}
    {row : Row} {use : Option (SeqId × Nat)} (huse : ∀ i n, use = some (i,n) → live i → n = pos' i)
    (hpos : ∀ i, use.map Prod.fst ≠ some i → live i → pos' i = pos i) :
    (e.setRow slot row use).At pos' live := by
  intro b i n hl hi
  rcases setRow_last hl with ⟨_,hu⟩ | ⟨_,hl,hne⟩
  · exact huse i n hu hi
  · rw [hpos i hne hi]
    exact h b i n hl hi

theorem Filled.congr (h : e.Filled) (hrows : e'.rows = e.rows)
    (hlast : ∀ b u, e'.last b = some u → e.last b = some u)
    (hlen : e.sched.seqs.length ≤ e'.sched.seqs.length)
    (hseq : ∀ b i n, e'.last b = some (i,n) → i < e.sched.seqs.length → n ≤ (e.seq i).tokens.length →
      n ≤ (e'.seq i).tokens.length ∧ (e'.seq i).tokens.take n = (e.seq i).tokens.take n) : e'.Filled := by
  intro b i n hl
  obtain ⟨h₁,h₂,h₃⟩ := h b i n (hlast b _ hl)
  obtain ⟨h₄,h₅⟩ := hseq b i n hl h₁ h₂
  refine ⟨Nat.lt_of_lt_of_le h₁ hlen,h₄,?_⟩
  rw [h₅,hrows]
  exact h₃

theorem Filled.ended (h : e.Filled) (hend : Ended e e') : e'.Filled := by
  intro b i n hl
  rcases hend.rows b with ⟨hr,hb⟩ | ⟨_,hb⟩
  · rw [hb] at hl
    rw [hr,(hend.data i).tokens,hend.length]
    exact h b i n hl
  · rw [hb] at hl
    cases hl

theorem At.ended {pos : SeqId → Nat} {live : SeqId → Prop} (h : e.At pos live) (hend : Ended e e') :
    e'.At pos live := by
  intro b i n hl hi
  rcases hend.rows b with ⟨_,hb⟩ | ⟨_,hb⟩
  · rw [hb] at hl
    exact h b i n hl hi
  · rw [hb] at hl
    cases hl

theorem Sound.ended (h : Sound e) (hend : Ended e e') : Sound e' where
  kept := hend.kept h.kept
  attached := hend.attached.trans (h.attached.trans hend.length.symm)
  filled := h.filled.ended hend
  cache := hend.cache ▸ h.cache
  v4 := fun i => by
    rcases hend.v4 i with heq | hr
    · rw [heq]
      exact (h.v4 i).congr (hend.data i).inputIds fun _ => (hend.data i).cachedLen
    · exact .released hr
  calls := by
    unfold Isolated
    rw [hend.calls]
    exact h.calls

theorem Tracks.ended {c : Ctx} {live : SeqId → Prop} (h : e.Tracks cfg c live) (hend : Ended e e') :
    e'.Tracks cfg c live where
  pos := h.pos.ended hend
  len := fun i => (hend.data i).cachedLen.trans (h.len i)
  restored := fun i hi => by
    rcases hend.v4 i with heq | hr
    · rw [heq]
      exact h.restored i hi
    · exact hr.pendingRestore
  staged := fun i hi => by
    rcases hend.v4 i with heq | hr
    · rw [heq]
      exact h.staged i hi
    · exact .released hr
  logits := fun i hi => (hend.data i).lastLogits.trans (h.logits i hi)
  lt := fun i hi => hend.length ▸ h.lt i hi

theorem Sound.modify (h : Sound e) (i : SeqId) {f : Sequence → Sequence} (hf : Steady f)
    (hout : (e.seq i).outputIds <+: (f (e.seq i)).outputIds)
    (hlen : (e.v4Seq i).pendingRestore = true → (f (e.seq i)).cachedLen = (e.seq i).cachedLen) :
    Sound (e.modify i f) where
  kept := h.kept.modify i hf.requestId hf.finished hf.cancelled
  attached := by
    rw [Engine.modify,Scheduler.length_modify]
    exact h.attached
  filled := by
    refine h.filled.congr rfl (fun _ _ hl => hl) (by rw [Engine.modify,Scheduler.length_modify]) fun b j n _ _ hn => ?_
    rw [seq_modify]
    split_ifs with hj
    · obtain ⟨ext,hext⟩ := hout
      have htok : (f (e.seq i)).tokens = (e.seq i).tokens ++ ext := by
        rw [Sequence.tokens,hf.inputIds,← hext,Sequence.tokens,List.append_assoc]
      rw [hj.1] at hn ⊢
      rw [htok,List.length_append,List.take_append_of_le_length hn]
      exact ⟨by omega,rfl⟩
    · exact ⟨hn,rfl⟩
  cache := h.cache
  v4 := fun j => by
    rw [show (e.modify i f).v4Seq j = e.v4Seq j from rfl,seq_modify]
    split_ifs with hj
    · rw [hj.1]
      exact (h.v4 i).congr (hf.inputIds _) hlen
    · exact h.v4 j
  calls := h.calls

theorem Tracks.modify {c : Ctx} {live : SeqId → Prop} (h : e.Tracks cfg c live) (i : SeqId)
    {f : Sequence → Sequence} {n : Nat} (hlen : (f (e.seq i)).cachedLen = (e.seq i).cachedLen+n)
    (hlog : (e.seq i).lastLogits = true → (f (e.seq i)).lastLogits = true) (hi : i < e.sched.seqs.length) :
    (e.modify i f).Tracks cfg { c with len := fun j => c.len j+if i = j then n else 0 } live where
  pos := h.pos
  len := fun j => by
    rw [seq_modify]
    by_cases hj : j = i
    · rw [if_pos ⟨hj,hi⟩,hlen,hj,h.len]
      simp
    · rw [if_neg fun hc => hj hc.1,h.len]
      simp [Ne.symm hj]
  restored := h.restored
  staged := h.staged
  logits := fun j hj => by
    rw [seq_modify]
    split_ifs with hji
    · rw [hji.1] at hj
      exact hlog (h.logits i hj)
    · exact h.logits j hj
  lt := fun j hj => by
    rw [Engine.modify,Scheduler.length_modify]
    exact h.lt j hj

/-- The output is cut: what the rows hold beyond it is given up. -/
theorem Sound.setOutput (h : Sound e) (i : SeqId) (out : List Token) : Sound (e.setOutput i out) where
  kept := h.kept.modify i (fun _ => rfl) (fun _ => rfl) (fun _ => rfl)
  attached := by
    show e.v4.length = (e.sched.modify i _).seqs.length
    rw [Scheduler.length_modify]
    exact h.attached
  filled := by
    refine h.filled.congr rfl (fun b u hl => (Option.filter_eq_some_iff.mp hl).1)
      (by rw [Engine.setOutput,Engine.modify,Scheduler.length_modify]) fun b j n hl hj hn => ?_
    have hseq : (e.setOutput i out).seq j = if j = i ∧ i < e.sched.seqs.length then
      { e.seq i with outputIds := out } else e.seq j := seq_modify e i j _
    rw [hseq]
    split_ifs with hji
    · have hkeep := of_decide_eq_true (Option.filter_eq_some_iff.mp hl).2
      rw [hji.1] at hkeep ⊢
      exact hkeep.resolve_left fun hne => hne rfl
    · exact ⟨hn,rfl⟩
  cache := h.cache
  v4 := fun j => by
    have hseq : (e.setOutput i out).seq j = if j = i ∧ i < e.sched.seqs.length then
      { e.seq i with outputIds := out } else e.seq j := seq_modify e i j _
    rw [show (e.setOutput i out).v4Seq j = e.v4Seq j from rfl,hseq]
    split_ifs with hj
    · rw [hj.1]
      exact (h.v4 i).congr rfl fun _ => rfl
    · exact h.v4 j
  calls := h.calls

theorem handle_of_restorePages {v : V4Seq} {hd : DualPoolHandle} (h : restorePages cfg v = some hd) :
    v.handle = some hd := by
  unfold restorePages at h
  split at h
  next hh =>
    split_ifs at h
    rw [hh,h]
  next => cases h

theorem v4Seq_attach_self {i : SeqId} (hi : i < e.v4.length) (f : V4Seq → V4Seq) :
    (e.attach i f).v4Seq i = f (e.v4Seq i) := by
  rw [v4Seq_attach,if_pos ⟨rfl,hi⟩]

theorem Sound.attach (h : Sound e) (i : SeqId) {f : V4Seq → V4Seq}
    (hf : (f (e.v4Seq i)).Right (e.seq i)) : Sound (e.attach i f) where
  kept := h.kept
  attached := by
    rw [Engine.attach,List.length_modify]
    exact h.attached
  filled := h.filled
  cache := h.cache
  v4 := fun j => by
    rw [v4Seq_attach,show (e.attach i f).seq j = e.seq j from rfl]
    split_ifs with hj
    · rw [hj.1]
      exact hf
    · exact h.v4 j
  calls := h.calls

theorem Tracks.attach {c : Ctx} {live : SeqId → Prop} (h : e.Tracks cfg c live) (i : SeqId)
    {f : V4Seq → V4Seq} (hr : c.restored i → (f (e.v4Seq i)).pendingRestore = false)
    (hs : c.staged i → (f (e.v4Seq i)).Quiet cfg) : (e.attach i f).Tracks cfg c live where
  pos := h.pos
  len := h.len
  restored := fun j hj => by
    rw [v4Seq_attach]
    split_ifs with hji
    · exact hr (hji.1 ▸ hj)
    · exact h.restored j hj
  staged := fun j hj => by
    rw [v4Seq_attach]
    split_ifs with hji
    · exact hs (hji.1 ▸ hj)
    · exact h.staged j hj
  logits := h.logits
  lt := h.lt

theorem Sound.setRow (h : Sound e) (slot : Nat) (row : Row) (use : Option (SeqId × Nat))
    (huse : ∀ i n, use = some (i,n) → i < e.sched.seqs.length ∧ n ≤ (e.seq i).tokens.length ∧
      row.Holds ((e.seq i).tokens.take n)) : Sound (e.setRow slot row use) :=
  ⟨h.kept,h.attached,h.filled.setRow huse,h.cache,h.v4,h.calls⟩

theorem Tracks.setRow {c : Ctx} {live : SeqId → Prop} (h : e.Tracks cfg c live) (slot : Nat) (row : Row)
    (use : Option (SeqId × Nat)) (huse : ∀ i n, use = some (i,n) → live i → n = c.pos i) :
    (e.setRow slot row use).Tracks cfg c live :=
  ⟨h.pos.setRow huse fun _ _ _ => rfl,h.len,h.restored,h.staged,h.logits,h.lt⟩

theorem Tracks.unstaged {c : Ctx} {live : SeqId → Prop} (h : e.Tracks cfg c live) (i : SeqId) :
    e.Tracks cfg { c with staged := fun j => j ≠ i ∧ c.staged j } live :=
  ⟨h.pos,h.len,h.restored,fun j hj => h.staged j hj.2,h.logits,h.lt⟩

theorem Tracks.nowRestored {c : Ctx} {live : SeqId → Prop} (h : e.Tracks cfg c live) {i : SeqId}
    (hi : (e.v4Seq i).pendingRestore = false) :
    e.Tracks cfg { c with restored := fun j => j = i ∨ c.restored j } live :=
  ⟨h.pos,h.len,fun j hj => hj.elim (fun he => he ▸ hi) (h.restored j),h.staged,h.logits,h.lt⟩

theorem Tracks.nowStaged {c : Ctx} {live : SeqId → Prop} (h : e.Tracks cfg c live) {i : SeqId}
    (hi : (e.v4Seq i).Quiet cfg) : e.Tracks cfg { c with staged := fun j => j = i ∨ c.staged j } live :=
  ⟨h.pos,h.len,h.restored,fun j hj => hj.elim (fun he => he ▸ hi) (h.staged j),h.logits,h.lt⟩

theorem Sound.putBack {c : Ctx} {live : SeqId → Prop} (h : Sound e) (ht : e.Tracks cfg c live) {i : SeqId}
    {slot : Nat} {en : V4PrefixEntry} {row : Row} {f : V4Seq → V4Seq} (hi : live i) (hpos : c.pos i = c.len i)
    (hlen : (e.seq i).cachedLen = en.tokenIds.length) (hpre : en.tokenIds <+: (e.seq i).inputIds)
    (hrow : row.Holds en.tokenIds) (hv : (f { e.v4Seq i with pendingRestore := false }).pendingRestore = false)
    (hright : (f { e.v4Seq i with pendingRestore := false }).Right (e.seq i)) :
    let e' := ((e.attach i fun q => { q with pendingRestore := false }).setRow slot row
      (some (i,en.tokenIds.length))).attach i f
    Sound e' ∧ e'.Tracks cfg (c.after (.restore i slot)) live := by
  intro e'
  have hlt := ht.lt i hi
  have h₁ : Sound (e.attach i fun q => { q with pendingRestore := false }) :=
    h.attach i ⟨by simp,(h.v4 i).stage⟩
  have ht₁ : (e.attach i fun q => { q with pendingRestore := false }).Tracks cfg
      { c with staged := fun j => j ≠ i ∧ c.staged j } live :=
    (ht.unstaged i).attach i (fun _ => rfl) fun hc => absurd rfl hc.1
  -- the entry is what the sequence has processed
  have htake : (e.seq i).tokens.take en.tokenIds.length = en.tokenIds := by
    rw [Sequence.tokens,List.take_append_of_le_length hpre.length_le]
    exact (List.prefix_iff_eq_take.mp hpre).symm
  have hle : en.tokenIds.length ≤ (e.seq i).tokens.length := by
    have := hpre.length_le
    rw [Sequence.tokens,List.length_append]
    omega
  have h₂ := h₁.setRow slot row (some (i,en.tokenIds.length)) fun j n hjn => by
    obtain ⟨rfl,rfl⟩ := Prod.mk.inj (Option.some.inj hjn)
    exact ⟨hlt,hle,htake.symm ▸ hrow⟩
  have ht₂ := ht₁.setRow slot row (some (i,en.tokenIds.length)) fun j n hjn _ => by
    obtain ⟨rfl,rfl⟩ := Prod.mk.inj (Option.some.inj hjn)
    show en.tokenIds.length = c.pos i
    rw [hpos,← ht.len,hlen]
  have hfv : f (((e.attach i fun q => { q with pendingRestore := false }).setRow slot row
      (some (i,en.tokenIds.length))).v4Seq i) = f { e.v4Seq i with pendingRestore := false } :=
    congrArg f (v4Seq_attach_self (h.attached ▸ hlt) fun q => { q with pendingRestore := false })
  refine ⟨h₂.attach i (hfv ▸ hright),?_⟩
  have ht₃ := ht₂.attach i (f := f) (fun _ => hfv ▸ hv) fun hc => absurd rfl hc.1
  refine ht₃.nowRestored (i := i) ?_
  rw [v4Seq_attach_self (by rw [h₂.attached]; exact hlt),hfv]
  exact hv

/-- The pages of a handle and the rest of the snapshot make up the row of the entry. -/
theorem holds_restored {q : Sequence} {en : V4PrefixEntry} {hd : DualPoolHandle} (row : Row) (hen : en.Right)
    (hk : hd.Keeps q.inputIds) (hn : hd.nTokens = en.tokenIds.length) (hpre : en.tokenIds <+: q.inputIds) :
    ({ kv := (row.withKv (if en.dualPoolTokens ≠ 0 then en.dualPoolTokens
        else if hd.nTokens ≠ 0 then hd.nTokens else q.cachedLen) hd.kv).kv
       state := en.row.state } : Row).Holds en.tokenIds := by
  refine ⟨fun k hkl => ?_,hen.row.state⟩
  have hN : k < (if en.dualPoolTokens ≠ 0 then en.dualPoolTokens
      else if hd.nTokens ≠ 0 then hd.nTokens else q.cachedLen) := by
    rw [if_pos hk.pos,hn]
    split_ifs with h0
    · rw [hen.pages h0]
      exact hkl
    · exact hkl
  simp only [Row.withKv]
  rw [if_pos hN,hk.kv k (hn ▸ hkl)]
  obtain ⟨rest,hrest⟩ := hpre
  rw [← hrest,List.getElem?_append_left hkl]

/-- A hit is restored, a row for a cold prompt cleared, and other rows are left alone. -/
theorem Sound.restore {c : Ctx} {live : SeqId → Prop} (h : Sound e) (ht : e.Tracks cfg c live) {i : SeqId}
    (slot : Nat) (hpos : c.pos i = c.len i) (hi : live i) :
    Sound (ensureRestored cfg e i slot) ∧
      (ensureRestored cfg e i slot).Tracks cfg (c.after (.restore i slot)) live := by
  have hlt := ht.lt i hi
  have hright := h.v4 i
  unfold ensureRestored
  simp only
  cases hp : (e.v4Seq i).pendingRestore with
  | true =>
    obtain ⟨en,hen,henr,hlen,hpre,hkeeps⟩ := hright.pending hp
    simp only [if_true,hen]
    cases hres : restorePages cfg (e.v4Seq i) with
    | none =>
      exact h.putBack ht hi hpos hlen hpre henr.row rfl ⟨by simp,hright.stage⟩
    | some hd =>
      obtain ⟨hk,hn⟩ := hkeeps hd (handle_of_restorePages hres)
      exact h.putBack ht hi hpos hlen hpre (holds_restored (e.rows slot) henr hk hn hpre) rfl
        ⟨by simp,fun _ h' hh' => (hkeeps h' hh').1⟩
  | false =>
    simp only [Bool.false_eq_true,if_false]
    split_ifs with hcold
    · have h₁ := h.setRow slot {} (some (i,0)) fun j n hjn => by
        obtain ⟨rfl,rfl⟩ := Prod.mk.inj (Option.some.inj hjn)
        exact ⟨hlt,Nat.zero_le _,fun k hk => absurd hk (by simp),by simp⟩
      have ht₁ := (ht.unstaged i).setRow slot {} (some (i,0)) fun j n hjn _ => by
        obtain ⟨rfl,rfl⟩ := Prod.mk.inj (Option.some.inj hjn)
        exact (hpos.trans ((ht.len i).symm.trans hcold.1)).symm
      refine ⟨h₁.attach i ⟨hright.pending,hright.stage⟩,?_⟩
      have ht₂ := ht₁.attach i (f := fun q => { q with slotPrepared := true }) (fun _ => hp)
        fun hc => absurd rfl hc.1
      refine ht₂.nowRestored (i := i) ?_
      rw [v4Seq_attach_self (by rw [h₁.attached]; exact hlt)]
      exact hp
    · exact ⟨h,(ht.unstaged i).nowRestored hp⟩

theorem Sound.stagePages {c : Ctx} {live : SeqId → Prop} (h : Sound e) (ht : e.Tracks cfg c live) (i : SeqId)
    (slot : Nat) (hi : i < e.sched.seqs.length) : Sound (stagePages cfg e i slot) ∧
      (stagePages cfg e i slot).Tracks cfg c live ∧ ((stagePages cfg e i slot).v4Seq i).Quiet cfg := by
  have hv4 : i < e.v4.length := h.attached ▸ hi
  have hright := h.v4 i
  unfold Engine.stagePages
  simp only
  cases hn : (e.v4Seq i).needStage with
  | false =>
    simp only [Bool.false_eq_true,if_false]
    refine ⟨h,ht,fun hs => ?_⟩
    rw [hn] at hs
    cases hs
  | true =>
    simp only [if_true]
    cases hres : restorePages cfg (e.v4Seq i) with
    | none =>
      refine ⟨h,ht,fun _ hp => ?_⟩
      cases hh : (e.v4Seq i).handle with
      | none => rfl
      | some hd =>
        have := (hright.stage hn hd hh).table
        simp [restorePages,hh,hp,this] at hres
    | some hd =>
      have hk := hright.stage hn hd (handle_of_restorePages hres)
      simp only [if_pos hk.pos,if_neg hk.pos]
      have huse : ∀ j n, (e.last slot).filter (fun u => decide (u.1 = i)) = some (j,n) →
          e.last slot = some (j,n) ∧ j = i := fun j n hu =>
        ⟨(Option.filter_eq_some_iff.mp hu).1,of_decide_eq_true (Option.filter_eq_some_iff.mp hu).2⟩
      have h₁ := h.setRow slot ((e.rows slot).withKv hd.nTokens hd.kv)
        ((e.last slot).filter fun u => decide (u.1 = i)) fun j n hu => by
          obtain ⟨hl,rfl⟩ := huse j n hu
          obtain ⟨h₁,h₂,h₃⟩ := h.filled slot j n hl
          refine ⟨h₁,h₂,h₃.withKv fun k hkn hkl => ?_⟩
          rw [hk.kv k hkn,List.getElem?_take_of_lt (by rw [List.length_take] at hkl; omega),Sequence.tokens,
            List.getElem?_append_left (Nat.lt_of_lt_of_le hkn hk.le)]
      have ht₁ := ht.setRow slot ((e.rows slot).withKv hd.nTokens hd.kv)
        ((e.last slot).filter fun u => decide (u.1 = i)) fun j n hu hj =>
          ht.pos slot j n (huse j n hu).1 hj
      refine ⟨h₁.attach i ⟨hright.pending,by simp⟩,?_,?_⟩
      · refine ht₁.attach i (fun hc => ht.restored i hc) fun _ hs => ?_
        cases hs
      · rw [v4Seq_attach_self (by rw [h₁.attached]; exact hi)]
        intro hs
        cases hs

theorem Sound.stage {c : Ctx} {live : SeqId → Prop} (h : Sound e) (ht : e.Tracks cfg c live) (i : SeqId)
    (slot : Nat) (always : Bool) (hi : i < e.sched.seqs.length) :
    let e' := if always || (e.v4Seq i).pagePrimary then Engine.stagePages cfg e i slot else e
    Sound e' ∧ e'.Tracks cfg (c.after (.stage i slot always)) live := by
  obtain ⟨h₁,ht₁,hq⟩ := h.stagePages ht i slot hi
  cases always with
  | true => exact ⟨h₁,ht₁.nowStaged hq⟩
  | false =>
    cases (e.v4Seq i).pagePrimary with
    | true => exact ⟨h₁,ht₁⟩
    | false => exact ⟨h,ht⟩

/-- The row of a member of a forward is the one its sequence used last, and the
forward stays within the tokens of the sequence. -/
def InPlace (e : Engine) (start : Nat) (m : (SeqId × List Token) × Nat) : Prop :=
  start+m.1.2.length ≤ (e.seq m.1.1).tokens.length ∧
    ((e.last m.2).map Prod.fst = some m.1.1 ∨ start = 0 ∧ (e.rows m.2).state = [])

theorem forward_frame (start : Nat) (ok : Bool) (b : Nat) (ins : List (SeqId × List Token)) (e : Engine) :
    (forward start ok b ins e).sched = e.sched ∧ (forward start ok b ins e).v4 = e.v4 := by
  induction ins generalizing b e with
  | nil => exact ⟨rfl,rfl⟩
  | cons m ins ih => exact ih ..

theorem InPlace.holds {start b : Nat} {i : SeqId} {ts : List Token} {pos : SeqId → Nat} {live : SeqId → Prop}
    (hp : e.InPlace start ((i,ts),b)) (h : e.Filled) (hat : e.At pos live) (hi : live i) (hs : start = pos i) :
    (e.rows b).Holds ((e.seq i).tokens.take start) := by
  rcases hp.2 with hl | ⟨h0,hst⟩
  · obtain ⟨⟨j,n⟩,hl,hj⟩ := Option.map_eq_some_iff.mp hl
    obtain rfl : j = i := hj
    obtain ⟨_,_,hr⟩ := h b j n hl
    rwa [hat b j n hl hi,← hs] at hr
  · rw [h0,List.take_zero]
    exact ⟨fun k hk => absurd hk (by simp),hst⟩

/-- A member of a forward reads its own row, and leaves its own tokens there. -/
theorem Sound.feed {pos : SeqId → Nat} {live : SeqId → Prop} {start b : Nat} {i : SeqId} {ts : List Token}
    (ok : Bool) (h : Sound e) (hat : e.At pos live) (hlt : i < e.sched.seqs.length) (hi : live i)
    (hs : start = pos i) (hown : Own (e.seq i).tokens start ts) (hp : e.InPlace start ((i,ts),b)) :
    let e' := { e.setRow b ((e.rows b).feed start ts) (if ok then some (i,start+ts.length) else none) with
      calls := e.calls ++ [⟨i,b,start,e.rows b,(e.seq i).tokens⟩] }
    Sound e' ∧ e'.At (if ok then fun j => pos j+(if i = j then ts.length else 0) else pos) live := by
  have hrow := hp.holds h.filled hat hi hs
  -- what the row holds afterwards
  have hfed : ((e.rows b).feed start ts).Holds ((e.seq i).tokens.take (start+ts.length)) := by
    have hlen : ((e.seq i).tokens.take start).length = start := by
      have : start+ts.length ≤ (e.seq i).tokens.length := hp.1
      rw [List.length_take]
      omega
    have : ((e.rows b).feed ((e.seq i).tokens.take start).length ts).Holds
      ((e.seq i).tokens.take start ++ ts) := hrow.feed
    rw [hlen] at this
    rwa [List.take_add,← List.prefix_iff_eq_take.mp (hown hp.1)]
  have huse : ∀ j n, (if ok then some (i,start+ts.length) else none) = some (j,n) →
      ok = true ∧ i = j ∧ start+ts.length = n := by
    intro j n hu
    cases ok with
    | false => cases hu
    | true =>
      obtain ⟨h₁,h₂⟩ := Prod.mk.inj (Option.some.inj hu)
      exact ⟨rfl,h₁,h₂⟩
  have h₁ := h.setRow b ((e.rows b).feed start ts)
    (if ok then some (i,start+ts.length) else none) fun j n hu => by
      obtain ⟨_,rfl,rfl⟩ := huse j n hu
      exact ⟨hlt,hp.1,hfed⟩
  have hat₁ : (e.setRow b ((e.rows b).feed start ts) (if ok then some (i,start+ts.length) else none)).At
      (if ok then fun j => pos j+(if i = j then ts.length else 0) else pos) live := by
    refine hat.setRow (fun j n hu _ => ?_) fun j hj _ => ?_
    · obtain ⟨rfl,rfl,rfl⟩ := huse j n hu
      rw [if_pos rfl,if_pos rfl,hs]
    · cases ok with
      | false => rfl
      | true =>
        have hij : i ≠ j := fun he => hj (by simp [he])
        simp [hij]
  refine ⟨⟨h₁.kept,h₁.attached,h₁.filled,h₁.cache,h₁.v4,fun c hc hpos => ?_⟩,hat₁⟩
  rcases List.mem_append.mp hc with hc | hc
  · exact h.calls c hc hpos
  · obtain rfl := List.mem_singleton.mp hc
    exact hrow

theorem Sound.forward {pos : SeqId → Nat} {live : SeqId → Prop} {start : Nat}
    {ins : List (SeqId × List Token)} (ok : Bool) (b : Nat) (h : Sound e) (hat : e.At pos live)
    (hlt : ∀ i, live i → i < e.sched.seqs.length) (hnd : (ins.map Prod.fst).Nodup)
    (hins : ∀ m ∈ ins, live m.1 ∧ start = pos m.1 ∧ Own (e.seq m.1).tokens start m.2)
    (hpl : ∀ m ∈ ins.zipIdx b, e.InPlace start m) :
    Sound (Engine.forward start ok b ins e) ∧ (Engine.forward start ok b ins e).At
      (if ok then fun i => pos i+(Op.forward start ins).feeds i else pos) live := by
  induction ins generalizing b e pos with
  | nil =>
    refine ⟨h,?_⟩
    cases ok <;> exact hat
  | cons m ins ih =>
    obtain ⟨i,ts⟩ := m
    obtain ⟨hn,hnd⟩ := List.nodup_cons.mp hnd
    obtain ⟨hi,hs,hown⟩ := hins (i,ts) (by simp)
    obtain ⟨h₁,hat₁⟩ := h.feed ok hat (hlt i hi) hi hs hown (hpl ((i,ts),b) (by simp))
    have hne : ∀ m ∈ ins, m.1 ≠ i := fun m hm he => hn (List.mem_map.mpr ⟨m,hm,he⟩)
    have hins₁ : ∀ m ∈ ins, live m.1 ∧
        start = (if ok then fun j => pos j+(if i = j then ts.length else 0) else pos) m.1 ∧
        Own (e.seq m.1).tokens start m.2 := fun m hm => by
      obtain ⟨h₁,h₂,h₃⟩ := hins m (List.mem_cons_of_mem _ hm)
      refine ⟨h₁,h₂.trans ?_,h₃⟩
      cases ok with
      | false => rfl
      | true => simp [Ne.symm (hne m hm)]
    -- the rows of the other members are not touched
    have hpl₁ : ∀ m ∈ ins.zipIdx (b+1),
        (e.setRow b ((e.rows b).feed start ts) (if ok then some (i,start+ts.length) else none)).InPlace start m := by
      intro m hm
      obtain ⟨hle,hlast⟩ := hpl m (by rw [List.zipIdx_cons]; exact List.mem_cons_of_mem _ hm)
      have hb : m.2 ≠ b := by
        have := List.le_snd_of_mem_zipIdx hm
        omega
      have hmi : m.1.1 ≠ i := hne m.1 (List.fst_mem_of_mem_zipIdx hm)
      refine ⟨hle,?_⟩
      rcases hlast with hl | ⟨h0,hst⟩
      · refine .inl ?_
        obtain ⟨⟨j,n⟩,hl,hj⟩ := Option.map_eq_some_iff.mp hl
        obtain rfl : j = m.1.1 := hj
        cases ok <;> simp [Engine.setRow,hb,hl,Ne.symm hmi]
      · exact .inr ⟨h0,by simpa [Engine.setRow,hb] using hst⟩
    have hrest := ih (b+1) h₁ hat₁ hlt hnd hins₁ hpl₁
    refine ⟨hrest.1,?_⟩
    have hsum : (fun j => pos j+(Op.forward start ((i,ts) :: ins)).feeds j) =
        fun j => pos j+(if i = j then ts.length else 0)+(Op.forward start ins).feeds j := by
      funext j
      by_cases hij : i = j
      · simp [Op.feeds,hij]
        omega
      · simp [Op.feeds,hij]
    rw [hsum]
    have hat₂ := hrest.2
    cases ok <;> exact hat₂

theorem Sound.stored (h : Sound e) {c : PagePool} {es : List V4PrefixEntry} (hes : ∀ en ∈ es, en.Right) :
    Sound { e with radix := c, cache := es } :=
  ⟨h.kept,h.attached,h.filled,hes,h.v4,h.calls⟩

theorem Tracks.stored {c : Ctx} {live : SeqId → Prop} (h : e.Tracks cfg c live) (p : PagePool)
    (es : List V4PrefixEntry) : ({ e with radix := p, cache := es } : Engine).Tracks cfg c live :=
  ⟨h.pos,h.len,h.restored,h.staged,h.logits,h.lt⟩

theorem Sound.save {c : Ctx} {live : SeqId → Prop} (h : Sound e) (ht : e.Tracks cfg c live) {i : SeqId}
    {slot : Nat} (fails : Bool) (hi : live i) (hres : c.restored i) (hlog : c.logits i) (hpos : c.pos i = c.len i)
    (hpl : (e.seq i).cachedLen = (e.seq i).inputIds.length → (e.last slot).map Prod.fst = some i) :
    Sound (savePrefix cfg e i slot fails) ∧
      (savePrefix cfg e i slot fails).Tracks cfg (c.after (.save i slot)) live := by
  have hlt := ht.lt i hi
  have hright := h.v4 i
  unfold savePrefix
  simp only
  by_cases hlen : (e.seq i).cachedLen = (e.seq i).inputIds.length
  · rw [if_neg (not_not.mpr hlen)]
    have hrow : (e.rows slot).Holds (e.seq i).inputIds := by
      obtain ⟨⟨j,n⟩,hl,hj⟩ := Option.map_eq_some_iff.mp (hpl hlen)
      obtain rfl : j = i := hj
      obtain ⟨_,_,hr⟩ := h.filled slot j n hl
      rwa [ht.pos slot j n hl hi,hpos,← ht.len,hlen,Sequence.tokens,List.take_left] at hr
    have hlast := ht.logits i hlog
    have hput : ∀ (p : PagePool) (en : V4PrefixEntry), en.Right →
        ∀ x ∈ (Hybrid.insert cfg.maxEntries p e.cache en).2, x.Right := by
      intro p en hen x hx
      rcases mem_of_insert hx with hx | rfl
      · exact h.cache x hx
      · exact ⟨hen.row,hen.pages,hen.logits⟩
    cases hw : if cfg.dual then dualWrite cfg.cache e.radix (e.rows slot) (e.seq i).cachedLen fails
        else (e.radix,none) with
    | mk c₁ written =>
      simp only
      cases written with
      | none =>
        exact ⟨h.stored (hput c₁ _ ⟨hrow,fun h0 => absurd rfl h0,hlast⟩),(ht.unstaged i).stored _ _⟩
      | some hd =>
        split_ifs at hw with hdual
        · obtain ⟨hn,htab,hnt,hkv⟩ := dualWrite_spec hw
          have hread : ∀ k, k < (e.seq i).inputIds.length → hd.kv k = (e.seq i).inputIds[k]? := fun k hk => by
            rw [hkv]
            simp only
            rw [if_pos (hlen ▸ hk)]
            exact hrow.kv k hk
          have hkeeps : hd.Keeps (e.seq i).inputIds :=
            ⟨htab,hnt ▸ hn,Nat.le_of_eq (hnt.trans hlen),fun k hk => hread k (by rwa [hnt,hlen] at hk)⟩
          have hen : (if cfg.paged then { e.rows slot with kv := hd.kv } else e.rows slot).Holds
              (e.seq i).inputIds := by
            split_ifs
            · exact ⟨hread,hrow.state⟩
            · exact hrow
          have h₁ := fun p => h.stored (c := p)
            (hput c₁
              { tokenIds := (e.seq i).inputIds
                lastLogits := (e.seq i).lastLogits
                row := if cfg.paged then { e.rows slot with kv := hd.kv } else e.rows slot
                swaBlockIds := hd.swaBlocks
                compBlockIds := hd.compBlocks
                dualPoolTokens := hd.nTokens
                dualPrimary := cfg.paged } ⟨hen,fun _ => hnt.trans hlen,hlast⟩)
          refine ⟨(h₁ _).attach i ⟨fun hp => ?_,fun _ h' hh => ?_⟩,?_⟩
          · exact absurd ((ht.restored i hres).symm.trans hp) (by simp)
          · obtain rfl := Option.some.inj hh
            exact hkeeps
          · exact ((ht.unstaged i).stored _ _).attach i (fun _ => ht.restored i hres) fun hc => absurd rfl hc.1
        · cases hw
  · rw [if_pos hlen]
    exact ⟨h,ht.unstaged i⟩

theorem Sound.dualAppend {c : Ctx} {live : SeqId → Prop} (h : Sound e) (ht : e.Tracks cfg c live) {i : SeqId}
    (slot : Nat) (fails : Bool) (hres : c.restored i) (hst : c.staged i) :
    Sound (dualAppend cfg e i slot fails) ∧ (dualAppend cfg e i slot fails).Tracks cfg c live := by
  have hright := h.v4 i
  have hnp := ht.restored i hres
  unfold Engine.dualAppend
  cases hh : (e.v4Seq i).handle with
  | none => exact ⟨h,ht⟩
  | some hd =>
    simp only
    by_cases hc : cfg.append = true ∧ cfg.dual = true ∧ cfg.paged = true ∧ (e.seq i).cachedLen ≠ 0
    · rw [if_pos hc]
      have hquiet : (e.v4Seq i).needStage = false := by
        cases hn : (e.v4Seq i).needStage with
        | false => rfl
        | true =>
          have := ht.staged i hst hn hc.2.2.1
          rw [hh] at this
          cases this
      have h₁ : Sound { e with radix := (ensureCapacity cfg.cache e.radix hd (e.seq i).cachedLen).1 } :=
        ⟨h.kept,h.attached,h.filled,h.cache,h.v4,h.calls⟩
      have ht₁ : ({ e with radix := (ensureCapacity cfg.cache e.radix hd (e.seq i).cachedLen).1 } : Engine).Tracks
          cfg c live := ⟨ht.pos,ht.len,ht.restored,ht.staged,ht.logits,ht.lt⟩
      refine ⟨h₁.attach i ⟨fun hp => ?_,fun hs => ?_⟩,ht₁.attach i (fun _ => hnp) fun _ hs => ?_⟩
      · exact absurd (hnp.symm.trans hp) (by simp)
      · exact absurd (hquiet.symm.trans hs) (by simp)
      · exact absurd (hquiet.symm.trans hs) (by simp)
    · rw [if_neg hc]
      exact ⟨h,ht⟩

theorem Tracks.nowLogits {c : Ctx} {live : SeqId → Prop} (h : e.Tracks cfg c live) {i : SeqId}
    (hi : (e.seq i).lastLogits = true) : e.Tracks cfg { c with logits := fun j => j = i ∨ c.logits j } live :=
  ⟨h.pos,h.len,h.restored,h.staged,fun j hj => hj.elim (fun he => he ▸ hi) (h.logits j),h.lt⟩

def OpInPlace (e : Engine) : Op → Prop
  | .forward start ins => ∀ m ∈ ins.zipIdx, e.InPlace start m
  | .save i slot => (e.seq i).cachedLen = (e.seq i).inputIds.length → (e.last slot).map Prod.fst = some i
  | _ => True

theorem Sound.write {c : Ctx} {live : SeqId → Prop} (h : Sound e) (ht : e.Tracks cfg c live) {i : SeqId} (n : Nat)
    {f : Sequence → Sequence} (hi : live i) (hr : c.restored i) (hf : Steady f)
    (hout : (e.seq i).outputIds <+: (f (e.seq i)).outputIds)
    (hlen : (f (e.seq i)).cachedLen = (e.seq i).cachedLen+n)
    (hlog : (e.seq i).lastLogits = true → (f (e.seq i)).lastLogits = true) : Sound (e.modify i f) ∧
      (e.modify i f).Tracks cfg { c with len := fun j => c.len j+if i = j then n else 0 } live := by
  refine ⟨h.modify i hf hout fun hp => ?_,ht.modify i hlen hlog (ht.lt i hi)⟩
  exact absurd ((ht.restored i hr).symm.trans hp) (by simp)

theorem Sound.rewrite {c : Ctx} {live : SeqId → Prop} (h : Sound e) (ht : e.Tracks cfg c live) {i : SeqId}
    {f : Sequence → Sequence} (hi : live i) (hr : c.restored i) (hf : Steady f)
    (hout : (e.seq i).outputIds <+: (f (e.seq i)).outputIds) (hlen : (f (e.seq i)).cachedLen = (e.seq i).cachedLen)
    (hlog : (e.seq i).lastLogits = true → (f (e.seq i)).lastLogits = true) :
    Sound (e.modify i f) ∧ (e.modify i f).Tracks cfg c live := by
  have hzero : (fun j => c.len j+(if i = j then 0 else 0)) = c.len := by
    funext j
    simp
  have hw := h.write ht 0 hi hr hf hout hlen hlog
  rwa [hzero] at hw

theorem Tracks.forward {c : Ctx} {live : SeqId → Prop} {start : Nat} {ins : List (SeqId × List Token)} {ok : Bool}
    (ht : e.Tracks cfg c live) (hat : (Engine.forward start ok 0 ins e).At
      (fun i => c.pos i+(Op.forward start ins).feeds i) live) :
    (Engine.forward start ok 0 ins e).Tracks cfg (c.after (.forward start ins)) live := by
  obtain ⟨hs,hv⟩ := forward_frame start ok 0 ins e
  have hseq : (Engine.forward start ok 0 ins e).seq = e.seq := by
    funext i
    rw [seq,hs]
    rfl
  have hatt : (Engine.forward start ok 0 ins e).v4Seq = e.v4Seq := by
    funext i
    rw [v4Seq,hv]
    rfl
  refine ⟨hat,fun i => ?_,fun i hi => ?_,fun i hi => ?_,fun i hi => ?_,fun i hi => ?_⟩
  · rw [hseq]
    exact ht.len i
  · rw [hatt]
    exact ht.restored i hi
  · rw [hatt]
    exact ht.staged i hi
  · rw [hseq]
    exact ht.logits i hi
  · rw [hs]
    exact ht.lt i hi

/-- A call that finds its rows in place keeps them so. One that raises has not
moved on in any row. -/
theorem Sound.execOp {c : Ctx} {live : SeqId → Prop} {op : Op} {rest todo : List Op} {tok : Token}
    {raises ok : Bool} (h : Sound e) (ht : e.Tracks cfg c live) (hf : op.Fits (fun i => (e.seq i).tokens) c)
    (hpl : e.OpInPlace op) (hlive : ∀ i ∈ op.seqs, live i)
    (hph : ∀ i, op = .sample i → (e.seq i).cachedLen = (e.seq i).inputIds.length)
    (hx : execOp cfg e rest tok raises op = (e',ok,todo)) :
    Sound e' ∧ (ok = true → e'.Tracks cfg (c.after op) live) ∧ (ok = false → e'.At c.pos live) := by
  cases op with
  | restore i slot =>
    simp only [Engine.execOp,Prod.mk.injEq] at hx
    obtain ⟨rfl,rfl,_⟩ := hx
    obtain ⟨h₁,ht₁⟩ := h.restore ht slot hf (hlive i (by simp [Op.seqs]))
    exact ⟨h₁,fun _ => ht₁,by simp⟩
  | stage i slot always =>
    simp only [Engine.execOp,Prod.mk.injEq] at hx
    obtain ⟨rfl,rfl,_⟩ := hx
    obtain ⟨h₁,ht₁⟩ := h.stage ht i slot always (ht.lt i (hlive i (by simp [Op.seqs])))
    exact ⟨h₁,fun _ => ht₁,by simp⟩
  | forward start ins =>
    simp only [Engine.execOp,Prod.mk.injEq] at hx
    obtain ⟨rfl,rfl,_⟩ := hx
    have hins : ∀ m ∈ ins, live m.1 ∧ start = c.pos m.1 ∧ Own (e.seq m.1).tokens start m.2 := fun m hm =>
      ⟨hlive m.1 (List.mem_map_of_mem hm),(hf.2 m hm).2⟩
    obtain ⟨h₁,hat⟩ := h.forward (!raises) 0 ht.pos ht.lt hf.1 hins hpl
    refine ⟨h₁,fun ho => ?_,fun ho => ?_⟩
    · rw [ho,if_pos rfl] at hat
      rw [ho]
      exact ht.forward hat
    · rw [ho] at hat ⊢
      exact hat
  | sample i =>
    simp only [Engine.execOp] at hx
    split_ifs at hx
    · simp only [Prod.mk.injEq] at hx
      obtain ⟨rfl,_⟩ := hx
      obtain ⟨h₁,ht₁⟩ := h.rewrite ht (f := fun q => { q with cachedLen := q.inputIds.length })
        (hlive i (by simp [Op.seqs])) hf ⟨fun _ => rfl,fun _ => rfl,fun _ => rfl,fun _ => rfl⟩
        (List.prefix_refl _) (hph i rfl).symm id
      exact ⟨h₁,fun _ => ht₁,fun _ => ht₁.pos⟩
    · simp only [Prod.mk.injEq] at hx
      obtain ⟨rfl,rfl,_⟩ := hx
      exact ⟨h,by simp,fun _ => ht.pos⟩
  | prefilled i n =>
    simp only [Engine.execOp,Prod.mk.injEq] at hx
    obtain ⟨rfl,_⟩ := hx
    have hi := hlive i (by simp [Op.seqs])
    obtain ⟨h₁,ht₁⟩ := h.write ht n (f := fun q =>
        { q with cachedLen := q.cachedLen+n, lastLogits := true, kvState := false }) hi hf
      ⟨fun _ => rfl,fun _ => rfl,fun _ => rfl,fun _ => rfl⟩ (List.prefix_refl _) rfl fun _ => rfl
    refine ⟨h₁,fun _ => ht₁.nowLogits (i := i) ?_,fun _ => ht₁.pos⟩
    rw [seq_modify,if_pos ⟨rfl,ht.lt i hi⟩]
  | decoded i =>
    simp only [Engine.execOp,Prod.mk.injEq] at hx
    obtain ⟨rfl,_⟩ := hx
    obtain ⟨h₁,ht₁⟩ := h.write ht 1 (f := fun q => { q with cachedLen := q.cachedLen+1, kvState := false })
      (hlive i (by simp [Op.seqs])) hf ⟨fun _ => rfl,fun _ => rfl,fun _ => rfl,fun _ => rfl⟩
      (List.prefix_refl _) rfl id
    exact ⟨h₁,fun _ => ht₁,fun _ => ht₁.pos⟩
  | save i slot =>
    simp only [Engine.execOp,Prod.mk.injEq] at hx
    obtain ⟨rfl,rfl,_⟩ := hx
    obtain ⟨h₁,ht₁⟩ := h.save ht raises (hlive i (by simp [Op.seqs])) hf.1 hf.2.1 hf.2.2 hpl
    exact ⟨h₁,fun _ => ht₁,by simp⟩
  | append i slot =>
    simp only [Engine.execOp,Prod.mk.injEq] at hx
    obtain ⟨rfl,rfl,_⟩ := hx
    obtain ⟨h₁,ht₁⟩ := h.dualAppend ht slot raises hf.1 hf.2
    exact ⟨h₁,fun _ => ht₁,by simp⟩
  | burst i n =>
    simp only [Engine.execOp,Prod.mk.injEq] at hx
    obtain ⟨rfl,rfl,_⟩ := hx
    exact ⟨h,fun _ => ht,by simp⟩
  | greedy i n =>
    cases n with
    | zero =>
      simp only [Engine.execOp,Prod.mk.injEq] at hx
      obtain ⟨rfl,rfl,_⟩ := hx
      exact ⟨h,fun _ => ht,by simp⟩
    | succ n =>
      simp only [Engine.execOp,Prod.mk.injEq] at hx
      obtain ⟨rfl,rfl,_⟩ := hx
      exact ⟨h,fun _ => ht,by simp⟩
  | single i n =>
    cases n with
    | zero =>
      simp only [Engine.execOp,Prod.mk.injEq] at hx
      obtain ⟨rfl,rfl,_⟩ := hx
      exact ⟨h,fun _ => ht,by simp⟩
    | succ n =>
      simp only [Engine.execOp] at hx
      split_ifs at hx
      all_goals
        simp only [Prod.mk.injEq] at hx
        obtain ⟨rfl,rfl,_⟩ := hx
        exact ⟨h,fun _ => ht,by simp⟩
  | advance i =>
    simp only [Engine.execOp,Prod.mk.injEq] at hx
    obtain ⟨rfl,rfl,_⟩ := hx
    obtain ⟨h₁,ht₁⟩ := h.write ht 1 (f := fun q => { q with cachedLen := q.cachedLen+1, kvState := false })
      (hlive i (by simp [Op.seqs])) hf ⟨fun _ => rfl,fun _ => rfl,fun _ => rfl,fun _ => rfl⟩
      (List.prefix_refl _) rfl id
    exact ⟨h₁,fun _ => ht₁,by simp⟩
  | output i =>
    simp only [Engine.execOp,Prod.mk.injEq] at hx
    obtain ⟨rfl,_⟩ := hx
    obtain ⟨h₁,ht₁⟩ := h.rewrite ht (f := fun q =>
        { q with outputIds := if raises then q.outputIds else q.outputIds ++ [tok] })
      (hlive i (by simp [Op.seqs])) hf ⟨fun _ => rfl,fun _ => rfl,fun _ => rfl,fun _ => rfl⟩
      (by cases raises <;> simp) rfl id
    exact ⟨h₁,fun _ => ht₁,fun _ => ht₁.pos⟩

end Engine

end SglangLite.Hybrid
