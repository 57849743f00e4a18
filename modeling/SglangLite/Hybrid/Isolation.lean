import SglangLite.Text.Post
import SglangLite.Hybrid.Pages
import SglangLite.Hybrid.Turns

set_option autoImplicit false

namespace SglangLite.Hybrid
open Kv Sched Text

theorem forkForHit_keeps {c c' : PagePool} {en : V4PrefixEntry} {h : DualPoolHandle} {ts : List Token}
    (hf : forkForHit c en = (c',some h)) (hen : en.Right) (hpos : 0 < en.tokenIds.length)
    (hpre : en.tokenIds <+: ts) : h.Keeps ts ∧ h.nTokens = en.tokenIds.length := by
  unfold forkForHit at hf
  by_cases hswa : en.swaBlockIds = []
  · rw [if_pos hswa] at hf
    cases hf
  · rw [if_neg hswa] at hf
    have htab : (forkTables c en.swaBlockIds en.compBlockIds).2.1 = en.swaBlockIds := by
      unfold forkTables
      split_ifs <;> rfl
    generalize forkTables c en.swaBlockIds en.compBlockIds = tables at hf htab
    obtain ⟨c₁,swa,comp⟩ := tables
    obtain ⟨_,hh⟩ := Prod.mk.inj hf
    obtain rfl := Option.some.inj hh
    have hn : (if en.dualPoolTokens = 0 then en.tokenIds.length else en.dualPoolTokens) =
        en.tokenIds.length := by
      split_ifs with h0
      · rfl
      · exact hen.pages h0
    refine ⟨⟨fun hnil => hswa (htab.symm.trans hnil),?_,Nat.le_trans (Nat.le_of_eq hn) hpre.length_le,
      fun k hk => ?_⟩,hn⟩
    · simp only [hn]
      omega
    · simp only [hn] at hk ⊢
      obtain ⟨rest,hrest⟩ := hpre
      rw [hen.row.kv k hk,← hrest,List.getElem?_append_left hk]

namespace Engine

variable {cfg : Config} {e e' : Engine}

section Admission

structure Joined (e e' : Engine) : Prop where
  lined : Lined e'.sched []
  last : e'.last = e.last
  pc : e'.pc = e.pc
  old : ∀ i, i < e.sched.seqs.length → e'.seq i = e.seq i

theorem Sound.attachDualPool (h : Sound e) {i : SeqId} {q : Sequence} {en : V4PrefixEntry}
    (hq : e.seq i = q) (hen : en.Right) (hpos : 0 < en.tokenIds.length)
    (hlen : q.cachedLen = en.tokenIds.length) (hpre : en.tokenIds <+: q.inputIds)
    (hv : e.v4Seq i = { entry := some en, pendingRestore := true }) : Sound (e.attachDualPool i en) ∧
      (e.attachDualPool i en).sched = e.sched ∧ (e.attachDualPool i en).last = e.last ∧
      (e.attachDualPool i en).pc = e.pc := by
  unfold Engine.attachDualPool
  cases hf : forkForHit e.radix en with
  | mk c o =>
    cases o with
    | none => exact ⟨h,rfl,rfl,rfl⟩
    | some hd =>
      obtain ⟨hk,hn⟩ := forkForHit_keeps hf hen hpos hpre
      have h₁ : Sound { e with radix := c } := ⟨h.kept,h.attached,h.filled,h.cache,h.v4,h.calls⟩
      refine ⟨h₁.attach i ?_,rfl,rfl,rfl⟩
      rw [show ({ e with radix := c } : Engine).v4Seq i = _ from hv,
        show ({ e with radix := c } : Engine).seq i = q from hq]
      refine ⟨fun _ => ⟨en,rfl,hen,hlen,hpre,fun h' hh => ?_⟩,by simp⟩
      obtain rfl := Option.some.inj hh
      exact ⟨hk,hn⟩

def joining (e : Engine) (s' : Scheduler) (p : PagePool) : Engine :=
  { e with sched := s', radix := p, v4 := e.v4 ++ [{}] }

theorem v4Seq_joining (s' : Scheduler) (p : PagePool) (i : SeqId) :
    (e.joining s' p).v4Seq i = e.v4Seq i := by
  simp only [v4Seq,joining,List.getD_eq_getElem?_getD]
  rcases Nat.lt_trichotomy i e.v4.length with hlt | heq | hgt
  · rw [List.getElem?_append_left hlt]
  · rw [heq,List.getElem?_concat_length,List.getElem?_eq_none (Nat.le_refl _)]
    rfl
  · rw [List.getElem?_eq_none (by simp; omega),List.getElem?_eq_none (Nat.le_of_lt hgt)]

theorem Sound.v4Seq_new (h : Sound e) : e.v4Seq e.sched.seqs.length = {} := by
  rw [v4Seq,List.getD_eq_getElem?_getD,List.getElem?_eq_none (Nat.le_of_eq h.attached)]
  rfl

theorem Sound.joining {q : Sequence} {s' : Scheduler} (h : Sound e) (ha : Scheduler.Admits e.sched q s')
    (hkept : s'.Kept) (p : PagePool) : Sound (e.joining s' p) := by
  have hlen : s'.seqs.length = e.sched.seqs.length+1 := by
    rw [ha.seqs,List.length_append,List.length_singleton]
  have hold : ∀ i, i ≠ e.sched.seqs.length → (e.joining s' p).seq i = e.seq i := fun i hi => ha.seq_old hi
  refine ⟨hkept,?_,?_,h.cache,fun i => ?_,h.calls⟩
  · simp [Engine.joining,h.attached,hlen]
  · refine h.filled.congr rfl (fun _ _ hl => hl) (hlen ▸ Nat.le_succ _) fun b i n _ hi hn => ?_
    rw [hold i (Nat.ne_of_lt hi)]
    exact ⟨hn,rfl⟩
  · rw [v4Seq_joining]
    by_cases hi : i = e.sched.seqs.length
    · rw [hi,h.v4Seq_new]
      exact ⟨by simp,by simp⟩
    · rw [hold i hi]
      exact h.v4 i

/-- A new sequence: its hit, if it has one, is still to be restored. -/
theorem Sound.addRequest {r : Request} (h : Sound e) (hl : Lined e.sched [])
    (hr : e.addRequest cfg r = some e') : Sound e' ∧ Joined e e' := by
  unfold Engine.addRequest at hr
  split_ifs at hr with hbad
  simp only at hr
  generalize hhit : matchEntry e.cache r.inputIds = hit at hr
  obtain ⟨s',hs,rfl⟩ := Option.map_eq_some_iff.mp hr
  obtain ⟨q,hs,hin,hout,hflags,hnone,hsome⟩ : ∃ q, e.sched.addRequest cfg.sched q = some s' ∧
      q.inputIds = r.inputIds ∧ q.outputIds = [] ∧ (q.finished = false ∧ q.cancelled = false) ∧
      (hit = none → q.cachedLen = 0) ∧
      ∀ en, hit = some en → q.cachedLen = en.tokenIds.length ∧ q.lastLogits = en.lastLogits :=
    ⟨_,hs,rfl,rfl,⟨rfl,rfl⟩,by rintro rfl; rfl,by rintro en rfl; exact ⟨rfl,rfl⟩⟩
  have ha := Scheduler.admits_addRequest hs
  have hspec : ∀ en, hit = some en → en ∈ e.cache ∧ en.tokenIds <+: q.inputIds ∧ 0 < en.tokenIds.length := by
    rintro en rfl
    obtain ⟨hm,htake,hpos⟩ := matchEntry_spec hhit
    exact ⟨hm,hin ▸ List.prefix_iff_eq_take.mpr htake.symm,hpos⟩
  have hfresh : Fresh q := by
    cases hit with
    | none =>
      refine ⟨hout,hnone rfl ▸ Nat.zero_le _,fun hlen => ?_⟩
      rw [hnone rfl,hin] at hlen
      exact absurd (List.eq_nil_of_length_eq_zero hlen.symm) fun hn => hbad (.inl hn)
    | some en =>
      obtain ⟨hm,hpre,_⟩ := hspec en rfl
      obtain ⟨hlen,hlog⟩ := hsome en rfl
      exact ⟨hout,hlen ▸ hpre.length_le,fun _ => hlog.trans (h.cache en hm).logits⟩
  have hold : ∀ i, i < e.sched.seqs.length → s'.seq i = e.seq i := fun i hi =>
    ha.seq_old (Nat.ne_of_lt hi)
  have hkept : s'.Kept := by
    have hk := h.kept.add hflags.1 hflags.2
    unfold Scheduler.addRequest at hs
    split_ifs at hs
    exact Option.some.inj hs ▸ hk
  generalize (e.radix.matchPrefix cfg.cache r.inputIds).1 = p
  have h₁ := h.joining ha hkept p
  have hjoined : ∀ {e' : Engine}, e'.sched = s' → e'.last = e.last → e'.pc = e.pc → Joined e e' :=
    fun hs hlast hpc => ⟨hs ▸ hl.joined h.kept ha hfresh,hlast,hpc,fun i hi => by
      rw [Engine.seq,hs]
      exact hold i hi⟩
  cases hit with
  | none => exact ⟨h₁,hjoined rfl rfl rfl⟩
  | some en =>
    obtain ⟨hm,hpre,hpos⟩ := hspec en rfl
    have hen := h.cache en hm
    have hlen := (hsome en rfl).1
    have hi : e.sched.seqs.length < (e.v4 ++ [({} : V4Seq)]).length := by simp [h.attached]
    -- the hit is recorded, then its pages are taken over
    have h₂ := h₁.attach e.sched.seqs.length (f := fun v => { v with entry := some en, pendingRestore := true }) (by
      rw [v4Seq_joining,h.v4Seq_new,show (e.joining s' p).seq e.sched.seqs.length = q from ha.seq_new]
      exact ⟨fun _ => ⟨en,rfl,hen,hlen,hpre,by simp⟩,by simp⟩)
    have h₃ := h₂.attachDualPool ha.seq_new hen hpos hlen hpre (by rw [v4Seq_attach_self hi,v4Seq_joining,h.v4Seq_new])
    exact ⟨h₃.1,hjoined h₃.2.1 h₃.2.2.1 h₃.2.2.2⟩

end Admission

section Posting

variable {i : SeqId} {ids : List SeqId}

structure Posted (q : Sequence) (tok : Option Token) (pre : Bool) : Prop where
  token : q.finished = false → tok ≠ none ∧ Processed q
  fresh : pre = true → q.outputIds = []

theorem Posted.data {q q' : Sequence} {tok : Option Token} {pre : Bool} (h : Posted q tok pre)
    (hd : SameData q q') (hf : q'.finished = false → q.finished = false) : Posted q' tok pre :=
  ⟨fun hl => ⟨(h.token (hf hl)).1,hd.processed (h.token (hf hl)).2⟩,fun hp => hd.outputIds.trans (h.fresh hp)⟩

def Others (i : SeqId) (e e' : Engine) : Prop :=
  ∀ j, j ≠ i → SameData (e.seq j) (e'.seq j) ∧ ((e'.seq j).finished = false → (e.seq j).finished = false)

theorem Ended.others (h : Ended e e') (i : SeqId) : Others i e e' := fun j _ => ⟨h.data j,h.live⟩

theorem Others.trans {e'' : Engine} (h : Others i e e') (h' : Others i e' e'') : Others i e e'' :=
  fun j hj => ⟨(h j hj).1.trans (h' j hj).1,fun hf => (h j hj).2 ((h' j hj).2 hf)⟩

theorem Others.of_eq (h : ∀ j, j ≠ i → e'.seq j = e.seq j) : Others i e e' := fun j hj => by
  rw [h j hj]
  exact ⟨.refl _,id⟩

theorem mark_finished (e : Engine) (i : SeqId) (reason : FinishReason) :
    ((e.mark i reason).seq i).finished = true := by
  have hm : (e.mark i reason).seq i = _ := Scheduler.seq_markFinished e.sched i i reason
  rw [hm]
  split_ifs with hlt
  · rfl
  · rw [Scheduler.seq_of_ge (Nat.le_of_not_lt fun hc => hlt ⟨rfl,hc⟩)]
    rfl

theorem setOutput_seq (e : Engine) (i j : SeqId) (out : List Token) : (e.setOutput i out).seq j =
    if j = i ∧ i < e.sched.seqs.length then { e.seq i with outputIds := out } else e.seq j :=
  seq_modify e i j fun q => { q with outputIds := out }

theorem Even.setOutput (h : e.Even) (i : SeqId) (out : List Token) : (e.setOutput i out).Even := by
  refine h.congr (fun b u hl => (Option.filter_eq_some_iff.mp hl).1) fun j hj => ?_
  rw [setOutput_seq] at hj ⊢
  split_ifs at hj ⊢ with hji
  · rw [hji.1]
    exact ⟨hj,rfl⟩
  · exact ⟨hj,rfl⟩

structure Member (i : SeqId) (ids : List SeqId) (e e' : Engine) : Prop where
  sound : Sound e'
  even : e'.Even
  lined : Lined e'.sched (i :: ids)
  other : ∀ j, j ≠ i → e'.seq j = e.seq j

theorem member_modify {f : Sequence → Sequence} (hs : Sound e) (he : e.Even) (hl : Lined e.sched (i :: ids))
    (hf : Steady f) (hout : (e.seq i).outputIds <+: (f (e.seq i)).outputIds)
    (hlen : (f (e.seq i)).cachedLen = (e.seq i).cachedLen) :
    Member i ids e (e.modify i f) ∧ (e.modify i f).seq i = f (e.seq i) := by
  have hi : i < e.sched.seqs.length := hl.lt i (by simp)
  have hself : (e.modify i f).seq i = f (e.seq i) := by rw [seq_modify,if_pos ⟨rfl,hi⟩]
  have hother : ∀ j, j ≠ i → (e.modify i f).seq j = e.seq j := fun j hj => by
    rw [seq_modify,if_neg fun hc => hj hc.1]
  refine ⟨⟨hs.modify i hf hout fun _ => hlen,he.congr (fun _ _ hb => hb) fun j hj => ?_,
    hl.members (Scheduler.length_modify ..) rfl rfl fun j hj => hother j fun hc => hj (by simp [hc]),hother⟩,hself⟩
  by_cases hji : j = i
  · rw [hji,hself,hf.finished] at hj
    rw [hji,hself]
    exact ⟨hj,hlen⟩
  · rw [hother j hji] at hj ⊢
    exact ⟨hj,rfl⟩

theorem applyPost_spec {p : Post} (d : Delta) (hs : Sound e) (he : e.Even) (hl : Lined e.sched (i :: ids))
    (ht : Turned (e.seq i)) (hp : p.reason = none → p.outputIds = (e.seq i).outputIds) :
    Sound (e.applyPost i p d) ∧ (e.applyPost i p d).Even ∧ Lined (e.applyPost i p d).sched ids ∧
      Others i e (e.applyPost i p d) := by
  have hi : i < e.sched.seqs.length := hl.lt i (by simp)
  have h₁ := hs.setOutput i p.outputIds
  have he₁ := he.setOutput i p.outputIds
  have hother : ∀ j, j ≠ i → (e.setOutput i p.outputIds).seq j = e.seq j := fun j hj => by
    rw [setOutput_seq,if_neg fun hc => hj hc.1]
  have hl₁ : Lined (e.setOutput i p.outputIds).sched (i :: ids) :=
    hl.members (Scheduler.length_modify ..) rfl rfl fun j hj => hother j fun hc => hj (by simp [hc])
  have hend : ∃ e₂, Ended (e.setOutput i p.outputIds) e₂ ∧ e.applyPost i p d = e₂ ∧
      ((e₂.seq i).finished = false → Turned (e₂.seq i)) := by
    unfold Engine.applyPost
    simp only
    cases hr : p.reason with
    | none =>
      have hemit := Ended.emit (e.setOutput i p.outputIds) d (e.seq i).requestId p.finished
      refine ⟨_,hemit,rfl,fun _ => (hemit.data i).turned ?_⟩
      rw [setOutput_seq,if_pos ⟨rfl,hi⟩,hp hr]
      exact ht
    | some reason =>
      have hmark := Ended.mark (e.setOutput i p.outputIds) i reason
      have hemit := Ended.emit ((e.setOutput i p.outputIds).mark i reason) d (e.seq i).requestId p.finished
      refine ⟨_,hmark.trans hemit,rfl,fun hf => ?_⟩
      rw [hemit.finished i (mark_finished _ i reason)] at hf
      cases hf
  obtain ⟨e₂,hend,heq,hturn⟩ := hend
  rw [heq]
  have h₂ := h₁.ended hend
  exact ⟨h₂,he₁.ended hend,(hl₁.ended hend).first h₂.kept hturn,(Others.of_eq hother).trans (hend.others i)⟩

theorem postOne_spec {tok : Option Token} {pre : Bool} (cancelled : Bool) (prev : Text) (d : Delta)
    (hs : Sound e) (he : e.Even) (hl : Lined e.sched (i :: ids)) (hp : Posted (e.seq i) tok pre) :
    Sound (postOne cfg e i tok pre cancelled prev d) ∧ (postOne cfg e i tok pre cancelled prev d).Even ∧
      Lined (postOne cfg e i tok pre cancelled prev d).sched ids ∧
      Others i e (postOne cfg e i tok pre cancelled prev d) := by
  have hsame : (e.seq i).finished = true → Sound e ∧ e.Even ∧ Lined e.sched ids ∧ Others i e e := fun hf =>
    ⟨hs,he,hl.first hs.kept fun hc => absurd (hf.symm.trans hc) (by simp),.of_eq fun _ _ => rfl⟩
  unfold Engine.postOne
  cases tok with
  | none =>
    refine hsame ?_
    cases hf : (e.seq i).finished with
    | true => rfl
    | false => exact absurd rfl (hp.token hf).1
  | some t =>
    simp only
    cases hf : (e.seq i).finished with
    | true =>
      rw [if_pos rfl]
      exact hsame hf
    | false =>
      rw [if_neg (by simp)]
      cases cancelled with
      | true =>
        rw [if_pos rfl]
        have hmark := Ended.mark e i .cancelled
        have hend := hmark.trans (Ended.emit _ d (e.seq i).requestId true)
        have h₁ := hs.ended hend
        refine ⟨h₁,he.ended hend,(hl.ended hend).first h₁.kept fun hc => ?_,hend.others i⟩
        have := (Ended.emit (e.mark i .cancelled) d (e.seq i).requestId true).finished i (mark_finished e i _)
        exact absurd (this.symm.trans hc) (by simp)
      | false =>
        rw [if_neg (by simp)]
        obtain ⟨_,hproc⟩ := hp.token hf
        obtain ⟨e₁,he₁,⟨h₁,heven,hlined,hother⟩,hproc₁⟩ : ∃ e₁, (if pre then
            e.modify i fun q => { q with cachedLen := q.inputIds.length, kvState := false } else e) = e₁ ∧
            Member i ids e e₁ ∧ Processed (e₁.seq i) := by
          refine ⟨_,rfl,?_⟩
          cases pre with
          | false => exact ⟨⟨hs,he,hl,fun _ _ => rfl⟩,hproc⟩
          | true =>
            -- the prefill has already brought `cached_len` there
            have hlen := hproc.1 (hp.fresh rfl)
            obtain ⟨hm,hself⟩ := member_modify (f := fun q =>
              { q with cachedLen := q.inputIds.length, kvState := false }) hs he hl
              ⟨fun _ => rfl,fun _ => rfl,fun _ => rfl,fun _ => rfl⟩ (List.prefix_refl _) hlen.symm
            refine ⟨hm,?_⟩
            rw [if_pos rfl,hself]
            exact ⟨fun _ => rfl,hlen ▸ hproc.2⟩
        rw [he₁]
        obtain ⟨⟨h₂,heven₂,hlined₂,hother₂⟩,hself⟩ := member_modify (f := fun q =>
          { q with outputIds := q.outputIds ++ [t] }) h₁ heven hlined
          ⟨fun _ => rfl,fun _ => rfl,fun _ => rfl,fun _ => rfl⟩ (List.prefix_append _ _) rfl
        obtain ⟨h₃,heven₃,hlined₃,hother₃⟩ := applyPost_spec d h₂ heven₂ hlined₂
          (hself ▸ hproc₁.append t) fun hr => postToken_output hr
        refine ⟨h₃,heven₃,hlined₃,Others.trans (.of_eq fun j hj => ?_) hother₃⟩
        rw [hother₂ j hj,hother j hj]

end Posting

section Phases

structure Working (cfg : Config) (e : Engine) (batch : List (SeqId × Bool)) (ids : List SeqId) (c : Ctx)
    (todo : List Op) (results : SeqId → Option Token) : Prop where
  calls : InBatch cfg e ids c todo
  members : ∀ i ∈ ids, i ∈ batch.map Prod.fst
  result : ∀ i pre, (i,pre) ∈ batch → (e.seq i).finished = false →
    i ∈ resultsOf todo ∨ results i ≠ none ∧ Processed (e.seq i)
  fresh : ∀ i, (i,true) ∈ batch → (e.seq i).outputIds = []

def Placed (cfg : Config) (e : Engine) : Prop :=
  match e.pc with
  | .idle => Lined e.sched [] ∧ e.Even
  | .stepped batch => Lined e.sched (batch.map Prod.fst) ∧ e.Even ∧
      ∀ i pre, (i,pre) ∈ batch → EntersAs (e.seq i) pre
  | .inBatch batch todo results => Lined e.sched (batch.map Prod.fst) ∧
      ∃ ids c, Working cfg e batch ids c todo results
  | .posting todo => Lined e.sched (todo.map Prod.fst) ∧ e.Even ∧
      ∀ i tok pre, (i,tok,pre) ∈ todo → Posted (e.seq i) tok pre
  | .bursting i before todo _ => Lined e.sched [i] ∧ 0 < before ∧
      ∃ c ys out loop, todo = ys ++ lastCall i out ++ loop ∧ InBurst cfg e i c ys out loop

theorem Placed.ended (h : Placed cfg e) (hend : Ended e e') (hpc : e'.pc = e.pc) : Placed cfg e' := by
  unfold Placed at h ⊢
  rw [hpc]
  cases hp : e.pc with
  | idle =>
    rw [hp] at h
    exact ⟨h.1.ended hend,h.2.ended hend⟩
  | stepped batch =>
    rw [hp] at h
    obtain ⟨hl,he,hb⟩ := h
    exact ⟨hl.ended hend,he.ended hend,fun i pre hi => (hend.data i).entersAs (hb i pre hi)⟩
  | inBatch batch todo results =>
    rw [hp] at h
    obtain ⟨hl,ids,c,hw⟩ := h
    refine ⟨hl.ended hend,ids,c,hw.calls.ended hend,hw.members,fun i pre hi hf => ?_,fun i hi => ?_⟩
    · exact (hw.result i pre hi (hend.live hf)).imp_right fun hr => ⟨hr.1,(hend.data i).processed hr.2⟩
    · exact (hend.data i).outputIds.trans (hw.fresh i hi)
  | posting todo =>
    rw [hp] at h
    obtain ⟨hl,he,hpost⟩ := h
    exact ⟨hl.ended hend,he.ended hend,fun i tok pre hi => (hpost i tok pre hi).data (hend.data i) hend.live⟩
  | bursting i before todo toks =>
    rw [hp] at h
    obtain ⟨hl,hpos,c,ys,out,loop,hshape,hb⟩ := h
    exact ⟨hl.ended hend,hpos,c,ys,out,loop,hshape,hb.ended hend⟩

theorem working_check {batch : List (SeqId × Bool)} (hl : Lined e.sched (batch.map Prod.fst))
    (he : e.Even) (hb : ∀ i pre, (i,pre) ∈ batch → EntersAs (e.seq i) pre) :
    ∃ ids c, Working cfg { e with pc := .inBatch batch (runBatch e.sched batch) fun _ => none } batch ids c
      (runBatch e.sched batch) fun _ => none := by
  have hpart := part_runBatch (s := e.sched) hl.nodup fun i pre hi _ => hb i pre hi
  have hperm := resultsOf_runBatch e.sched batch
  have hsub : ((batch.filter fun b => ¬ (e.sched.seq b.1).finished).map Prod.fst).Sublist (batch.map Prod.fst) :=
    List.filter_sublist.map Prod.fst
  have hlive : ∀ i ∈ (batch.filter fun b => ¬ (e.sched.seq b.1).finished).map Prod.fst,
      (e.seq i).finished = false := by
    intro i hi
    obtain ⟨b,hb,rfl⟩ := List.mem_map.mp hi
    exact Bool.eq_false_of_not_eq_true (of_decide_eq_true (List.mem_filter.mp hb).2)
  refine ⟨_,⟨fun i => (e.seq i).cachedLen,fun i => (e.seq i).cachedLen,fun _ => False,fun _ => False,
    fun _ => False⟩,⟨⟨fun b i n hbn hi => ?_,fun _ => rfl,by simp,by simp,by simp,fun i hi => ?_⟩,
    hpart.fits _ fun _ _ => ⟨rfl,rfl⟩,hpart.seqs,fun i => by rw [hpart.even],
    hperm.nodup_iff.mpr (hsub.nodup hl.nodup),hpart.phase⟩,fun i hi => hsub.subset hi,fun i pre hi hf => ?_,
    fun i hi => ?_⟩
  · exact he b i n hbn (hi.elim (hlive i) id)
  · exact Scheduler.lt_of_unfinished (hi.elim (hlive i) id)
  · refine .inl (hperm.mem_iff.mpr (List.mem_map.mpr ⟨(i,pre),List.mem_filter.mpr ⟨hi,?_⟩,rfl⟩))
    have hf : (e.sched.seq i).finished = false := hf
    simp [hf]
  · exact (fresh_of_prefill (hb i true hi)).1

section Calls

variable {op : Op} {rest todo : List Op} {tok : Token} {raises ok : Bool} {batch : List (SeqId × Bool)}
  {ids : List SeqId} {c : Ctx} {results : SeqId → Option Token}

/-- The members of the batch stay members while their calls are made. -/
theorem Working.lined (hl : Lined e.sched (batch.map Prod.fst))
    (hw : Working cfg e batch ids c (op :: rest) results)
    (hx : execOp cfg e rest tok raises op = (e',ok,todo)) : Lined e'.sched (batch.map Prod.fst) := by
  obtain ⟨ht,_,_⟩ := execOp_plan (hw.calls.phase op (by simp)).1 hx
  refine hl.members ht.length ht.waiting ht.running fun j hj => ht.other j fun hr => hj (hw.members j ?_)
  exact hw.calls.seqs op (by simp) j (Op.result_mem hr)

theorem Working.call (hs : Sound e) (hl : Lined e.sched (batch.map Prod.fst))
    (hw : Working cfg e batch ids c (op :: rest) results) (hpl : e.OpInPlace op)
    (hx : execOp cfg e rest tok raises op = (e',true,todo)) : Sound e' ∧
      Working cfg e' batch ids (c.after op) todo (match op.result with
        | some i => Function.update results i (some tok)
        | none => results) := by
  obtain ⟨hb,hph⟩ := hw.calls.phase op (by simp)
  obtain ⟨ht,hout,hrest⟩ := execOp_plan hb hx
  obtain ⟨h₁,h₂,_⟩ := hw.calls.call hs hpl hx
  refine ⟨h₁,hrest ▸ h₂ rfl,hw.members,fun i pre hi hf => ?_,fun i hi => (hout i).trans (hw.fresh i hi)⟩
  have hf₀ : (e.seq i).finished = false := ht.finished i ▸ hf
  by_cases hr : op.result = some i
  · refine .inr ⟨by simp [hr],processed_of_result hr ?_ (hph i hr) hx⟩
    exact hl.lt i (List.mem_map_of_mem hi)
  · have hres : (match op.result with
        | some i => Function.update results i (some tok)
        | none => results) i = results i := by
      cases hop : op.result with
      | none => rfl
      | some j => exact Function.update_of_ne (fun he => hr (hop.trans (congrArg some he.symm))) _ _
    rw [hres,ht.other i hr,hrest]
    rcases hw.result i pre hi hf₀ with hm | hdone
    · rw [resultsOf_cons] at hm
      refine .inl ((List.mem_append.mp hm).resolve_left fun hc => hr ?_)
      exact Option.mem_toList.mp hc
    · exact .inr hdone

theorem Working.abort (ds : RequestId → Delta) (hs : Sound e) (hl : Lined e.sched (batch.map Prod.fst))
    (hw : Working cfg e batch ids c (op :: rest) results) (hpl : e.OpInPlace op)
    (hx : execOp cfg e rest tok raises op = (e',false,todo)) :
    Sound (abortBatch ds e' batch) ∧ Placed cfg (abortBatch ds e' batch) := by
  obtain ⟨ht,_,_⟩ := execOp_plan (hw.calls.phase op (by simp)).1 hx
  obtain ⟨h₁,_,h₂⟩ := hw.calls.call hs hpl hx
  obtain ⟨hend,hfin⟩ := Ended.abortBatch ds e' batch
  have h₃ := h₁.ended hend
  refine ⟨h₃,?_⟩
  unfold Placed
  rw [pc_abortBatch]
  refine ⟨((hw.lined hl hx).ended hend).settle (List.nil_sublist _) fun i hi hr _ => ?_,fun b i n hb hi => ?_⟩
  · have := (h₃.kept.queued i).mp (List.mem_append_right _ hr)
    exact absurd ((hfin i hi).symm.trans this) (by simp)
  · -- the live sequences are outside the batch
    have hout : i ∉ ids := fun hm => by
      have := hfin i (hw.members i hm)
      exact absurd (this.symm.trans hi) (by simp)
    have hf₀ : (e.seq i).finished = false := ht.finished i ▸ hend.live hi
    have hn := At.ended (h₂ rfl) hend b i n hb (.inr hf₀)
    rw [hn,hw.calls.rest hout]
    show _ = ((abortBatch ds e' batch).seq i).cachedLen
    rw [(hend.data i).cachedLen,ht.other i fun hr => hout (hw.calls.seqs op (by simp) i (Op.result_mem hr))]

theorem Working.leave (hs : Sound e) (hl : Lined e.sched (batch.map Prod.fst))
    (hw : Working cfg e batch ids c [] results) :
    Sound (leaveBatch cfg e batch results) ∧ Placed cfg (leaveBatch cfg e batch results) := by
  have heven := hw.calls.finish
  have hdone : ∀ i pre, (i,pre) ∈ batch → (e.seq i).finished = false →
      results i ≠ none ∧ Processed (e.seq i) := fun i pre hi hf =>
    (hw.result i pre hi hf).resolve_left (by simp [resultsOf])
  have hposts : Sound { e with pc := .posting (batch.map fun b => (b.1,results b.1,b.2)) } ∧
      Placed cfg { e with pc := .posting (batch.map fun b => (b.1,results b.1,b.2)) } := by
    refine ⟨hs.ended (.goto _ _),?_,heven,fun i tok pre hi => ?_⟩
    · rwa [List.map_map]
    · obtain ⟨⟨j,p⟩,hb,heq⟩ := List.mem_map.mp hi
      simp only [Prod.mk.injEq] at heq
      obtain ⟨rfl,rfl,rfl⟩ := heq
      refine ⟨fun hf => hdone j p hb hf,fun hp => hw.fresh j ?_⟩
      subst hp
      exact hb
  unfold leaveBatch
  simp only
  split
  next i =>
    split
    next first hfirst =>
      by_cases hburst : 1 < cfg.burst ∧ ¬ (e.seq i).finished
      · rw [if_pos hburst]
        have hf : (e.seq i).finished = false := by simpa using hburst.2
        obtain ⟨_,hproc⟩ := hdone i false (by simp) hf
        have hlined : Lined e.sched [i] := hl
        obtain ⟨hm,hself⟩ := member_modify (f := fun q =>
          { q with outputIds := q.outputIds ++ [first] }) hs heven hlined
          ⟨fun _ => rfl,fun _ => rfl,fun _ => rfl,fun _ => rfl⟩ (List.prefix_append _ _) rfl
        have hturned : Turned ((e.modify i fun q => { q with outputIds := q.outputIds ++ [first] }).seq i) := by
          rw [hself]
          exact hproc.append first
        have hlive : ∀ j, (e.modify i fun q => { q with outputIds := q.outputIds ++ [first] }).Live [i] j →
            e.Live ids j := by
          rintro j (hj | hj)
          · exact .inr (List.mem_singleton.mp hj ▸ hf)
          · exact .inr (seq_modify_field Sequence.finished (f := fun q =>
              { q with outputIds := q.outputIds ++ [first] }) (fun _ => rfl) i j ▸ hj)
        have htracks := (hw.calls.tracks.keep i (f := fun q => { q with outputIds := q.outputIds ++ [first] })
          (fun _ => rfl) fun _ => rfl).mono hlive
        have hround : ∀ l, Loop i (c.restored i) l → InBurst cfg (e.modify i fun q =>
            { q with outputIds := q.outputIds ++ [first] }) i c [] false l := fun l hloop =>
          ⟨htracks,trivial,trivial,by simp,fun j => hw.calls.even j,by simp,hloop,hturned.1,hturned.2,
            Nat.zero_le _⟩
        have hloop : ∀ n, Loop i (c.restored i) (if 0 < n then [.burst i n] else []) := fun n => by
          split_ifs
          · exact .burst n
          · exact .done
        exact ⟨hm.sound.ended (.goto _ _),hm.lined,Nat.succ_pos _,c,[],false,_,rfl,
          (hround _ (hloop _)).ended (.goto _ _)⟩
      · rw [if_neg hburst]
        exact hposts
    next => exact hposts
  next => exact hposts

end Calls

section Bursts

variable {i : SeqId} {op : Op} {ys loop rest todo : List Op} {out ok raises : Bool} {tok : Token} {c : Ctx}

theorem InBurst.step (hs : Sound e) (hshape : op :: rest = ys ++ lastCall i out ++ loop)
    (hb : InBurst cfg e i c ys out loop) (hpl : e.OpInPlace op)
    (hx : execOp cfg e rest tok raises op = (e',ok,todo)) : Sound e' ∧ Touches (some i) e e' ∧
      (ok = true → ∃ c ys out loop, todo = ys ++ lastCall i out ++ loop ∧ InBurst cfg e' i c ys out loop) ∧
      (ok = false → e'.Even ∧ Turned (e'.seq i)) := by
  cases ys with
  | cons op' ys =>
    obtain ⟨rfl,rfl⟩ := List.cons.inj hshape
    obtain ⟨h₁,ht,hrest,h₂,h₃⟩ := hb.call hs hpl hx
    exact ⟨h₁,ht,fun hok => ⟨_,ys,out,loop,hrest,h₂ hok⟩,h₃⟩
  | nil =>
    cases out with
    | true =>
      obtain ⟨rfl,rfl⟩ := List.cons.inj hshape
      obtain ⟨h₁,ht,h₂,h₃⟩ := hb.output hs hx
      exact ⟨h₁,ht,fun hok => ⟨_,[],false,todo,rfl,h₂ hok⟩,h₃⟩
    | false =>
      have hl : loop = op :: rest := hshape.symm
      subst hl
      obtain ⟨rfl,rfl,ys,out,loop',heq,hb'⟩ := hb.turn hx
      exact ⟨hs,.of_sched rfl,fun _ => ⟨c,ys,out,loop',heq,hb'⟩,by simp⟩

theorem leaveBurst_spec {before : Nat} (hs : Sound e) (he : e.Even) (hl : Lined e.sched [i])
    (ht : Turned (e.seq i)) (hpos : 0 < before) :
    Sound (leaveBurst cfg e i before) ∧ Placed cfg (leaveBurst cfg e i before) := by
  have hi : i < e.sched.seqs.length := hl.lt i (by simp)
  unfold leaveBurst
  simp only
  split_ifs
  · have h₁ := hs.setOutput i ((e.seq i).outputIds.take before)
    have hself : (e.setOutput i ((e.seq i).outputIds.take before)).seq i =
        { e.seq i with outputIds := (e.seq i).outputIds.take before } := by
      rw [setOutput_seq,if_pos ⟨rfl,hi⟩]
    have hl₁ : Lined (e.setOutput i ((e.seq i).outputIds.take before)).sched [i] :=
      hl.members (Scheduler.length_modify ..) rfl rfl fun j hj => by
        have := setOutput_seq e i j ((e.seq i).outputIds.take before)
        rwa [if_neg fun hc => hj (by simp [hc.1])] at this
    refine ⟨h₁.ended (.goto _ _),hl₁.first h₁.kept fun _ => ?_,he.setOutput i _⟩
    show Turned ((e.setOutput i ((e.seq i).outputIds.take before)).seq i)
    rw [hself]
    obtain ⟨hne,hle⟩ := ht
    refine ⟨fun hnil => ?_,?_⟩
    · rcases List.take_eq_nil_iff.mp hnil with h0 | h0
      · exact absurd h0 (Nat.ne_of_gt hpos)
      · exact hne h0
    · simp only [Sequence.tokens,List.length_append,List.length_take] at hle ⊢
      omega
  · exact ⟨hs.ended (.goto _ _),hl.first hs.kept fun _ => ht,he⟩

end Bursts

end Phases

section Runs

def nextCall (e : Engine) : Option Op :=
  match e.pc with
  | .inBatch _ (op :: _) _ => some op
  | .bursting _ _ (op :: _) _ => some op
  | _ => none

/-- The rows are in place for the call that is made. -/
def RowsInPlace (e : Engine) : Event → Prop
  | .exec _ _ _ => ∀ op ∈ e.nextCall, e.OpInPlace op
  | _ => True

theorem placed_idle (hl : Lined e.sched []) (he : e.Even) (hpc : e.pc = .idle) : Placed cfg e := by
  unfold Placed
  rw [hpc]
  exact ⟨hl,he⟩

theorem placed_init : Sound {} ∧ Placed cfg {} := by
  refine ⟨⟨Scheduler.kept_empty,rfl,fun b i n hb => ?_,by simp,fun i => ?_,by simp [Isolated]⟩,
    placed_idle .init (fun b i n hb => ?_) rfl⟩
  · cases hb
  · exact ⟨by simp [v4Seq],by simp [v4Seq]⟩
  · cases hb

theorem step_placed {ev : Event} (hs : Sound e) (hp : Placed cfg e) (hg : e.RowsInPlace ev)
    (h : e.step cfg ev = some e') : Sound e' ∧ Placed cfg e' := by
  have hended : Ended e e' → e'.pc = e.pc → Sound e' ∧ Placed cfg e' := fun hend hpc =>
    ⟨hs.ended hend,hp.ended hend hpc⟩
  have hat := hp
  unfold Placed at hat
  cases step_moves h with
  | addRequest hpc hr =>
    rw [hpc] at hat
    obtain ⟨h₁,hj⟩ := hs.addRequest hat.1 hr
    refine ⟨h₁,placed_idle hj.lined (fun b i n hb hi => ?_) (hj.pc.trans hpc)⟩
    rw [hj.last] at hb
    have hlt := (hs.filled b i n hb).1
    have heq := hj.old i hlt
    rw [heq] at hi
    exact (hat.2 b i n hb hi).trans (congrArg Sequence.cachedLen heq).symm
  | reject hpc => exact hended (.emit e _ _ true) (pc_emit ..)
  | cancel => exact hended (.cancelRequest e _ _) (pc_cancelRequest ..)
  | timeout hpc => exact hended (.cancelRequest e _ _) (pc_cancelRequest ..)
  | step hpc hpc' =>
    rw [hpc] at hat
    obtain ⟨hl,hb⟩ := hat.1.step hs.kept cfg.sched
    refine ⟨⟨(hs.kept.step cfg.sched).1,hs.attached,hs.filled,hs.cache,hs.v4,hs.calls⟩,?_⟩
    subst hpc'
    by_cases hnil : (e.sched.step cfg.sched).2 = []
    · rw [if_pos hnil]
      rw [hnil] at hl
      exact ⟨hl,hat.2⟩
    · rw [if_neg hnil]
      exact ⟨hl,hat.2,hb⟩
  | check hpc =>
    rw [hpc] at hat
    exact ⟨hs.ended (.goto _ _),hat.1,working_check hat.1 hat.2.1 hat.2.2⟩
  | call hpc hx hr =>
    have hg := hg _ (by rw [nextCall,hpc]; rfl)
    rw [hpc] at hat
    obtain ⟨hl,ids,c,hw⟩ := hat
    obtain ⟨h₁,hw₁⟩ := hw.call hs hl hg hx
    have hl₁ := hw.lined hl hx
    subst hr
    exact ⟨h₁.ended (.goto _ _),hl₁,ids,_,⟨hw₁.calls.ended (.goto _ _),hw₁.members,hw₁.result,hw₁.fresh⟩⟩
  | abort hpc hx =>
    have hg := hg _ (by rw [nextCall,hpc]; rfl)
    rw [hpc] at hat
    obtain ⟨hl,ids,c,hw⟩ := hat
    exact hw.abort _ hs hl hg hx
  | burstCall hpc hx =>
    have hg := hg _ (by rw [nextCall,hpc]; rfl)
    rw [hpc] at hat
    obtain ⟨hl,hpos,c,ys,out,loop,hshape,hb⟩ := hat
    obtain ⟨h₁,ht,h₂,_⟩ := hb.step hs hshape hg hx
    obtain ⟨c',ys',out',loop',hshape',hb'⟩ := h₂ rfl
    refine ⟨h₁.ended (.goto _ _),?_,hpos,c',ys',out',loop',hshape',hb'.ended (.goto _ _)⟩
    exact hl.members ht.length ht.waiting ht.running fun j hj => ht.other j fun hc => hj (by simp [Option.some.inj hc])
  | burstAbort hpc hx =>
    have hg := hg _ (by rw [nextCall,hpc]; rfl)
    rw [hpc] at hat
    obtain ⟨hl,hpos,c,ys,out,loop,hshape,hb⟩ := hat
    obtain ⟨h₁,ht,_,h₃⟩ := hb.step hs hshape hg hx
    obtain ⟨heven,hturn⟩ := h₃ rfl
    refine leaveBurst_spec h₁ heven ?_ hturn hpos
    exact hl.members ht.length ht.waiting ht.running fun j hj => ht.other j fun hc => hj (by simp [Option.some.inj hc])
  | finishBatch hpc =>
    rw [hpc] at hat
    obtain ⟨hl,ids,c,hw⟩ := hat
    exact hw.leave hs hl
  | @post i tok pre cancelled d prev rest hpc =>
    rw [hpc] at hat
    obtain ⟨hl,he,hpost⟩ := hat
    obtain ⟨h₁,he₁,hl₁,hother⟩ : Sound (postOne cfg e i tok pre cancelled prev d) ∧ _ :=
      postOne_spec cancelled prev d hs he hl (hpost i tok pre (by simp))
    refine ⟨h₁.ended (.goto _ _),hl₁,he₁,fun j tok' pre' hj => ?_⟩
    have hne : j ≠ i := by
      rintro rfl
      exact (List.nodup_cons.mp hl.nodup).1 (List.mem_map.mpr ⟨_,hj,rfl⟩)
    exact (hpost j tok' pre' (List.mem_cons_of_mem _ hj)).data (hother j hne).1 (hother j hne).2
  | postDone hpc =>
    rw [hpc] at hat
    obtain ⟨hl,he,_⟩ := hat
    refine ⟨⟨hs.kept.dropFinished,hs.attached,hs.filled,hs.cache,hs.v4,hs.calls⟩,?_,he⟩
    exact ⟨hl.nodup,hl.lt,hl.notWaiting,hl.waiting,fun i hi => hl.running i (List.mem_of_mem_filter hi)⟩
  | @finishBurst i before toks prev d e₁ hpc h₁ =>
    rw [hpc] at hat
    obtain ⟨hl,_,c,ys,out,loop,hshape,hb⟩ := hat
    obtain ⟨hys,rfl⟩ := List.append_eq_nil_iff.mp hshape.symm
    obtain ⟨rfl,_⟩ := List.append_eq_nil_iff.mp hys
    obtain ⟨h₂,he,hl₂,_⟩ := applyPost_spec (p := postBurst cfg.tk cfg.eos (e.seq i) toks prev) d hs hb.finish hl
      hb.turned burstLoop_output
    rw [← h₁] at h₂ he hl₂
    refine ⟨⟨h₂.kept.dropFinished,h₂.attached,h₂.filled,h₂.cache,h₂.v4,h₂.calls⟩,?_,he⟩
    exact ⟨hl₂.nodup,hl₂.lt,hl₂.notWaiting,hl₂.waiting,fun i hi => hl₂.running i (List.mem_of_mem_filter hi)⟩

instance (e : Engine) (start : Nat) (m : (SeqId × List Token) × Nat) : Decidable (e.InPlace start m) :=
  inferInstanceAs (Decidable (_ ∧ (_ ∨ _ ∧ _)))

instance (e : Engine) (op : Op) : Decidable (e.OpInPlace op) := by
  cases op <;> unfold OpInPlace <;> infer_instance

instance (e : Engine) (ev : Event) : Decidable (e.RowsInPlace ev) := by
  cases ev <;> unfold RowsInPlace <;> infer_instance

def extended : List Event :=
  [.addRequest { requestId := "a", inputIds := [1,2], maxTokens := 1 },.step,.check] ++
    List.replicate 4 (call 7) ++ [.finishBatch,.post false [] .room,.post false [] .room] ++
    [.addRequest { requestId := "b", inputIds := [1,2,3], maxTokens := 2 },.step,.check] ++
    List.replicate 5 (call 8) ++ [.finishBatch,.post false [] .room,.post false [] .room] ++
    [.step,.check] ++ List.replicate 5 (call 9)

/-- Two prompts of different lengths are prefilled one after the other, both in
row 0, before either is decoded. -/
def prefilledInTurn : List Event :=
  [.addRequest { requestId := "a", inputIds := [1,2], maxTokens := 2 },
    .addRequest { requestId := "b", inputIds := [3,4,5], maxTokens := 2 },.step,.check] ++
    List.replicate 8 (call 7) ++ [.finishBatch,.post false [] .room,.post false [] .room,.post false [] .room] ++
    [.step,.check] ++ List.replicate 3 (call 8)

end Runs

end Engine

end SglangLite.Hybrid
