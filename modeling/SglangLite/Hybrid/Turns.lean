import SglangLite.Hybrid.Rows

set_option autoImplicit false

namespace SglangLite.Hybrid
open Kv Sched Text

def Processed (q : Sequence) : Prop :=
  (q.outputIds = [] → q.cachedLen = q.inputIds.length) ∧ q.tokens.length ≤ q.cachedLen

theorem SameData.processed {q q' : Sequence} (h : SameData q q') (hq : Processed q) : Processed q' := by
  simpa only [Processed,h.tokens,h.inputIds,h.outputIds,h.cachedLen] using hq

theorem Processed.append {q : Sequence} (h : Processed q) (t : Token) :
    Turned { q with outputIds := q.outputIds ++ [t] } := by
  have := h.2
  refine ⟨by simp,?_⟩
  simp only [Sequence.tokens,List.length_append,List.length_singleton] at this ⊢
  omega

theorem Op.result_mem {op : Op} {i : SeqId} (h : op.result = some i) : i ∈ op.seqs := by
  cases op with
  | sample j => exact List.mem_singleton.mpr (Option.some.inj h).symm
  | prefilled j n => exact List.mem_singleton.mpr (Option.some.inj h).symm
  | decoded j => exact List.mem_singleton.mpr (Option.some.inj h).symm
  | _ => cases h

def Op.quiet : Op → Bool
  | .restore _ _ => true
  | .stage _ _ _ => true
  | .forward _ _ => true
  | .save _ _ => true
  | .append _ _ => true
  | _ => false

namespace Engine

variable {cfg : Config} {e e' : Engine}

section Frames

variable {tok : Token} {raises ok : Bool} {op : Op} {rest todo : List Op}

structure Touches (i : Option SeqId) (e e' : Engine) : Prop where
  waiting : e'.sched.waiting = e.sched.waiting
  running : e'.sched.running = e.sched.running
  length : e'.sched.seqs.length = e.sched.seqs.length
  inputIds : ∀ j, (e'.seq j).inputIds = (e.seq j).inputIds
  finished : ∀ j, (e'.seq j).finished = (e.seq j).finished
  other : ∀ j, i ≠ some j → e'.seq j = e.seq j

theorem Touches.of_sched {i : Option SeqId} (h : e'.sched = e.sched) : Touches i e e' := by
  have hseq : e'.seq = e.seq := by
    funext j
    rw [Engine.seq,h]
    rfl
  exact ⟨by rw [h],by rw [h],by rw [h],fun j => by rw [hseq],fun j => by rw [hseq],fun j _ => by rw [hseq]⟩

theorem Touches.modify (e : Engine) (i : SeqId) {f : Sequence → Sequence}
    (hin : ∀ q, (f q).inputIds = q.inputIds) (hfin : ∀ q, (f q).finished = q.finished) :
    Touches (some i) e (e.modify i f) :=
  ⟨rfl,rfl,Scheduler.length_modify ..,seq_modify_field Sequence.inputIds hin i,
    seq_modify_field Sequence.finished hfin i,fun j hj => by
      rw [seq_modify,if_neg fun hc => hj (by rw [hc.1])]⟩

theorem ensureRestored_sched (e : Engine) (i : SeqId) (slot : Nat) :
    (ensureRestored cfg e i slot).sched = e.sched := by
  unfold ensureRestored
  simp only
  split_ifs
  · split
    · rfl
    · split <;> rfl
  · rfl
  · rfl

theorem stagePages_sched (e : Engine) (i : SeqId) (slot : Nat) :
    (stagePages cfg e i slot).sched = e.sched := by
  unfold Engine.stagePages
  simp only
  split
  · split
    · rfl
    · split_ifs <;> rfl
  · rfl

theorem savePrefix_sched (e : Engine) (i : SeqId) (slot : Nat) (fails : Bool) :
    (savePrefix cfg e i slot fails).sched = e.sched := by
  unfold savePrefix
  simp only
  split
  · rfl
  · split <;> rfl

theorem dualAppend_sched (e : Engine) (i : SeqId) (slot : Nat) (fails : Bool) :
    (dualAppend cfg e i slot fails).sched = e.sched := by
  unfold Engine.dualAppend
  split
  · rfl
  · simp only
    split <;> rfl

theorem execOp_quiet (hq : op.quiet = true) (hx : execOp cfg e rest tok raises op = (e',ok,todo)) :
    e'.sched = e.sched ∧ todo = rest := by
  cases op with
  | restore i slot =>
    simp only [Engine.execOp,Prod.mk.injEq] at hx
    exact ⟨hx.1 ▸ ensureRestored_sched e i slot,hx.2.2.symm⟩
  | stage i slot always =>
    simp only [Engine.execOp,Prod.mk.injEq] at hx
    obtain ⟨rfl,_,rfl⟩ := hx
    split
    · exact ⟨stagePages_sched e i slot,rfl⟩
    · exact ⟨rfl,rfl⟩
  | forward start ins =>
    simp only [Engine.execOp,Prod.mk.injEq] at hx
    exact ⟨hx.1 ▸ (forward_frame start (!raises) 0 ins e).1,hx.2.2.symm⟩
  | save i slot =>
    simp only [Engine.execOp,Prod.mk.injEq] at hx
    exact ⟨hx.1 ▸ savePrefix_sched e i slot raises,hx.2.2.symm⟩
  | append i slot =>
    simp only [Engine.execOp,Prod.mk.injEq] at hx
    exact ⟨hx.1 ▸ dualAppend_sched e i slot raises,hx.2.2.symm⟩
  | _ => cases hq

/-- A call of `run_batch` writes to the sequence whose result it fills in. -/
theorem execOp_plan (hb : op.ofBurst = false) (hx : execOp cfg e rest tok raises op = (e',ok,todo)) :
    Touches op.result e e' ∧ (∀ j, (e'.seq j).outputIds = (e.seq j).outputIds) ∧ todo = rest := by
  have hsame : op.quiet = true →
      Touches op.result e e' ∧ (∀ j, (e'.seq j).outputIds = (e.seq j).outputIds) ∧ todo = rest := by
    intro hq
    obtain ⟨hs,ht⟩ := execOp_quiet hq hx
    refine ⟨.of_sched hs,fun j => ?_,ht⟩
    rw [Engine.seq,hs]
    rfl
  have hmod : ∀ (i : SeqId) (f : Sequence → Sequence), (∀ q, (f q).inputIds = q.inputIds) →
      (∀ q, (f q).finished = q.finished) → (∀ q, (f q).outputIds = q.outputIds) →
      Touches (some i) e (e.modify i f) ∧ ∀ j, ((e.modify i f).seq j).outputIds = (e.seq j).outputIds :=
    fun i f hin hfin hout => ⟨.modify e i hin hfin,seq_modify_field Sequence.outputIds hout i⟩
  cases op with
  | sample i =>
    simp only [Engine.execOp] at hx
    split_ifs at hx
    · simp only [Prod.mk.injEq] at hx
      obtain ⟨rfl,_,rfl⟩ := hx
      obtain ⟨h₁,h₂⟩ := hmod i (fun q => { q with cachedLen := q.inputIds.length })
        (fun _ => rfl) (fun _ => rfl) fun _ => rfl
      exact ⟨h₁,h₂,rfl⟩
    · simp only [Prod.mk.injEq] at hx
      obtain ⟨rfl,_,rfl⟩ := hx
      exact ⟨.of_sched rfl,fun _ => rfl,rfl⟩
  | prefilled i n =>
    simp only [Engine.execOp,Prod.mk.injEq] at hx
    obtain ⟨rfl,_,rfl⟩ := hx
    obtain ⟨h₁,h₂⟩ := hmod i
      (fun q => { q with cachedLen := q.cachedLen+n, lastLogits := true, kvState := false })
      (fun _ => rfl) (fun _ => rfl) fun _ => rfl
    exact ⟨h₁,h₂,rfl⟩
  | decoded i =>
    simp only [Engine.execOp,Prod.mk.injEq] at hx
    obtain ⟨rfl,_,rfl⟩ := hx
    obtain ⟨h₁,h₂⟩ := hmod i (fun q => { q with cachedLen := q.cachedLen+1, kvState := false })
      (fun _ => rfl) (fun _ => rfl) fun _ => rfl
    exact ⟨h₁,h₂,rfl⟩
  | restore i slot => exact hsame rfl
  | stage i slot always => exact hsame rfl
  | forward start ins => exact hsame rfl
  | save i slot => exact hsame rfl
  | append i slot => exact hsame rfl
  | _ => cases hb

theorem processed_of_result {i : SeqId} (hr : op.result = some i) (hi : i < e.sched.seqs.length)
    (hph : OpPhase (e.seq i) op) (hx : execOp cfg e rest tok raises op = (e',true,todo)) :
    Processed (e'.seq i) := by
  cases op with
  | sample j =>
    obtain rfl : j = i := Option.some.inj hr
    obtain ⟨hout,_⟩ := hph
    simp only [Engine.execOp] at hx
    split_ifs at hx
    · simp only [Prod.mk.injEq] at hx
      rw [← hx.1,seq_modify,if_pos ⟨rfl,hi⟩]
      exact ⟨fun _ => rfl,by simp [Sequence.tokens,hout]⟩
    · simp at hx
  | prefilled j n =>
    obtain rfl : j = i := Option.some.inj hr
    obtain ⟨hout,hlen⟩ := hph
    simp only [Engine.execOp,Prod.mk.injEq] at hx
    rw [← hx.1,seq_modify,if_pos ⟨rfl,hi⟩]
    exact ⟨fun _ => hlen,by simp [Sequence.tokens,hout,hlen]⟩
  | decoded j =>
    obtain rfl : j = i := Option.some.inj hr
    simp only [Engine.execOp,Prod.mk.injEq] at hx
    rw [← hx.1,seq_modify,if_pos ⟨rfl,hi⟩]
    exact ⟨fun hnil => absurd hnil hph.1,hph.2⟩
  | _ => cases hr

end Frames

theorem Tracks.mono {c : Ctx} {live live' : SeqId → Prop} (h : e.Tracks cfg c live)
    (hl : ∀ i, live' i → live i) : e.Tracks cfg c live' :=
  ⟨fun b i n hb hi => h.pos b i n hb (hl i hi),h.len,h.restored,h.staged,h.logits,fun i hi => h.lt i (hl i hi)⟩

theorem Tracks.keep {c : Ctx} {live : SeqId → Prop} (h : e.Tracks cfg c live) (i : SeqId)
    {f : Sequence → Sequence} (hlen : ∀ q, (f q).cachedLen = q.cachedLen)
    (hlog : ∀ q, (f q).lastLogits = q.lastLogits) : (e.modify i f).Tracks cfg c live where
  pos := h.pos
  len := fun j => (seq_modify_field Sequence.cachedLen hlen i j).trans (h.len j)
  restored := h.restored
  staged := h.staged
  logits := fun j hj => (seq_modify_field Sequence.lastLogits hlog i j).trans (h.logits j hj)
  lt := fun j hj => by
    rw [Engine.modify,Scheduler.length_modify]
    exact h.lt j hj

def Live (e : Engine) (ids : List SeqId) (i : SeqId) : Prop := i ∈ ids ∨ (e.seq i).finished = false

def Even (e : Engine) : Prop := e.At (fun i => (e.seq i).cachedLen) fun i => (e.seq i).finished = false

theorem Even.congr (h : e.Even) (hlast : ∀ b u, e'.last b = some u → e.last b = some u)
    (hseq : ∀ i, (e'.seq i).finished = false →
      (e.seq i).finished = false ∧ (e'.seq i).cachedLen = (e.seq i).cachedLen) : e'.Even := by
  intro b i n hb hi
  obtain ⟨hf,hlen⟩ := hseq i hi
  exact (h b i n (hlast b _ hb) hf).trans hlen.symm

theorem Even.ended (h : e.Even) (hend : Ended e e') : e'.Even := by
  intro b i n hb hi
  exact (At.ended h hend b i n hb (hend.live hi)).trans (hend.data i).cachedLen.symm

section Batch

/-- Where the calls of `run_batch` have got to: `todo` is left of the plan. -/
structure InBatch (cfg : Config) (e : Engine) (ids : List SeqId) (c : Ctx) (todo : List Op) : Prop where
  tracks : e.Tracks cfg c (e.Live ids)
  fits : AllFit (fun i => (e.seq i).tokens) c todo
  seqs : ∀ op ∈ todo, ∀ i ∈ op.seqs, i ∈ ids
  even : ∀ i, c.pos i+fed i todo = c.len i+recorded i todo
  once : (resultsOf todo).Nodup
  phase : ∀ op ∈ todo, op.ofBurst = false ∧ ∀ i, op.result = some i → OpPhase (e.seq i) op

variable {ids : List SeqId} {c : Ctx} {todo : List Op}

theorem InBatch.ended (h : InBatch cfg e ids c todo) (hend : Ended e e') : InBatch cfg e' ids c todo where
  tracks := (h.tracks.ended hend).mono fun _ hi => hi.imp_right hend.live
  fits := by
    rw [show (fun i => (e'.seq i).tokens) = fun i => (e.seq i).tokens from
      funext fun i => (hend.data i).tokens]
    exact h.fits
  seqs := h.seqs
  even := h.even
  once := h.once
  phase := fun op hop => ⟨(h.phase op hop).1,fun i hi => (hend.data i).op ((h.phase op hop).2 i hi)⟩

theorem InBatch.rest (h : InBatch cfg e ids c todo) {i : SeqId} (hi : i ∉ ids) :
    c.pos i = (e.seq i).cachedLen := by
  have hno : ∀ op ∈ todo, i ∉ op.seqs := fun op hop hm => hi (h.seqs op hop i hm)
  have := h.even i
  rw [fed_of_notMem hno,recorded_of_notMem hno] at this
  rw [h.tracks.len]
  exact this

theorem InBatch.finish (h : InBatch cfg e ids c []) : e.Even := by
  intro b i n hb hi
  have heven : c.pos i = c.len i := h.even i
  exact (h.tracks.pos b i n hb (.inr hi)).trans (heven.trans (h.tracks.len i).symm)

theorem resultsOf_cons (op : Op) (ops : List Op) :
    resultsOf (op :: ops) = op.result.toList ++ resultsOf ops := by
  cases hr : op.result with
  | none => simp [resultsOf,hr]
  | some i => simp [resultsOf,hr]

theorem InBatch.call {op : Op} {rest : List Op} {tok : Token} {raises ok : Bool} (hs : Sound e)
    (h : InBatch cfg e ids c (op :: rest)) (hpl : e.OpInPlace op)
    (hx : execOp cfg e rest tok raises op = (e',ok,todo)) : Sound e' ∧
      (ok = true → InBatch cfg e' ids (c.after op) rest) ∧ (ok = false → e'.At c.pos (e.Live ids)) := by
  obtain ⟨hb,hph⟩ := h.phase op (by simp)
  obtain ⟨htouch,hout,_⟩ := execOp_plan hb hx
  obtain ⟨h₁,h₂,h₃⟩ := hs.execOp h.tracks h.fits.1 hpl (fun i hi => .inl (h.seqs op (by simp) i hi))
    (fun i hi => by
      subst hi
      exact (hph i rfl).2) hx
  have hone : (op.result.toList ++ resultsOf rest).Nodup := resultsOf_cons op rest ▸ h.once
  obtain ⟨_,hnd,hdisj⟩ := List.nodup_append.mp hone
  refine ⟨h₁,fun hok => ⟨?_,?_,fun op' hop => h.seqs op' (List.mem_cons_of_mem _ hop),fun i => ?_,hnd,
    fun op' hop => ?_⟩,h₃⟩
  · exact (h₂ hok).mono fun i hi => hi.imp_right fun hf => htouch.finished i ▸ hf
  · rw [show (fun i => (e'.seq i).tokens) = fun i => (e.seq i).tokens from
      funext fun i => by rw [Sequence.tokens,htouch.inputIds,hout,Sequence.tokens]]
    exact h.fits.2
  · have := h.even i
    rw [fed_cons,recorded_cons] at this
    show c.pos i+op.feeds i+fed i rest = c.len i+op.records i+recorded i rest
    omega
  · obtain ⟨hb',hph'⟩ := h.phase op' (List.mem_cons_of_mem _ hop)
    refine ⟨hb',fun i hi => ?_⟩
    -- a sequence has one result
    rw [htouch.other i fun hr => ?_]
    · exact hph' i hi
    · exact hdisj i (by simp [hr]) i (List.mem_filterMap.mpr ⟨op',hop,hi⟩) rfl

end Batch

section Burst

inductive Loop (i : SeqId) (restored : Prop) : List Op → Prop
  | done : Loop i restored []
  | burst (n : Nat) : Loop i restored [.burst i n]
  | greedy (n : Nat) (hr : restored) : Loop i restored [.greedy i n]
  | single (n : Nat) : Loop i restored [.single i n]

def lastCall (i : SeqId) (out : Bool) : List Op := if out then [.output i] else []

def Poised : Ctx → List Op → Prop
  | _, [] => True
  | c, op :: ops => ((∃ start ins, op = .forward start ins) → ∀ j, c.pos j = c.len j) ∧ Poised (c.after op) ops

/-- Where a burst has got to: `ys` and the output are left of the round. -/
structure InBurst (cfg : Config) (e : Engine) (i : SeqId) (c : Ctx) (ys : List Op) (out : Bool)
    (loop : List Op) : Prop where
  tracks : e.Tracks cfg c (e.Live [i])
  fits : AllFit (fun j => (e.seq j).tokens) c ys
  poised : Poised c ys
  round : ∀ op ∈ ys, op.seqs = [i] ∧ (op.quiet = true ∨ op = .advance i)
  even : ∀ j, c.pos j+fed j ys = c.len j+recorded j ys
  restored : out = true → (c.run ys).restored i
  loop : Loop i ((c.run ys).restored i) loop
  begun : (e.seq i).outputIds ≠ []
  behind : (e.seq i).tokens.length+(lastCall i out).length ≤ (e.seq i).cachedLen+recorded i ys+1
  once : recorded i ys ≤ (lastCall i out).length

variable {i : SeqId} {c : Ctx} {ys loop rest todo : List Op} {out : Bool} {op : Op} {tok : Token}
  {raises ok : Bool}

theorem InBurst.turned (h : InBurst cfg e i c ys out loop) : Turned (e.seq i) := by
  have h₁ := h.behind
  have h₂ := h.once
  exact ⟨h.begun,by omega⟩

theorem InBurst.lt (h : InBurst cfg e i c ys out loop) : i < e.sched.seqs.length :=
  h.tracks.lt i (.inl (by simp))

theorem InBurst.ended (h : InBurst cfg e i c ys out loop) (hend : Ended e e') :
    InBurst cfg e' i c ys out loop where
  tracks := (h.tracks.ended hend).mono fun _ hi => hi.imp_right hend.live
  fits := by
    rw [show (fun i => (e'.seq i).tokens) = fun i => (e.seq i).tokens from
      funext fun i => (hend.data i).tokens]
    exact h.fits
  poised := h.poised
  round := h.round
  even := h.even
  restored := h.restored
  loop := h.loop
  begun := (hend.data i).outputIds ▸ h.begun
  behind := by
    rw [(hend.data i).tokens,(hend.data i).cachedLen]
    exact h.behind
  once := h.once

theorem InBurst.finish (h : InBurst cfg e i c [] out loop) : e.Even := by
  intro b j n hb hj
  have heven : c.pos j = c.len j := h.even j
  exact (h.tracks.pos b j n hb (.inr hj)).trans (heven.trans (h.tracks.len j).symm)

/-- A call of a round. When it raises, no row has gone on. -/
theorem InBurst.call (hs : Sound e) (h : InBurst cfg e i c (op :: ys) out loop) (hpl : e.OpInPlace op)
    (hx : execOp cfg e rest tok raises op = (e',ok,todo)) : Sound e' ∧ Touches (some i) e e' ∧ todo = rest ∧
      (ok = true → InBurst cfg e' i (c.after op) ys out loop) ∧
      (ok = false → e'.Even ∧ Turned (e'.seq i)) := by
  obtain ⟨hseqs,hkind⟩ := h.round op (by simp)
  have hlive : ∀ j ∈ op.seqs, e.Live [i] j := fun j hj => .inl (hseqs ▸ hj)
  have hsample : ∀ j, op = .sample j → (e.seq j).cachedLen = (e.seq j).inputIds.length := by
    rintro j rfl
    rcases hkind with hq | hq <;> cases hq
  obtain ⟨h₁,h₂,h₃⟩ := hs.execOp h.tracks h.fits.1 hpl hlive hsample hx
  have hframe : Touches (some i) e e' ∧ todo = rest ∧ (e'.seq i).outputIds = (e.seq i).outputIds ∧
      (ok = false → (∃ start ins, op = .forward start ins) ∧ e'.sched = e.sched) := by
    rcases hkind with hq | rfl
    · obtain ⟨hsched,ht⟩ := execOp_quiet hq hx
      refine ⟨.of_sched hsched,ht,by rw [Engine.seq,hsched]; rfl,fun hok => ⟨?_,hsched⟩⟩
      cases op with
      | forward start ins => exact ⟨start,ins,rfl⟩
      | restore i slot => simp [Engine.execOp,hok] at hx
      | stage i slot always => simp [Engine.execOp,hok] at hx
      | save i slot => simp [Engine.execOp,hok] at hx
      | append i slot => simp [Engine.execOp,hok] at hx
      | _ => cases hq
    · simp only [Engine.execOp,Prod.mk.injEq] at hx
      obtain ⟨rfl,rfl,rfl⟩ := hx
      exact ⟨.modify e i (fun _ => rfl) fun _ => rfl,rfl,
        seq_modify_field Sequence.outputIds (f := fun q => { q with cachedLen := q.cachedLen+1, kvState := false })
          (fun _ => rfl) i i,by simp⟩
  obtain ⟨htouch,hrest,hout,hfail⟩ := hframe
  refine ⟨h₁,htouch,hrest,fun hok => ?_,fun hok => ?_⟩
  · have htracks := h₂ hok
    have htok : (fun j => (e'.seq j).tokens) = fun j => (e.seq j).tokens := by
      funext j
      by_cases hj : j = i
      · rw [hj,Sequence.tokens,htouch.inputIds,hout,Sequence.tokens]
      · rw [htouch.other j fun hc => hj (Option.some.inj hc).symm]
    have hlen : (e'.seq i).cachedLen = (e.seq i).cachedLen+op.records i := by
      rw [htracks.len,h.tracks.len]
      rfl
    have hb := h.behind
    have ho := h.once
    rw [recorded_cons] at hb ho
    refine ⟨htracks.mono fun j hj => hj.imp_right fun hf => htouch.finished j ▸ hf,htok ▸ h.fits.2,h.poised.2,
      fun op' hop => h.round op' (List.mem_cons_of_mem _ hop),fun j => ?_,h.restored,h.loop,hout ▸ h.begun,?_,
      by omega⟩
    · have := h.even j
      rw [fed_cons,recorded_cons] at this
      show c.pos j+op.feeds j+fed j ys = c.len j+op.records j+recorded j ys
      omega
    · rw [congrFun htok i,hlen]
      omega
  · obtain ⟨hfwd,hsched⟩ := hfail hok
    have hseq : e'.seq = e.seq := by
      funext j
      rw [Engine.seq,hsched]
      rfl
    refine ⟨fun b j n hb hj => ?_,hseq ▸ h.turned⟩
    have hpos := h₃ hok b j n hb (.inr (hseq ▸ hj))
    rw [h.poised.1 hfwd j] at hpos
    exact hpos.trans ((h.tracks.len j).symm.trans (by rw [hseq]))

theorem InBurst.output (hs : Sound e) (h : InBurst cfg e i c [] true loop)
    (hx : execOp cfg e loop tok raises (.output i) = (e',ok,todo)) : Sound e' ∧ Touches (some i) e e' ∧
      (ok = true → InBurst cfg e' i (c.after (.output i)) [] false todo) ∧
      (ok = false → e'.Even ∧ Turned (e'.seq i)) := by
  have hlive : ∀ j ∈ (Op.output i).seqs, e.Live [i] j := fun j hj => .inl hj
  have hfits : (Op.output i).Fits (fun j => (e.seq j).tokens) c := h.restored rfl
  obtain ⟨h₁,h₂,_⟩ := hs.execOp h.tracks hfits trivial hlive (fun j hj => by cases hj) hx
  simp only [Engine.execOp,Prod.mk.injEq] at hx
  obtain ⟨rfl,rfl,rfl⟩ := hx
  have htouch : Touches (some i) e (e.modify i fun q =>
      { q with outputIds := if raises then q.outputIds else q.outputIds ++ [tok] }) :=
    .modify e i (fun _ => rfl) fun _ => rfl
  have hseq : (e.modify i fun q =>
      { q with outputIds := if raises then q.outputIds else q.outputIds ++ [tok] }).seq i =
      { e.seq i with outputIds := if raises then (e.seq i).outputIds else (e.seq i).outputIds ++ [tok] } := by
    rw [seq_modify,if_pos ⟨rfl,h.lt⟩]
  have hb : (e.seq i).tokens.length+1 ≤ (e.seq i).cachedLen+0+1 := h.behind
  refine ⟨h₁,htouch,fun hok => ?_,fun hok => ⟨?_,?_⟩⟩
  · obtain rfl : raises = false := by simpa using hok
    refine ⟨(h₂ rfl).mono fun j hj => hj.imp_right fun hf => htouch.finished j ▸ hf,trivial,trivial,by simp,
      fun j => ?_,by simp,?_,?_,?_,Nat.zero_le _⟩
    · exact h.even j
    · split_ifs
      · exact .done
      · exact h.loop
    · rw [hseq]
      simp
    · rw [hseq]
      simp only [Sequence.tokens,List.length_append,Bool.false_eq_true,if_false,List.length_singleton] at hb ⊢
      show _+0 ≤ _+0+1
      omega
  · refine h.finish.congr (fun _ _ hl => hl) fun j hj => ⟨htouch.finished j ▸ hj,?_⟩
    exact seq_modify_field Sequence.cachedLen (f := fun q =>
      { q with outputIds := if raises then q.outputIds else q.outputIds ++ [tok] }) (fun _ => rfl) i j
  · obtain rfl : raises = true := by simpa using hok
    rw [hseq]
    exact h.turned

theorem InBurst.again {loop' : List Op} (h : InBurst cfg e i c [] false loop)
    (hloop : Loop i (c.restored i) loop') : InBurst cfg e i c [] false loop' :=
  { h with loop := hloop }

theorem InBurst.turn (h : InBurst cfg e i c [] false (op :: loop))
    (hx : execOp cfg e loop tok raises op = (e',ok,todo)) : e' = e ∧ ok = true ∧
      ∃ ys out loop', todo = ys ++ lastCall i out ++ loop' ∧ InBurst cfg e i c ys out loop' := by
  have heven : ∀ j, c.pos j = c.len j := h.even
  have hcached := h.tracks.len i
  have hb : (e.seq i).tokens.length+0 ≤ (e.seq i).cachedLen+0+1 := h.behind
  obtain ⟨hone,hown⟩ := lastToken_own h.turned
  have hfed : ∀ start j, (Op.forward start [(i,Paged.Engine.lastToken (e.seq i))]).feeds j = if i = j then 1 else 0 :=
    fun start j => by rw [feeds_single,hone]
  have hloop := h.loop
  generalize hl : op :: loop = l at hloop
  cases hloop with
  | done => cases hl
  | burst n =>
    obtain ⟨rfl,rfl⟩ := List.cons.inj hl
    simp only [Engine.execOp,Prod.mk.injEq,List.append_nil] at hx
    obtain ⟨rfl,rfl,rfl⟩ := hx
    refine ⟨rfl,rfl,?_⟩
    split_ifs
    · refine ⟨[.restore i 0,.stage i 0 true],false,[.greedy i n],rfl,h.tracks,⟨heven i,trivial,trivial⟩,?_,?_,
        heven,by simp,.greedy n (.inl rfl),h.begun,hb,Nat.zero_le _⟩
      · exact ⟨fun _ => heven,fun _ => heven,trivial⟩
      · simp [Op.seqs,Op.quiet]
    · exact ⟨[],false,[.single i n],rfl,h.again (.single n)⟩
  | greedy n hr =>
    obtain ⟨rfl,rfl⟩ := List.cons.inj hl
    cases n with
    | zero =>
      simp only [Engine.execOp,Prod.mk.injEq] at hx
      obtain ⟨rfl,rfl,rfl⟩ := hx
      exact ⟨rfl,rfl,[],false,[],rfl,h.again .done⟩
    | succ n =>
      simp only [Engine.execOp,Prod.mk.injEq] at hx
      obtain ⟨rfl,rfl,rfl⟩ := hx
      refine ⟨rfl,rfl,[.forward (e.seq i).cachedLen [(i,Paged.Engine.lastToken (e.seq i))],.advance i],true,
        [.greedy i n],rfl,h.tracks,⟨⟨by simp,fun m hm => ?_⟩,hr,trivial⟩,?_,?_,fun j => ?_,fun _ => hr,
        .greedy n hr,h.begun,?_,?_⟩
      · obtain rfl := List.mem_singleton.mp hm
        exact ⟨hr,hcached.trans (heven i).symm,hown⟩
      · exact ⟨fun _ => heven,by simp,trivial⟩
      · simp [Op.seqs,Op.quiet]
      · rw [fed_cons,hfed,heven]
        simp [Op.feeds,Op.records]
      · simp [lastCall,Op.records]
        omega
      · simp [lastCall,Op.records]
  | single n =>
    obtain ⟨rfl,rfl⟩ := List.cons.inj hl
    cases n with
    | zero =>
      simp only [Engine.execOp,Prod.mk.injEq] at hx
      obtain ⟨rfl,rfl,rfl⟩ := hx
      exact ⟨rfl,rfl,[],false,[],rfl,h.again .done⟩
    | succ n =>
      simp only [Engine.execOp] at hx
      split_ifs at hx
      · simp only [Prod.mk.injEq] at hx
        obtain ⟨rfl,rfl,rfl⟩ := hx
        exact ⟨rfl,rfl,[],false,[],rfl,h.again .done⟩
      · simp only [Prod.mk.injEq] at hx
        obtain ⟨rfl,rfl,rfl⟩ := hx
        refine ⟨rfl,rfl,[.restore i 0,.stage i 0 true,
          .forward (e.seq i).cachedLen [(i,Paged.Engine.lastToken (e.seq i))],.advance i,.append i 0],true,
          [.single i n],rfl,h.tracks,
          ⟨heven i,trivial,⟨by simp,fun m hm => ?_⟩,.inl rfl,⟨.inl rfl,.inl rfl⟩,trivial⟩,?_,?_,fun j => ?_,
          fun _ => .inl rfl,.single n,h.begun,?_,?_⟩
        · obtain rfl := List.mem_singleton.mp hm
          exact ⟨.inl rfl,hcached.trans (heven i).symm,hown⟩
        · exact ⟨by simp,by simp,fun _ => heven,by simp,by simp,trivial⟩
        · simp [Op.seqs,Op.quiet]
        · rw [fed_cons,fed_cons,fed_cons,hfed,heven]
          simp [Op.feeds,Op.records]
        · simp [lastCall,Op.records]
          omega
        · simp [lastCall,Op.records]

end Burst

end Engine

end SglangLite.Hybrid
