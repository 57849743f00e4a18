import SglangLite.Loop.Bounds
import SglangLite.Text.Stops

set_option autoImplicit false

namespace SglangLite.Loop
open Kv Sched Text

variable {R : Type} {b : Backend R}

namespace EngineLoop

variable {s : EngineLoop R} {i : SeqId}

def view (s : EngineLoop R) (i : SeqId) (frames : List Frame) : Text.Served :=
  ⟨s.seq i,s.prevText (s.seq i).requestId,frames⟩

theorem prevText_settlePost (s : EngineLoop R) (i : SeqId) (p : Post) :
    (s.settlePost b i p).prevText = Function.update s.prevText (s.seq i).requestId p.prevText := by
  unfold settlePost
  cases p.reason <;> rfl

theorem view_settlePost (hi : i < s.sched.seqs.length) (r : RequestId) (assigned : Bool) (p : Post)
    (c : Text.Served) {fs : List Frame} (hc : c.frames = fs) :
    ((s.noteText r assigned).settlePost b i p).view i
      (fs ++ [p.frame (((s.noteText r assigned).settlePost b i p).seq i)]) = c.put (s.seq i) p := by
  have hlen : i < (s.noteText r assigned).sched.seqs.length := hi
  have hseq := seq_settlePost (b := b) hlen p i
  rw [if_pos rfl,noteText_seq] at hseq
  simp only [view,Text.Served.put,hseq,hc,prevText_settlePost,noteText_seq,settle_requestId,
    Function.update_self]

end EngineLoop

namespace Concurrent
open EngineLoop

variable {t : Tid} {s s' : Shared R} {i : SeqId} {rest code : List Instr} {now : Time}

/-- The loop serves a token as `Served.token` does: the view of the client
afterwards, with the frame that is emitted next. -/
theorem exec_token {pre : Bool} {tok : Token} (fs : List Frame)
    (h : exec b t s (.postToken i pre tok) rest now = some (s',code))
    (hf : (s.loop.seq i).finished = false) :
    ∃ f final, code = .lookup (s.loop.seq i).requestId f final :: rest ∧
      s'.loop.view i (fs ++ [f]) =
        ((if pre then s.loop.prefilled b i else s.loop).view i fs).token b.tk tok := by
  have hi := Scheduler.lt_of_unfinished hf
  have hpre : i < (if pre then s.loop.prefilled b i else s.loop).sched.seqs.length ∧
      ((if pre then s.loop.prefilled b i else s.loop).seq i).finished = false ∧
      ((if pre then s.loop.prefilled b i else s.loop).seq i).requestId = (s.loop.seq i).requestId ∧
      (if pre then s.loop.prefilled b i else s.loop).prevText = s.loop.prevText := by
    split_ifs
    · have hseq : (s.loop.prefilled b i).seq i =
          { s.loop.seq i with cachedLen := (s.loop.seq i).inputIds.length } := by
        unfold prefilled
        split_ifs
        · exact (seq_modify _ _ _ _).trans (if_pos ⟨rfl,hi⟩)
        · exact (seq_modify _ _ _ _).trans (if_pos ⟨rfl,hi⟩)
      have hlen := (Spares.prefilled (b := b) s.loop i).length
      refine ⟨Nat.lt_of_lt_of_le hi hlen,by rw [hseq]; exact hf,by rw [hseq],?_⟩
      unfold prefilled
      split_ifs <;> rfl
    · exact ⟨hi,hf,rfl,rfl⟩
  cases h
  simp only
  generalize (if pre then s.loop.prefilled b i else s.loop) = l at hpre ⊢
  obtain ⟨hlt,hfin,hid,hprev⟩ := hpre
  have hsame : ((l.modify i fun q => { q with outputIds := q.outputIds ++ [tok] }).seq i).requestId =
      (s.loop.seq i).requestId := by
    rw [seq_appended hlt]
    exact hid
  refine ⟨_,_,by rw [hsame],?_⟩
  have hlen : i < (l.modify i fun q => { q with outputIds := q.outputIds ++ [tok] }).sched.seqs.length := by
    simpa [EngineLoop.modify] using hlt
  rw [Text.Served.token,if_neg (by simp [view,hfin])]
  have hframes : (l.view i fs).frames = fs := rfl
  refine (view_settlePost hlen _ _ _ _ hframes).trans ?_
  rw [seq_appended hlt,← hprev,← hid]
  rfl

theorem runBurst_tokens {l l₁ : EngineLoop R} {first : Token} {p : Post}
    (h : runBurst b l i first = (l₁,some p)) (hi : i < l.sched.seqs.length) :
    ∃ more n, i < l₁.sched.seqs.length ∧
      l₁.seq i = { l.seq i with cachedLen := n, outputIds := (l.seq i).outputIds ++ first :: more } ∧
      p = postBurst b.tk b.eos (l₁.seq i) (first :: more) (l.prevText (l.seq i).requestId) := by
  have hseq := seq_appended hi [first]
  have hlen : i < (l.modify i fun q => { q with outputIds := q.outputIds ++ [first] }).sched.seqs.length := by
    simpa [EngineLoop.modify] using hi
  unfold runBurst at h
  simp only at h
  generalize (l.modify i fun q => { q with outputIds := q.outputIds ++ [first] }) = s₁ at h hseq hlen
  split_ifs at h
  · generalize b.decodeBurst s₁.runner s₁.sched i
      (min ((l.seq i).maxTokens-(l.seq i).outputIds.length-1) (b.burst-1)) = r at h
    obtain ⟨n,hn⟩ := seq_absorb s₁ [i] r i
    have hlen₂ : i < (s₁.absorb [i] r).sched.seqs.length := by rwa [length_absorb]
    cases hr : r.result with
    | error e =>
      rw [hr] at h
      cases h
    | ok more =>
      rw [hr] at h
      cases h
      refine ⟨more,n,by simpa [EngineLoop.modify] using hlen₂,?_,rfl⟩
      rw [seq_appended hlen₂,hn,hseq]
      simp
  · cases h
    exact ⟨[],(l.seq i).cachedLen,hlen,hseq,rfl⟩

/-- A burst that does not raise is served as `Served.burst` does. -/
theorem exec_burst {first : Token} (fs : List Frame)
    (h : exec b t s (.burst i first) rest now = some (s',code)) (hc : code ≠ [])
    (hf : (s.loop.seq i).finished = false) :
    ∃ f final more n, code = .lookup (s.loop.seq i).requestId f final :: .dropFinished :: rest ∧
      s'.loop.view i (fs ++ [f]) =
        Text.Served.burst b.tk b.eos { s.loop.view i fs with seq := { s.loop.seq i with cachedLen := n } }
          (first :: more) := by
  have hi := Scheduler.lt_of_unfinished hf
  simp only [exec] at h
  split at h
  · cases h
    exact absurd rfl hc
  · rename_i l₁ p hx
    obtain ⟨more,n,hlt,hseq,rfl⟩ := runBurst_tokens hx hi
    cases h
    have hsame : (l₁.seq i).requestId = (s.loop.seq i).requestId := by rw [hseq]
    refine ⟨_,_,more,n,by rw [hsame]; rfl,?_⟩
    rw [Text.Served.burst,if_neg (by simp [hf])]
    have hframes : (s.loop.view i fs).frames = fs := rfl
    refine (view_settlePost hlt _ _ _ _ hframes).trans ?_
    rw [hseq]
    rfl

end Concurrent

end SglangLite.Loop
