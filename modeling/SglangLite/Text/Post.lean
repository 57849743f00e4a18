import SglangLite.Text.Detokenize

set_option autoImplicit false

namespace SglangLite.Text
open Kv Sched

/-- What the loop makes of new tokens of one sequence: the output ids and the
reason `mark_finished` was given, whether the request is over, the `text` and
`token` of the frame, and the new `_prev_text`. -/
structure Post where
  outputIds : List Token
  reason : Option FinishReason
  finished : Bool
  text : Text
  token : Option Token
  prevText : Text
  deriving DecidableEq, Repr

/-- The plain branch of `pump_once` and the loop of `_run`, once `tok` has been
appended to the output of `seq`. -/
def postToken (tk : Tokenizer) (seq : Sequence) (tok : Token) (prev : Text) : Post :=
  let r := applyStopAndLimits tk seq tok prev
  let full := detokenize tk r.outputIds
  if seq.skipStreamingText then
    if r.finished then ⟨r.outputIds,r.reason,true,full,r.emit,full⟩
    else ⟨r.outputIds,r.reason,false,[],r.emit,prev⟩
  else
    ⟨r.outputIds,r.reason,r.finished,r.delta,r.emit,
      if r.delta ≠ [] then prev ++ r.delta else if r.finished then full else prev⟩

/-- The token loop of the burst branch of `pump_once`. All tokens of the burst
are already in the output of `seq`; `acc` is `acc_text`. -/
def burstLoop (tk : Tokenizer) (eos : Option Token) (seq : Sequence) :
    List Token → Text → Text → Option Token → Post
  | [], prev, acc, last => ⟨seq.outputIds,none,false,acc,last,prev⟩
  | tok :: toks, prev, acc, _ =>
      let r := applyStopAndLimits tk seq tok prev
      let full := detokenize tk r.outputIds
      let prev' := if seq.skipStreamingText then prev
        else if r.delta ≠ [] then prev ++ r.delta else if r.finished then full else prev
      let acc' := if seq.skipStreamingText then acc
        else if r.delta ≠ [] then acc ++ r.delta else if r.finished then full else acc
      if r.finished then
        if seq.skipStreamingText then ⟨r.outputIds,r.reason,true,full,r.emit,full⟩
        else ⟨r.outputIds,r.reason,true,acc',r.emit,prev'⟩
      else if seq.ignoreEos = false ∧ eos = some tok then
        if seq.skipStreamingText then ⟨seq.outputIds,some .stop,true,full,r.emit,full⟩
        else ⟨seq.outputIds,some .stop,true,acc',r.emit,prev'⟩
      else burstLoop tk eos seq toks prev' acc' r.emit

/-- The burst branch of `pump_once` after the tokens have been produced. -/
def postBurst (tk : Tokenizer) (eos : Option Token) (seq : Sequence) (toks : List Token)
    (prev : Text) : Post :=
  burstLoop tk eos seq toks prev [] none

def fresh (tk : Tokenizer) (q : Sequence) (ids : List Token) (prev : Text) : Text :=
  if q.skipStreamingText then [] else detokenizeDelta tk ids prev

section Output

variable {tk : Tokenizer} {q : Sequence} {t : Token} {prev : Text}

theorem finishWith_fresh (ids : List Token) (reason : FinishReason) (skip : Option Token)
    (emit : Text → Option Token) : ∃ e, finishWith tk q ids reason prev skip emit =
      ⟨ids,some reason,true,fresh tk q ids prev,e⟩ := by
  unfold finishWith fresh
  split_ifs <;> exact ⟨_,rfl⟩

theorem finishWith_output (ids : List Token) (reason : FinishReason) (skip : Option Token)
    (emit : Text → Option Token) : (finishWith tk q ids reason prev skip emit).outputIds = ids := by
  obtain ⟨e,he⟩ := @finishWith_fresh tk q prev ids reason skip emit
  rw [he]

theorem finishWith_reason (ids : List Token) (reason : FinishReason) (skip : Option Token)
    (emit : Text → Option Token) : (finishWith tk q ids reason prev skip emit).reason = some reason := by
  obtain ⟨e,he⟩ := @finishWith_fresh tk q prev ids reason skip emit
  rw [he]

theorem finishWith_finished (ids : List Token) (reason : FinishReason) (skip : Option Token)
    (emit : Text → Option Token) : (finishWith tk q ids reason prev skip emit).finished = true := by
  obtain ⟨e,he⟩ := @finishWith_fresh tk q prev ids reason skip emit
  rw [he]

theorem applyStopAndLimits_output (h : (applyStopAndLimits tk q t prev).reason = none) :
    (applyStopAndLimits tk q t prev).outputIds = q.outputIds := by
  unfold applyStopAndLimits at h ⊢
  by_cases h1 : q.cancelled = true
  · simp [h1]
  by_cases h2 : q.maxTokens = 0
  · simp [h1,h2] at h
  by_cases h3 : q.maxTokens < q.outputIds.length
  · simp [h1,h2,h3,finishWith_reason] at h
  by_cases h4 : q.maxTokens ≤ q.outputIds.length
  · simp [h1,h2,h3,h4,finishWith_reason] at h
  by_cases h5 : t ∈ q.stopTokenIds
  · simp [h1,h2,h3,h4,h5,finishWith_reason] at h
  simp only [h1,h2,h3,h4,h5,if_false] at h ⊢
  cases hs : stopScan (detokenize tk q.outputIds) q.stopStrings with
  | some limit => simp [hs,finishWith_reason] at h
  | none =>
    simp only
    split_ifs <;> rfl

theorem postToken_output (h : (postToken tk q t prev).reason = none) :
    (postToken tk q t prev).outputIds = q.outputIds := by
  unfold postToken at h ⊢
  simp only at h ⊢
  split_ifs at h ⊢ <;> exact applyStopAndLimits_output h

theorem burstLoop_output {eos : Option Token} {toks : List Token} {acc : Text} {last : Option Token}
    (h : (burstLoop tk eos q toks prev acc last).reason = none) :
    (burstLoop tk eos q toks prev acc last).outputIds = q.outputIds := by
  induction toks generalizing prev acc last with
  | nil => rfl
  | cons t toks ih =>
    rw [burstLoop] at h ⊢
    by_cases hf : (applyStopAndLimits tk q t prev).finished = true
    · rw [if_pos hf] at h ⊢
      split_ifs at h ⊢ <;> exact applyStopAndLimits_output h
    · rw [if_neg hf] at h ⊢
      by_cases he : q.ignoreEos = false ∧ eos = some t
      · rw [if_pos he] at h
        split_ifs at h
      · rw [if_neg he] at h ⊢
        exact ih h

theorem applyStopAndLimits_finished (h : q.cancelled = false) :
    (applyStopAndLimits tk q t prev).finished = (applyStopAndLimits tk q t prev).reason.isSome := by
  unfold applyStopAndLimits
  rw [if_neg (by simp [h])]
  by_cases h2 : q.maxTokens = 0
  · simp [h2]
  by_cases h3 : q.maxTokens < q.outputIds.length
  · simp [h2,h3,finishWith_reason,finishWith_finished]
  by_cases h4 : q.maxTokens ≤ q.outputIds.length
  · simp [h2,h3,h4,finishWith_reason,finishWith_finished]
  by_cases h5 : t ∈ q.stopTokenIds
  · simp [h2,h3,h4,h5,finishWith_reason,finishWith_finished]
  simp only [h2,h3,h4,h5,if_false]
  cases hs : stopScan (detokenize tk q.outputIds) q.stopStrings with
  | some limit => simp [finishWith_reason,finishWith_finished]
  | none =>
    simp only
    split_ifs <;> rfl

theorem postToken_finished (tk : Tokenizer) (t : Token) (prev : Text) (h : q.cancelled = false) :
    (postToken tk q t prev).finished = (postToken tk q t prev).reason.isSome := by
  have hr : (applyStopAndLimits tk q t prev).finished =
      (applyStopAndLimits tk q t prev).reason.isSome := applyStopAndLimits_finished h
  unfold postToken
  by_cases hk : q.skipStreamingText = true
  · cases hf : (applyStopAndLimits tk q t prev).finished with
    | true => simpa [hk,hf] using hr
    | false => simpa [hk,hf] using hr
  · simpa [hk] using hr

theorem burstLoop_finished {eos : Option Token} {toks : List Token} {acc : Text}
    {last : Option Token} (h : q.cancelled = false) :
    (burstLoop tk eos q toks prev acc last).finished =
      (burstLoop tk eos q toks prev acc last).reason.isSome := by
  induction toks generalizing prev acc last with
  | nil => rfl
  | cons t toks ih =>
    have hr : (applyStopAndLimits tk q t prev).finished =
      (applyStopAndLimits tk q t prev).reason.isSome := applyStopAndLimits_finished h
    rw [burstLoop]
    cases hf : (applyStopAndLimits tk q t prev).finished with
    | true =>
      rw [hf] at hr
      by_cases hk : q.skipStreamingText = true
      · simpa [hk] using hr
      · simpa [hk] using hr
    | false =>
      by_cases he : q.ignoreEos = false ∧ eos = some t
      · by_cases hk : q.skipStreamingText = true
        · simp [hk,he]
        · simp [hk,he]
      · simp only [Bool.false_eq_true,if_false,if_neg he]
        exact ih

/-- An end has a reason, unless the request was cancelled before. -/
structure Post.Spoken (q : Sequence) (p : Post) : Prop where
  going : p.finished = false → p.reason = none
  ended : p.finished = true → p.reason ≠ none ∨ q.cancelled = true

theorem postToken_spoken (tk : Tokenizer) (q : Sequence) (t : Token) (prev : Text) :
    (postToken tk q t prev).Spoken q := by
  cases hc : q.cancelled with
  | false =>
    have hf := postToken_finished tk t prev hc
    exact ⟨fun hn => by simpa [hn] using hf.symm,fun hn => .inl (by simpa [hn,Option.isSome_iff_ne_none] using hf)⟩
  | true =>
    refine ⟨fun hn => ?_,fun _ => .inr hc⟩
    simp [postToken,applyStopAndLimits,hc] at hn
    split_ifs at hn

theorem postBurst_spoken (tk : Tokenizer) (eos : Option Token) (q : Sequence) (toks : List Token)
    (prev : Text) : (postBurst tk eos q toks prev).Spoken q := by
  cases hc : q.cancelled with
  | false =>
    have hf : (burstLoop tk eos q toks prev [] none).finished =
        (burstLoop tk eos q toks prev [] none).reason.isSome := burstLoop_finished hc
    exact ⟨fun hn => by simpa [postBurst] using hf.symm.trans hn,
      fun hn => .inl (Option.isSome_iff_ne_none.mp (hf.symm.trans hn))⟩
  | true =>
    refine ⟨fun hn => ?_,fun _ => .inr hc⟩
    cases toks with
    | nil => rfl
    | cons t toks =>
      simp only [postBurst,burstLoop,applyStopAndLimits,hc,if_true] at hn
      split_ifs at hn

theorem length_trimTo (limit n : Nat) (ids : List Token) : (trimTo tk limit n ids).length ≤ ids.length := by
  induction n generalizing ids with
  | zero => exact Nat.le_refl _
  | succ n ih =>
    rw [trimTo]
    split_ifs
    · have := ih ids.dropLast
      rw [List.length_dropLast] at this
      omega
    · exact Nat.le_refl _

/-- The checks never lengthen an output, and go on only below the limit. -/
theorem applyStopAndLimits_fits (tk : Tokenizer) (q : Sequence) (t : Token) (prev : Text) :
    (applyStopAndLimits tk q t prev).outputIds.length ≤ q.outputIds.length ∧
      (q.cancelled = false → (applyStopAndLimits tk q t prev).finished = false →
        q.outputIds.length < q.maxTokens) := by
  unfold applyStopAndLimits
  by_cases h1 : q.cancelled = true
  · simp [h1]
  by_cases h2 : q.maxTokens = 0
  · simp [h1,h2]
  by_cases h3 : q.maxTokens < q.outputIds.length
  · simp [h1,h2,h3,finishWith_output,finishWith_finished]
  by_cases h4 : q.maxTokens ≤ q.outputIds.length
  · simp [h1,h2,h3,h4,finishWith_output,finishWith_finished]
  have hlt : q.outputIds.length < q.maxTokens := Nat.lt_of_not_le h4
  refine ⟨?_,fun _ _ => hlt⟩
  by_cases h5 : t ∈ q.stopTokenIds
  · simp only [if_neg h1,if_neg h2,if_neg h3,if_neg h4,if_pos h5]
    rw [finishWith_output]
    split_ifs
    · exact List.length_dropLast ▸ Nat.sub_le _ 1
    · exact Nat.le_refl _
  simp only [h1,h2,h3,h4,h5,if_false]
  cases stopScan (detokenize tk q.outputIds) q.stopStrings with
  | some limit => simpa [finishWith_output] using length_trimTo limit _ q.outputIds
  | none =>
    simp only
    split_ifs <;> exact Nat.le_refl _

structure Post.Fits (q : Sequence) (p : Post) : Prop where
  shorter : p.outputIds.length ≤ q.outputIds.length
  room : q.cancelled = false → p.reason = none → q.outputIds.length < q.maxTokens

theorem postToken_reason (tk : Tokenizer) (q : Sequence) (t : Token) (prev : Text) :
    (postToken tk q t prev).reason = (applyStopAndLimits tk q t prev).reason := by
  unfold postToken
  simp only
  split_ifs <;> rfl

theorem postToken_fits (tk : Tokenizer) (q : Sequence) (t : Token) (prev : Text) :
    (postToken tk q t prev).Fits q := by
  obtain ⟨hle,hroom⟩ := applyStopAndLimits_fits tk q t prev
  refine ⟨?_,fun hc hr => hroom hc ?_⟩
  · unfold postToken
    simp only
    split_ifs <;> exact hle
  · rw [postToken_reason] at hr
    rw [applyStopAndLimits_finished hc,hr]
    rfl

theorem burstLoop_fits (tk : Tokenizer) (eos : Option Token) (q : Sequence) (toks : List Token)
    (prev acc : Text) (last : Option Token) :
    (burstLoop tk eos q toks prev acc last).outputIds.length ≤ q.outputIds.length ∧
      (toks ≠ [] → q.cancelled = false → (burstLoop tk eos q toks prev acc last).reason = none →
        q.outputIds.length < q.maxTokens) := by
  induction toks generalizing prev acc last with
  | nil => exact ⟨Nat.le_refl _,fun h => absurd rfl h⟩
  | cons t toks ih =>
    obtain ⟨hle,hroom⟩ := applyStopAndLimits_fits tk q t prev
    rw [burstLoop]
    cases hf : (applyStopAndLimits tk q t prev).finished with
    | true =>
      refine ⟨?_,fun _ hc hr => ?_⟩
      · simp only [if_true]
        split_ifs <;> exact hle
      · have hsome := @applyStopAndLimits_finished tk q t prev hc
        rw [hf] at hsome
        have hr' : (applyStopAndLimits tk q t prev).reason = none := by
          simp only [if_true] at hr
          split_ifs at hr <;> exact hr
        rw [hr'] at hsome
        cases hsome
    | false =>
      refine ⟨?_,fun _ hc _ => hroom hc hf⟩
      simp only [Bool.false_eq_true,if_false]
      by_cases he : q.ignoreEos = false ∧ eos = some t
      · rw [if_pos he]
        split_ifs <;> exact Nat.le_refl _
      · rw [if_neg he]
        exact (ih _ _ _).1

theorem postBurst_fits (tk : Tokenizer) (eos : Option Token) (q : Sequence) (t : Token)
    (toks : List Token) (prev : Text) : (postBurst tk eos q (t :: toks) prev).Fits q :=
  ⟨(burstLoop_fits tk eos q (t :: toks) prev [] none).1,
    (burstLoop_fits tk eos q (t :: toks) prev [] none).2 (by simp)⟩

theorem applyStopAndLimits_reason (tk : Tokenizer) (q : Sequence) (t : Token) (prev : Text) :
    (applyStopAndLimits tk q t prev).reason ≠ some .error := by
  unfold applyStopAndLimits
  split_ifs
  · simp
  · simp
  · simp [finishWith_reason]
  · simp [finishWith_reason]
  · simp [finishWith_reason]
  · simp [finishWith_reason]
  · split <;> simp [finishWith_reason]
  · split <;> simp [finishWith_reason]

theorem burstLoop_reason (tk : Tokenizer) (eos : Option Token) (q : Sequence) (toks : List Token)
    (prev acc : Text) (last : Option Token) :
    (burstLoop tk eos q toks prev acc last).reason ≠ some .error := by
  induction toks generalizing prev acc last with
  | nil => simp [burstLoop]
  | cons t toks ih =>
    have hcheck := applyStopAndLimits_reason tk q t prev
    rw [burstLoop]
    by_cases hf : (applyStopAndLimits tk q t prev).finished = true
    · rw [if_pos hf]
      split_ifs <;> exact hcheck
    · rw [if_neg hf]
      by_cases he : q.ignoreEos = false ∧ eos = some t
      · rw [if_pos he]
        split_ifs <;> simp
      · rw [if_neg he]
        exact ih _ _ _

end Output

end SglangLite.Text
