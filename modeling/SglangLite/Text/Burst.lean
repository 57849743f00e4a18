import SglangLite.Sched.Scheduler
import SglangLite.Text.Window

set_option autoImplicit false

namespace SglangLite.Text
open Kv Sched

/-- What a run with a single request depends on: the tokenizer, the greedy
model, and whether the burst path is the one that breaks at the end-of-sequence
token even for `ignore_eos`. -/
structure Solo where
  d : Decoder
  next : List Token → Token
  eos : Option Token
  breaksAlways : Bool

namespace Solo

variable (m : Solo)

/-- `run_decode_burst` with `n` steps after the tokens `ts`. -/
def decodeBurst (ignoreEos : Bool) : Nat → List Token → List Token
  | 0, _ => []
  | n+1, ts =>
      let t := m.next ts
      t :: if decide (m.eos = some t) && (!ignoreEos || m.breaksAlways) then []
        else decodeBurst ignoreEos n (ts ++ [t])

/-- The tokens of a burst step: the one of `run_batch` and those of
`run_decode_burst`. -/
def burstTokens (k : Nat) (q : Sequence) : List Token :=
  let extra := min (q.maxTokens-q.outputIds.length-1) (k-1)
  m.next q.tokens :: m.decodeBurst q.ignoreEos extra (q.tokens ++ [m.next q.tokens])

/-- `pump_once` with burst length `k`; a step that prefills does not burst. -/
def pumpOnce (k : Nat) (prefill : Bool) (c : Served) : Served :=
  if k ≤ 1 ∨ prefill then c.token m.d.tokenizer (m.next c.seq.tokens)
  else c.burst m.d.tokenizer m.eos (m.burstTokens k c.seq)

/-- Pump until the request is over, `fuel` times at most. Only the first step
can be a prefill. -/
def pump (k : Nat) : Nat → Bool → Served → Served
  | 0, _, c => c
  | fuel+1, prefill, c =>
      if c.seq.finished then c else pump k fuel false (m.pumpOnce k prefill c)

/-- The request after its admission, with `cached` tokens of the prompt in the
cache, of which `hit` are counted as cache hit tokens. -/
def enter (r : Request) (cached hit : Nat) : Served :=
  { seq := { r.sequence m.eos with cachedLen := cached, cacheHitTokens := hit } }

/-- A run with burst length `k`. After an exact prefix hit there is nothing to
prefill. -/
def run (k : Nat) (r : Request) (cached hit : Nat) : Served :=
  m.pump k r.maxTokens
    (decide (0 < Scheduler.remainingPrompt (m.enter r cached hit).seq)) (m.enter r cached hit)

end Solo

structure Outcome where
  outputIds : List Token
  finishReason : FinishReason
  usage : Usage
  text : Text
  deriving DecidableEq, Repr

def Served.outcome (c : Served) : Option Outcome :=
  match c.frames.getLast? with
  | some ⟨_,_,some reason,some u,_,some ids⟩ => some ⟨ids,reason,u,c.text⟩
  | _ => none

section Checks

variable {d : Decoder} {q : Sequence} {ids toks : List Token} {t : Token} {prev : Text}

def delta (d : Decoder) (q : Sequence) (ids : List Token) (prev : Text) : Text :=
  if q.skipStreamingText then [] else detokenizeDelta d.tokenizer ids prev

theorem finishWith_eq (ids : List Token) (reason : FinishReason) (skip : Option Token)
    (emit : Text → Option Token) : ∃ e, finishWith d.tokenizer q ids reason prev skip emit =
      ⟨ids,some reason,true,delta d q ids prev,e⟩ := finishWith_fresh ids reason skip emit

theorem applyStopAndLimits_go (prev : Text) (ho : Open q) (hl : ids.length < q.maxTokens)
    (ht : t ∉ q.stopTokenIds) (hs : stopScan (d.decode ids) q.stopStrings = none) :
    applyStopAndLimits d.tokenizer { q with outputIds := ids } t prev =
      ⟨ids,none,false,delta d q ids prev,some t⟩ := by
  simp only [applyStopAndLimits,ho.uncancelled,ho.limit,Nat.not_lt.mpr (Nat.le_of_lt hl),
    Nat.not_le.mpr hl,ht,Decoder.detokenize_eq,hs,delta,if_false,Bool.false_eq_true]
  split_ifs <;> rfl

theorem applyStopAndLimits_length (ids : List Token) (ho : Open q) (hl : ids.length = q.maxTokens) :
    ∃ e, applyStopAndLimits d.tokenizer { q with outputIds := ids } t prev =
      ⟨ids,some .length,true,delta d q ids prev,e⟩ := by
  simp only [applyStopAndLimits,ho.uncancelled,ho.limit,hl,Nat.lt_irrefl,Nat.le_refl,if_false,
    if_true,Bool.false_eq_true]
  exact finishWith_eq _ _ _ _

theorem applyStopAndLimits_token (ids : List Token) (ho : Open q)
    (hl : (ids ++ [t]).length < q.maxTokens) (ht : t ∈ q.stopTokenIds) :
    ∃ e, applyStopAndLimits d.tokenizer { q with outputIds := ids ++ [t] } t prev =
      ⟨ids,some .stop,true,delta d q ids prev,e⟩ := by
  simp only [applyStopAndLimits,ho.uncancelled,ho.limit,Nat.not_lt.mpr (Nat.le_of_lt hl),
    Nat.not_le.mpr hl,ht,if_false,if_true,Bool.false_eq_true,List.getLast?_concat,
    List.dropLast_concat]
  exact finishWith_eq _ _ _ _

theorem applyStopAndLimits_string {limit : Nat} (ho : Open q) (hl : ids.length < q.maxTokens)
    (ht : t ∉ q.stopTokenIds) (hs : stopScan (d.decode ids) q.stopStrings = some limit) :
    ∃ e, applyStopAndLimits d.tokenizer { q with outputIds := ids } t prev =
      ⟨trimTo d.tokenizer limit ids.length ids,some .stop,true,
        delta d q (trimTo d.tokenizer limit ids.length ids) prev,e⟩ := by
  simp only [applyStopAndLimits,ho.uncancelled,ho.limit,Nat.not_lt.mpr (Nat.le_of_lt hl),
    Nat.not_le.mpr hl,ht,Decoder.detokenize_eq,hs,if_false,Bool.false_eq_true]
  exact finishWith_eq _ _ _ _

theorem findText_le {s : Text} (full : Text) {i : Nat} (h : findText s full = some i) :
    i+s.length ≤ full.length := by
  induction full generalizing i with
  | nil =>
    simp only [findText] at h
    split_ifs at h with hs
    · obtain rfl := Option.some.inj h
      simp [hs]
  | cons c cs ih =>
    simp only [findText] at h
    split_ifs at h with hp
    · obtain rfl := Option.some.inj h
      have := hp.length_le
      omega
    · obtain ⟨j,hj,rfl⟩ := Option.map_eq_some_iff.mp h
      have := ih hj
      simp only [List.length_cons]
      omega

theorem stopScan_lt {full : Text} {ss : List Text} {limit : Nat}
    (h : stopScan full ss = some limit) : limit < full.length := by
  induction ss with
  | nil => simp [stopScan] at h
  | cons s ss ih =>
    simp only [stopScan] at h
    split_ifs at h with hs
    · exact ih h
    · cases hf : findText s full with
      | none => exact ih (by simpa [hf] using h)
      | some i =>
        obtain rfl : i = limit := by simpa [hf] using h
        have := findText_le full hf
        have := List.length_pos_iff.mpr hs
        omega

theorem trimTo_append {limit : Nat} (post : List Token) (hlt : limit < (d.decode ids).length) :
    trimTo d.tokenizer limit (ids ++ post).length (ids ++ post) =
      trimTo d.tokenizer limit ids.length ids := by
  induction post using List.reverseRecOn with
  | nil => rw [List.append_nil]
  | append_singleton post x ih =>
    have hlong : limit < (detokenize d.tokenizer (ids ++ (post ++ [x]))).length := by
      rw [Decoder.detokenize_eq,d.append,List.length_append]
      omega
    rw [← List.append_assoc,List.length_append,List.length_singleton,trimTo,
      if_pos ⟨by simp,by simpa using hlong⟩,List.dropLast_concat,ih]

theorem trimTo_concat {limit : Nat} (hle : (d.decode ids).length ≤ limit)
    (hlt : limit < (d.decode (ids ++ [t])).length) :
    trimTo d.tokenizer limit (ids ++ [t]).length (ids ++ [t]) = ids := by
  rw [List.length_append,List.length_singleton,trimTo,if_pos ⟨by simp,hlt⟩,List.dropLast_concat]
  cases hn : ids.length with
  | zero => rfl
  | succ n => rw [trimTo,if_neg (fun h => absurd h.2 (by simpa using hle))]

end Checks

section Steps

variable {d : Decoder} {eos : Option Token} {q : Sequence} {ids toks : List Token} {t : Token}
  {c : Served}

/-- The request has the output `ids`, and all its text has been streamed if
the request streams text. -/
structure At (d : Decoder) (q : Sequence) (ids : List Token) (c : Served) : Prop where
  seq : c.seq = { q with outputIds := ids }
  prev : q.skipStreamingText = false → c.prev = d.decode ids
  text : c.text = if q.skipStreamingText then [] else d.decode ids

structure Ended (d : Decoder) (q : Sequence) (ids : List Token) (reason : FinishReason)
    (c : Served) : Prop where
  finished : c.seq.finished = true
  outcome : c.outcome = some ⟨ids,reason,usage { q with outputIds := ids },d.decode ids⟩

structure Goes (d : Decoder) (q : Sequence) (ids : List Token) (t : Token) : Prop where
  limit : ids.length+1 < q.maxTokens
  token : t ∉ q.stopTokenIds
  string : stopScan (d.decode (ids ++ [t])) q.stopStrings = none
  streamed : q.skipStreamingText = false → ¬ WindowRepeats d ids t

theorem ended_put {p : Post} {ids' : List Token} {reason : FinishReason}
    (hp : p.outputIds = ids ∧ p.reason = some reason ∧ p.finished = true)
    (ht : c.text ++ p.text = d.decode ids) :
    Ended d q ids reason (c.put { q with outputIds := ids' } p) := by
  obtain ⟨hids,hr,hf⟩ := hp
  refine ⟨by simp [Served.put,settle,hr,finish],?_⟩
  have htext := Served.text_put c { q with outputIds := ids' } p
  rw [ht] at htext
  have hframe : p.frame (settle { q with outputIds := ids' } p) =
      ⟨p.text,p.token,some reason,some (usage { q with outputIds := ids }),none,some ids⟩ := by
    simp [Post.frame,settle,hr,hf,finish,hids,usage]
  unfold Served.outcome
  rw [htext]
  simp only [Served.put,List.getLast?_concat,hframe]

theorem at_put {p : Post} {ids' : List Token} (hp : p.outputIds = ids ∧ p.reason = none)
    (hprev : q.skipStreamingText = false → p.prevText = d.decode ids)
    (ht : c.text ++ p.text = if q.skipStreamingText then [] else d.decode ids) :
    At d q ids (c.put { q with outputIds := ids' } p) :=
  ⟨by simp [Served.put,settle,hp.1,hp.2],hprev,by rw [Served.text_put,ht]⟩

theorem At.token_eq (h : At d q ids c) (ho : Open q) :
    c.token d.tokenizer t = c.put { q with outputIds := ids ++ [t] }
      (postToken d.tokenizer { q with outputIds := ids ++ [t] } t c.prev) := by
  have hlive : c.seq.finished = false := by rw [h.seq]; exact ho.live
  rw [Served.token,if_neg (by simp [hlive]),h.seq]

theorem At.go_token (h : At d q ids c) (ho : Open q) (hg : Goes d q ids t) :
    At d q (ids ++ [t]) (c.token d.tokenizer t) := by
  have hcheck := applyStopAndLimits_go (d := d) c.prev ho
    (by simpa using hg.limit) hg.token hg.string
  rw [h.token_eq ho]
  unfold postToken
  simp only [hcheck]
  by_cases hk : q.skipStreamingText = true
  · rw [if_pos hk]
    exact at_put ⟨rfl,rfl⟩ (by simp [hk]) (by simp [h.text,hk])
  · rw [Bool.not_eq_true] at hk
    have hd : delta d q (ids ++ [t]) (d.decode ids) = d.decode [t] := by
      rw [delta,if_neg (by simp [hk])]
      exact (detokenizeDelta_next ids t).mpr (hg.streamed hk)
    rw [if_neg (by simp [hk]),h.prev hk,hd]
    refine at_put ⟨rfl,rfl⟩ (fun _ => ?_) (by simp [h.text,hk,d.append])
    simp only [d.append]
    by_cases hn : d.decode [t] = []
    · simp [hn]
    · simp [hn]

theorem At.finish_token {kept : List Token} {reason : FinishReason} {e : Option Token} {δ : Text}
    (h : At d q ids c) (ho : Open q)
    (hr : applyStopAndLimits d.tokenizer { q with outputIds := ids ++ [t] } t c.prev =
      ⟨kept,some reason,true,δ,e⟩)
    (ht : q.skipStreamingText = false → d.decode ids ++ δ = d.decode kept) :
    Ended d q kept reason (c.token d.tokenizer t) := by
  rw [h.token_eq ho]
  unfold postToken
  simp only [hr]
  by_cases hk : q.skipStreamingText = true
  · rw [if_pos hk]
    exact ended_put ⟨rfl,rfl,rfl⟩ (by simp [h.text,hk])
  · rw [Bool.not_eq_true] at hk
    rw [if_neg (by simp [hk])]
    exact ended_put ⟨rfl,rfl,rfl⟩ (by simp [h.text,hk,ht hk])

def GoesAll (d : Decoder) (q : Sequence) : List Token → List Token → Prop
  | _, [] => True
  | ids, t :: toks => Goes d q ids t ∧ GoesAll d q (ids ++ [t]) toks

/-- One `detokenize_delta` over several new tokens gives their text. -/
def DeltaExact (d : Decoder) (q : Sequence) (ids toks : List Token) : Prop :=
  q.skipStreamingText = false →
    detokenizeDelta d.tokenizer (ids ++ toks) (d.decode ids) = d.decode toks

/-- The last burst has text of its own, or nothing was streamed before it. -/
def FreshText (d : Decoder) (q : Sequence) (ids toks : List Token) : Prop :=
  q.skipStreamingText = false → d.decode toks ≠ [] ∨ d.decode ids = []

/-- The bursts that end like single steps. -/
inductive BurstFits (d : Decoder) (q : Sequence) (ids : List Token) : List Token → Prop
  | on {toks : List Token} (hg : GoesAll d q ids toks) (hd : DeltaExact d q ids toks) :
      BurstFits d q ids toks
  | length {toks : List Token} {t : Token} (hg : GoesAll d q ids toks)
      (hl : (ids ++ toks).length+1 = q.maxTokens)
      (hw : q.skipStreamingText = false → ¬ WindowRepeats d (ids ++ toks) t)
      (hd : DeltaExact d q ids (toks ++ [t])) (hf : FreshText d q ids (toks ++ [t])) :
      BurstFits d q ids (toks ++ [t])
  | stopToken {toks : List Token} {t : Token} (hg : GoesAll d q ids toks) (hne : toks ≠ [])
      (hl : (ids ++ toks).length+1 < q.maxTokens) (ht : t ∈ q.stopTokenIds)
      (hs : stopScan (d.decode (ids ++ (toks ++ [t]))) q.stopStrings = none)
      (hd : DeltaExact d q ids (toks ++ [t]))
      (hf : q.skipStreamingText = false → d.decode ids = [] ∧
        detokenizeDelta d.tokenizer (ids ++ toks) (d.decode (ids ++ (toks ++ [t]))) = []) :
      BurstFits d q ids (toks ++ [t])
  | stopString {toks post : List Token} {t : Token} {limit : Nat} (hg : GoesAll d q ids toks)
      (hl : (ids ++ (toks ++ t :: post)).length < q.maxTokens) (ht : t ∉ q.stopTokenIds)
      (hs : stopScan (d.decode (ids ++ toks ++ [t])) q.stopStrings = some limit)
      (hs' : stopScan (d.decode (ids ++ (toks ++ t :: post))) q.stopStrings = some limit)
      (hle : q.skipStreamingText = false → (d.decode (ids ++ toks)).length ≤ limit)
      (hd : DeltaExact d q ids toks) (hf : FreshText d q ids toks) :
      BurstFits d q ids (toks ++ t :: post)

section Loop

variable {all : List Token} {prev acc : Text} {last : Option Token}

theorem burstLoop_go (toks : List Token) (prev acc : Text) (last : Option Token) (ho : Open q)
    (heos : q.ignoreEos = false → eos = some t → t ∈ q.stopTokenIds)
    (hl : all.length < q.maxTokens) (ht : t ∉ q.stopTokenIds)
    (hs : stopScan (d.decode all) q.stopStrings = none) :
    burstLoop d.tokenizer eos { q with outputIds := all } (t :: toks) prev acc last =
      burstLoop d.tokenizer eos { q with outputIds := all } toks (prev ++ delta d q all prev)
        (acc ++ delta d q all prev) (some t) := by
  have hno : ¬ (q.ignoreEos = false ∧ eos = some t) := fun h => ht (heos h.1 h.2)
  rw [burstLoop]
  simp only [applyStopAndLimits_go _ ho hl ht hs,if_neg hno,Bool.false_eq_true,if_false]
  by_cases hk : q.skipStreamingText = true
  · simp [delta,hk]
  · by_cases hn : delta d q all prev = []
    · simp [hk,hn]
    · simp [hk,hn]

/-- Once the text of the whole burst has been taken, the other tokens add
nothing. -/
theorem burstLoop_quiet {rest : List Token} (prev : Text) (ho : Open q)
    (heos : ∀ t, q.ignoreEos = false → eos = some t → t ∈ q.stopTokenIds)
    (hl : all.length < q.maxTokens) (ht : ∀ t ∈ toks, t ∉ q.stopTokenIds)
    (hs : stopScan (d.decode all) q.stopStrings = none)
    (hp : q.skipStreamingText = false → prev = d.decode all) :
    ∃ last', burstLoop d.tokenizer eos { q with outputIds := all } (toks ++ rest) prev acc last =
      burstLoop d.tokenizer eos { q with outputIds := all } rest prev acc last' := by
  have hd : delta d q all prev = [] := by
    unfold delta
    split_ifs with hk
    · rfl
    · rw [hp (by simpa using hk)]
      exact detokenizeDelta_same all
  induction toks generalizing last with
  | nil => exact ⟨last,rfl⟩
  | cons t toks ih =>
    rw [List.cons_append,burstLoop_go _ _ _ _ ho (heos t) hl (ht t (by simp)) hs,hd,List.append_nil,
      List.append_nil]
    exact ih fun x hx => ht x (List.mem_cons_of_mem t hx)

theorem burstLoop_finish {kept : List Token} {reason : FinishReason} {e : Option Token} {δ : Text}
    (hr : applyStopAndLimits d.tokenizer { q with outputIds := all } t prev =
      ⟨kept,some reason,true,δ,e⟩) :
    ∃ pr, burstLoop d.tokenizer eos { q with outputIds := all } (t :: toks) prev acc last =
      ⟨kept,some reason,true,if q.skipStreamingText then d.decode kept
        else if δ ≠ [] then acc ++ δ else d.decode kept,e,pr⟩ := by
  rw [burstLoop]
  simp only [hr,if_true]
  by_cases hk : q.skipStreamingText = true
  · simp [hk]
  · simp [hk]

end Loop

theorem At.burst_eq (h : At d q ids c) (ho : Open q) :
    c.burst d.tokenizer eos toks = c.put { q with outputIds := ids ++ toks }
      (postBurst d.tokenizer eos { q with outputIds := ids ++ toks } toks c.prev) := by
  have hlive : c.seq.finished = false := by rw [h.seq]; exact ho.live
  rw [Served.burst,if_neg (by simp [hlive]),h.seq]

theorem GoesAll.append_iff (toks' : List Token) :
    GoesAll d q ids (toks ++ toks') ↔ GoesAll d q ids toks ∧ GoesAll d q (ids ++ toks) toks' := by
  induction toks generalizing ids with
  | nil => simp [GoesAll]
  | cons t toks ih => simp [GoesAll,ih,and_assoc]

theorem GoesAll.mem (h : GoesAll d q ids toks) : ∀ t ∈ toks, t ∉ q.stopTokenIds := by
  induction toks generalizing ids with
  | nil => simp
  | cons t toks ih =>
    intro x hx
    rcases List.mem_cons.mp hx with rfl | hx
    · exact h.1.token
    · exact ih h.2 x hx

theorem GoesAll.last (h : GoesAll d q ids toks) (hne : toks ≠ []) :
    (ids ++ toks).length < q.maxTokens ∧
      stopScan (d.decode (ids ++ toks)) q.stopStrings = none := by
  obtain ⟨toks,t,rfl⟩ := List.eq_nil_or_concat toks |>.resolve_left hne
  rw [List.concat_eq_append] at h ⊢
  obtain ⟨_,hlast⟩ := (GoesAll.append_iff [t]).mp h
  rw [← List.append_assoc]
  exact ⟨by simpa [Nat.add_assoc] using hlast.1.limit,hlast.1.string⟩

theorem delta_of_exact (h : At d q ids c) (hd : DeltaExact d q ids toks)
    (hk : q.skipStreamingText = false) : delta d q (ids ++ toks) c.prev = d.decode toks := by
  rw [delta,if_neg (by simp [hk]),h.prev hk]
  exact hd hk

theorem At.burst_first (h : At d q ids c) (ho : Open q)
    (heos : ∀ t, q.ignoreEos = false → eos = some t → t ∈ q.stopTokenIds)
    (rest : List Token) (hne : toks ≠ []) (ht : ∀ t ∈ toks, t ∉ q.stopTokenIds)
    (hl : (ids ++ (toks ++ rest)).length < q.maxTokens)
    (hs : stopScan (d.decode (ids ++ (toks ++ rest))) q.stopStrings = none)
    (hd : DeltaExact d q ids (toks ++ rest)) :
    ∃ prev acc last, postBurst d.tokenizer eos { q with outputIds := ids ++ (toks ++ rest) }
          (toks ++ rest) c.prev =
        burstLoop d.tokenizer eos { q with outputIds := ids ++ (toks ++ rest) } rest prev acc last ∧
      (q.skipStreamingText = false → prev = d.decode (ids ++ (toks ++ rest))) ∧
        acc = if q.skipStreamingText then [] else d.decode (toks ++ rest) := by
  cases toks with
  | nil => exact absurd rfl hne
  | cons t toks =>
    have hgo := burstLoop_go (toks ++ rest) c.prev [] none
      ho (heos t) hl (ht t (by simp)) hs
    obtain ⟨last,hq⟩ := burstLoop_quiet (d := d) (q := q)
      (c.prev ++ delta d q (ids ++ (t :: toks ++ rest)) c.prev) ho heos hl
      (fun x hx => ht x (List.mem_cons_of_mem t hx)) hs (fun hk => by
        rw [delta_of_exact h hd hk,h.prev hk,d.append ids])
    refine ⟨_,_,last,hgo.trans hq,fun hk => ?_,?_⟩
    · rw [delta_of_exact h hd hk,h.prev hk,d.append ids]
    · by_cases hk : q.skipStreamingText = true
      · simp [delta,hk]
      · rw [if_neg hk,delta_of_exact h hd (by simpa using hk),List.nil_append]

theorem At.go_burst (h : At d q ids c) (ho : Open q)
    (heos : ∀ t, q.ignoreEos = false → eos = some t → t ∈ q.stopTokenIds) (hne : toks ≠ [])
    (hg : GoesAll d q ids toks) (hd : DeltaExact d q ids toks) :
    At d q (ids ++ toks) (c.burst d.tokenizer eos toks) := by
  obtain ⟨hl,hs⟩ := hg.last hne
  obtain ⟨prev,acc,last,hpost,hprev,hacc⟩ := h.burst_first ho heos [] hne hg.mem
    (by simpa using hl) (by simpa using hs) (by simpa using hd)
  simp only [List.append_nil] at hpost hprev hacc
  rw [h.burst_eq ho,hpost]
  refine at_put ⟨rfl,rfl⟩ hprev ?_
  simp only [burstLoop,hacc,h.text]
  split_ifs
  · rfl
  · rw [d.append]

theorem At.finish_burst {kept : List Token} {reason : FinishReason} {e : Option Token} {δ : Text}
    (h : At d q ids c) (ho : Open q)
    (hr : applyStopAndLimits d.tokenizer { q with outputIds := ids ++ t :: toks } t c.prev =
      ⟨kept,some reason,true,δ,e⟩)
    (ht : q.skipStreamingText = false →
      d.decode ids ++ (if δ ≠ [] then δ else d.decode kept) = d.decode kept) :
    Ended d q kept reason (c.burst d.tokenizer eos (t :: toks)) := by
  obtain ⟨pr,hpost⟩ := burstLoop_finish hr
  rw [h.burst_eq ho,postBurst,hpost]
  refine ended_put ⟨rfl,rfl,rfl⟩ ?_
  by_cases hk : q.skipStreamingText = true
  · simp [h.text,hk]
  · have := ht (by simpa using hk)
    simpa [h.text,hk] using this

/-- A fitting burst either goes on, or ends the request at one of its tokens
exactly as single steps do. -/
theorem BurstFits.sound (hf : BurstFits d q ids toks) (ho : Open q)
    (heos : ∀ t, q.ignoreEos = false → eos = some t → t ∈ q.stopTokenIds) (hne : toks ≠ [])
    (h : At d q ids c) :
    (GoesAll d q ids toks ∧ At d q (ids ++ toks) (c.burst d.tokenizer eos toks)) ∨
      ∃ p t post kept reason, toks = p ++ t :: post ∧ GoesAll d q ids p ∧
        Ended d q kept reason (c.burst d.tokenizer eos toks) ∧
          ∀ c', At d q (ids ++ p) c' → Ended d q kept reason (c'.token d.tokenizer t) := by
  cases hf with
  | on hg hd => exact .inl ⟨hg,h.go_burst ho heos hne hg hd⟩
  | @length p t hg hl hw hd hfresh =>
    refine .inr ⟨p,t,[],ids ++ (p ++ [t]),.length,rfl,hg,?_,fun c' h' => ?_⟩
    · obtain ⟨x,rest,hx⟩ := List.exists_cons_of_ne_nil hne
      obtain ⟨e,hr⟩ := applyStopAndLimits_length (d := d) (t := x) (ids ++ (p ++ [t]))
        ho (by simpa [Nat.add_assoc] using hl)
      rw [hx] at hr hd hfresh ⊢
      refine h.finish_burst ho hr (fun hk => ?_)
      rw [delta_of_exact h hd hk,d.append]
      rcases hfresh hk with hn | hn
      · simp [hn]
      · by_cases hz : d.decode (x :: rest) = [] <;> simp [hn,hz]
    · obtain ⟨e,hr⟩ := applyStopAndLimits_length (d := d) (t := t) (ids ++ p ++ [t])
        ho (by simpa [Nat.add_assoc] using hl)
      rw [← List.append_assoc]
      refine h'.finish_token ho hr (fun hk => ?_)
      rw [delta,if_neg (by simp [hk]),h'.prev hk,(detokenizeDelta_next _ t).mpr (hw hk),← d.append]
  | @stopToken p t hg hp hl ht hs hd hfresh =>
    refine .inr ⟨p,t,[],ids ++ p,.stop,rfl,hg,?_,fun c' h' => ?_⟩
    · obtain ⟨prev,acc,last,hpost,hprev,hacc⟩ := h.burst_first ho heos _ hp hg.mem
        (by simpa [Nat.add_assoc] using hl) hs hd
      obtain ⟨e,hr⟩ := applyStopAndLimits_token (d := d) (ids ++ p) ho
        (by simpa [Nat.add_assoc] using hl) ht
      rw [List.append_assoc] at hr
      obtain ⟨pr,hend⟩ := burstLoop_finish hr
      rw [h.burst_eq ho,hpost,hend]
      refine ended_put ⟨rfl,rfl,rfl⟩ ?_
      by_cases hk : q.skipStreamingText = true
      · simp [h.text,hk]
      · have hk' : q.skipStreamingText = false := by simpa using hk
        obtain ⟨hnil,hlast⟩ := hfresh hk'
        have hd0 : delta d q (ids ++ p) prev = [] := by
          rw [delta,if_neg hk,hprev hk']
          exact hlast
        simp [h.text,hk,hd0,hnil]
    · obtain ⟨e,hr⟩ := applyStopAndLimits_token (d := d) (ids ++ p) ho
        (by simpa [Nat.add_assoc] using hl) ht
      refine h'.finish_token ho hr (fun hk => ?_)
      rw [delta,if_neg (by simp [hk]),h'.prev hk,detokenizeDelta_same,List.append_nil]
  | @stopString p post t limit hg hl ht hs hs' hle hd hfresh =>
    have hlt := stopScan_lt hs
    have hkept : trimTo d.tokenizer limit (ids ++ (p ++ t :: post)).length (ids ++ (p ++ t :: post)) =
        trimTo d.tokenizer limit (ids ++ p ++ [t]).length (ids ++ p ++ [t]) := by
      rw [show ids ++ (p ++ t :: post) = ids ++ p ++ [t] ++ post by simp]
      exact trimTo_append post hlt
    have hkeep : q.skipStreamingText = false →
        trimTo d.tokenizer limit (ids ++ p ++ [t]).length (ids ++ p ++ [t]) = ids ++ p :=
      fun hk => trimTo_concat (hle hk) hlt
    refine .inr ⟨p,t,post,trimTo d.tokenizer limit (ids ++ p ++ [t]).length (ids ++ p ++ [t]),.stop,
      rfl,hg,?_,fun c' h' => ?_⟩
    · obtain ⟨x,rest,hx⟩ := List.exists_cons_of_ne_nil hne
      have hxs : x ∉ q.stopTokenIds := by
        cases p with
        | nil =>
          obtain rfl := (List.cons.inj hx).1
          exact ht
        | cons y p =>
          obtain rfl := (List.cons.inj hx).1
          exact hg.1.token
      obtain ⟨e,hr⟩ := applyStopAndLimits_string (d := d) (t := x) ho hl hxs hs'
      rw [hkept] at hr
      rw [hx] at hr ⊢
      refine h.finish_burst ho hr (fun hk => ?_)
      rw [hkeep hk,delta_of_exact h hd hk,d.append]
      rcases hfresh hk with hn | hn
      · simp [hn]
      · by_cases hz : d.decode p = [] <;> simp [hn,hz]
    · obtain ⟨e,hr⟩ := applyStopAndLimits_string (d := d) (t := t) ho
        (by simp at hl ⊢; omega) ht hs
      refine h'.finish_token ho hr (fun hk => ?_)
      rw [hkeep hk,delta,if_neg (by simp [hk]),h'.prev hk,detokenizeDelta_same,List.append_nil]

end Steps

namespace Solo

section Run

variable {m : Solo} {q : Sequence} {ids toks : List Token} {c c' : Served} {k : Nat}

def Fits (m : Solo) (k : Nat) (q : Sequence) : Nat → Bool → Served → Prop
  | 0, _, _ => True
  | fuel+1, prefill, c => c.seq.finished = false →
      (prefill = false → BurstFits m.d q c.seq.outputIds (m.burstTokens k c.seq)) ∧
        Fits m k q fuel false (m.pumpOnce k prefill c)

def Greedy (m : Solo) : List Token → List Token → Prop
  | _, [] => True
  | ts, t :: toks => t = m.next ts ∧ Greedy m (ts ++ [t]) toks

theorem greedy_decodeBurst (ignoreEos : Bool) (n : Nat) (ts : List Token) :
    m.Greedy ts (m.decodeBurst ignoreEos n ts) := by
  induction n generalizing ts with
  | zero => trivial
  | succ n ih =>
    refine ⟨rfl,?_⟩
    split_ifs
    · trivial
    · exact ih _

theorem greedy_append (ts : List Token) (toks' : List Token) :
    m.Greedy ts (toks ++ toks') ↔ m.Greedy ts toks ∧ m.Greedy (ts ++ toks) toks' := by
  induction toks generalizing ts with
  | nil => simp [Greedy]
  | cons t toks ih => simp [Greedy,ih,and_assoc]

theorem tokens_of_at (h : At m.d q ids c) : c.seq.tokens = q.inputIds ++ ids := by
  rw [h.seq]; rfl

theorem pump_finished (h : c.seq.finished = true) (fuel : Nat) (prefill : Bool) :
    m.pump k fuel prefill c = c := by
  cases fuel with
  | zero => rfl
  | succ fuel => rw [pump,if_pos h]

theorem pump_one_succ (h : c.seq.finished = false) (fuel : Nat) (prefill : Bool) :
    m.pump 1 (fuel+1) prefill c =
      m.pump 1 fuel false (c.token m.d.tokenizer (m.next c.seq.tokens)) := by
  rw [pump,if_neg (by simp [h]),pumpOnce,if_pos (.inl (Nat.le_refl 1))]

theorem pump_one_flag (fuel : Nat) (prefill : Bool) (c : Served) :
    m.pump 1 fuel prefill c = m.pump 1 fuel false c := by
  cases fuel with
  | zero => rfl
  | succ fuel =>
    cases hf : c.seq.finished with
    | true => rw [pump_finished hf,pump_finished hf]
    | false => rw [pump_one_succ hf,pump_one_succ hf]

theorem pump_one_goes (ho : Open q) (h : At m.d q ids c) (hg : GoesAll m.d q ids toks)
    (ht : m.Greedy (q.inputIds ++ ids) toks) (fuel : Nat) :
    ∃ c', At m.d q (ids ++ toks) c' ∧
      m.pump 1 (toks.length+fuel) false c = m.pump 1 fuel false c' := by
  induction toks generalizing ids c with
  | nil => exact ⟨c,by simpa using h,by simp⟩
  | cons t toks ih =>
    have hlive : c.seq.finished = false := by rw [h.seq]; exact ho.live
    obtain ⟨hnext,hrest⟩ := ht
    rw [List.append_assoc] at hrest
    obtain ⟨c',h',hp⟩ := ih (h.go_token ho hg.1) hg.2 hrest
    refine ⟨c',by simpa using h',?_⟩
    rw [List.length_cons,show toks.length+1+fuel = toks.length+fuel+1 by omega,
      pump_one_succ hlive,tokens_of_at h,← hnext,hp]

theorem burstTokens_spec (h : At m.d q ids c) :
    m.burstTokens k c.seq ≠ [] ∧ m.Greedy (q.inputIds ++ ids) (m.burstTokens k c.seq) := by
  refine ⟨by simp [burstTokens],?_⟩
  rw [← tokens_of_at h]
  exact ⟨rfl,greedy_decodeBurst _ _ _⟩

/-- A run of fitting bursts has the outcome of the run step by step. -/
theorem pump_fits (ho : Open q) (hk : 1 < k)
    (heos : ∀ t, q.ignoreEos = false → m.eos = some t → t ∈ q.stopTokenIds) (fuel : Nat) :
    ∀ (fuel' : Nat) (ids : List Token) (c c' : Served), At m.d q ids c → At m.d q ids c' →
      ids.length < q.maxTokens → q.maxTokens ≤ ids.length+fuel → q.maxTokens ≤ ids.length+fuel' →
      m.Fits k q fuel false c →
      ∃ o, (m.pump k fuel false c).outcome = some o ∧ (m.pump 1 fuel' false c').outcome = some o := by
  induction fuel with
  | zero => intros; omega
  | succ fuel ih =>
    intro fuel' ids c c' h h' hlt hfuel hfuel' hfits
    have hlive : c.seq.finished = false := by rw [h.seq]; exact ho.live
    obtain ⟨hburst,hrest⟩ := hfits hlive
    obtain ⟨hne,hgreedy⟩ := burstTokens_spec (k := k) h
    have hpump : m.pump k (fuel+1) false c =
        m.pump k fuel false (c.burst m.d.tokenizer m.eos (m.burstTokens k c.seq)) := by
      rw [pump,if_neg (by simp [hlive]),pumpOnce,if_neg (by simp; omega)]
    have hstep : m.pumpOnce k false c = c.burst m.d.tokenizer m.eos (m.burstTokens k c.seq) := by
      rw [pumpOnce,if_neg (by simp; omega)]
    have hids : c.seq.outputIds = ids := by rw [h.seq]
    rw [hstep] at hrest
    rw [hpump]
    generalize m.burstTokens k c.seq = toks at hburst hne hgreedy hrest ⊢
    have hpos := List.length_pos_iff.mpr hne
    rcases (hids ▸ hburst rfl).sound ho heos hne h with
      ⟨hg,hon⟩ | ⟨p,t,post,kept,reason,rfl,hg,hend,hplain⟩
    · obtain ⟨hlimit,_⟩ := hg.last hne
      rw [List.length_append] at hlimit
      obtain ⟨n,rfl⟩ := Nat.exists_eq_add_of_le (show toks.length ≤ fuel' by omega)
      obtain ⟨c₁,h₁,hp⟩ := pump_one_goes ho h' hg hgreedy n
      rw [hp]
      exact ih n (ids ++ toks) _ c₁ hon h₁ (by simpa using hlimit) (by simp; omega)
        (by simp; omega) hrest
    · have hroom : (ids ++ p).length < q.maxTokens := by
        by_cases hp : p = []
        · simpa [hp] using hlt
        · exact (hg.last hp).1
      rw [List.length_append] at hroom
      obtain ⟨n,rfl⟩ := Nat.exists_eq_add_of_le (show p.length+1 ≤ fuel' by omega)
      obtain ⟨hgp,hgt⟩ := (greedy_append _ _).mp hgreedy
      obtain ⟨c₁,h₁,hp⟩ := pump_one_goes ho h' hg hgp (n+1)
      have hlive₁ : c₁.seq.finished = false := by rw [h₁.seq]; exact ho.live
      have hlast := hplain c₁ h₁
      rw [show p.length+1+n = p.length+(n+1) by omega,hp,pump_one_succ hlive₁,tokens_of_at h₁,
        ← List.append_assoc,← hgt.1,pump_finished hlast.finished,pump_finished hend.finished]
      exact ⟨_,hend.outcome,hlast.outcome⟩

theorem first_token (ho : Open q) (h : At m.d q [] c) (t : Token) :
    (∃ kept reason, Ended m.d q kept reason (c.token m.d.tokenizer t)) ∨ Goes m.d q [] t := by
  have hw : ¬ WindowRepeats m.d [] t := fun hr => absurd hr.1 (by simp)
  by_cases hl : 1 < q.maxTokens
  · by_cases ht : t ∈ q.stopTokenIds
    · obtain ⟨e,hr⟩ := applyStopAndLimits_token (d := m.d) [] ho
        (by simpa using hl) ht
      refine .inl ⟨[],.stop,h.finish_token ho hr (fun hk => ?_)⟩
      rw [delta,if_neg (by simp [hk]),h.prev hk,detokenizeDelta_same,List.append_nil]
    · cases hs : stopScan (m.d.decode ([] ++ [t])) q.stopStrings with
      | none => exact .inr ⟨by simpa using hl,ht,hs,fun _ => hw⟩
      | some limit =>
        have hkept := trimTo_concat (d := m.d) (t := t) (by simp) (stopScan_lt hs)
        obtain ⟨e,hr⟩ := applyStopAndLimits_string (d := m.d) ho
          (by simpa using hl) ht hs
        rw [hkept] at hr
        refine .inl ⟨[],.stop,h.finish_token ho hr (fun hk => ?_)⟩
        rw [delta,if_neg (by simp [hk]),h.prev hk,detokenizeDelta_same,List.append_nil]
  · have := ho.limit
    obtain ⟨e,hr⟩ := applyStopAndLimits_length (d := m.d) (t := t) ([] ++ [t])
      ho (by simp; omega)
    refine .inl ⟨_,.length,h.finish_token ho hr (fun hk => ?_)⟩
    rw [delta,if_neg (by simp [hk]),h.prev hk,(detokenizeDelta_next [] t).mpr hw,← m.d.append]

def BurstsFit (m : Solo) (k : Nat) (r : Request) (cached hit : Nat) : Prop :=
  m.Fits k (m.enter r cached hit).seq r.maxTokens
    (decide (0 < Scheduler.remainingPrompt (m.enter r cached hit).seq)) (m.enter r cached hit)

/-- Whatever the prompt, the cache hit, the model and the limits, a run whose
bursts all fit ends with the output, the reason, the usage and the text of the
run with one token a step. -/
theorem burst_refines (m : Solo) (r : Request) (cached hit k : Nat) (hk : 1 < k)
    (hM : 0 < r.maxTokens) (hf : m.BurstsFit k r cached hit) :
    ∃ o, (m.run k r cached hit).outcome = some o ∧ (m.run 1 r cached hit).outcome = some o := by
  have ho : Open (m.enter r cached hit).seq := ⟨rfl,rfl,Nat.pos_iff_ne_zero.mp hM⟩
  have heos : ∀ t, (m.enter r cached hit).seq.ignoreEos = false → m.eos = some t →
      t ∈ (m.enter r cached hit).seq.stopTokenIds := by
    intro t hi he
    have hi : r.ignoreEos = false := hi
    simp [enter,Request.sequence,he,hi]
  have hat : At m.d (m.enter r cached hit).seq [] (m.enter r cached hit) :=
    ⟨rfl,fun _ => by simp [enter],by simp [enter,Served.text]⟩
  have hmax : (m.enter r cached hit).seq.maxTokens = r.maxTokens := rfl
  unfold run
  rw [pump_one_flag]
  cases hpre : decide (0 < Scheduler.remainingPrompt (m.enter r cached hit).seq) with
  | false =>
    rw [BurstsFit,hpre] at hf
    exact pump_fits ho hk heos _ _ [] _ _ hat hat hM (by simp [hmax]) (by simp [hmax]) hf
  | true =>
    rw [BurstsFit,hpre] at hf
    obtain ⟨n,hn⟩ := Nat.exists_eq_succ_of_ne_zero (Nat.pos_iff_ne_zero.mp hM)
    rw [hn] at hf ⊢
    obtain ⟨_,hrest⟩ := hf ho.live
    rw [pumpOnce,if_pos (.inr rfl)] at hrest
    rw [pump_one_succ ho.live,pump,if_neg (by simp [ho.live]),pumpOnce,if_pos (.inr rfl)]
    generalize m.next (m.enter r cached hit).seq.tokens = t at hrest ⊢
    rcases first_token ho hat t with ⟨kept,reason,hend⟩ | hgo
    · rw [pump_finished hend.finished,pump_finished hend.finished]
      exact ⟨_,hend.outcome,hend.outcome⟩
    · have h1 := hat.go_token ho hgo
      exact pump_fits ho hk heos _ _ _ _ _ h1 h1 (by simpa using hgo.limit)
        (by simp [hmax,hn]) (by simp [hmax,hn]) hrest

def letters : Decoder where
  decode := fun ids => ids.flatMap fun t => if t = 3 then [] else if t%2 = 0 then ['e'] else ['o']
  append := fun _ _ => List.flatMap_append
  clean := fun ids h => by
    obtain ⟨t,_,h⟩ := List.mem_flatMap.mp h
    split_ifs at h
    · simp at h
    · simp [replacementChar] at h
    · simp [replacementChar] at h

def counting : Solo := ⟨letters,fun ts => ts.length,some 3,true⟩

def sixTokens : Request := { requestId := "a", inputIds := [0,0,0,0], maxTokens := 6 }

theorem burst_refines_sixTokens :
    counting.BurstsFit 3 sixTokens 0 0 ∧
      ∃ o, (counting.run 3 sixTokens 0 0).outcome = some o ∧
        (counting.run 1 sixTokens 0 0).outcome = some o := by
  have hshort : ∀ (ids : List Token) (t : Token), ids.length < 6 → ¬ WindowRepeats letters ids t :=
    fun ids t h hr => by have := hr.1; omega
  have hfit : counting.BurstsFit 3 sixTokens 0 0 := by
    refine fun _ => ⟨fun h => absurd h (by decide),fun _ => ⟨fun _ => ?_,fun _ => ⟨fun _ => ?_,?_⟩⟩⟩
    · show BurstFits letters (counting.enter sixTokens 0 0).seq [4] [5,6,7]
      refine .on ⟨⟨by decide,by decide,by decide,fun _ => hshort _ _ (by decide)⟩,
        ⟨by decide,by decide,by decide,fun _ => hshort _ _ (by decide)⟩,
        ⟨by decide,by decide,by decide,fun _ => hshort _ _ (by decide)⟩,trivial⟩ ?_
      exact fun _ => by decide
    · show BurstFits letters (counting.enter sixTokens 0 0).seq [4,5,6,7] ([8] ++ [9])
      refine .length ⟨⟨by decide,by decide,by decide,fun _ => hshort _ _ (by decide)⟩,trivial⟩
        (by decide) (fun _ => hshort _ _ (by decide)) ?_ ?_
      · exact fun _ => by decide
      · exact fun _ => .inl (by decide)
    · exact fun h => absurd h (by decide)
  exact ⟨hfit,burst_refines counting sixTokens 0 0 3 (by decide) (by decide) hfit⟩

/-- The burst that ends with the end-of-sequence token sends all text again. -/
theorem endOfSequence_resent :
    (counting.run 4 { requestId := "a", inputIds := [0], maxTokens := 10 } 0 0).outcome ≠
      (counting.run 1 { requestId := "a", inputIds := [0], maxTokens := 10 } 0 0).outcome := by
  decide +kernel

end Run

end Solo

end SglangLite.Text
