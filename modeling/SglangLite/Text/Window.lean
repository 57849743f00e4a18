import SglangLite.Text.Stream

set_option autoImplicit false

namespace SglangLite.Text
open Kv Sched

/-- A tokenizer whose decoding is concatenative and has no U+FFFD. -/
structure Decoder where
  decode : List Token → Text
  append : ∀ xs ys, decode (xs ++ ys) = decode xs ++ decode ys
  clean : ∀ xs, replacementChar ∉ decode xs

namespace Decoder

variable (d : Decoder)

def tokenizer : Tokenizer := ⟨some d.decode⟩

@[simp] theorem detokenize_eq (ids : List Token) : detokenize d.tokenizer ids = d.decode ids := rfl

@[simp] theorem decode_nil : d.decode [] = [] := by
  have h := congrArg List.length (d.append [] [])
  simp only [List.append_nil,List.length_append] at h
  exact List.eq_nil_of_length_eq_zero (by omega)

theorem hold_of_mem {d : Decoder} {s : Text} {xs : List Token} (h : s ⊆ d.decode xs) :
    hold s = s := by
  unfold hold
  split_ifs with hs
  · exact absurd (h (by simp [hs])) (d.clean xs)
  · rfl

end Decoder

section Window

variable (d : Decoder)

/-- The text of the eleven tokens before the last one, which the window of
`detokenize_delta` shares with the text streamed so far. -/
def shared (pre : List Token) : Text := d.decode (pre.drop (pre.length-11))

/-- The windowed path takes a part of the new token's text for text that has
been streamed already. -/
def WindowRepeats (pre : List Token) (t : Token) : Prop :=
  12 ≤ pre.length ∧ (pre.length+1)%16 ≠ 0 ∧
    ∃ u, u ≠ [] ∧ u <+: d.decode [t] ∧ shared d pre ++ u <:+ d.decode pre

variable {d}

theorem decode_window (pre : List Token) (t : Token) (h : 12 ≤ pre.length) :
    d.decode (window (pre ++ [t])) = shared d pre ++ d.decode [t] := by
  rw [shared,← d.append]
  congr 1
  unfold window
  rw [List.length_append,List.length_singleton,List.drop_append_of_le_length (by omega)]
  congr 2

theorem window_of_short {ids : List Token} (h : ids.length ≤ 12) : window ids = ids := by
  rw [window,show ids.length-12 = 0 by omega,List.drop_zero]

theorem decode_window_suffix (ids : List Token) : d.decode (window ids) <:+ d.decode ids := by
  refine ⟨d.decode (ids.take (ids.length-12)),?_⟩
  rw [← d.append,window,List.take_append_drop]

theorem shared_suffix (pre : List Token) : shared d pre <:+ d.decode pre := by
  refine ⟨d.decode (pre.take (pre.length-11)),?_⟩
  rw [shared,← d.append,List.take_append_drop]

theorem overlapTail_spec (prev suffix : Text) (n : Nat) :
    (overlapTail prev suffix n = none ∧ ∀ k, 0 < k → k ≤ n → ¬ suffix.take k <:+ prev) ∨
      ∃ k, 0 < k ∧ k ≤ n ∧ suffix.take k <:+ prev ∧
        overlapTail prev suffix n = some (suffix.drop k) ∧
          ∀ j, k < j → j ≤ n → ¬ suffix.take j <:+ prev := by
  induction n with
  | zero => exact .inl ⟨rfl,fun k h0 h1 => by omega⟩
  | succ n ih =>
    simp only [overlapTail]
    by_cases h : suffix.take (n+1) <:+ prev
    · exact .inr ⟨n+1,by omega,Nat.le_refl _,h,by rw [if_pos h],fun j h0 h1 => by omega⟩
    · rw [if_neg h]
      rcases ih with ⟨hn,hall⟩ | ⟨k,hk,hkn,hs,he,hall⟩
      · refine .inl ⟨hn,fun k h0 h1 => ?_⟩
        rcases Nat.lt_or_eq_of_le h1 with h1 | rfl
        · exact hall k h0 (by omega)
        · exact h
      · refine .inr ⟨k,hk,by omega,hs,he,fun j h0 h1 => ?_⟩
        rcases Nat.lt_or_eq_of_le h1 with h1 | rfl
        · exact hall j h0 (by omega)
        · exact h

theorem fullDelta_append {prev u : Text} {ids : List Token} (h : d.decode ids = prev ++ u) :
    fullDelta prev (d.decode ids) = u := by
  rw [fullDelta,if_pos (h ▸ List.prefix_append prev u),h,List.drop_left]
  exact Decoder.hold_of_mem (by rw [h]; exact List.subset_append_right _ _)

theorem detokenizeDelta_full {ids : List Token} {prev u : Text} (hne : ids ≠ [])
    (hw : ¬ (1 < ids.length ∧ ids.length%16 ≠ 0)) (h : d.decode ids = prev ++ u) :
    detokenizeDelta d.tokenizer ids prev = u := by
  simp only [detokenizeDelta,if_neg hne,Decoder.tokenizer,if_neg hw]
  exact fullDelta_append h

theorem detokenizeDelta_window {ids : List Token} {prev : Text} (hne : ids ≠ [])
    (hw : 1 < ids.length ∧ ids.length%16 ≠ 0) :
    detokenizeDelta d.tokenizer ids prev =
      match overlapTail prev (d.decode (window ids))
          (min prev.length (d.decode (window ids)).length) with
      | some delta => hold delta
      | none => if prev = [] then hold (d.decode (window ids)) else fullDelta prev (d.decode ids) := by
  simp only [detokenizeDelta,if_neg hne,Decoder.tokenizer,if_pos hw]
  rfl

theorem hold_drop (ids : List Token) (k : Nat) :
    hold ((d.decode ids).drop k) = (d.decode ids).drop k :=
  Decoder.hold_of_mem (List.drop_subset k _)

theorem detokenizeDelta_same (ids : List Token) :
    detokenizeDelta d.tokenizer ids (d.decode ids) = [] := by
  by_cases hne : ids = []
  · simp [detokenizeDelta,hne]
  by_cases hw : 1 < ids.length ∧ ids.length%16 ≠ 0
  · rw [detokenizeDelta_window hne hw]
    have hsuf := decode_window_suffix (d := d) ids
    have hmin : min (d.decode ids).length (d.decode (window ids)).length =
        (d.decode (window ids)).length := Nat.min_eq_right hsuf.length_le
    rw [hmin]
    rcases overlapTail_spec (d.decode ids) (d.decode (window ids))
      (d.decode (window ids)).length with ⟨hn,hall⟩ | ⟨k,hk,hkn,hs,he,hall⟩
    · have hnil : d.decode (window ids) = [] := by
        by_contra hno
        refine hall (d.decode (window ids)).length (List.length_pos_iff.mpr hno) (Nat.le_refl _) ?_
        rw [List.take_length]
        exact hsuf
      rw [hn]
      simp only [hnil]
      rw [fullDelta_append (List.append_nil _).symm]
      split_ifs <;> rfl
    · have hfull : k = (d.decode (window ids)).length := by
        by_contra hlt
        refine hall _ (by omega) (Nat.le_refl _) ?_
        rw [List.take_length]
        exact hsuf
      rw [he]
      simp only [hfull,List.drop_length]
      rfl
  · exact detokenizeDelta_full hne hw (List.append_nil _).symm

theorem detokenizeDelta_short {pre : List Token} {t : Token} (h : pre.length < 12) :
    detokenizeDelta d.tokenizer (pre ++ [t]) (d.decode pre) = d.decode [t] := by
  by_cases hw : 1 < (pre ++ [t]).length ∧ (pre ++ [t]).length%16 ≠ 0
  · rw [detokenizeDelta_window (by simp) hw,window_of_short (by simp; omega),d.append]
    have hmin : min (d.decode pre).length (d.decode pre ++ d.decode [t]).length =
        (d.decode pre).length := by simp
    rw [hmin]
    rcases overlapTail_spec (d.decode pre) (d.decode pre ++ d.decode [t])
      (d.decode pre).length with ⟨hn,hall⟩ | ⟨k,hk,hkn,hs,he,hall⟩
    · have hnil : d.decode pre = [] := by
        by_contra hno
        refine hall _ (List.length_pos_iff.mpr hno) (Nat.le_refl _) ?_
        rw [List.take_left]
      rw [hn]
      simp only [hnil,List.nil_append,if_true]
      exact hold_drop [t] 0
    · have hfull : k = (d.decode pre).length := by
        by_contra hlt
        refine hall _ (by omega) (Nat.le_refl _) ?_
        rw [List.take_left]
      rw [he]
      simp only [hfull,List.drop_left]
      exact hold_drop [t] 0
  · exact detokenizeDelta_full (by simp) hw (d.append pre [t])

theorem not_repeats_of_overlap {pre : List Token} {t : Token} {n : Nat}
    (hn : n = min (d.decode pre).length (shared d pre ++ d.decode [t]).length)
    (hall : ∀ j, (shared d pre).length < j → j ≤ n →
      ¬ (shared d pre ++ d.decode [t]).take j <:+ d.decode pre) : ¬ WindowRepeats d pre t := by
  rintro ⟨_,_,u,hu,⟨v,hv⟩,hs⟩
  have hpos := List.length_pos_iff.mpr hu
  have hle := hs.length_le
  have hlen : u.length ≤ (d.decode [t]).length := by rw [← hv]; simp
  simp only [List.length_append] at hle hn
  refine hall ((shared d pre).length+u.length) (by omega) (by omega) ?_
  rwa [List.take_length_add_append,← hv,List.take_left]

/-- With more than twelve tokens the delta is right exactly when the overlap
stops at the text of the eleven tokens before. -/
theorem detokenizeDelta_long {pre : List Token} {t : Token} (h : 12 ≤ pre.length)
    (hm : (pre.length+1)%16 ≠ 0) :
    detokenizeDelta d.tokenizer (pre ++ [t]) (d.decode pre) = d.decode [t] ↔
      ¬ WindowRepeats d pre t := by
  rw [detokenizeDelta_window (by simp) ⟨by simp; omega,by simpa using hm⟩,decode_window pre t h]
  generalize hn : min (d.decode pre).length (shared d pre ++ d.decode [t]).length = n
  have hshared := shared_suffix (d := d) pre
  have hle : (shared d pre).length ≤ n := by
    have := hshared.length_le
    rw [← hn,List.length_append]
    omega
  rcases overlapTail_spec (d.decode pre) (shared d pre ++ d.decode [t]) n
    with ⟨hnone,hall⟩ | ⟨k,hk,hkn,hs,he,hall⟩
  · have hnil : shared d pre = [] := by
      by_contra hno
      refine hall _ (List.length_pos_iff.mpr hno) hle ?_
      rw [List.take_left]
      exact hshared
    rw [hnone]
    refine iff_of_true ?_ (not_repeats_of_overlap hn.symm fun j hj hjn => hall j (by omega) hjn)
    simp only [hnil,List.nil_append]
    rw [fullDelta_append (d.append pre [t])]
    split_ifs
    · exact hold_drop [t] 0
    · rfl
  · have hge : (shared d pre).length ≤ k := by
      by_contra hlt
      refine hall _ (by omega) hle ?_
      rw [List.take_left]
      exact hshared
    rw [he]
    have hdrop : (shared d pre ++ d.decode [t]).drop k =
        (d.decode [t]).drop (k-(shared d pre).length) := by
      rw [List.drop_append,List.drop_eq_nil_of_le hge,List.nil_append]
    simp only [hdrop,hold_drop]
    rcases Nat.lt_or_eq_of_le hge with hlt | heq
    · -- the loop went past the shared text, into the text of the new token
      have hkl : k ≤ (shared d pre).length+(d.decode [t]).length := by
        rw [← List.length_append]
        omega
      refine iff_of_false (fun hd => ?_) (not_not.mpr ⟨h,hm,(d.decode [t]).take
        (k-(shared d pre).length),?_,List.take_prefix _ _,?_⟩)
      · have := congrArg List.length hd
        rw [List.length_drop] at this
        omega
      · intro hnil
        have := congrArg List.length hnil
        simp only [List.length_take,List.length_nil] at this
        omega
      · rwa [← List.take_length_add_append,Nat.add_sub_cancel' hge]
    · subst heq
      refine iff_of_true (by rw [Nat.sub_self,List.drop_zero]) ?_
      exact not_repeats_of_overlap hn.symm hall

theorem detokenizeDelta_next (pre : List Token) (t : Token) :
    detokenizeDelta d.tokenizer (pre ++ [t]) (d.decode pre) = d.decode [t] ↔
      ¬ WindowRepeats d pre t := by
  by_cases h : 12 ≤ pre.length
  · by_cases hm : (pre.length+1)%16 = 0
    · refine iff_of_true ?_ (fun hr => hr.2.1 hm)
      exact detokenizeDelta_full (by simp) (fun hw => hw.2 (by simpa using hm)) (d.append pre [t])
    · exact detokenizeDelta_long h hm
  · exact iff_of_true (detokenizeDelta_short (by omega)) (fun hr => h hr.1)

end Window

section Stream

variable {d : Decoder} {eos : Option Token} {r : Request} {stream : Nat → Token}

def streaming (r : Request) (maxTokens : Nat) : Request :=
  { r with maxTokens := maxTokens, stopStrings := [], skipStreamingText := false }

def firstTokens (stream : Nat → Token) (n : Nat) : List Token := (List.range n).map stream

/-- Serve a token stream one token a step. The request is over after
`max_tokens` tokens, and a finished request takes no more. -/
def serve (tk : Tokenizer) (q : Sequence) (toks : List Token) : Served :=
  toks.foldl (Served.token tk) { seq := q }

def served (d : Decoder) (eos : Option Token) (r : Request) (stream : Nat → Token) (n M : Nat) :
    Served :=
  serve d.tokenizer ((streaming r M).sequence eos) (firstTokens stream n)

/-- The frames of a request end with one that has the final output, and their
text is the text of that output. -/
def TextExact (tk : Tokenizer) (c : Served) : Prop :=
  ∃ f ids, c.frames.getLast? = some f ∧ f.outputIds = some ids ∧ c.text = detokenize tk ids

theorem firstTokens_succ (stream : Nat → Token) (n : Nat) :
    firstTokens stream (n+1) = firstTokens stream n ++ [stream n] := by
  simp [firstTokens,List.range_succ]

@[simp] theorem length_firstTokens (n : Nat) : (firstTokens stream n).length = n := by
  simp [firstTokens]

theorem served_succ (n M : Nat) :
    served d eos r stream (n+1) M = (served d eos r stream n M).token d.tokenizer (stream n) := by
  simp [served,serve,firstTokens_succ]

theorem served_of_finished {n m M : Nat} (h : n ≤ m)
    (hf : (served d eos r stream n M).seq.finished = true) :
    served d eos r stream m M = served d eos r stream n M := by
  induction m,h using Nat.le_induction with
  | base => rfl
  | succ m _ ih =>
    rw [served_succ,ih]
    exact Served.token_of_finished hf _

structure Exact (d : Decoder) (q : Sequence) (ids : List Token) (c : Served) : Prop where
  seq : c.seq = { q with outputIds := ids }
  prev : c.prev = d.decode ids
  text : c.text = d.decode ids

section Token

variable {q : Sequence} {ids : List Token} {t : Token} {c : Served}

structure Open (q : Sequence) : Prop where
  live : q.finished = false
  uncancelled : q.cancelled = false
  limit : q.maxTokens ≠ 0

structure Plain (q : Sequence) : Prop extends Open q where
  stops : q.stopStrings = []
  streams : q.skipStreamingText = false

theorem Exact.token_eq (h : Exact d q ids c) (hq : Plain q) :
    c.token d.tokenizer t = c.put { q with outputIds := ids ++ [t] }
      (postToken d.tokenizer { q with outputIds := ids ++ [t] } t (d.decode ids)) := by
  have hlive : c.seq.finished = false := by rw [h.seq]; exact hq.live
  rw [Served.token,if_neg (by simp [hlive]),h.seq,h.prev]

theorem Exact.at_limit (h : Exact d q ids c) (hq : Plain q) (hl : ids.length+1 = q.maxTokens) :
    (c.token d.tokenizer t).text =
        d.decode ids ++ detokenizeDelta d.tokenizer (ids ++ [t]) (d.decode ids) ∧
      ∃ f, (c.token d.tokenizer t).frames.getLast? = some f ∧ f.outputIds = some (ids ++ [t]) := by
  have hpost : postToken d.tokenizer { q with outputIds := ids ++ [t] } t (d.decode ids) =
      let delta := detokenizeDelta d.tokenizer (ids ++ [t]) (d.decode ids)
      ⟨ids ++ [t],some .length,true,delta,ifText t delta,
        if delta ≠ [] then d.decode ids ++ delta else d.decode (ids ++ [t])⟩ := by
    simp [postToken,applyStopAndLimits,finishWith,hq.uncancelled,hq.streams,← hl]
  rw [h.token_eq hq,hpost]
  refine ⟨by simp [h.text],_,List.getLast?_concat,rfl⟩

theorem Exact.at_stop (h : Exact d q ids c) (hq : Plain q) (hl : ids.length+1 < q.maxTokens)
    (ht : t ∈ q.stopTokenIds) : (c.token d.tokenizer t).seq.finished = true ∧
      TextExact d.tokenizer (c.token d.tokenizer t) := by
  have hpost : postToken d.tokenizer { q with outputIds := ids ++ [t] } t (d.decode ids) =
      ⟨ids,some .stop,true,[],none,d.decode ids⟩ := by
    simp [postToken,applyStopAndLimits,finishWith,hq.uncancelled,hq.limit,hq.streams,ht,
      show ¬ q.maxTokens < ids.length+1 by omega,show ¬ q.maxTokens ≤ ids.length+1 by omega,
      detokenizeDelta_same]
  rw [h.token_eq hq,hpost]
  exact ⟨rfl,_,ids,List.getLast?_concat,rfl,by simp [h.text]⟩

theorem Exact.next (h : Exact d q ids c) (hq : Plain q) (hl : ids.length+1 < q.maxTokens)
    (ht : t ∉ q.stopTokenIds) (hd : ¬ WindowRepeats d ids t) :
    Exact d q (ids ++ [t]) (c.token d.tokenizer t) := by
  have hpost : postToken d.tokenizer { q with outputIds := ids ++ [t] } t (d.decode ids) =
      ⟨ids ++ [t],none,false,d.decode [t],some t,
        if d.decode [t] ≠ [] then d.decode ids ++ d.decode [t] else d.decode ids⟩ := by
    simp [postToken,applyStopAndLimits,hq.uncancelled,hq.limit,hq.streams,ht,hq.stops,stopScan,
      show ¬ q.maxTokens < ids.length+1 by omega,show ¬ q.maxTokens ≤ ids.length+1 by omega,
      (detokenizeDelta_next ids t).mpr hd]
  rw [h.token_eq hq,hpost]
  refine ⟨rfl,?_,by simp [h.text,d.append]⟩
  simp only [Served.put,d.append]
  split_ifs with hn
  · rfl
  · rw [not_not.mp hn,List.append_nil]

end Token

theorem plain_streaming {M : Nat} (hM : 0 < M) : Plain ((streaming r M).sequence eos) :=
  ⟨⟨rfl,rfl,by simp [streaming,Request.sequence]; omega⟩,rfl,rfl⟩

theorem exact_served {n M : Nat} (hn : n < M)
    (hstop : ∀ i, i < n → stream i ∉ (r.sequence eos).stopTokenIds)
    (hrep : ∀ i, i < n → ¬ WindowRepeats d (firstTokens stream i) (stream i)) :
    Exact d ((streaming r M).sequence eos) (firstTokens stream n) (served d eos r stream n M) := by
  induction n with
  | zero => exact ⟨rfl,by simp [served,serve,firstTokens],by simp [served,serve,firstTokens,Served.text]⟩
  | succ n ih =>
    have ih := ih (by omega) (fun i hi => hstop i (by omega)) (fun i hi => hrep i (by omega))
    rw [served_succ,firstTokens_succ]
    refine ih.next (plain_streaming (by omega)) ?_ (hstop n (by omega)) (hrep n (by omega))
    simpa [streaming,Request.sequence] using hn

theorem textExact_last {n : Nat}
    (h : Exact d ((streaming r (n+1)).sequence eos) (firstTokens stream n)
      (served d eos r stream n (n+1))) :
    TextExact d.tokenizer (served d eos r stream (n+1) (n+1)) ↔
      ¬ WindowRepeats d (firstTokens stream n) (stream n) := by
  obtain ⟨ht,f,hf,hids⟩ := h.at_limit (t := stream n) (plain_streaming (by omega))
    (by simp [streaming,Request.sequence])
  rw [← detokenizeDelta_next,served_succ]
  constructor
  · rintro ⟨g,ids,hg,hids',htext⟩
    obtain rfl := Option.some.inj (hf.symm.trans hg)
    obtain rfl := Option.some.inj (hids.symm.trans hids')
    rw [ht,Decoder.detokenize_eq,d.append] at htext
    exact List.append_cancel_left htext
  · intro hd
    exact ⟨f,_,hf,hids,by rw [ht,hd,Decoder.detokenize_eq,d.append]⟩

/-- Without a limit the first token ends the request, with no output and no text. -/
theorem textExact_unlimited : TextExact d.tokenizer (served d eos r stream 1 0) := by
  have hpost : postToken d.tokenizer { (streaming r 0).sequence eos with outputIds := [stream 0] } (stream 0) [] =
      ⟨[],some .length,true,[],none,[]⟩ := by
    simp [postToken,applyStopAndLimits,streaming,Request.sequence]
  have hrun : served d eos r stream 1 0 =
      Served.put { seq := (streaming r 0).sequence eos }
        { (streaming r 0).sequence eos with outputIds := [stream 0] } ⟨[],some .length,true,[],none,[]⟩ := by
    rw [← hpost]
    rfl
  rw [hrun]
  refine ⟨_,[],List.getLast?_concat,rfl,?_⟩
  rw [Served.text_put,Decoder.detokenize_eq,Decoder.decode_nil]
  rfl

/-- For every tokenizer that decodes token by token and every token stream, the
streamed text is the text of the final output for every token limit up to `N`,
exactly when no window of the first `N` tokens repeats itself in the text
before it. -/
theorem streamed_text_iff (d : Decoder) (eos : Option Token) (r : Request) (stream : Nat → Token)
    (N : Nat) :
    (∀ M ≤ N, TextExact d.tokenizer (served d eos r stream (max 1 M) M)) ↔
      ∀ n, n < N → (∀ i, i < n → stream i ∉ (r.sequence eos).stopTokenIds) →
        ¬ WindowRepeats d (firstTokens stream n) (stream n) := by
  constructor
  · intro h n
    induction n using Nat.strongRecOn with
    | ind n ih =>
      intro hn hstop
      have hrep : ∀ i, i < n → ¬ WindowRepeats d (firstTokens stream i) (stream i) :=
        fun i hi => ih i hi (by omega) (fun j hj => hstop j (by omega))
      have htext := h (n+1) (by omega)
      rw [Nat.max_eq_right (Nat.succ_pos n)] at htext
      exact (textExact_last (exact_served (by omega) hstop hrep)).mp htext
  · intro h M hN
    rcases Nat.eq_zero_or_pos M with rfl | hM
    · exact textExact_unlimited
    rw [Nat.max_eq_right hM]
    by_cases hs : ∃ i, i+1 < M ∧ stream i ∈ (r.sequence eos).stopTokenIds
    · -- the first stop token ends the request
      obtain ⟨hlt,hmem⟩ := Nat.find_spec hs
      have hfirst : ∀ i, i < Nat.find hs → stream i ∉ (r.sequence eos).stopTokenIds :=
        fun i hi hm => Nat.find_min hs hi ⟨by omega,hm⟩
      have hex := exact_served (d := d) (M := M) (by omega) hfirst
        (fun i hi => h i (by omega) fun j hj => hfirst j (by omega))
      obtain ⟨hfin,htext⟩ := hex.at_stop (plain_streaming hM)
        (by simpa [streaming,Request.sequence] using hlt) hmem
      rw [← served_succ] at hfin htext
      rw [served_of_finished (Nat.le_of_lt hlt) hfin]
      exact htext
    · obtain ⟨n,rfl⟩ := Nat.exists_eq_succ_of_ne_zero (Nat.pos_iff_ne_zero.mp hM)
      have hstop : ∀ i, i < n → stream i ∉ (r.sequence eos).stopTokenIds :=
        fun i hi hm => hs ⟨i,by omega,hm⟩
      exact (textExact_last (exact_served (by omega) hstop
        fun i hi => h i (by omega) fun j hj => hstop j (by omega))).mpr (h n (by omega) hstop)

def letterA : Decoder where
  decode := fun ids => ids.map fun _ => 'a'
  append := fun _ _ => List.map_append
  clean := fun ids h => by
    obtain ⟨_,_,h⟩ := List.mem_map.mp h
    exact absurd h (by decide)

/-- Thirteen equal letters: the window of the last twelve is taken for text
that has been streamed, and the client gets twelve. -/
theorem thirteen_letters_lost :
    ¬ TextExact letterA.tokenizer
      (served letterA none { requestId := "a", inputIds := [1] } (fun _ => 5) 13 13) := by
  rintro ⟨f,ids,hf,hids,ht⟩
  have hrun : ((served letterA none { requestId := "a", inputIds := [1] } (fun _ => 5) 13 13).frames.getLast?.bind
      (·.outputIds)) = some (List.replicate 13 5) ∧
      (served letterA none { requestId := "a", inputIds := [1] } (fun _ => 5) 13 13).text =
        List.replicate 12 'a' := by
    decide +kernel
  rw [hf] at hrun
  obtain rfl := Option.some.inj (hids.symm.trans hrun.1)
  rw [hrun.2] at ht
  exact absurd ht (by decide)

end Stream

end SglangLite.Text
