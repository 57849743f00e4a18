import SglangLite.Text.Burst

set_option autoImplicit false

namespace SglangLite.Text
open Kv Sched

structure Concatenative where
  decode : List Token → Text
  append : ∀ xs ys, decode (xs ++ ys) = decode xs ++ decode ys

namespace Concatenative

variable (c : Concatenative)

def tokenizer : Tokenizer := ⟨some c.decode⟩

@[simp] theorem detokenize_tokenizer (ids : List Token) : detokenize c.tokenizer ids = c.decode ids := rfl

@[simp] theorem decode_empty : c.decode [] = [] := by
  have h := congrArg List.length (c.append [] [])
  simp only [List.append_nil,List.length_append] at h
  exact List.eq_nil_of_length_eq_zero (by omega)

theorem decode_mono {xs ys : List Token} (h : xs <+: ys) : c.decode xs <+: c.decode ys := by
  obtain ⟨zs,rfl⟩ := h
  rw [c.append]
  exact List.prefix_append _ _

end Concatenative

section Scan

theorem findText_eq_none {s full : Text} : findText s full = none ↔ ¬ s <:+: full := by
  induction full with
  | nil => by_cases h : s = [] <;> simp [findText,h]
  | cons c cs ih =>
    rw [List.infix_cons_iff,findText]
    by_cases h : s <+: c :: cs
    · simp [h]
    · simp [h,ih]

theorem stopScan_eq_none {full : Text} {ss : List Text} :
    stopScan full ss = none ↔ ∀ s ∈ ss, s ≠ [] → ¬ s <:+: full := by
  induction ss with
  | nil => simp [stopScan]
  | cons s ss ih =>
    by_cases h : s = []
    · simp [stopScan,h,ih]
    · simp [stopScan,h,ih,findText_eq_none]

variable {tk : Tokenizer} {limit : Nat}

theorem prefix_trimTo (n : Nat) (ids : List Token) : trimTo tk limit n ids <+: ids := by
  induction n generalizing ids with
  | zero => exact List.prefix_rfl
  | succ n ih =>
    rw [trimTo]
    split_ifs
    · exact (ih ids.dropLast).trans (List.dropLast_prefix ids)
    · exact List.prefix_rfl

theorem trimTo_short {n : Nat} {ids : List Token} (hn : ids.length ≤ n) :
    trimTo tk limit n ids = [] ∨ (detokenize tk (trimTo tk limit n ids)).length ≤ limit := by
  induction n generalizing ids with
  | zero => exact .inl (List.eq_nil_of_length_eq_zero (Nat.le_zero.mp hn))
  | succ n ih =>
    rw [trimTo]
    split_ifs with h
    · exact ih (by rw [List.length_dropLast]; omega)
    · by_cases hids : ids = []
      · exact .inl hids
      · exact .inr (Nat.le_of_not_lt fun hlt => h ⟨hids,hlt⟩)

end Scan

section Overlap

variable (c : Concatenative)

/-- `u` is the longest beginning of `w` that `prev` ends with. -/
structure Overlaps (w prev u : Text) : Prop where
  start : u <+: w
  stop : u <:+ prev
  longest : ∀ v, v <+: w → v <:+ prev → v.length ≤ u.length

/-- The windowed path of `detokenize_delta` takes for the new text what is not
the text of the output after `prev`. -/
def Misread (ids : List Token) (prev : Text) : Prop :=
  (1 < ids.length ∧ ids.length%16 ≠ 0) ∧ ∃ u y, c.decode (window ids) = u ++ y ∧
    Overlaps (c.decode (window ids)) prev u ∧ (u ≠ [] ∨ prev = []) ∧
      hold y ≠ hold ((c.decode ids).drop prev.length)

variable {c}

theorem overlaps_take {w prev : Text} {k : Nat} (hk : k ≤ min prev.length w.length)
    (h : w.take k <:+ prev)
    (hall : ∀ j, k < j → j ≤ min prev.length w.length → ¬ w.take j <:+ prev) :
    Overlaps w prev (w.take k) := by
  refine ⟨List.take_prefix _ _,h,fun v hv hs => ?_⟩
  rw [List.length_take,Nat.min_eq_left (by omega)]
  by_contra hlt
  refine hall v.length (Nat.lt_of_not_le hlt) (by have := hv.length_le; have := hs.length_le; omega) ?_
  rwa [← List.prefix_iff_eq_take.mp hv]

theorem Overlaps.eq {w prev u v : Text} (h : Overlaps w prev u) (h' : Overlaps w prev v) : u = v := by
  have hlen : u.length = v.length :=
    Nat.le_antisymm (h'.longest u h.start h.stop) (h.longest v h'.start h'.stop)
  rw [List.prefix_iff_eq_take.mp h.start,List.prefix_iff_eq_take.mp h'.start,hlen]

theorem fullDelta_of_comparable {prev full : Text} (h : prev <+: full ∨ full <+: prev) :
    fullDelta prev full = hold (full.drop prev.length) := by
  unfold fullDelta
  by_cases hp : prev <+: full
  · rw [if_pos hp]
  · have hf := h.resolve_left hp
    rw [if_neg hp,if_pos hf,List.drop_eq_nil_of_le hf.length_le]
    rfl

/-- What `detokenize_delta` returns for a text that goes on from `prev`, or
falls short of it. -/
theorem detokenizeDelta_iff {ids : List Token} {prev : Text}
    (h : prev <+: c.decode ids ∨ c.decode ids <+: prev) :
    detokenizeDelta c.tokenizer ids prev = hold ((c.decode ids).drop prev.length) ↔
      ¬ Misread c ids prev := by
  by_cases hne : ids = []
  · simp [detokenizeDelta,hne,Misread,hold]
  by_cases hw : 1 < ids.length ∧ ids.length%16 ≠ 0
  · have hnone : overlapTail prev (c.decode (window ids)) (min prev.length (c.decode (window ids)).length) = none →
        detokenizeDelta c.tokenizer ids prev =
          if prev = [] then hold (c.decode (window ids)) else fullDelta prev (c.decode ids) := fun hn => by
      simp only [detokenizeDelta,if_neg hne,Concatenative.tokenizer,if_pos hw,hn]
      rfl
    have hsome : ∀ delta,
        overlapTail prev (c.decode (window ids)) (min prev.length (c.decode (window ids)).length) = some delta →
          detokenizeDelta c.tokenizer ids prev = hold delta := fun delta hs => by
      simp only [detokenizeDelta,if_neg hne,Concatenative.tokenizer,if_pos hw,hs]
    rcases overlapTail_spec prev (c.decode (window ids))
      (min prev.length (c.decode (window ids)).length) with ⟨hn,hall⟩ | ⟨k,hk,hkn,hs,he,hall⟩
    · have hov := @overlaps_take _ prev 0 (Nat.zero_le _) (by simp) hall
      rw [List.take_zero] at hov
      rw [hnone hn]
      by_cases hprev : prev = []
      · rw [if_pos hprev]
        constructor
        · rintro he ⟨_,u,y,hy,hu,_,hd⟩
          obtain rfl := hu.eq hov
          exact hd (by rw [← he,hy]; rfl)
        · intro hm
          by_contra hd
          exact hm ⟨hw,[],_,rfl,hov,.inr hprev,hd⟩
      · rw [if_neg hprev]
        refine iff_of_true (fullDelta_of_comparable h) ?_
        rintro ⟨_,u,y,_,hu,hne,_⟩
        obtain rfl := hu.eq hov
        exact hne.elim (fun h => h rfl) hprev
    · have hov := overlaps_take hkn hs hall
      rw [hsome _ he]
      constructor
      · rintro hd ⟨_,u,y,hy,hu,_,hx⟩
        obtain rfl := hu.eq hov
        have hcut := (List.take_append_drop k (c.decode (window ids))).trans hy
        exact hx (by rw [← List.append_cancel_left hcut,hd])
      · intro hm
        by_contra hd
        refine hm ⟨hw,_,_,(List.take_append_drop k _).symm,hov,.inl ?_,hd⟩
        intro hnil
        have := congrArg List.length hnil
        rw [List.length_take,List.length_nil] at this
        omega
  · refine iff_of_true ?_ fun hm => hw hm.1
    simp only [detokenizeDelta,if_neg hne,Concatenative.tokenizer,if_neg hw]
    exact fullDelta_of_comparable h

theorem not_misread_of_short {ids : List Token} {prev : Text} (h : ids.length ≤ 12)
    (hp : prev <+: c.decode ids) : ¬ Misread c ids prev := by
  rintro ⟨_,u,y,hy,hu,_,hne⟩
  rw [window_of_short h] at hy hu
  have hle := hu.longest prev hp List.suffix_rfl
  obtain rfl : u = prev := hu.stop.eq_of_length_le hle
  exact hne (by rw [hy,List.drop_left])

end Overlap

section Shown

variable (c : Concatenative)

/-- What a client should have received when the tokens have been streamed one
by one: their text, less a lone U+FFFD that is held back. -/
def shown (ids : List Token) : Text :=
  (ids.foldl (fun (s : List Token × Text) t =>
    (s.1 ++ [t],s.2 ++ hold ((c.decode (s.1 ++ [t])).drop s.2.length))) ([],[])).2

variable {c}

theorem shown_concat (ids : List Token) (t : Token) : shown c (ids ++ [t]) =
    shown c ids ++ hold ((c.decode (ids ++ [t])).drop (shown c ids).length) := by
  have hfst : ∀ ids : List Token, (ids.foldl (fun (s : List Token × Text) t =>
      (s.1 ++ [t],s.2 ++ hold ((c.decode (s.1 ++ [t])).drop s.2.length))) ([],[])).1 = ids := by
    intro ids
    induction ids using List.reverseRecOn with
    | nil => rfl
    | append_singleton ids t ih => rw [List.foldl_concat,ih]
  rw [shown,List.foldl_concat,hfst]
  rfl

theorem hold_cases (delta : Text) : hold delta = delta ∨ hold delta = [] ∧ delta = [replacementChar] := by
  unfold hold
  split_ifs with h
  · exact .inr ⟨rfl,h⟩
  · exact .inl rfl

theorem prefix_of_hold (delta : Text) : hold delta <+: delta := by
  rcases hold_cases delta with h | ⟨h,_⟩ <;> rw [h]
  exact List.nil_prefix

theorem prefix_of_append_hold {prev full : Text} (h : prev <+: full) :
    prev ++ hold (full.drop prev.length) <+: full := by
  obtain ⟨rest,rfl⟩ := h
  rw [List.drop_left]
  exact (List.prefix_append_right_inj prev).mpr (prefix_of_hold rest)

theorem prefix_of_shown (ids : List Token) : shown c ids <+: c.decode ids := by
  induction ids using List.reverseRecOn with
  | nil => exact List.nil_prefix
  | append_singleton ids t ih =>
    rw [shown_concat]
    exact prefix_of_append_hold (ih.trans (c.decode_mono (List.prefix_append _ _)))

end Shown

section Verdict

/-- What the checks make of one more token: the output that is left, and the
reason if the request is over. -/
inductive Verdict (tk : Tokenizer) (q : Sequence) (pre : List Token) (t : Token) :
    List Token → Option FinishReason → Prop where
  | none (h : q.maxTokens = 0) : Verdict tk q pre t [] (some .length)
  | length (h : pre.length+1 = q.maxTokens) : Verdict tk q pre t (pre ++ [t]) (some .length)
  | token (hl : pre.length+1 < q.maxTokens) (ht : t ∈ q.stopTokenIds) :
      Verdict tk q pre t pre (some .stop)
  | string {limit : Nat} (hl : pre.length+1 < q.maxTokens) (ht : t ∉ q.stopTokenIds)
      (hs : stopScan (detokenize tk (pre ++ [t])) q.stopStrings = some limit) :
      Verdict tk q pre t (trimTo tk limit (pre ++ [t]).length (pre ++ [t])) (some .stop)
  | go (hl : pre.length+1 < q.maxTokens) (ht : t ∉ q.stopTokenIds)
      (hs : stopScan (detokenize tk (pre ++ [t])) q.stopStrings = none) :
      Verdict tk q pre t (pre ++ [t]) none

variable {tk : Tokenizer} {q : Sequence} {pre : List Token} {t : Token} {prev : Text}

theorem applyStopAndLimits_verdict (hc : q.cancelled = false)
    (hroom : pre.length < q.maxTokens ∨ q.maxTokens = 0) (prev : Text) :
    ∃ kept reason e, Verdict tk q pre t kept reason ∧
      applyStopAndLimits tk { q with outputIds := pre ++ [t] } t prev =
        ⟨kept,reason,reason.isSome,fresh tk q kept prev,e⟩ := by
  have hlen : (pre ++ [t]).length = pre.length+1 := by simp
  unfold applyStopAndLimits
  simp only [hc,hlen,Bool.false_eq_true,if_false]
  by_cases h0 : q.maxTokens = 0
  · rw [if_pos h0]
    exact ⟨[],_,_,.none h0,by simp [fresh,detokenizeDelta]; rfl⟩
  have hle := hroom.resolve_right h0
  rw [if_neg h0,if_neg (by omega)]
  by_cases h1 : q.maxTokens ≤ pre.length+1
  · rw [if_pos h1]
    obtain ⟨e,he⟩ := @finishWith_fresh tk { q with outputIds := pre ++ [t] } prev (pre ++ [t]) .length
      (some t) (ifText t)
    exact ⟨_,_,e,.length (by omega),he⟩
  rw [if_neg h1]
  by_cases h2 : t ∈ q.stopTokenIds
  · rw [if_pos h2,if_pos (by simp),List.dropLast_concat]
    obtain ⟨e,he⟩ := @finishWith_fresh tk { q with outputIds := pre ++ [t] } prev pre .stop none
      (fun _ => none)
    exact ⟨_,_,e,.token (by omega) h2,he⟩
  rw [if_neg h2]
  cases hs : stopScan (detokenize tk (pre ++ [t])) q.stopStrings with
  | some limit =>
    obtain ⟨e,he⟩ := @finishWith_fresh tk { q with outputIds := pre ++ [t] } prev
      (trimTo tk limit (pre ++ [t]).length (pre ++ [t])) .stop none (ifText t)
    rw [hlen] at he
    refine ⟨_,_,e,.string (by omega) h2 hs,?_⟩
    rw [hlen]
    exact he
  | none =>
    refine ⟨_,none,some t,.go (by omega) h2 hs,?_⟩
    simp only [fresh]
    split_ifs <;> rfl

end Verdict

section Run

variable {tk : Tokenizer} {q : Sequence} {pre : List Token} {t : Token} {c : Served}

def asked (r : Request) (stops : List Token) : Sequence := { r.sequence none with stopTokenIds := stops }

def OverAt (tk : Tokenizer) (q : Sequence) (pre : List Token) (t : Token) : Prop :=
  (serve tk q pre).seq.finished = false ∧ (serve tk q (pre ++ [t])).seq.finished = true

def Stops (tk : Tokenizer) (q : Sequence) (pre : List Token) (t : Token) : Prop :=
  t ∈ q.stopTokenIds ∨ ∃ s ∈ q.stopStrings, s ≠ [] ∧ s <:+: detokenize tk (pre ++ [t])

def Unstopped (q : Sequence) (text : Text) : Prop := ∀ s ∈ q.stopStrings, s ≠ [] → ¬ s <:+: text

theorem Unstopped.mono {a b : Text} (h : Unstopped q b) (hp : a <+: b) : Unstopped q a :=
  fun s hs hne hi => h s hs hne (hi.trans hp.isInfix)

theorem unstopped_nil : Unstopped q [] := fun _ _ hne hi => hne (List.infix_nil.mp hi)

theorem not_stops (h : ¬ Stops tk q pre t) :
    t ∉ q.stopTokenIds ∧ Unstopped q (detokenize tk (pre ++ [t])) :=
  ⟨fun ht => h (.inl ht),fun s hs hne hi => h (.inr ⟨s,hs,hne,hi⟩)⟩

structure Going (tk : Tokenizer) (q : Sequence) (pre : List Token) (c : Served) : Prop where
  seq : c.seq = { q with outputIds := pre }
  room : pre.length < q.maxTokens ∨ q.maxTokens = 0
  tokens : ∀ x ∈ pre, x ∉ q.stopTokenIds
  strings : Unstopped q (detokenize tk pre)

theorem serve_concat (tk : Tokenizer) (q : Sequence) (pre : List Token) (t : Token) :
    serve tk q (pre ++ [t]) = (serve tk q pre).token tk t := by
  simp [serve]

theorem Going.token_eq (h : Going tk q pre c) (hf : q.finished = false) (hc : q.cancelled = false) :
    ∃ kept reason p, Verdict tk q pre t kept reason ∧
      c.token tk t = c.put { q with outputIds := pre ++ [t] } p ∧ p.outputIds = kept ∧
      p.reason = reason ∧
      (p.text = if q.skipStreamingText then if reason.isSome then detokenize tk kept else []
        else detokenizeDelta tk kept c.prev) ∧
      (q.skipStreamingText = false → reason = none → p.prevText = c.prev ++ p.text) := by
  obtain ⟨kept,reason,e,hv,he⟩ := applyStopAndLimits_verdict (t := t) hc h.room c.prev
  have hlive : ¬ c.seq.finished = true := by rw [h.seq]; simp [hf]
  refine ⟨kept,reason,_,hv,by rw [Served.token,if_neg hlive,h.seq],?_⟩
  unfold postToken
  simp only [he,fresh]
  by_cases hk : q.skipStreamingText = true
  · cases reason <;> simp [hk]
  · cases reason with
    | some reason => simp [hk]
    | none =>
      refine ⟨by simp [hk],by simp [hk],by simp [hk],fun _ _ => ?_⟩
      by_cases hd : detokenizeDelta tk kept c.prev = [] <;> simp [hk,hd]

/-- No stop condition leaks: neither the output nor the text that the client
has received holds one, and the reason tells of the one at the last token. -/
structure Sealed (tk : Tokenizer) (q : Sequence) (pre : List Token) (t : Token) (c : Served) : Prop where
  tokens : ∀ x ∈ c.seq.outputIds, x ∉ q.stopTokenIds
  output : Unstopped q (detokenize tk c.seq.outputIds)
  streamed : Unstopped q c.text
  reason : Stops tk q pre t → c.seq.finishReason = some .stop

structure Streams (d : Concatenative) (q : Sequence) (pre : List Token) (t : Token) : Prop where
  steps : ∀ ids x, ids ++ [x] <+: pre → ¬ Misread d (ids ++ [x]) (shown d ids)
  last : ∀ kept reason, Verdict d.tokenizer q pre t kept (some reason) → ¬ Misread d kept (shown d pre)

variable {d : Concatenative} {r : Request} {stops : List Token}

theorem serve_going (pre : List Token)
    (h : (serve d.tokenizer (asked r stops) pre).seq.finished = false) :
    Going d.tokenizer (asked r stops) pre (serve d.tokenizer (asked r stops) pre) := by
  induction pre using List.reverseRecOn with
  | nil => exact ⟨rfl,(Nat.eq_zero_or_pos _).symm,by simp,by simpa using unstopped_nil⟩
  | append_singleton pre t ih =>
    rw [serve_concat] at h ⊢
    cases hf : (serve d.tokenizer (asked r stops) pre).seq.finished with
    | true =>
      rw [Served.token_of_finished hf,hf] at h
      cases h
    | false =>
      obtain ⟨kept,reason,p,hv,hp,hkept,hreason,_⟩ := (ih hf).token_eq (t := t) rfl rfl
      rw [hp] at h ⊢
      cases hv with
      | go hl ht hs =>
        refine ⟨by simp [Served.put,settle,hreason,hkept],.inl (by simpa using hl),?_,
          stopScan_eq_none.mp hs⟩
        intro x hx
        rcases List.mem_append.mp hx with hx | hx
        · exact (ih hf).tokens x hx
        · rw [List.mem_singleton.mp hx]
          exact ht
      | none | length | token | string => simp [Served.put,settle,hreason,finish] at h

theorem serve_shown {pre : List Token}
    (h : (serve d.tokenizer (asked r stops) pre).seq.finished = false)
    (hs : r.skipStreamingText = false →
      ∀ ids x, ids ++ [x] <+: pre → ¬ Misread d (ids ++ [x]) (shown d ids)) :
    (r.skipStreamingText = true → (serve d.tokenizer (asked r stops) pre).text = []) ∧
      (r.skipStreamingText = false → (serve d.tokenizer (asked r stops) pre).text = shown d pre ∧
        (serve d.tokenizer (asked r stops) pre).prev = shown d pre) := by
  induction pre using List.reverseRecOn with
  | nil => exact ⟨fun _ => rfl,fun _ => ⟨rfl,rfl⟩⟩
  | append_singleton pre t ih =>
    rw [serve_concat] at h ⊢
    cases hf : (serve d.tokenizer (asked r stops) pre).seq.finished with
    | true =>
      rw [Served.token_of_finished hf,hf] at h
      cases h
    | false =>
      obtain ⟨hskip,hshown⟩ := ih hf fun hk ids x hp => hs hk ids x (hp.trans (List.prefix_append _ _))
      obtain ⟨kept,reason,p,hv,hp,hkept,hreason,htext,hprev⟩ := (serve_going pre hf).token_eq (t := t) rfl rfl
      rw [hp] at h ⊢
      rw [Served.text_put]
      cases hv with
      | go hl ht hx =>
        refine ⟨fun hk => ?_,fun hk => ?_⟩
        · have hk' : (asked r stops).skipStreamingText = true := hk
          rw [htext,hskip hk,if_pos hk']
          rfl
        · have hk' : (asked r stops).skipStreamingText = false := hk
          obtain ⟨ht',hp'⟩ := hshown hk
          have hdelta := (detokenizeDelta_iff (.inl ((prefix_of_shown (c := d) pre).trans
            (d.decode_mono (List.prefix_append pre [t]))))).mpr (hs hk pre t List.prefix_rfl)
          have hall : p.text = hold ((d.decode (pre ++ [t])).drop (shown d pre).length) := by
            rw [htext,if_neg (by simp [hk']),hp',hdelta]
          refine ⟨by rw [ht',hall,shown_concat],?_⟩
          show p.prevText = _
          rw [hprev hk' rfl,hp',hall,shown_concat]
      | none | length | token | string => simp [Served.put,settle,hreason,finish] at h

theorem mem_unstopped {ids : List Token} (h : ∀ x ∈ ids, x ∉ q.stopTokenIds) (ht : t ∉ q.stopTokenIds) :
    ∀ x ∈ ids ++ [t], x ∉ q.stopTokenIds := by
  intro x hx
  rcases List.mem_append.mp hx with hx | hx
  · exact h x hx
  · rw [List.mem_singleton.mp hx]
    exact ht

theorem Going.kept {kept : List Token} {reason : FinishReason} (h : Going d.tokenizer q pre c)
    (hv : Verdict d.tokenizer q pre t kept (some reason))
    (hb : Stops d.tokenizer q pre t → pre.length+1 < q.maxTokens) :
    (∀ x ∈ kept, x ∉ q.stopTokenIds) ∧ Unstopped q (d.decode kept) ∧
      (Stops d.tokenizer q pre t → reason = .stop) := by
  cases hv with
  | none h0 => exact ⟨by simp,by simpa using unstopped_nil,fun hs => absurd (hb hs) (by omega)⟩
  | length hl =>
    have hs : ¬ Stops d.tokenizer q pre t := fun hs => absurd (hb hs) (by omega)
    exact ⟨mem_unstopped h.tokens (not_stops hs).1,(not_stops hs).2,fun hs' => absurd hs' hs⟩
  | token hl ht => exact ⟨h.tokens,h.strings,fun _ => rfl⟩
  | @string limit hl ht hs =>
    have hp : trimTo d.tokenizer limit (pre ++ [t]).length (pre ++ [t]) <+: pre ++ [t] := prefix_trimTo _ _
    refine ⟨fun x hx => mem_unstopped h.tokens ht x (hp.subset hx),?_,fun _ => rfl⟩
    -- the text that is left ends before the stop string, so it is text of the tokens before the last
    rcases List.prefix_concat_iff.mp hp with heq | hpre
    · rcases @trimTo_short d.tokenizer limit _ (pre ++ [t]) (Nat.le_refl _) with hn | hle
      · rw [hn]
        simpa using unstopped_nil
      · have hlt := stopScan_lt hs
        rw [heq] at hle
        omega
    · exact h.strings.mono (d.decode_mono hpre)

theorem streamed_text {kept : List Token} (hp : kept <+: pre ++ [t])
    (hm : ¬ Misread d kept (shown d pre)) :
    shown d pre ++ detokenizeDelta d.tokenizer kept (shown d pre) <+: d.decode pre ∨
      shown d pre ++ detokenizeDelta d.tokenizer kept (shown d pre) <+: d.decode kept := by
  have hshown := (prefix_of_shown (c := d) pre).trans (d.decode_mono (List.prefix_append pre [t]))
  have hcases := List.prefix_or_prefix_of_prefix hshown (d.decode_mono hp)
  rw [(detokenizeDelta_iff hcases).mpr hm]
  rcases hcases with hc | hc
  · exact .inr (prefix_of_append_hold hc)
  · rw [List.drop_eq_nil_of_le hc.length_le]
    exact .inl (by simpa [hold] using prefix_of_shown pre)

/-- Nothing that `detokenize_delta` may misread can bring a stop string into
the text of the frames. -/
def Legible (d : Concatenative) (q : Sequence) (pre : List Token) (t : Token) : Prop :=
  (∀ s ∈ q.stopStrings, s = []) ∨ q.skipStreamingText = true ∨ Streams d q pre t

/-- For every tokenizer that decodes token by token, every request and every
token stream that ends it: no stop condition leaks only if the last token is
none at the limit, and this is enough when the text is streamed legibly. -/
theorem stop_conditions_sealed (d : Concatenative) (r : Request) (stops : List Token)
    (pre : List Token) (t : Token) (h : OverAt d.tokenizer (asked r stops) pre t) :
    (Sealed d.tokenizer (asked r stops) pre t (serve d.tokenizer (asked r stops) (pre ++ [t])) →
      Stops d.tokenizer (asked r stops) pre t → pre.length+1 < r.maxTokens) ∧
    (Legible d (asked r stops) pre t →
      (Stops d.tokenizer (asked r stops) pre t → pre.length+1 < r.maxTokens) →
      Sealed d.tokenizer (asked r stops) pre t (serve d.tokenizer (asked r stops) (pre ++ [t]))) := by
  obtain ⟨hf,hfin⟩ := h
  have hgo := serve_going pre hf
  obtain ⟨kept,o,p,hv,hp,hkept,hreason,htext,_⟩ := hgo.token_eq (t := t) rfl rfl
  rw [serve_concat,hp] at hfin ⊢
  obtain ⟨reason,rfl⟩ : ∃ reason, o = some reason := by
    cases o with
    | some reason => exact ⟨reason,rfl⟩
    | none =>
      have hlive : (asked r stops).finished = false := rfl
      simp [Served.put,settle,hreason,hlive] at hfin
  have hids : ((serve d.tokenizer (asked r stops) pre).put
      { asked r stops with outputIds := pre ++ [t] } p).seq.outputIds = kept := by
    simp [Served.put,settle,hreason,finish,hkept]
  have hwhy : ((serve d.tokenizer (asked r stops) pre).put
      { asked r stops with outputIds := pre ++ [t] } p).seq.finishReason = some reason := by
    simp [Served.put,settle,hreason,finish]
  have hlimit : (asked r stops).maxTokens = r.maxTokens := rfl
  refine ⟨fun hseal hs => ?_,fun hleg hb => ?_⟩
  · have hstop := hseal.reason hs
    rw [hwhy] at hstop
    cases hv with
    | none | length => cases hstop
    | token hl | string hl => exact hl
  · obtain ⟨htok,hout,hst⟩ := hgo.kept hv hb
    refine ⟨by rwa [hids],by rwa [hids],?_,fun hs => by rw [hwhy,hst hs]⟩
    rw [Served.text_put,htext]
    have hskipped : (asked r stops).skipStreamingText = true → Unstopped (asked r stops)
        ((serve d.tokenizer (asked r stops) pre).text ++ d.decode kept) := by
      intro hk
      rw [(serve_shown hf fun hk' => absurd hk (by simp [hk',asked,Request.sequence])).1 hk]
      exact hout
    rcases hleg with hn | hk | hstream
    · exact fun s hs hne => absurd (hn s hs) hne
    · rw [if_pos hk]
      exact hskipped hk
    · by_cases hk : (asked r stops).skipStreamingText = true
      · rw [if_pos hk]
        exact hskipped hk
      · obtain ⟨ht,hprev⟩ := (serve_shown hf fun _ => hstream.steps).2
          (by simpa [asked,Request.sequence] using hk)
        rw [if_neg hk,ht,hprev]
        have hpre : kept <+: pre ++ [t] := by
          cases hv with
          | none => exact List.nil_prefix
          | length => exact List.prefix_rfl
          | token => exact List.prefix_append _ _
          | string => exact prefix_trimTo _ _
        rcases streamed_text hpre (hstream.last kept reason hv) with hx | hx
        · exact hgo.strings.mono hx
        · exact hout.mono hx

def alphabet : Concatenative where
  decode := fun ids => ids.map fun t => Char.ofNat (97+(t%26).toNat)
  append := fun _ _ => List.map_append

def upTo (n : Nat) (stop : String) : Request :=
  { requestId := "a", inputIds := [1], maxTokens := n, stopStrings := [stop.toList] }

theorem stop_conditions_sealed_string :
    Sealed alphabet.tokenizer (asked (upTo 4 "bc") [7]) [0,1] 2
      (serve alphabet.tokenizer (asked (upTo 4 "bc") [7]) [0,1,2]) := by
  refine (stop_conditions_sealed alphabet (upTo 4 "bc") [7] [0,1] 2 ⟨by decide,by decide⟩).2
    (.inr (.inr ⟨fun ids x hp => ?_,fun kept reason hv => ?_⟩)) (fun _ => by decide)
  · have hlen := hp.length_le
    exact not_misread_of_short (hlen.trans (by decide)) ((prefix_of_shown ids).trans
      (alphabet.decode_mono (List.prefix_append ids [x])))
  · cases hv with
    | none h0 => exact absurd h0 (by decide)
    | length hl => exact absurd hl (by decide)
    | token hl ht => exact absurd ht (by decide)
    | @string limit hl ht hs =>
      have hscan : stopScan (detokenize alphabet.tokenizer ([0,1] ++ [2]))
          (asked (upTo 4 "bc") [7]).stopStrings = some 1 := by
        decide
      obtain rfl : limit = 1 := Option.some.inj (hs.symm.trans hscan)
      exact fun hm => absurd hm.1.1 (by decide)

/-- With one token left, the stop token stays in the output and the request
ends for its length. -/
theorem stop_token_at_limit :
    OverAt alphabet.tokenizer (asked (upTo 1 "bc") [7]) [] 7 ∧
      ¬ Sealed alphabet.tokenizer (asked (upTo 1 "bc") [7]) [] 7
        (serve alphabet.tokenizer (asked (upTo 1 "bc") [7]) [7]) :=
  ⟨⟨by decide,by decide⟩,fun h => absurd (h.tokens 7 (by decide)) (by decide)⟩

/-- The output is cut back to `vx`, the end of `vxzv` is taken for its
beginning, and the `x` that is sent after it completes the stop string. -/
theorem stop_string_resent :
    OverAt alphabet.tokenizer (asked (upTo 9 "zvx") []) [21,23,25,21] 23 ∧
      ¬ Unstopped (asked (upTo 9 "zvx") [])
        (serve alphabet.tokenizer (asked (upTo 9 "zvx") []) [21,23,25,21,23]).text :=
  ⟨⟨by decide,by decide⟩,fun h => h "zvx".toList (by decide) (by decide)
    ⟨['v','x'],[],by decide⟩⟩

end Run

end SglangLite.Text
