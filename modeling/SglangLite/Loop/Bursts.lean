import SglangLite.Loop.Engine
import SglangLite.Kv.Ownership
import SglangLite.Hybrid.PrefixCache

set_option autoImplicit false

namespace SglangLite.Loop
open Kv Sched Hybrid

structure Step (R : Type) where
  runner : R
  cachedLen : Nat
  forwards : List Forward
  token : Except Fault Token

/-- What `run_decode_burst` and the prefix match of `_admit_pending` use of the
runner. `restore` is `_v4_ensure_restored`, `stage` is
`_v4_stage_pages_before_forward`, `greedyStep` is a forward of a greedy loop with
the page allocation before it and the argmax after it. -/
structure Hands (R V : Type) where
  cache : CacheConfig
  hybrid : Bool
  eos : Option Token
  usePagedAsSource : Bool
  supportsPagedAttention : Bool
  radix : R → RadixCache V
  matched : R → SeqId → RadixCache V → RadixCache.Match → R
  entries : R → List V4PrefixEntry
  attach : R → SeqId → V4PrefixEntry → R × Except Fault Unit
  kvState : R → SeqId → Bool
  lastLogits : R → SeqId → Option Token
  restore : R → SeqId → R × Option Fault
  stage : R → SeqId → R × Option Fault
  decodeOne : R → SeqId → Sequence → Step R
  greedyStep : R → SeqId → Sequence → Step R

/-- A running burst; `out` are the tokens it has appended to the output. -/
structure Bursting (R : Type) where
  runner : R
  seq : Sequence
  out : List Token := []
  forwards : List Forward := []

namespace Bursting

variable {R : Type} (s : Bursting R)

def append (toks : List Token) : Bursting R :=
  { s with seq := { s.seq with outputIds := s.seq.outputIds ++ toks }, out := s.out ++ toks }

def step (f : R → SeqId → Sequence → Step R) (i : SeqId) : Bursting R × Except Fault Token :=
  let r := f s.runner i s.seq
  ({ s with
      runner := r.runner
      seq := { s.seq with cachedLen := r.cachedLen }
      forwards := s.forwards ++ r.forwards },r.token)

def call (f : R → SeqId → R × Option Fault) (i : SeqId) : Bursting R × Option Fault :=
  let r := f s.runner i
  ({ s with runner := r.1 },r.2)

/-- The loops that append every token when they have it. -/
def appendLoop (f : R → SeqId → Sequence → Step R) (i : SeqId) (stop : Token → Bool) :
    Nat → Bursting R → Bursting R × Option Fault
  | 0, s => (s,none)
  | n+1, s =>
      match s.step f i with
      | (s,.error e) => (s,some e)
      | (s,.ok tok) =>
          if stop tok then (s.append [tok],none) else appendLoop f i stop n (s.append [tok])

/-- The loops that keep the tokens on the device and append them at the end. -/
def ringLoop (f : R → SeqId → Sequence → Step R) (i : SeqId) :
    Nat → List Token → Bursting R → Bursting R × Option Fault
  | 0, ring, s => (s.append ring,none)
  | n+1, ring, s =>
      match s.step f i with
      | (s,.error e) => (s,some e)
      | (s,.ok tok) => ringLoop f i n (ring ++ [tok]) s

end Bursting

namespace Hands

variable {R V : Type} (h : Hands R V)

def usePagedAttention : Bool := !h.hybrid && h.usePagedAsSource && h.supportsPagedAttention

/-- A first token that the prefill has left in `last_logits`: the steps that
remain, and whether the burst is over. -/
def firstToken (i : SeqId) (n : Nat) (s : Bursting R) : Bursting R × Nat × Bool :=
  match s.seq.outputIds, h.lastLogits s.runner i with
  | [], some tok =>
      let s' := { s with seq := { s.seq with cachedLen := s.seq.inputIds.length } }.append [tok]
      (s',n-1,n-1 == 0 || (!s.seq.ignoreEos && h.eos == some tok))
  | _, _ => (s,n,false)

def decodeBurstV4Greedy (i : SeqId) (n : Nat) (s : Bursting R) : Bursting R × Option Fault :=
  let first := if s.seq.outputIds = [] ∧ (h.lastLogits s.runner i).isSome then s.call h.restore i
    else (s,none)
  match first with
  | (s,some e) => (s,some e)
  | (s,none) =>
      match h.firstToken i n s with
      | (s,_,true) => (s,none)
      | (s,n,false) =>
          match s.call h.restore i with
          | (s,some e) => (s,some e)
          | (s,none) =>
              match s.call h.stage i with
              | (s,some e) => (s,some e)
              | (s,none) =>
                  if s.seq.ignoreEos || h.eos == none then Bursting.ringLoop h.greedyStep i n [] s
                  else Bursting.appendLoop h.greedyStep i (fun tok => h.eos == some tok) n s

def decodeBurstHfGreedy (i : SeqId) (n : Nat) (s : Bursting R) : Bursting R × Option Fault :=
  match h.firstToken i n s with
  | (s,_,true) => (s,none)
  | (s,n,false) =>
      Bursting.appendLoop h.greedyStep i (fun tok => !s.seq.ignoreEos && h.eos == some tok) n s

def decodeBurstPagedGreedy (i : SeqId) (n : Nat) (s : Bursting R) : Bursting R × Option Fault :=
  match h.firstToken i n s with
  | (s,_,true) => (s,none)
  | (s,n,false) =>
      if s.seq.ignoreEos then Bursting.ringLoop h.greedyStep i n [] s
      else Bursting.appendLoop h.greedyStep i (fun tok => h.eos == some tok) n s

/-- The loop of `run_decode_burst` over `_decode_one`, which takes no notice of
`ignore_eos`. -/
def decodeBurstGeneric (i : SeqId) (n : Nat) (s : Bursting R) : Bursting R × Option Fault :=
  if s.seq.finished then (s,none)
  else Bursting.appendLoop h.decodeOne i (fun tok => h.eos == some tok) n s

def runDecodeBurst (r : R) (sched : Scheduler) (i : SeqId) (n : Nat) : Ran R (List Token) :=
  let s : Bursting R := ⟨r,sched.seq i,[],[]⟩
  let (s,fault) :=
    if n = 0 then (s,none)
    else if h.hybrid && s.seq.greedy then h.decodeBurstV4Greedy i n s
    else if !h.hybrid && !h.usePagedAsSource && !h.usePagedAttention && s.seq.greedy && h.kvState r i
      then h.decodeBurstHfGreedy i n s
    else if !h.hybrid && h.usePagedAttention && s.seq.greedy then h.decodeBurstPagedGreedy i n s
    else h.decodeBurstGeneric i n s
  { runner := s.runner
    cached := fun _ => s.seq.cachedLen
    forwards := s.forwards
    result := match fault with
      | none => .ok s.out
      | some e => .error e
    appended := s.out }

/-- The prefix match of `add_request`, and of `_admit_pending` for a V4 model. -/
def admitMatch (r : R) (i : SeqId) (q : Request) : R × Except Fault (Nat × Nat) :=
  let (c,m) := (h.radix r).matchPrefix h.cache q.inputIds
  let r' := h.matched r i c m
  if h.hybrid then
    match matchEntry (h.entries r') q.inputIds with
    | some en =>
        match h.attach r' i en with
        | (r',.ok ()) => (r',.ok (en.tokenIds.length,en.tokenIds.length))
        | (r',.error e) => (r',.error e)
    | none => (r',.ok (0,0))
  else (r',.ok (m.len,if m.blockIds = [] then 0 else m.len))

def backend (b : Backend R) : Backend R :=
  { b with
    hybrid := h.hybrid
    eos := h.eos
    matchPrefix := h.admitMatch
    decodeBurst := h.runDecodeBurst }

end Hands

/-- A burst appends at most as many tokens as it was asked for, and fewer when
it raises; a hit is no longer than the prompt. -/
structure Frugal {R : Type} (b : Backend R) : Prop where
  burst : ∀ r sched i n toks, (b.decodeBurst r sched i n).result = .ok toks → toks.length ≤ n
  fault : ∀ r sched i n e, (b.decodeBurst r sched i n).result = .error e →
    (b.decodeBurst r sched i n).appended.length < n
  hit : ∀ r i q c k, (b.matchPrefix r i q).2 = .ok (c,k) → k ≤ q.inputIds.length

namespace Bursting

variable {R : Type} {s s' : Bursting R} {fault : Option Fault}

def Within (n : Nat) (s : Bursting R) (r : Bursting R × Option Fault) : Prop :=
  r.1.out.length ≤ s.out.length+n ∧ (r.2 ≠ none → r.1.out.length < s.out.length+n)

theorem Within.of_same {n : Nat} {e : Option Fault} (h : s'.out = s.out) (hn : e ≠ none → 0 < n) :
    Within n s (s',e) := by
  refine ⟨by simp [h],fun he => ?_⟩
  have := hn he
  simp only [h]
  omega

theorem Within.shift {n k : Nat} {r : Bursting R × Option Fault} (h : Within n s' r)
    (hs : s'.out.length ≤ s.out.length+k) : Within (n+k) s r :=
  ⟨by have := h.1; omega,fun he => by have := h.2 he; omega⟩

variable (f : R → SeqId → Sequence → Step R) (i : SeqId)

theorem appendLoop_within (stop : Token → Bool) (n : Nat) (s : Bursting R) :
    Within n s (appendLoop f i stop n s) := by
  induction n generalizing s with
  | zero => exact .of_same rfl (fun h => absurd rfl h)
  | succ n ih =>
    rw [appendLoop]
    cases hstep : s.step f i with
    | mk t r =>
      have hout : t.out = s.out := (congrArg (fun x => x.1.out) hstep).symm
      cases r with
      | error e => exact .of_same hout (fun _ => Nat.succ_pos n)
      | ok tok =>
        have hone : (t.append [tok]).out.length ≤ s.out.length+1 := by simp [append,hout]
        simp only
        split_ifs
        · exact ⟨by simp only; omega,fun h => absurd rfl h⟩
        · exact (ih (t.append [tok])).shift hone

theorem ringLoop_within (n : Nat) (ring : List Token) (s : Bursting R) :
    (ringLoop f i n ring s).1.out.length ≤ s.out.length+ring.length+n ∧
      ((ringLoop f i n ring s).2 ≠ none → (ringLoop f i n ring s).1.out.length < s.out.length+n) := by
  induction n generalizing ring s with
  | zero => simp [ringLoop,append]
  | succ n ih =>
    rw [ringLoop]
    cases hstep : s.step f i with
    | mk t r =>
      have hout : t.out = s.out := (congrArg (fun x => x.1.out) hstep).symm
      cases r with
      | error e => exact ⟨by simp only [hout]; omega,fun _ => by simp only [hout]; omega⟩
      | ok tok =>
        obtain ⟨h1,h2⟩ := ih (ring ++ [tok]) t
        rw [hout,List.length_append,List.length_singleton] at h1
        rw [hout] at h2
        exact ⟨by simp only; omega,fun h => by have := h2 h; simp only; omega⟩

end Bursting

namespace Hands

open Bursting

variable {R V : Type} (h : Hands R V) (i : SeqId)

theorem firstToken_spec {n : Nat} (hn : 0 < n) (s : Bursting R) :
    ∃ k, (h.firstToken i n s).1.out.length ≤ s.out.length+k ∧ (h.firstToken i n s).2.1+k = n ∧
      ((h.firstToken i n s).2.2 = false → 0 < (h.firstToken i n s).2.1) := by
  unfold firstToken
  split
  · refine ⟨1,by simp [append],by simp only; omega,fun hover => ?_⟩
    simp only [Bool.or_eq_false_iff,beq_eq_false_iff_ne,ne_eq] at hover
    simp only
    omega
  · exact ⟨0,by simp,rfl,fun _ => hn⟩

theorem after_first {n : Nat} (hn : 0 < n) (s : Bursting R)
    {rest : Bursting R → Nat → Bursting R × Option Fault}
    (hrest : ∀ t k, 0 < k → Within k t (rest t k)) :
    Within n s (match h.firstToken i n s with
      | (s,_,true) => (s,none)
      | (s,n,false) => rest s n) := by
  obtain ⟨k,hout,hk,hpos⟩ := h.firstToken_spec i hn s
  cases hft : h.firstToken i n s with
  | mk t q =>
    obtain ⟨m,ended⟩ := q
    rw [hft] at hout hk hpos
    simp only at hout hk hpos
    cases ended with
    | true => exact ⟨by simp only; omega,fun he => absurd rfl he⟩
    | false =>
      have := (hrest t m (hpos rfl)).shift hout
      rwa [hk] at this

theorem ring_within {n : Nat} (s : Bursting R) :
    Within n s (ringLoop h.greedyStep i n [] s) := by
  obtain ⟨h1,h2⟩ := ringLoop_within h.greedyStep i n [] s
  exact ⟨by simpa using h1,h2⟩

theorem decodeBurstV4Greedy_within {n : Nat} (hn : 0 < n) (s : Bursting R) :
    Within n s (h.decodeBurstV4Greedy i n s) := by
  have hloops : ∀ (t : Bursting R) k, 0 < k → Within k t
      (match t.call h.restore i with
        | (s,some e) => (s,some e)
        | (s,none) =>
            match s.call h.stage i with
            | (s,some e) => (s,some e)
            | (s,none) =>
                if s.seq.ignoreEos || h.eos == none then ringLoop h.greedyStep i k [] s
                else appendLoop h.greedyStep i (fun tok => h.eos == some tok) k s) := by
    intro t k hk
    cases hres : t.call h.restore i with
    | mk u e =>
      have hu : u.out = t.out := (congrArg (fun x => x.1.out) hres).symm
      cases e with
      | some e => exact .of_same hu (fun _ => hk)
      | none =>
        simp only
        cases hst : u.call h.stage i with
        | mk v e =>
          have hv : v.out = t.out := ((congrArg (fun x => x.1.out) hst).symm).trans hu
          cases e with
          | some e => exact .of_same hv (fun _ => hk)
          | none =>
            simp only
            split_ifs
            · exact (h.ring_within i v).shift (k := 0) (by rw [hv]; omega)
            · exact (appendLoop_within _ i _ k v).shift (k := 0) (by rw [hv]; omega)
  unfold decodeBurstV4Greedy
  simp only
  split
  · rename_i t e hfirst
    have ht : t.out = s.out := by
      split_ifs at hfirst
      · exact (congrArg (fun x => x.1.out) hfirst).symm
      · cases hfirst
    exact .of_same ht (fun _ => hn)
  · rename_i t hfirst
    have ht : t.out = s.out := by
      split_ifs at hfirst
      · exact (congrArg (fun x => x.1.out) hfirst).symm
      · cases hfirst
        rfl
    exact (h.after_first i hn t hloops).shift (k := 0) (by rw [ht]; omega)

theorem decodeBurstHfGreedy_within {n : Nat} (hn : 0 < n) (s : Bursting R) :
    Within n s (h.decodeBurstHfGreedy i n s) :=
  h.after_first i hn s fun _ k _ => appendLoop_within _ i _ k _

theorem decodeBurstPagedGreedy_within {n : Nat} (hn : 0 < n) (s : Bursting R) :
    Within n s (h.decodeBurstPagedGreedy i n s) := by
  refine h.after_first i hn s fun t k _ => ?_
  split_ifs
  · exact h.ring_within i t
  · exact appendLoop_within _ i _ k t

theorem decodeBurstGeneric_within (n : Nat) (s : Bursting R) :
    Within n s (h.decodeBurstGeneric i n s) := by
  unfold decodeBurstGeneric
  split_ifs
  · exact .of_same rfl (fun he => absurd rfl he)
  · exact appendLoop_within _ i _ n s

theorem outcome_of_within {n : Nat} {s : Bursting R} {res : Bursting R × Option Fault}
    (hs : s.out = []) (hw : Within n s res) :
    (∀ toks, (match res.2 with
      | none => Except.ok res.1.out
      | some e => Except.error e) = .ok toks → toks.length ≤ n) ∧
    ∀ e, (match res.2 with
      | none => Except.ok res.1.out
      | some e => Except.error e) = .error e → res.1.out.length < n := by
  obtain ⟨hle,hlt⟩ := hw
  rw [hs,List.length_nil,Nat.zero_add] at hle hlt
  cases hf : res.2 with
  | none =>
    refine ⟨fun toks ht => ?_,fun e he => ?_⟩
    · cases ht
      exact hle
    · cases he
  | some e =>
    refine ⟨fun toks ht => ?_,fun _ _ => hlt (by simp [hf])⟩
    cases ht

theorem runDecodeBurst_spec (r : R) (sched : Scheduler) (n : Nat) :
    (∀ toks, (h.runDecodeBurst r sched i n).result = .ok toks → toks.length ≤ n) ∧
      ∀ e, (h.runDecodeBurst r sched i n).result = .error e →
        (h.runDecodeBurst r sched i n).appended.length < n := by
  have hw : ∀ (c₁ c₂ c₃ : Bool) (s : Bursting R), Within n s (if n = 0 then (s,none)
      else if c₁ then h.decodeBurstV4Greedy i n s else if c₂ then h.decodeBurstHfGreedy i n s
      else if c₃ then h.decodeBurstPagedGreedy i n s else h.decodeBurstGeneric i n s) := by
    intro c₁ c₂ c₃ s
    by_cases h0 : n = 0
    · rw [if_pos h0]
      exact .of_same rfl fun he => absurd rfl he
    · have hn := Nat.pos_of_ne_zero h0
      rw [if_neg h0]
      split_ifs
      · exact h.decodeBurstV4Greedy_within i hn s
      · exact h.decodeBurstHfGreedy_within i hn s
      · exact h.decodeBurstPagedGreedy_within i hn s
      · exact h.decodeBurstGeneric_within i n s
  exact outcome_of_within rfl (hw _ _ _ _)

theorem admitMatch_hit {r : R} {q : Request} {c k : Nat} (hm : (h.admitMatch r i q).2 = .ok (c,k)) :
    k ≤ q.inputIds.length := by
  have hlen : ((h.radix r).matchPrefix h.cache q.inputIds).2.len ≤ q.inputIds.length := by
    have hwalk := (Children.walk_spec {} (h.radix r).tree q.inputIds).1
    unfold RadixCache.matchPrefix
    rw [RadixCache.matchNode_eq_walk]
    simp only
    split_ifs
    · exact hwalk
    · exact Nat.zero_le _
  unfold admitMatch at hm
  simp only at hm
  split_ifs at hm with hh hb
  · split at hm
    · rename_i en hen
      split at hm
      · cases hm
        obtain ⟨_,hp,_⟩ := matchEntry_spec hen
        have := congrArg List.length hp
        rw [List.length_take] at this
        omega
      · cases hm
    · cases hm
      exact Nat.zero_le _
  · cases hm
    exact Nat.zero_le _
  · cases hm
    exact hlen

theorem frugal_backend (b : Backend R) : Frugal (h.backend b) :=
  ⟨fun r sched i n => (h.runDecodeBurst_spec i r sched n).1,
    fun r sched i n => (h.runDecodeBurst_spec i r sched n).2,fun _ i _ _ _ => h.admitMatch_hit i⟩

end Hands

end SglangLite.Loop
