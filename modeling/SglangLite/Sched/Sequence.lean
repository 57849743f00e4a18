import SglangLite.Kv.Tree

set_option autoImplicit false

namespace SglangLite.Sched
open Kv

abbrev RequestId := String
abbrev SeqId := Nat
abbrev Text := List Char

inductive FinishReason where
  | stop
  | length
  | error
  | cancelled
  | timeout
  deriving DecidableEq, Repr

/-- `Sequence`, less its time stamps, its token counters and the sampling
parameters that only the sampler reads; `finish_reason` is `none` for the
empty string. `kvState` and `lastLogits` record whether the attribute is set. -/
structure Sequence where
  requestId : RequestId
  inputIds : List Token
  outputIds : List Token := []
  cachedLen : Nat := 0
  cacheHitTokens : Nat := 0
  blockTable : List BlockId := []
  kvState : Bool := false
  lastLogits : Bool := false
  finished : Bool := false
  finishReason : Option FinishReason := none
  cancelled : Bool := false
  maxTokens : Nat := 128
  greedy : Bool := true
  stopTokenIds : List Token := []
  stopStrings : List Text := []
  ignoreEos : Bool := false
  skipStreamingText : Bool := false
  deriving DecidableEq, Repr

/-- An index outside the heap reads as a sequence that is over. -/
instance : Inhabited Sequence := ⟨{ requestId := "", inputIds := [], finished := true }⟩

def Sequence.tokens (s : Sequence) : List Token := s.inputIds ++ s.outputIds

/-- The part of a pending request that `add_request` and `_admit_pending` put
into the sequence. -/
structure Request where
  requestId : RequestId
  inputIds : List Token
  maxTokens : Nat := 128
  greedy : Bool := true
  stopStrings : List Text := []
  ignoreEos : Bool := false
  skipStreamingText : Bool := false
  deriving DecidableEq, Repr

def Request.sequence (r : Request) (eos : Option Token) : Sequence where
  requestId := r.requestId
  inputIds := r.inputIds
  maxTokens := r.maxTokens
  greedy := r.greedy
  stopTokenIds := match eos with
    | some t => if r.ignoreEos then [] else [t]
    | none => []
  stopStrings := r.stopStrings
  ignoreEos := r.ignoreEos
  skipStreamingText := r.skipStreamingText

end SglangLite.Sched
