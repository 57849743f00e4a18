import Mathlib.Tactic
import SglangLite.Sched.Sequence

set_option autoImplicit false

namespace SglangLite.Text
open Kv Sched

/-- `runner.tokenizer.decode` with special tokens skipped, when a tokenizer is
loaded. -/
structure Tokenizer where
  decode : Option (List Token → Text)

/-- `detokenize`; without a tokenizer, the letters of the stub model. -/
def detokenize (tk : Tokenizer) (ids : List Token) : Text :=
  match tk.decode with
  | some decode => decode ids
  | none => (ids.take 20).map fun t => Char.ofNat (97+(t%26).toNat)

def replacementChar : Char := Char.ofNat 0xfffd

/-- A lone U+FFFD is not streamed. -/
def hold (delta : Text) : Text := if delta = [replacementChar] then [] else delta

/-- The loop of `detokenize_delta` over overlap lengths, longest first: what
follows the longest prefix of `suffix` that `prev` ends with. -/
def overlapTail (prev suffix : Text) : Nat → Option Text
  | 0 => none
  | k+1 => if suffix.take (k+1) <:+ prev then some (suffix.drop (k+1)) else overlapTail prev suffix k

def commonLen : Text → Text → Nat
  | a :: as, b :: bs => if a = b then commonLen as bs+1 else 0
  | _, _ => 0

/-- The full-decode path of `detokenize_delta`. -/
def fullDelta (prev full : Text) : Text :=
  if prev <+: full then hold (full.drop prev.length)
  else if full <+: prev then []
  else if commonLen prev full = 0 ∧ prev ≠ [] then []
  else hold (full.drop (commonLen prev full))

/-- The last twelve tokens, `token_ids[-window:]`. -/
def window (ids : List Token) : List Token := ids.drop (ids.length-12)

def detokenizeDelta (tk : Tokenizer) (ids : List Token) (prev : Text) : Text :=
  if ids = [] then []
  else
    match tk.decode with
    | some decode =>
        if 1 < ids.length ∧ ids.length%16 ≠ 0 then
          let suffix := decode (window ids)
          match overlapTail prev suffix (min prev.length suffix.length) with
          | some delta => hold delta
          | none => if prev = [] then hold suffix else fullDelta prev (detokenize tk ids)
        else fullDelta prev (detokenize tk ids)
    | none => fullDelta prev (detokenize tk ids)

/-- `full.find(s)`. -/
def findText (s : Text) : Text → Option Nat
  | [] => if s = [] then some 0 else none
  | c :: cs => if s <+: c :: cs then some 0 else (findText s cs).map (·+1)

/-- The scan over `stop_strings`: the length of the text kept before the first
listed string that occurs. -/
def stopScan (full : Text) : List Text → Option Nat
  | [] => none
  | s :: ss => if s = [] then stopScan full ss else (findText s full).or (stopScan full ss)

/-- `while output_ids and len(detokenize(output_ids)) > limit: output_ids.pop()`,
with as many rounds as there are tokens. -/
def trimTo (tk : Tokenizer) (limit : Nat) : Nat → List Token → List Token
  | 0, ids => ids
  | n+1, ids =>
      if ids ≠ [] ∧ limit < (detokenize tk ids).length then trimTo tk limit n ids.dropLast else ids

/-- What `_apply_stop_and_limits` decides: the output ids it leaves, the reason
it passed to `mark_finished` if it called it, and its three return values. -/
structure StopResult where
  outputIds : List Token
  reason : Option FinishReason
  finished : Bool
  delta : Text
  emit : Option Token
  deriving DecidableEq, Repr

/-- Finish with `reason` and stream what the kept ids add. -/
def finishWith (tk : Tokenizer) (seq : Sequence) (ids : List Token) (reason : FinishReason)
    (prev : Text) (skipEmit : Option Token) (emit : Text → Option Token) : StopResult :=
  if seq.skipStreamingText then ⟨ids,some reason,true,[],skipEmit⟩
  else
    let delta := detokenizeDelta tk ids prev
    ⟨ids,some reason,true,delta,emit delta⟩

def ifText (tok : Token) (delta : Text) : Option Token := if delta = [] then none else some tok

/-- `_apply_stop_and_limits`, after `tok` has been appended to the output. -/
def applyStopAndLimits (tk : Tokenizer) (seq : Sequence) (tok : Token) (prev : Text) : StopResult :=
  if seq.cancelled then ⟨seq.outputIds,none,true,[],none⟩
  else if seq.maxTokens = 0 then ⟨[],some .length,true,[],none⟩
  else if seq.maxTokens < seq.outputIds.length then
    finishWith tk seq seq.outputIds.dropLast .length prev (some tok) (ifText tok)
  else if seq.maxTokens ≤ seq.outputIds.length then
    finishWith tk seq seq.outputIds .length prev (some tok) (ifText tok)
  else if tok ∈ seq.stopTokenIds then
    let ids := if seq.outputIds.getLast? = some tok then seq.outputIds.dropLast else seq.outputIds
    finishWith tk seq ids .stop prev none (fun _ => none)
  else
    match stopScan (detokenize tk seq.outputIds) seq.stopStrings with
    | some limit =>
        finishWith tk seq (trimTo tk limit seq.outputIds.length seq.outputIds) .stop prev none
          (ifText tok)
    | none =>
        if seq.skipStreamingText then ⟨seq.outputIds,none,false,[],some tok⟩
        else ⟨seq.outputIds,none,false,detokenizeDelta tk seq.outputIds prev,some tok⟩

end SglangLite.Text
