import SglangLite.Text.Post

set_option autoImplicit false

namespace SglangLite.Text
open Kv Sched

structure Usage where
  promptTokens : Nat
  completionTokens : Nat
  totalTokens : Nat
  cacheHitTokens : Nat
  deriving DecidableEq, Repr

def usage (q : Sequence) : Usage :=
  ⟨q.inputIds.length,q.outputIds.length,q.inputIds.length+q.outputIds.length,q.cacheHitTokens⟩

/-- The payload of a delta queue. -/
structure Frame where
  text : Text := []
  token : Option Token := none
  finishReason : Option FinishReason := none
  usage : Option Usage := none
  error : Option String := none
  outputIds : Option (List Token) := none
  deriving DecidableEq, Repr

/-- A sequence after `mark_finished`. -/
def finish (q : Sequence) (reason : FinishReason) : Sequence :=
  { q with finished := true, finishReason := some reason, blockTable := [], kvState := false }

def settle (q : Sequence) (p : Post) : Sequence :=
  let q' := { q with outputIds := p.outputIds }
  match p.reason with
  | some reason => finish q' reason
  | none => q'

theorem settle_requestId (q : Sequence) (p : Post) : (settle q p).requestId = q.requestId := by
  unfold settle
  cases p.reason <;> rfl

def Post.frame (p : Post) (q : Sequence) : Frame where
  text := p.text
  token := p.token
  finishReason := if p.finished then q.finishReason else none
  usage := if p.finished then some (Text.usage q) else none
  outputIds := if p.finished then some q.outputIds else none

/-- A request as its client sees it: the sequence, its `_prev_text`, and the
frames put into its delta queue. -/
structure Served where
  seq : Sequence
  prev : Text := []
  frames : List Frame := []
  deriving DecidableEq, Repr

namespace Served

def text (c : Served) : Text := c.frames.flatMap (·.text)

def put (c : Served) (q : Sequence) (p : Post) : Served :=
  ⟨settle q p,p.prevText,c.frames ++ [p.frame (settle q p)]⟩

/-- `update_after_decode` with one token, then the checks and the frame. -/
def token (tk : Tokenizer) (c : Served) (tok : Token) : Served :=
  if c.seq.finished then c
  else
    let q := { c.seq with outputIds := c.seq.outputIds ++ [tok] }
    c.put q (postToken tk q tok c.prev)

def burst (tk : Tokenizer) (eos : Option Token) (c : Served) (toks : List Token) : Served :=
  if c.seq.finished then c
  else
    let q := { c.seq with outputIds := c.seq.outputIds ++ toks }
    c.put q (postBurst tk eos q toks c.prev)

@[simp] theorem text_put (c : Served) (q : Sequence) (p : Post) :
    (c.put q p).text = c.text ++ p.text := by
  simp [put,text,Post.frame]

theorem token_of_finished {tk : Tokenizer} {c : Served} (h : c.seq.finished = true) (tok : Token) :
    c.token tk tok = c := by
  rw [token,if_pos h]

end Served

end SglangLite.Text
